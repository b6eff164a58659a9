import IrJit.Lib.HashChain

/-!
# Lib.OffsetTable — hash tables with the slots before the buckets

A block of memory has the slots, words of 32 bits at negative indexes, and behind them the buckets, which are
addressed by their offsets in bytes.  The slot of a hash value is found by or-ing a negative power of two.  Buckets
are chained through offsets, and `0xffffffff` ends a chain.
-/

namespace IrJit.OffsetTable

/-- The offset of a bucket; its zero is `0xffffffff`. -/
def Offset : Type := ℕ

instance : DecidableEq Offset := inferInstanceAs (DecidableEq ℕ)

instance : Zero Offset := ⟨(0xffffffff : ℕ)⟩

/-- A number of bytes as an offset. -/
def offset (n : ℕ) : Offset := n

/-- The number of bytes. -/
def Offset.toNat (pos : Offset) : ℕ := pos

/-- What a table has in the block, and what its fields say. -/
structure Table (β : Type) where
  slot : ℤ → Offset
  bucket : Offset → β
  next : Offset → Offset
  mask : BitVec 32
  size : ℕ
  count : ℕ
  pos : ℕ

/-- The size of a bucket, its hash value, and how many slots a table of some size has. -/
structure Layout (β : Type) where
  bytes : ℕ
  hash : β → BitVec 32
  hashSize : BitVec 32 → BitVec 32
  bytes_pos : 0 < bytes
  four_dvd : 4 ∣ bytes
  hashSize_pos : ∀ size : BitVec 32, 0 < size.toNat → size.toNat ≤ 2 ^ 31 → 0 < (hashSize size).toNat
  hashSize_le : ∀ size : BitVec 32, 0 < size.toNat → size.toNat ≤ 2 ^ 31 → (hashSize size).toNat ≤ 2 ^ 31

variable {β : Type}

/-- The index of a slot. -/
def index (mask h : BitVec 32) : ℤ := (h ||| mask).toInt

/-- The slots after `memset`. -/
def cleared (hashSize : BitVec 32) (slot : ℤ → Offset) : ℤ → Offset := fun i =>
  if -(hashSize.toNat : ℤ) ≤ i ∧ i < 0 then 0 else slot i

namespace Table

variable (L : Layout β) (T : Table β)

/-- A new table, in whatever `memory` has. -/
def init (memory : Table β) (size : ℕ) : Table β :=
  let hashSize := L.hashSize (BitVec.ofNat 32 size)
  { memory with
    slot := cleared hashSize memory.slot
    mask := -hashSize
    size := size
    count := 0
    pos := 0 }

/-- The loop over the chain of a hash value: the first bucket that passes, or zero. -/
def search (h : BitVec 32) (p : β → Bool) : Option Offset :=
  HashChain.walk T.next (fun pos => p (T.bucket pos)) (T.count + 1) (T.slot (index T.mask h))

/-- A bucket becomes the first one of its chain. -/
def link (pos : Offset) : Table β :=
  let i := index T.mask (L.hash (T.bucket pos))
  { T with
    next := Function.update T.next pos (T.slot i)
    slot := Function.update T.slot i pos }

/-- The loop that links the buckets anew, `i` of them from `pos` on. -/
def relink : ℕ → ℕ → Table β → Table β
  | 0, _, T => T
  | i + 1, pos, T => relink i ((pos + L.bytes) % 2 ^ 32) (T.link L (offset pos))

/-- Twice the size, and the slots for it; there are buckets. -/
def resize : Table β :=
  let size := T.size * 2 % 2 ^ 32
  let hashSize := L.hashSize (BitVec.ofNat 32 size)
  relink L T.count 0
    { T with
      slot := cleared hashSize T.slot
      mask := -hashSize
      size := size }

/-- Room for one more bucket. -/
def grow : Table β := if T.count ≥ T.size then T.resize L else T

/-- A new bucket. -/
def append (x : β) : Table β :=
  ({ T with
      bucket := Function.update T.bucket (offset T.pos) x
      count := T.count + 1
      pos := (T.pos + L.bytes) % 2 ^ 32 } : Table β).link L (offset T.pos)

/-- The buckets as an array. -/
def array : List β := (List.range T.count).map fun j => T.bucket (offset (j * L.bytes))

/-- Other buckets in the places of the array. -/
def setArray (items : List β) : Table β :=
  { T with
    bucket := fun pos =>
      if pos.toNat % L.bytes = 0 then (items[pos.toNat / L.bytes]?).getD (T.bucket pos) else T.bucket pos }

end Table

/-! ## Slots -/

section Slots

variable {L : Layout β} {T : Table β} {mask h : BitVec 32} {i j n : ℕ}

/-- A mask of at most `2 ^ 31` slots. -/
def IsMask (mask : BitVec 32) : Prop := 2 ^ 31 ≤ mask.toNat

theorem mask_le (mask h : BitVec 32) : mask.toNat ≤ (h ||| mask).toNat := by
  rw [BitVec.toNat_or]
  exact Nat.right_le_or

/-- The index of a slot lies before the buckets. -/
theorem index_eq (hm : IsMask mask) (h : BitVec 32) : index mask h = ((h ||| mask).toNat : ℤ) - 2 ^ 32 := by
  have hle := mask_le mask h
  have hm : 2 ^ 31 ≤ mask.toNat := hm
  unfold index
  rw [BitVec.toInt_eq_toNat_cond, if_neg (by omega)]
  rfl

theorem toNat_mask (L : Layout β) {size : BitVec 32} (hpos : 0 < size.toNat) (hle : size.toNat ≤ 2 ^ 31) :
    (-(L.hashSize size)).toNat = 2 ^ 32 - (L.hashSize size).toNat := by
  have h0 := L.hashSize_pos size hpos hle
  rw [BitVec.toNat_neg]
  exact Nat.mod_eq_of_lt (by omega)

theorem isMask (L : Layout β) {size : BitVec 32} (hpos : 0 < size.toNat) (hle : size.toNat ≤ 2 ^ 31) :
    IsMask (-(L.hashSize size)) := by
  have hsize := L.hashSize_le size hpos hle
  unfold IsMask
  rw [toNat_mask L hpos hle]
  omega

/-- The first bucket of every chain, by the hash value with the mask; there are chains for the slots only. -/
def heads (T : Table β) (k : ℕ) : Offset :=
  if T.mask.toNat ≤ k ∧ k < 2 ^ 32 then T.slot ((k : ℤ) - 2 ^ 32) else 0

/-- The chain of a bucket. -/
def chainOf (L : Layout β) (T : Table β) (pos : Offset) : ℕ := (L.hash (T.bucket pos) ||| T.mask).toNat

/-- The offset of the bucket with a number. -/
def place (L : Layout β) (j : ℕ) : Offset := offset (j * L.bytes)

/-- The offsets of the first buckets, the last one first. -/
def linked (L : Layout β) (n : ℕ) : List Offset := ((List.range n).map (place L)).reverse

theorem linked_succ : linked L (n + 1) = place L n :: linked L n := by
  unfold linked
  rw [List.range_succ, List.map_append, List.reverse_append]
  rfl

theorem place_inj (h : place L i = place L j) : i = j := Nat.eq_of_mul_eq_mul_right L.bytes_pos h

theorem mem_linked {pos : Offset} : pos ∈ linked L n ↔ ∃ j < n, pos = place L j := by
  unfold linked
  rw [List.mem_reverse, List.mem_map]
  constructor
  · rintro ⟨j, hj, rfl⟩
    exact ⟨j, List.mem_range.1 hj, rfl⟩
  · rintro ⟨j, hj, rfl⟩
    exact ⟨j, List.mem_range.2 hj, rfl⟩

theorem place_not_mem_linked : place L n ∉ linked L n := by
  intro h
  obtain ⟨j, hj, hplace⟩ := mem_linked.1 h
  exact absurd (place_inj hplace) (by omega)

/-- An offset is a multiple of four. -/
theorem place_ne_zero : place L j ≠ 0 := by
  intro heq
  have heq : j * L.bytes = 0xffffffff := heq
  obtain ⟨c, hc⟩ := L.four_dvd
  rw [hc] at heq
  have hdvd : 4 ∣ j * (4 * c) := ⟨j * c, by rw [Nat.mul_left_comm]⟩
  omega

theorem heads_of_mask (hm : IsMask T.mask) (h : BitVec 32) :
    heads T (h ||| T.mask).toNat = T.slot (index T.mask h) := by
  unfold heads
  rw [if_pos ⟨mask_le _ _, BitVec.isLt _⟩, index_eq hm]

theorem heads_link (hm : IsMask T.mask) (pos : Offset) :
    heads (T.link L pos) = Function.update (heads T) (chainOf L T pos) pos := by
  funext k
  have hindex := index_eq hm (L.hash (T.bucket pos))
  have hlt := (L.hash (T.bucket pos) ||| T.mask).isLt
  have hle := mask_le T.mask (L.hash (T.bucket pos))
  have hmask : (T.link L pos).mask = T.mask := rfl
  unfold heads
  by_cases hk : k = chainOf L T pos
  · subst hk
    rw [Function.update_self, hmask]
    refine (if_pos ⟨hle, hlt⟩).trans ?_
    show Function.update T.slot _ pos _ = pos
    rw [hindex]
    exact Function.update_self _ _ _
  · rw [Function.update_of_ne hk]
    by_cases hslot : T.mask.toNat ≤ k ∧ k < 2 ^ 32
    · rw [hmask, if_pos hslot, if_pos hslot]
      show Function.update T.slot _ pos _ = _
      rw [hindex]
      refine Function.update_of_ne (fun heq => hk ?_) _ _
      unfold chainOf
      omega
    · rw [hmask, if_neg hslot, if_neg hslot]

/-- After `memset` there are no chains. -/
theorem heads_cleared {size : BitVec 32} (hpos : 0 < size.toNat) (hle : size.toNat ≤ 2 ^ 31)
    (hmask : T.mask = -(L.hashSize size)) (slot : ℤ → Offset) (hslot : T.slot = cleared (L.hashSize size) slot) :
    heads T = fun _ => 0 := by
  funext k
  unfold heads
  split_ifs with hk
  · rw [hslot]
    unfold cleared
    rw [hmask, toNat_mask L hpos hle] at hk
    have hsize := L.hashSize_le size hpos hle
    exact if_pos ⟨by omega, by omega⟩
  · rfl

end Slots

/-! ## Chains -/

section Chains

variable {L : Layout β} {T : Table β} {i n : ℕ}

/-- The first `n` buckets are chained. -/
def Chains (L : Layout β) (T : Table β) (n : ℕ) : Prop :=
  HashChain.Chained (heads T) T.next (chainOf L T) (linked L n)

/-- Linking the next one. -/
theorem Chains.link (h : Chains L T n) (hm : IsMask T.mask) : Chains L (T.link L (place L n)) (n + 1) := by
  have hpush := HashChain.Chained.push h (place_ne_zero (L := L) (j := n)) place_not_mem_linked
  have hhead : heads T (chainOf L T (place L n)) = T.slot (index T.mask (L.hash (T.bucket (place L n)))) :=
    heads_of_mask hm _
  rw [hhead] at hpush
  unfold Chains
  rw [heads_link hm, linked_succ]
  exact hpush

/-- Linking changes slots and chains only. -/
theorem relink_frame (i pos : ℕ) (T : Table β) : (Table.relink L i pos T).bucket = T.bucket ∧
    (Table.relink L i pos T).mask = T.mask ∧ (Table.relink L i pos T).size = T.size ∧
      (Table.relink L i pos T).count = T.count ∧ (Table.relink L i pos T).pos = T.pos := by
  induction i generalizing pos T with
  | zero => exact ⟨rfl, rfl, rfl, rfl, rfl⟩
  | succ i ih =>
    obtain ⟨hbucket, hmask, hsize, hcount, hpos⟩ := ih ((pos + L.bytes) % 2 ^ 32) (T.link L (offset pos))
    exact ⟨hbucket, hmask, hsize, hcount, hpos⟩

/-- The loop links the buckets from the `n`-th on. -/
theorem Chains.relink (h : Chains L T n) (hm : IsMask T.mask)
    (hfits : ∀ j < n + i, j * L.bytes < 2 ^ 32) : Chains L (Table.relink L i (n * L.bytes % 2 ^ 32) T) (n + i) := by
  induction i generalizing n T with
  | zero => exact h
  | succ i ih =>
    have hpos : n * L.bytes % 2 ^ 32 = n * L.bytes := Nat.mod_eq_of_lt (hfits n (by omega))
    have hnext : (n * L.bytes + L.bytes) % 2 ^ 32 = (n + 1) * L.bytes % 2 ^ 32 := by rw [Nat.succ_mul]
    rw [Table.relink, hpos, hnext]
    have hstep := ih (h.link hm) hm fun j hj => hfits j (by omega)
    rw [Nat.add_right_comm] at hstep
    exact hstep

end Chains

/-! ## Tables and lists -/

/-- The buckets of a table. -/
structure Rep (L : Layout β) (T : Table β) (items : List β) : Prop where
  count_eq : T.count = items.length
  pos_eq : T.pos = items.length * L.bytes % 2 ^ 32
  fits : ∀ j < items.length, j * L.bytes < 2 ^ 32
  bucket_eq : ∀ j x, items[j]? = some x → T.bucket (place L j) = x
  size_pos : 0 < T.size
  size_le : T.size ≤ 2 ^ 31
  count_le : items.length ≤ T.size
  mask_eq : T.mask = -(L.hashSize (BitVec.ofNat 32 T.size))
  chains : Chains L T items.length

section Rep

variable {L : Layout β} {T : Table β} {items : List β} {x : β} {j : ℕ}

theorem toNat_size {size : ℕ} (h : size ≤ 2 ^ 31) : (BitVec.ofNat 32 size).toNat = size := by
  rw [BitVec.toNat_ofNat]
  exact Nat.mod_eq_of_lt (by omega)

theorem isMask_size (L : Layout β) {size : ℕ} (hpos : 0 < size) (hle : size ≤ 2 ^ 31) :
    IsMask (-(L.hashSize (BitVec.ofNat 32 size))) := by
  have hsize := toNat_size hle
  exact isMask L (by omega) (by omega)

theorem heads_size {size : ℕ} (hpos : 0 < size) (hle : size ≤ 2 ^ 31)
    (hmask : T.mask = -(L.hashSize (BitVec.ofNat 32 size))) (slot : ℤ → Offset)
    (hslot : T.slot = cleared (L.hashSize (BitVec.ofNat 32 size)) slot) : heads T = fun _ => 0 := by
  have hsize := toNat_size hle
  exact heads_cleared (by omega) (by omega) hmask slot hslot

theorem Rep.isMask (R : Rep L T items) : IsMask T.mask := by
  rw [R.mask_eq]
  exact isMask_size L R.size_pos R.size_le

/-- A table of at most `2 ^ 31` buckets. -/
theorem rep_init (memory : Table β) {size : ℕ} (hpos : 0 < size) (hle : size ≤ 2 ^ 31) :
    Rep L (.init L memory size) [] where
  count_eq := rfl
  pos_eq := by
    rw [List.length_nil, Nat.zero_mul]
    rfl
  fits := fun j hj => absurd hj (Nat.not_lt_zero j)
  bucket_eq := fun j x h => absurd h (by simp)
  size_pos := hpos
  size_le := hle
  count_le := Nat.zero_le size
  mask_eq := rfl
  chains := by
    show HashChain.Chained (heads (Table.init L memory size)) _ _ (linked L 0)
    rw [heads_size hpos hle rfl memory.slot rfl]
    exact HashChain.chained_nil

/-- Linking all buckets of an array anew. -/
theorem rep_relink (hcount : T.count = items.length) (hpos : T.pos = items.length * L.bytes % 2 ^ 32)
    (hfits : ∀ j < items.length, j * L.bytes < 2 ^ 32)
    (hbucket : ∀ j x, items[j]? = some x → T.bucket (place L j) = x) (hsize : 0 < T.size) (hle : T.size ≤ 2 ^ 31)
    (hlen : items.length ≤ T.size) (hmask : T.mask = -(L.hashSize (BitVec.ofNat 32 T.size))) (slot : ℤ → Offset)
    (hslot : T.slot = cleared (L.hashSize (BitVec.ofNat 32 T.size)) slot) :
    Rep L (.relink L T.count 0 T) items := by
  obtain ⟨hbucket', hmask', hsize', hcount', hpos'⟩ := relink_frame (L := L) T.count 0 T
  have hnone : Chains L T 0 := by
    show HashChain.Chained (heads T) _ _ (linked L 0)
    rw [heads_size hsize hle hmask slot hslot]
    exact HashChain.chained_nil
  have hm : IsMask T.mask := by
    rw [hmask]
    exact isMask_size L hsize hle
  have hchains := hnone.relink (i := items.length) hm fun j hj => hfits j (by omega)
  rw [Nat.zero_mul, Nat.zero_mod, Nat.zero_add, ← hcount] at hchains
  rw [hcount] at hchains
  refine ⟨hcount'.trans hcount, hpos'.trans hpos, hfits, fun j x h => ?_, ?_, ?_, ?_, ?_, ?_⟩
  · rw [hbucket']
    exact hbucket j x h
  · rw [hsize']
    exact hsize
  · rw [hsize']
    exact hle
  · rw [hsize']
    exact hlen
  · rw [hmask', hsize']
    exact hmask
  · rw [hcount]
    exact hchains

theorem Rep.resize (R : Rep L T items) (hsize : T.size ≤ 2 ^ 30) : Rep L (T.resize L) items := by
  have hpos := R.size_pos
  have hlen := R.count_le
  have hdouble : T.size * 2 % 2 ^ 32 = T.size * 2 := Nat.mod_eq_of_lt (by omega)
  unfold Table.resize
  dsimp only
  rw [hdouble]
  apply rep_relink (T := { T with
    slot := cleared (L.hashSize (BitVec.ofNat 32 (T.size * 2))) T.slot
    mask := -(L.hashSize (BitVec.ofNat 32 (T.size * 2)))
    size := T.size * 2 }) R.count_eq R.pos_eq R.fits R.bucket_eq
  · show 0 < T.size * 2
    omega
  · show T.size * 2 ≤ 2 ^ 31
    omega
  · show items.length ≤ T.size * 2
    omega
  · rfl
  · rfl

/-- There is room for one more bucket, if it has an offset. -/
theorem Rep.grow (R : Rep L T items) (h : items.length * L.bytes < 2 ^ 32) :
    Rep L (T.grow L) items ∧ items.length < (T.grow L).size := by
  have hpos := R.size_pos
  have hcount := R.count_eq
  have hle := R.count_le
  obtain ⟨c, hc⟩ := L.four_dvd
  have hbytes := L.bytes_pos
  have hfour : items.length * 4 ≤ items.length * L.bytes := Nat.mul_le_mul_left _ (by omega)
  unfold Table.grow
  split_ifs with hfull
  · have hsize : T.size ≤ 2 ^ 30 := by omega
    refine ⟨R.resize hsize, ?_⟩
    obtain ⟨-, -, hsize', -, -⟩ := relink_frame (L := L) T.count 0 { T with
      slot := cleared (L.hashSize (BitVec.ofNat 32 (T.size * 2 % 2 ^ 32))) T.slot
      mask := -(L.hashSize (BitVec.ofNat 32 (T.size * 2 % 2 ^ 32)))
      size := T.size * 2 % 2 ^ 32 }
    unfold Table.resize
    dsimp only
    rw [hsize']
    dsimp only
    omega
  · exact ⟨R, by omega⟩

theorem getElem?_append_singleton {a : β} (h : (items ++ [x])[j]? = some a) :
    items[j]? = some a ∨ j = items.length ∧ a = x := by
  rcases Nat.lt_trichotomy j items.length with hlt | rfl | hgt
  · rw [List.getElem?_append_left hlt] at h
    exact Or.inl h
  · rw [List.getElem?_append_right le_rfl, Nat.sub_self] at h
    exact Or.inr ⟨rfl, (Option.some.inj h).symm⟩
  · rw [List.getElem?_append_right hgt.le, List.getElem?_eq_none (by simp; omega)] at h
    exact absurd h (by simp)

/-- A new bucket behind the others. -/
theorem Rep.append (R : Rep L T items) (h : items.length * L.bytes < 2 ^ 32) (hroom : items.length < T.size) (x : β) :
    Rep L (T.append L x) (items ++ [x]) := by
  have hpos : T.pos = items.length * L.bytes := R.pos_eq.trans (Nat.mod_eq_of_lt h)
  have hplace : offset T.pos = place L items.length := congrArg offset hpos
  have hself : Function.update T.bucket (offset T.pos) x (place L items.length) = x := by
    rw [hplace]
    exact Function.update_self _ _ _
  have hother : ∀ j < items.length, Function.update T.bucket (offset T.pos) x (place L j) = T.bucket (place L j) := by
    intro j hj
    refine Function.update_of_ne (fun heq => ?_) _ _
    have hsame := place_inj (heq.trans hplace)
    omega
  have hlen : (items ++ [x]).length = items.length + 1 := by simp
  refine ⟨?_, ?_, ?_, ?_, R.size_pos, R.size_le, ?_, R.mask_eq, ?_⟩
  · rw [hlen, ← R.count_eq]
    rfl
  · rw [hlen, Nat.succ_mul, ← hpos]
    rfl
  · intro j hj
    rw [hlen] at hj
    rcases Nat.lt_succ_iff_lt_or_eq.1 hj with hj | rfl
    · exact R.fits j hj
    · exact h
  · intro j a ha
    rcases getElem?_append_singleton ha with hold | ⟨rfl, rfl⟩
    · obtain ⟨hj, -⟩ := List.getElem?_eq_some_iff.1 hold
      exact (hother j hj).trans (R.bucket_eq j a hold)
    · exact hself
  · rw [hlen]
    exact hroom
  · rw [hlen]
    unfold Table.append
    rw [hplace]
    refine Chains.link ?_ R.isMask
    refine HashChain.Chained.congr R.chains (fun _ _ => rfl) fun pos hmem => ?_
    obtain ⟨j, hj, rfl⟩ := mem_linked.1 hmem
    rw [← hplace]
    unfold chainOf
    dsimp only
    rw [hother j hj]

/-- A bucket that changes, but for its hash value. -/
theorem Rep.set (R : Rep L T items) (hj : items[j]? = some x) {a : β} (hhash : L.hash a = L.hash x) :
    Rep L { T with bucket := Function.update T.bucket (place L j) a } (items.set j a) := by
  obtain ⟨hlt, -⟩ := List.getElem?_eq_some_iff.1 hj
  have hlen : (items.set j a).length = items.length := List.length_set
  refine ⟨R.count_eq.trans hlen.symm, ?_, ?_, ?_, R.size_pos, R.size_le, ?_, R.mask_eq, ?_⟩
  · rw [hlen]
    exact R.pos_eq
  · rw [hlen]
    exact R.fits
  · intro i b hb
    dsimp only
    by_cases hij : i = j
    · subst hij
      rw [List.getElem?_set_self hlt] at hb
      rw [Function.update_self]
      exact Option.some.inj hb
    · rw [List.getElem?_set_ne (Ne.symm hij)] at hb
      rw [Function.update_of_ne fun h => hij (place_inj h)]
      exact R.bucket_eq i b hb
  · rw [hlen]
    exact R.count_le
  · rw [hlen]
    refine HashChain.Chained.congr R.chains (fun _ _ => rfl) fun pos hmem => ?_
    unfold chainOf
    dsimp only
    by_cases hpos : pos = place L j
    · subst hpos
      rw [Function.update_self, R.bucket_eq j x hj, hhash]
    · rw [Function.update_of_ne hpos]

/-- Buckets that change, but for their hash values. -/
theorem Rep.map (R : Rep L T items) (f : β → β) (hhash : ∀ a ∈ items, L.hash (f a) = L.hash a) {bucket : Offset → β}
    (hbucket : ∀ j < items.length, bucket (place L j) = f (T.bucket (place L j))) :
    Rep L { T with bucket := bucket } (items.map f) := by
  have hlen : (items.map f).length = items.length := List.length_map f
  refine ⟨R.count_eq.trans hlen.symm, ?_, ?_, ?_, R.size_pos, R.size_le, ?_, R.mask_eq, ?_⟩
  · rw [hlen]
    exact R.pos_eq
  · rw [hlen]
    exact R.fits
  · intro j b hb
    rw [List.getElem?_map, Option.map_eq_some_iff] at hb
    obtain ⟨a, ha, rfl⟩ := hb
    obtain ⟨hj, -⟩ := List.getElem?_eq_some_iff.1 ha
    dsimp only
    rw [hbucket j hj, R.bucket_eq j a ha]
  · rw [hlen]
    exact R.count_le
  · rw [hlen]
    refine HashChain.Chained.congr R.chains (fun _ _ => rfl) fun pos hmem => ?_
    obtain ⟨j, hj, rfl⟩ := mem_linked.1 hmem
    unfold chainOf
    dsimp only
    have hitem := R.bucket_eq j _ (List.getElem?_eq_getElem hj)
    rw [hbucket j hj, hitem, hhash _ (List.getElem_mem hj)]

theorem Rep.array_eq (R : Rep L T items) : T.array L = items := by
  apply List.ext_getElem?
  intro j
  unfold Table.array
  rw [List.getElem?_map]
  by_cases hj : j < items.length
  · rw [List.getElem?_range (by rw [R.count_eq]; exact hj), List.getElem?_eq_getElem hj]
    exact congrArg some (R.bucket_eq j _ (List.getElem?_eq_getElem hj))
  · rw [List.getElem?_eq_none (by simpa [R.count_eq] using hj), List.getElem?_eq_none (by omega)]
    rfl

/-- Other buckets in the same places, linked anew. -/
theorem Rep.setArray (R : Rep L T items) {l : List β} (hlen : l.length = items.length) :
    Rep L (.relink L T.count 0 { T.setArray L l with
      slot := cleared (L.hashSize (BitVec.ofNat 32 T.size)) T.slot }) l := by
  refine rep_relink (T := { T.setArray L l with
      slot := cleared (L.hashSize (BitVec.ofNat 32 T.size)) T.slot }) (R.count_eq.trans hlen.symm) ?_ ?_ ?_
    R.size_pos R.size_le ?_ R.mask_eq T.slot rfl
  · rw [hlen]
    exact R.pos_eq
  · rw [hlen]
    exact R.fits
  · intro j x hj
    have hmod : (place L j).toNat % L.bytes = 0 := Nat.mul_mod_left j L.bytes
    have hdiv : (place L j).toNat / L.bytes = j := Nat.mul_div_cancel j L.bytes_pos
    show (if (place L j).toNat % L.bytes = 0 then (l[(place L j).toNat / L.bytes]?).getD _ else _) = x
    rw [if_pos hmod, hdiv, hj]
    rfl
  · rw [hlen]
    exact R.count_le

/-- The loop over a chain ends at the last bucket that passes. -/
theorem Rep.search_eq (R : Rep L T items) {h : BitVec 32} {p : β → Bool}
    (hp : ∀ a ∈ items, p a = true → L.hash a = h) :
    T.search h p = some (((linked L items.length).find? fun pos => p (T.bucket pos)).getD 0) := by
  have hlen : (linked L items.length).length < T.count + 1 := by
    unfold linked
    rw [List.length_reverse, List.length_map, List.length_range, R.count_eq]
    exact Nat.lt_succ_self _
  unfold Table.search
  rw [← heads_of_mask R.isMask]
  refine HashChain.Chained.walk_eq R.chains _ (fun pos hmem hpass => ?_) hlen
  obtain ⟨j, hj, rfl⟩ := mem_linked.1 hmem
  have hitem := R.bucket_eq j _ (List.getElem?_eq_getElem hj)
  rw [hitem] at hpass
  unfold chainOf
  rw [hitem, hp _ (List.getElem_mem hj) hpass]

/-- The only bucket that passes is found. -/
theorem Rep.search_some (R : Rep L T items) {h : BitVec 32} {p : β → Bool}
    (hp : ∀ a ∈ items, p a = true → L.hash a = h) (hj : items[j]? = some x) (hx : p x = true)
    (hunique : ∀ i a, items[i]? = some a → p a = true → i = j) : T.search h p = some (place L j) := by
  rw [R.search_eq hp]
  obtain ⟨hlt, -⟩ := List.getElem?_eq_some_iff.1 hj
  cases hfind : (linked L items.length).find? fun pos => p (T.bucket pos) with
  | none =>
    have hnot := List.find?_eq_none.1 hfind (place L j) (mem_linked.2 ⟨j, hlt, rfl⟩)
    rw [R.bucket_eq j x hj] at hnot
    exact absurd hx hnot
  | some pos =>
    obtain ⟨i, hi, rfl⟩ := mem_linked.1 (List.mem_of_find?_eq_some hfind)
    have hpass := List.find?_some hfind
    have hitem := List.getElem?_eq_getElem hi
    rw [R.bucket_eq i _ hitem] at hpass
    rw [hunique i _ hitem hpass]
    rfl

/-- Nothing passes. -/
theorem Rep.search_none (R : Rep L T items) {h : BitVec 32} {p : β → Bool} (hp : ∀ a ∈ items, p a = false) :
    T.search h p = some 0 := by
  rw [R.search_eq fun a ha hpass => absurd hpass (by rw [hp a ha]; exact Bool.false_ne_true)]
  have hfind : ((linked L items.length).find? fun pos => p (T.bucket pos)) = none := by
    refine List.find?_eq_none.2 fun pos hmem => ?_
    obtain ⟨j, hj, rfl⟩ := mem_linked.1 hmem
    rw [R.bucket_eq j _ (List.getElem?_eq_getElem hj), hp _ (List.getElem_mem hj)]
    exact Bool.false_ne_true
  rw [hfind]
  rfl

end Rep

end IrJit.OffsetTable
