import IrJit.Lib.OffsetTable

/-!
# Helper.HashTab — tables of numbers (`ir.c`, 1594–1830)

`ir_hashtab_*` has keys of 32 bits and `ir_addrtab_*` keys of 64 bits; values have the type `ir_ref`.
-/

namespace IrJit.Helper

open OffsetTable

/-! ## Sizes -/

section Sizes

/-- The steps that set all bits below the highest one. -/
def smear (size : BitVec 32) : BitVec 32 :=
  let size := size - 1
  let size := size ||| (size >>> 1)
  let size := size ||| (size >>> 2)
  let size := size ||| (size >>> 4)
  let size := size ||| (size >>> 8)
  size ||| (size >>> 16)

/-- `ir_hashtab_hash_size`. -/
def hashtabHashSize (size : BitVec 32) : BitVec 32 :=
  if (smear size + 1).toNat > 4 then smear size + 1 else 4

theorem or_shift_lt {x : BitVec 32} (h : x.toNat < 2 ^ 31) (s : ℕ) : (x ||| (x >>> s)).toNat < 2 ^ 31 := by
  have hshift : (x >>> s).toNat ≤ x.toNat := by
    rw [BitVec.toNat_ushiftRight, Nat.shiftRight_eq_div_pow]
    exact Nat.div_le_self _ _
  rw [BitVec.toNat_or]
  exact Nat.or_lt_two_pow h (hshift.trans_lt h)

theorem smear_lt {size : BitVec 32} (hpos : 0 < size.toNat) (hle : size.toNat ≤ 2 ^ 31) :
    (smear size).toNat < 2 ^ 31 := by
  have hpred : (size - 1).toNat < 2 ^ 31 := by
    have hone : (1 : BitVec 32).toNat = 1 := rfl
    rw [BitVec.toNat_sub_of_le (by rw [BitVec.le_def, hone]; exact hpos), hone]
    omega
  unfold smear
  exact or_shift_lt (or_shift_lt (or_shift_lt (or_shift_lt (or_shift_lt hpred 1) 2) 4) 8) 16

theorem toNat_smear_succ {size : BitVec 32} (hpos : 0 < size.toNat) (hle : size.toNat ≤ 2 ^ 31) :
    (smear size + 1).toNat = (smear size).toNat + 1 := by
  have hlt := smear_lt hpos hle
  have hone : (1 : BitVec 32).toNat = 1 := rfl
  rw [BitVec.toNat_add, hone]
  exact Nat.mod_eq_of_lt (by omega)

theorem hashtabHashSize_pos (size : BitVec 32) : 0 < (hashtabHashSize size).toNat := by
  unfold hashtabHashSize
  split_ifs with h
  · omega
  · decide

theorem hashtabHashSize_le {size : BitVec 32} (hpos : 0 < size.toNat) (hle : size.toNat ≤ 2 ^ 31) :
    (hashtabHashSize size).toNat ≤ 2 ^ 31 := by
  have hlt := smear_lt hpos hle
  unfold hashtabHashSize
  split_ifs
  · rw [toNat_smear_succ hpos hle]
    omega
  · decide

end Sizes

/-! ## Maps -/

/-- `ir_hashtab_bucket` and `ir_addrtab_bucket`, but for `next`. -/
structure Bucket (κ : Type) where
  key : κ
  val : BitVec 32

section Maps

variable {κ : Type}

/-- The buckets are a map. -/
structure Maps (items : List (Bucket κ)) (M : κ → Option (BitVec 32)) : Prop where
  nodup : (items.map Bucket.key).Nodup
  mem : ∀ key val, M key = some val ↔ ⟨key, val⟩ ∈ items

variable {L : Layout (Bucket κ)} {T : Table (Bucket κ)} {items : List (Bucket κ)} {M : κ → Option (BitVec 32)}
  {key : κ} {val : BitVec 32}

theorem Maps.key_inj (hM : Maps items M) {i j : ℕ} {a b : Bucket κ} (hi : items[i]? = some a)
    (hj : items[j]? = some b) (h : a.key = b.key) : i = j := by
  obtain ⟨hilt, hia⟩ := List.getElem?_eq_some_iff.1 hi
  obtain ⟨hjlt, hjb⟩ := List.getElem?_eq_some_iff.1 hj
  have hlen : (items.map Bucket.key).length = items.length := List.length_map _
  have hik : i < (items.map Bucket.key).length := by omega
  have hjk : j < (items.map Bucket.key).length := by omega
  have hkeys : (items.map Bucket.key)[i] = (items.map Bucket.key)[j] := by
    rw [List.getElem_map, List.getElem_map, hia, hjb, h]
  exact hM.nodup.getElem_inj_iff.1 hkeys

/-- No bucket has an absent key. -/
theorem Maps.not_mem (hM : Maps items M) (h : M key = none) : ∀ b ∈ items, b.key ≠ key := by
  rintro ⟨k, v⟩ hb rfl
  rw [(hM.mem k v).2 hb] at h
  exact absurd h (by simp)

theorem Maps.perm (hM : Maps items M) {l : List (Bucket κ)} (h : l.Perm items) : Maps l M where
  nodup := (h.map Bucket.key).nodup_iff.2 hM.nodup
  mem := fun key val => (hM.mem key val).trans h.mem_iff.symm

variable [DecidableEq κ]

theorem Maps.search_none (hM : Maps items M) (R : Rep L T items) (h : M key = none) (hash : BitVec 32) :
    T.search hash (fun p => p.key = key) = some 0 :=
  R.search_none fun b hb => decide_eq_false (hM.not_mem h b hb)

theorem Maps.search_some (hM : Maps items M) (R : Rep L T items) (h : M key = some val) (hash : BitVec 32)
    (hhash : ∀ b : Bucket κ, b.key = key → L.hash b = hash) :
    ∃ j, items[j]? = some ⟨key, val⟩ ∧ T.search hash (fun p => p.key = key) = some (place L j) := by
  obtain ⟨j, hj⟩ := List.mem_iff_getElem?.1 ((hM.mem key val).1 h)
  refine ⟨j, hj, R.search_some (fun b _ hb => hhash b (of_decide_eq_true hb)) hj (decide_eq_true rfl) ?_⟩
  intro i b hi hb
  exact hM.key_inj hi hj (of_decide_eq_true hb)

/-- A new key. -/
theorem Maps.append (hM : Maps items M) (h : M key = none) (val : BitVec 32) :
    Maps (items ++ [⟨key, val⟩]) (Function.update M key (some val)) where
  nodup := by
    have hnew : key ∉ items.map Bucket.key := by
      intro hmem
      obtain ⟨b, hb, hkey⟩ := List.mem_map.1 hmem
      exact hM.not_mem h b hb hkey
    rw [List.map_append, List.map_singleton]
    exact List.nodup_append.2 ⟨hM.nodup, List.nodup_singleton _, fun a ha b hb => by
      rw [List.mem_singleton.1 hb]
      rintro rfl
      exact hnew ha⟩
  mem := by
    intro k v
    rw [List.mem_append, List.mem_singleton]
    by_cases hk : k = key
    · subst hk
      rw [Function.update_self, Option.some_inj]
      refine ⟨fun hv => Or.inr (by rw [hv]), fun hv => ?_⟩
      rcases hv with hv | hv
      · exact absurd rfl (hM.not_mem h _ hv)
      · exact (congrArg Bucket.val hv).symm
    · rw [Function.update_of_ne hk, hM.mem]
      refine ⟨Or.inl, fun hv => hv.resolve_right fun hv => hk (congrArg Bucket.key hv)⟩

/-- Another value for a key. -/
theorem Maps.set (hM : Maps items M) {j : ℕ} {old : BitVec 32} (hj : items[j]? = some ⟨key, old⟩) (val : BitVec 32) :
    Maps (items.set j ⟨key, val⟩) (Function.update M key (some val)) := by
  have hgets : ∀ i, (items.set j ⟨key, val⟩)[i]? = if i = j then some ⟨key, val⟩ else items[i]? := by
    intro i
    obtain ⟨hlt, -⟩ := List.getElem?_eq_some_iff.1 hj
    by_cases hij : i = j
    · subst hij
      rw [if_pos rfl, List.getElem?_set_self hlt]
    · rw [if_neg hij, List.getElem?_set_ne (Ne.symm hij)]
  refine ⟨?_, fun k v => ?_⟩
  · have hkeys : (items.set j ⟨key, val⟩).map Bucket.key = items.map Bucket.key := by
      apply List.ext_getElem?
      intro i
      rw [List.getElem?_map, List.getElem?_map, hgets]
      split_ifs with hij
      · subst hij
        rw [hj]
        rfl
      · rfl
    rw [hkeys]
    exact hM.nodup
  · rw [List.mem_iff_getElem?]
    by_cases hk : k = key
    · subst hk
      rw [Function.update_self, Option.some_inj]
      constructor
      · rintro rfl
        exact ⟨j, by rw [hgets, if_pos rfl]⟩
      · rintro ⟨i, hi⟩
        rw [hgets] at hi
        split_ifs at hi with hij
        · exact congrArg Bucket.val (Option.some.inj hi)
        · exact absurd (hM.key_inj hi hj rfl) hij
    · rw [Function.update_of_ne hk, hM.mem, List.mem_iff_getElem?]
      refine exists_congr fun i => ?_
      rw [hgets]
      split_ifs with hij
      · subst hij
        rw [hj]
        refine ⟨fun h => ?_, fun h => ?_⟩
        · exact absurd (congrArg Bucket.key (Option.some.inj h)).symm hk
        · exact absurd (congrArg Bucket.key (Option.some.inj h)).symm hk
      · exact Iff.rfl

end Maps

/-! ## `ir_hashtab` -/

section Hashtab

/-- `IR_INVALID_VAL`. -/
def invalidVal : BitVec 32 := 0x80000000

/-- Buckets of twelve bytes. -/
def hashtabLayout : Layout (Bucket (BitVec 32)) where
  bytes := 12
  hash := Bucket.key
  hashSize := hashtabHashSize
  bytes_pos := by decide
  four_dvd := by decide
  hashSize_pos := fun size _ _ => hashtabHashSize_pos size
  hashSize_le := fun _ hpos hle => hashtabHashSize_le hpos hle

abbrev Hashtab : Type := Table (Bucket (BitVec 32))

/-- `ir_hashtab_init`. -/
def hashtabInit (memory : Hashtab) (size : ℕ) : Hashtab := .init hashtabLayout memory size

variable (tab : Hashtab) (key val : BitVec 32)

/-- `ir_hashtab_find`; no result if the loop does not end. -/
def hashtabFind : Option (BitVec 32) :=
  (tab.search key fun p => p.key = key).map fun pos => if pos = 0 then invalidVal else (tab.bucket pos).val

/-- `ir_hashtab_add`. -/
def hashtabAdd : Option (Bool × Hashtab) :=
  (tab.search key fun p => p.key = key).map fun pos =>
    if pos = 0 then (true, (tab.grow hashtabLayout).append hashtabLayout ⟨key, val⟩)
    else (decide ((tab.bucket pos).val = val), tab)

/-- `ir_hashtab_key_cmp`; the difference is a `uint32_t`. -/
def hashtabKeyCmp (b1 b2 : Bucket (BitVec 32)) : ℤ := (b1.key - b2.key).toInt

/-- `ir_hashtab_key_sort`. -/
def hashtabKeySort : Hashtab :=
  if tab.count = 0 then tab
  else
    .relink hashtabLayout tab.count 0
      { tab.setArray hashtabLayout ((tab.array hashtabLayout).insertionSort fun b1 b2 => hashtabKeyCmp b1 b2 ≤ 0) with
        slot := cleared (hashtabHashSize (BitVec.ofNat 32 tab.size)) tab.slot }

/-- The calls that change a table. -/
inductive HashtabCall
  | add (key val : BitVec 32)
  | keySort

/-- What a call does with the map. -/
def HashtabCall.effect (M : BitVec 32 → Option (BitVec 32)) : HashtabCall → BitVec 32 → Option (BitVec 32)
  | .add key val => if M key = none then Function.update M key (some val) else M
  | .keySort => M

/-- The tables after some calls, each of which is as `ok` says. -/
inductive HashtabRuns (ok : Hashtab → (BitVec 32 → Option (BitVec 32)) → HashtabCall → Prop) :
    Hashtab → (BitVec 32 → Option (BitVec 32)) → Prop
  | init {memory : Hashtab} {size : ℕ} : 0 < size → size ≤ 2 ^ 31 →
    HashtabRuns ok (hashtabInit memory size) fun _ => none
  | add {tab tab' : Hashtab} {M : BitVec 32 → Option (BitVec 32)} {key val : BitVec 32} {b : Bool} :
    HashtabRuns ok tab M → ok tab M (.add key val) → hashtabAdd tab key val = some (b, tab') →
    HashtabRuns ok tab' ((HashtabCall.add key val).effect M)
  | keySort {tab : Hashtab} {M : BitVec 32 → Option (BitVec 32)} : HashtabRuns ok tab M → ok tab M .keySort →
    HashtabRuns ok (hashtabKeySort tab) (HashtabCall.keySort.effect M)

/-- The buckets are in the order of their keys. -/
def Ordered (tab : Hashtab) : Prop := ((tab.array hashtabLayout).map fun b => b.key.toNat).Pairwise (· < ·)

/-- The table is the map: lookups return its values, and adding a key refuses exactly another value than it has. -/
structure HashtabServes (tab : Hashtab) (M : BitVec 32 → Option (BitVec 32)) : Prop where
  find : ∀ key, hashtabFind tab key = some ((M key).getD invalidVal)
  add : ∀ key val, ∃ tab', hashtabAdd tab key val = some (decide (∀ v, M key = some v → v = val), tab')

/-- A new bucket has an offset, and keys that are sorted differ by less than `2 ^ 31`. -/
def HashtabFits (tab : Hashtab) (M : BitVec 32 → Option (BitVec 32)) : HashtabCall → Prop
  | .add key _ => M key = none → tab.count * 12 < 2 ^ 32
  | .keySort => ∀ k k', M k ≠ none → M k' ≠ none → k.toNat < k'.toNat + 2 ^ 31

/-- Comparing keys by their difference. -/
theorem hashtabKeyCmp_le {b1 b2 : Bucket (BitVec 32)} (h12 : b1.key.toNat < b2.key.toNat + 2 ^ 31)
    (h21 : b2.key.toNat < b1.key.toNat + 2 ^ 31) : hashtabKeyCmp b1 b2 ≤ 0 ↔ b1.key.toNat ≤ b2.key.toNat := by
  have h1 := b1.key.isLt
  have h2 := b2.key.isLt
  unfold hashtabKeyCmp
  rw [BitVec.toInt_eq_toNat_cond, BitVec.toNat_sub]
  rcases Nat.lt_or_ge b1.key.toNat b2.key.toNat with hlt | hge
  · rw [Nat.mod_eq_of_lt (by omega), if_neg (by omega)]
    omega
  · have hmod : (2 ^ 32 - b2.key.toNat + b1.key.toNat) % 2 ^ 32 = b1.key.toNat - b2.key.toNat := by
      have hsplit : 2 ^ 32 - b2.key.toNat + b1.key.toNat = b1.key.toNat - b2.key.toNat + 2 ^ 32 := by omega
      rw [hsplit, Nat.add_mod_right]
      exact Nat.mod_eq_of_lt (by omega)
    rw [hmod, if_pos (by omega)]
    omega

variable {tab : Hashtab} {M : BitVec 32 → Option (BitVec 32)} {items : List (Bucket (BitVec 32))}

/-- A new key goes into a new bucket. -/
theorem hashtabAdd_new (R : Rep hashtabLayout tab items) (hM : Maps items M) (h : M key = none) :
    hashtabAdd tab key val = some (true, (tab.grow hashtabLayout).append hashtabLayout ⟨key, val⟩) := by
  unfold hashtabAdd
  rw [hM.search_none R h]
  rfl

/-- The value of a key stays. -/
theorem hashtabAdd_old (R : Rep hashtabLayout tab items) (hM : Maps items M) {v : BitVec 32} (h : M key = some v) :
    hashtabAdd tab key val = some (decide (v = val), tab) := by
  obtain ⟨j, hj, hsearch⟩ := hM.search_some R h key fun b hb => hb
  unfold hashtabAdd
  rw [hsearch, Option.map_some, if_neg place_ne_zero, R.bucket_eq j _ hj]

theorem hashtab_serves_of_rep (R : Rep hashtabLayout tab items) (hM : Maps items M) : HashtabServes tab M where
  find := by
    intro key
    unfold hashtabFind
    cases h : M key with
    | none =>
      rw [hM.search_none R h]
      rfl
    | some v =>
      obtain ⟨j, hj, hsearch⟩ := hM.search_some R h key fun b hb => hb
      rw [hsearch, Option.map_some, if_neg place_ne_zero, R.bucket_eq j _ hj]
      rfl
  add := by
    intro key val
    cases h : M key with
    | none =>
      have hall : decide (∀ v : BitVec 32, none = some v → v = val) = true := by simp
      rw [hashtabAdd_new key val R hM h, hall]
      exact ⟨_, rfl⟩
    | some v =>
      have hall : decide (∀ v' : BitVec 32, some v = some v' → v' = val) = decide (v = val) := by simp
      rw [hashtabAdd_old key val R hM h, hall]
      exact ⟨_, rfl⟩

/-- Sorting keeps the map. -/
theorem rep_hashtabKeySort (R : Rep hashtabLayout tab items) (h : tab.count ≠ 0) :
    Rep hashtabLayout (hashtabKeySort tab) (items.insertionSort fun b1 b2 => hashtabKeyCmp b1 b2 ≤ 0) := by
  unfold hashtabKeySort
  rw [if_neg h, R.array_eq]
  exact R.setArray (List.length_insertionSort _ _)

/-- The table after some calls has the buckets of a map. -/
theorem HashtabRuns.rep (h : HashtabRuns HashtabFits tab M) : ∃ items, Rep hashtabLayout tab items ∧ Maps items M := by
  induction h with
  | init hpos hle =>
    exact ⟨[], rep_init _ hpos hle, List.nodup_nil, fun key val => by simp⟩
  | @add tab tab' M key val b _ hok hadd ih =>
    obtain ⟨items, R, hM⟩ := ih
    cases hkey : M key with
    | none =>
      have heffect : (HashtabCall.add key val).effect M = Function.update M key (some val) := if_pos hkey
      have hroom : items.length * 12 < 2 ^ 32 := R.count_eq ▸ hok hkey
      rw [hashtabAdd_new key val R hM hkey] at hadd
      obtain rfl := congrArg Prod.snd (Option.some.inj hadd)
      obtain ⟨R', hlen⟩ := R.grow hroom
      rw [heffect]
      exact ⟨_, R'.append hroom hlen _, hM.append hkey val⟩
    | some v =>
      have heffect : (HashtabCall.add key val).effect M = M := if_neg (by rw [hkey]; exact Option.some_ne_none v)
      rw [hashtabAdd_old key val R hM hkey] at hadd
      obtain rfl := congrArg Prod.snd (Option.some.inj hadd)
      rw [heffect]
      exact ⟨items, R, hM⟩
  | @keySort tab M _ hok ih =>
    obtain ⟨items, R, hM⟩ := ih
    by_cases hcount : tab.count = 0
    · refine ⟨items, ?_, hM⟩
      unfold hashtabKeySort
      rw [if_pos hcount]
      exact R
    · exact ⟨_, rep_hashtabKeySort R hcount, hM.perm (List.perm_insertionSort _ _)⟩

/-- Keys that differ by less than `2 ^ 31` are sorted. -/
theorem ordered_hashtabKeySort (R : Rep hashtabLayout tab items) (hM : Maps items M)
    (h : HashtabFits tab M .keySort) : Ordered (hashtabKeySort tab) := by
  unfold Ordered
  by_cases hcount : tab.count = 0
  · unfold hashtabKeySort
    rw [if_pos hcount]
    unfold Table.array
    rw [hcount]
    exact List.Pairwise.nil
  · have hnear : ∀ b ∈ items, ∀ b' ∈ items, b.key.toNat < b'.key.toNat + 2 ^ 31 := by
      intro b hb b' hb'
      have hkey := (hM.mem b.key b.val).2 hb
      have hkey' := (hM.mem b'.key b'.val).2 hb'
      exact h b.key b'.key (by simp [hkey]) (by simp [hkey'])
    rw [(rep_hashtabKeySort R hcount).array_eq,
      List.map_insertionSort _ (· ≤ ·) (fun b : Bucket (BitVec 32) => b.key.toNat) items fun b hb b' hb' =>
        hashtabKeyCmp_le (hnear b hb b' hb') (hnear b' hb' b hb)]
    have hsorted := List.pairwise_insertionSort (· ≤ ·) (items.map fun b => b.key.toNat)
    have hkeys : (items.map fun b => b.key.toNat).Nodup := by
      have hcomp : (items.map fun b => b.key.toNat) = (items.map Bucket.key).map BitVec.toNat := by
        rw [List.map_map]
        rfl
      rw [hcomp]
      exact hM.nodup.map (fun a b => BitVec.eq_of_toNat_eq)
    have hnodup := ((List.perm_insertionSort (· ≤ ·) (items.map fun b => b.key.toNat)).nodup_iff).2 hkeys
    exact (hsorted.and hnodup).imp fun hab => lt_of_le_of_ne hab.1 hab.2

end Hashtab

/-! ## `ir_addrtab` -/

section Addrtab

/-- Buckets of sixteen bytes; the cast of `key | tab->mask` to `int32_t` keeps the low bits of the key. -/
def addrtabLayout : Layout (Bucket (BitVec 64)) where
  bytes := 16
  hash b := b.key.setWidth 32
  hashSize := hashtabHashSize
  bytes_pos := by decide
  four_dvd := by decide
  hashSize_pos := fun size _ _ => hashtabHashSize_pos size
  hashSize_le := fun _ hpos hle => hashtabHashSize_le hpos hle

abbrev Addrtab : Type := Table (Bucket (BitVec 64))

/-- `ir_addrtab_init`. -/
def addrtabInit (memory : Addrtab) (size : ℕ) : Addrtab := .init addrtabLayout memory size

variable (tab : Addrtab) (key : BitVec 64) (val : BitVec 32)

/-- `ir_addrtab_find`. -/
def addrtabFind : Option (BitVec 32) :=
  (tab.search (key.setWidth 32) fun p => p.key = key).map fun pos =>
    if pos = 0 then invalidVal else (tab.bucket pos).val

/-- `ir_addrtab_set`. -/
def addrtabSet : Option Addrtab :=
  (tab.search (key.setWidth 32) fun p => p.key = key).map fun pos =>
    if pos = 0 then (tab.grow addrtabLayout).append addrtabLayout ⟨key, val⟩
    else { tab with bucket := Function.update tab.bucket pos { tab.bucket pos with val := val } }

/-- The tables after some calls of `ir_addrtab_set`, each of which is as `ok` says. -/
inductive AddrtabRuns (ok : Addrtab → (BitVec 64 → Option (BitVec 32)) → BitVec 64 → Prop) :
    Addrtab → (BitVec 64 → Option (BitVec 32)) → Prop
  | init {memory : Addrtab} {size : ℕ} : 0 < size → size ≤ 2 ^ 31 →
    AddrtabRuns ok (addrtabInit memory size) fun _ => none
  | set {tab tab' : Addrtab} {M : BitVec 64 → Option (BitVec 32)} {key : BitVec 64} {val : BitVec 32} :
    AddrtabRuns ok tab M → ok tab M key → addrtabSet tab key val = some tab' →
    AddrtabRuns ok tab' (Function.update M key (some val))

/-- The table is the map, and every key can be set. -/
structure AddrtabServes (tab : Addrtab) (M : BitVec 64 → Option (BitVec 32)) : Prop where
  find : ∀ key, addrtabFind tab key = some ((M key).getD invalidVal)
  set : ∀ key val, ∃ tab', addrtabSet tab key val = some tab'

/-- A new bucket has an offset. -/
def AddrtabFits (tab : Addrtab) (M : BitVec 64 → Option (BitVec 32)) (key : BitVec 64) : Prop :=
  M key = none → tab.count * 16 < 2 ^ 32

variable {tab : Addrtab} {M : BitVec 64 → Option (BitVec 32)} {items : List (Bucket (BitVec 64))}

theorem addrtabSet_new (R : Rep addrtabLayout tab items) (hM : Maps items M) (h : M key = none) :
    addrtabSet tab key val = some ((tab.grow addrtabLayout).append addrtabLayout ⟨key, val⟩) := by
  unfold addrtabSet
  rw [hM.search_none R h]
  rfl

/-- The bucket of a key gets the value. -/
theorem addrtabSet_old (R : Rep addrtabLayout tab items) (hM : Maps items M) {v : BitVec 32} (h : M key = some v) :
    ∃ j, items[j]? = some ⟨key, v⟩ ∧ addrtabSet tab key val =
      some { tab with bucket := Function.update tab.bucket (place addrtabLayout j) ⟨key, val⟩ } := by
  obtain ⟨j, hj, hsearch⟩ := hM.search_some R h (key.setWidth 32) fun b hb => congrArg (BitVec.setWidth 32) hb
  refine ⟨j, hj, ?_⟩
  unfold addrtabSet
  rw [hsearch, Option.map_some, if_neg place_ne_zero, R.bucket_eq j _ hj]

theorem addrtab_serves_of_rep (R : Rep addrtabLayout tab items) (hM : Maps items M) : AddrtabServes tab M where
  find := by
    intro key
    unfold addrtabFind
    cases h : M key with
    | none =>
      rw [hM.search_none R h]
      rfl
    | some v =>
      obtain ⟨j, hj, hsearch⟩ := hM.search_some R h (key.setWidth 32) fun b hb => congrArg (BitVec.setWidth 32) hb
      rw [hsearch, Option.map_some, if_neg place_ne_zero, R.bucket_eq j _ hj]
      rfl
  set := by
    intro key val
    cases h : M key with
    | none => exact ⟨_, addrtabSet_new key val R hM h⟩
    | some v =>
      obtain ⟨j, -, hset⟩ := addrtabSet_old key val R hM h
      exact ⟨_, hset⟩

theorem AddrtabRuns.rep (h : AddrtabRuns AddrtabFits tab M) : ∃ items, Rep addrtabLayout tab items ∧ Maps items M := by
  induction h with
  | init hpos hle => exact ⟨[], rep_init _ hpos hle, List.nodup_nil, fun key val => by simp⟩
  | @set tab tab' M key val _ hok hset ih =>
    obtain ⟨items, R, hM⟩ := ih
    cases hkey : M key with
    | none =>
      have hroom : items.length * 16 < 2 ^ 32 := R.count_eq ▸ hok hkey
      rw [addrtabSet_new key val R hM hkey] at hset
      obtain rfl := Option.some.inj hset
      obtain ⟨R', hlen⟩ := R.grow hroom
      exact ⟨_, R'.append hroom hlen _, hM.append hkey val⟩
    | some v =>
      obtain ⟨j, hj, hold⟩ := addrtabSet_old key val R hM hkey
      rw [hold] at hset
      obtain rfl := Option.some.inj hset
      exact ⟨_, R.set hj rfl, hM.set hj val⟩

end Addrtab

end IrJit.Helper
