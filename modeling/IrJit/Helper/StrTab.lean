import IrJit.Helper.HashTab
import IrJit.Load.Strings

/-!
# Helper.StrTab — tables of strings (`ir_strtab.c`, and `ir.c`, 708–745)

A table may have a pool, which has copies of the strings and moves when it grows; without one the buckets point to
the strings of the callers, which stay as they are.
-/

namespace IrJit.Helper

open OffsetTable
open Load (Byte Platform)

/-! ## The tables -/

/-- A `const char*`: an address in a pool, or a string of a caller. -/
inductive Str
  | pool (addr : ℤ)
  | caller (s : List Byte)

/-- The first `len` bytes. -/
def Str.bytes (mem : ℤ → Byte) (len : ℕ) : Str → List Byte
  | .pool addr => (List.range len).map fun i : ℕ => mem (addr + i)
  | .caller s => s.take len

/-- `p->str += offset`. -/
def Str.moved (offset : ℤ) : Str → Str
  | .pool addr => .pool (addr + offset)
  | .caller s => .caller s

/-- `ir_strtab_bucket`, but for `next`. -/
structure StrBucket where
  h : BitVec 32
  len : ℕ
  str : Str
  val : BitVec 32

/-- `ir_strtab`; `mem` is the memory of the pool. -/
structure Strtab where
  tab : Table StrBucket
  buf : Option ℤ
  bufSize : ℕ
  bufTop : ℕ
  mem : ℤ → Byte

/-- `ir_str_hash`. -/
def strHash (p : Platform) (s : List Byte) : BitVec 32 :=
  (s.foldl (fun (h : BitVec 32) ch => (h <<< 5) + h + BitVec.ofInt 32 (p.charValue ch)) 5381) ||| 0x10000000

/-- `ir_strtab_hash_size`. -/
def strtabHashSize (size : BitVec 32) : BitVec 32 := smear size + 1

/-- Buckets of twenty-four bytes. -/
def strtabLayout : Layout StrBucket where
  bytes := 24
  hash := StrBucket.h
  hashSize := strtabHashSize
  bytes_pos := by decide
  four_dvd := by decide
  hashSize_pos := by
    intro size hpos hle
    unfold strtabHashSize
    rw [toNat_smear_succ hpos hle]
    omega
  hashSize_le := by
    intro size hpos hle
    have hlt := smear_lt hpos hle
    unfold strtabHashSize
    rw [toNat_smear_succ hpos hle]
    omega

/-- `ir_strtab_init`; `buf` is where the pool is allocated. -/
def strtabInit (memory : Strtab) (size bufSize : ℕ) (buf : ℤ) : Strtab where
  tab := .init strtabLayout memory.tab size
  buf := if bufSize ≠ 0 then some buf else none
  bufSize := bufSize
  bufTop := 0
  mem := memory.mem

section Operations

variable (p : Platform) (S : Strtab) (s : List Byte)

/-- The loop over the chain of a string. -/
def strtabSearch : Option Offset :=
  S.tab.search (strHash p s) fun b => b.h = strHash p s && b.len = s.length && b.str.bytes S.mem s.length = s

/-- `ir_strtab_find`; no result if the loop does not end. -/
def strtabFind : Option (BitVec 32) :=
  (strtabSearch p S s).map fun pos => if pos = 0 then 0 else (S.tab.bucket pos).val

/-- `a - b` of two `uint32_t`. -/
def sub32 (a b : ℕ) : ℕ := (a + 2 ^ 32 - b) % 2 ^ 32

/-- The loop that doubles the size of the pool; after 32 rounds it has become zero. -/
def doubled (top len : ℕ) : ℕ → ℕ → Option ℕ
  | 0, _ => none
  | rounds + 1, size =>
    let size := size * 2 % 2 ^ 32
    if sub32 size top < (len + 1) % 2 ^ 32 then doubled top len rounds size else some size

/-- The loop that moves the pointers of `i` buckets from `pos` on. -/
def moveStrs (offset : ℤ) : ℕ → ℕ → (Offset → StrBucket) → Offset → StrBucket
  | 0, _, bucket => bucket
  | i + 1, pos, bucket =>
    let b := bucket (OffsetTable.offset pos)
    moveStrs offset i (pos + 24)
      (Function.update bucket (OffsetTable.offset pos) { b with str := b.str.moved offset })

/-- `ir_strtab_grow_buf`; `realloc` puts the pool at `moved`. -/
def strtabGrowBuf (buf : ℤ) (len : ℕ) (moved : ℤ) : Option Strtab :=
  (doubled S.bufTop len 33 S.bufSize).map fun size =>
    { tab :=
        if moved ≠ buf then { S.tab with bucket := moveStrs (moved - buf) S.tab.count 0 S.tab.bucket } else S.tab
      buf := some moved
      bufSize := size
      bufTop := S.bufTop
      mem := fun a => if moved ≤ a ∧ a < moved + S.bufSize then S.mem (a - moved + buf) else S.mem a }

/-- The string is copied to the end of the pool, with a zero behind it. -/
def strtabCopy (buf : ℤ) : Strtab × Str :=
  let start := buf + S.bufTop
  ({ S with
      mem := fun a =>
        if start ≤ a ∧ a < start + s.length then s.getD (a - start).toNat 0
        else if a = start + s.length then 0
        else S.mem a
      bufTop := (S.bufTop + (s.length + 1)) % 2 ^ 32 }, .pool start)

/-- The string of a new bucket. -/
def strtabStore (moved : ℤ) : Option (Strtab × Str) :=
  match S.buf with
  | none => some (S, .caller s)
  | some buf =>
    if sub32 S.bufSize S.bufTop < (s.length + 1) % 2 ^ 32 then
      (strtabGrowBuf S buf (s.length + 1) moved).map fun S => strtabCopy S s moved
    else some (strtabCopy S s buf)

/-- `ir_strtab_lookup`. -/
def strtabLookup (val : BitVec 32) (moved : ℤ) : Option (BitVec 32 × Strtab) :=
  (strtabSearch p S s).bind fun pos =>
    if pos ≠ 0 then some ((S.tab.bucket pos).val, S)
    else
      (strtabStore { S with tab := S.tab.grow strtabLayout } s moved).map fun (S, str) =>
        (val, { S with tab := S.tab.append strtabLayout ⟨strHash p s, s.length, str, val⟩ })

/-- `ir_strtab_update`. -/
def strtabUpdate (val : BitVec 32) : Option (BitVec 32 × Strtab) :=
  (strtabSearch p S s).map fun pos =>
    if pos ≠ 0 then
      (val, { S with tab := { S.tab with bucket := Function.update S.tab.bucket pos { S.tab.bucket pos with val := val } } })
    else (0, S)

end Operations

/-- `ir_stringl`; `memory` and `buf` are what a first call gets from the allocator. -/
def stringl (p : Platform) (memory : Strtab) (buf : ℤ) (ctx : Option Strtab) (s : List Byte) (moved : ℤ) :
    Option (BitVec 32 × Option Strtab) :=
  let S := ctx.getD (strtabInit memory 64 4096 buf)
  (strtabLookup p S s (BitVec.ofNat 32 (S.tab.count + 1)) moved).map fun (idx, S) => (idx, some S)

/-- `ir_get_strl`; strings with a negative index are asked of `ctx->loader`. -/
def getStrl (ctx : Option Strtab) (idx : BitVec 32) : Option (List Byte) :=
  if idx.toInt < 0 then none
  else ctx.map fun S =>
    let b := S.tab.bucket (place strtabLayout (idx.toNat - 1))
    b.str.bytes S.mem b.len

/-! ## Strings and buckets -/

section Rep

variable {p : Platform} {S : Strtab} {items : List StrBucket} {M : List Byte → Option (BitVec 32)} {s : List Byte}
  {val : BitVec 32}

/-- The string of a bucket. -/
def text (S : Strtab) (b : StrBucket) : List Byte := b.str.bytes S.mem b.len

/-- A bucket points into the pool, if there is one. -/
def InPool (S : Strtab) (b : StrBucket) : Prop :=
  match b.str, S.buf with
  | .pool addr, some buf => buf ≤ addr ∧ addr + b.len < buf + S.bufTop
  | .caller s, none => s.length = b.len
  | _, _ => False

/-- The buckets of a table of strings, and the map that they are. -/
structure StrRep (p : Platform) (S : Strtab) (items : List StrBucket) (M : List Byte → Option (BitVec 32)) : Prop where
  rep : Rep strtabLayout S.tab items
  hashes : ∀ b ∈ items, b.h = strHash p (text S b)
  inPool : ∀ b ∈ items, InPool S b
  texts : (items.map (text S)).Nodup
  maps : ∀ s val, M s = some val ↔ ∃ b ∈ items, text S b = s ∧ b.val = val
  pool : S.buf ≠ none → S.bufTop ≤ S.bufSize ∧ 0 < S.bufSize ∧ S.bufSize < 2 ^ 32

theorem length_text {b : StrBucket} (h : InPool S b) : (text S b).length = b.len := by
  unfold InPool at h
  unfold text
  cases hstr : b.str with
  | pool addr =>
    show ((List.range b.len).map _).length = b.len
    rw [List.length_map, List.length_range]
  | caller s =>
    rw [hstr] at h
    cases hbuf : S.buf with
    | some buf =>
      rw [hbuf] at h
      exact h.elim
    | none =>
      rw [hbuf] at h
      show (s.take b.len).length = b.len
      rw [← (h : s.length = b.len), List.take_length]

/-- What the loop asks of a bucket. -/
theorem StrRep.passes_iff (R : StrRep p S items M) {b : StrBucket} (hb : b ∈ items) :
    (b.h = strHash p s && b.len = s.length && b.str.bytes S.mem s.length = s) = true ↔ text S b = s := by
  have hlen := length_text (R.inPool b hb)
  rw [Bool.and_eq_true, Bool.and_eq_true, decide_eq_true_iff, decide_eq_true_iff, decide_eq_true_iff]
  constructor
  · rintro ⟨⟨-, hlen'⟩, hbytes⟩
    rw [← hlen'] at hbytes
    exact hbytes
  · rintro rfl
    refine ⟨⟨R.hashes b hb, hlen.symm⟩, ?_⟩
    rw [hlen]
    rfl

theorem StrRep.text_inj (R : StrRep p S items M) {i j : ℕ} {a b : StrBucket} (hi : items[i]? = some a)
    (hj : items[j]? = some b) (h : text S a = text S b) : i = j := by
  obtain ⟨hilt, hia⟩ := List.getElem?_eq_some_iff.1 hi
  obtain ⟨hjlt, hjb⟩ := List.getElem?_eq_some_iff.1 hj
  have hlen : (items.map (text S)).length = items.length := List.length_map _
  have hik : i < (items.map (text S)).length := by omega
  have hjk : j < (items.map (text S)).length := by omega
  have htexts : (items.map (text S))[i] = (items.map (text S))[j] := by
    rw [List.getElem_map, List.getElem_map, hia, hjb, h]
  exact R.texts.getElem_inj_iff.1 htexts

theorem StrRep.not_text (R : StrRep p S items M) (h : M s = none) : ∀ b ∈ items, text S b ≠ s := by
  intro b hb htext
  rw [(R.maps s b.val).2 ⟨b, hb, htext, rfl⟩] at h
  exact absurd h (by simp)

theorem StrRep.search_none (R : StrRep p S items M) (h : M s = none) : strtabSearch p S s = some 0 := by
  refine R.rep.search_none fun b hb => ?_
  rw [Bool.eq_false_iff]
  exact fun hpass => R.not_text h b hb ((R.passes_iff hb).1 hpass)

theorem StrRep.search_some (R : StrRep p S items M) (h : M s = some val) :
    ∃ j b, items[j]? = some b ∧ text S b = s ∧ b.val = val ∧ strtabSearch p S s = some (place strtabLayout j) := by
  obtain ⟨b, hb, htext, hval⟩ := (R.maps s val).1 h
  obtain ⟨j, hj⟩ := List.mem_iff_getElem?.1 hb
  refine ⟨j, b, hj, htext, hval, R.rep.search_some (fun a ha hpass => ?_) hj ((R.passes_iff hb).2 htext) ?_⟩
  · rw [Bool.and_eq_true, Bool.and_eq_true, decide_eq_true_iff] at hpass
    exact hpass.1.1
  · intro i a hi hpass
    have ha := List.mem_of_getElem? hi
    exact R.text_inj hi hj (((R.passes_iff ha).1 hpass).trans htext.symm)

/-- The strings stay where the buckets are changed, as long as hash values, lengths and values stay. -/
theorem StrRep.map (R : StrRep p S items M) {S' : Strtab} {f : StrBucket → StrBucket}
    (hrep : Rep strtabLayout S'.tab (items.map f)) (hh : ∀ b ∈ items, (f b).h = b.h)
    (hval : ∀ b ∈ items, (f b).val = b.val) (htext : ∀ b ∈ items, text S' (f b) = text S b)
    (hin : ∀ b ∈ items, InPool S' (f b))
    (hpool : S'.buf ≠ none → S'.bufTop ≤ S'.bufSize ∧ 0 < S'.bufSize ∧ S'.bufSize < 2 ^ 32) :
    StrRep p S' (items.map f) M where
  rep := hrep
  hashes := by
    intro b hb
    obtain ⟨a, ha, rfl⟩ := List.mem_map.1 hb
    rw [hh a ha, R.hashes a ha, htext a ha]
  inPool := by
    intro b hb
    obtain ⟨a, ha, rfl⟩ := List.mem_map.1 hb
    exact hin a ha
  texts := by
    have htexts : (items.map f).map (text S') = items.map (text S) := by
      rw [List.map_map]
      exact List.map_congr_left htext
    rw [htexts]
    exact R.texts
  maps := by
    intro s val
    rw [R.maps]
    constructor
    · rintro ⟨b, hb, hs, hv⟩
      exact ⟨f b, List.mem_map_of_mem hb, (htext b hb).trans hs, (hval b hb).trans hv⟩
    · rintro ⟨b, hb, hs, hv⟩
      obtain ⟨a, ha, rfl⟩ := List.mem_map.1 hb
      exact ⟨a, ha, (htext a ha).symm.trans hs, (hval a ha).symm.trans hv⟩
  pool := hpool

/-- Only the table changes, with the same buckets. -/
theorem StrRep.withTab (R : StrRep p S items M) {tab : Table StrBucket} (hrep : Rep strtabLayout tab items) :
    StrRep p { S with tab := tab } items M :=
  ⟨hrep, R.hashes, R.inPool, R.texts, R.maps, R.pool⟩

/-- Bytes at an address, compared one by one. -/
theorem bytes_congr {mem mem' : ℤ → Byte} {addr addr' : ℤ} {len : ℕ}
    (h : ∀ i < len, mem' (addr' + (i : ℕ)) = mem (addr + (i : ℕ))) :
    (Str.pool addr').bytes mem' len = (Str.pool addr).bytes mem len :=
  List.map_congr_left fun i hi => h i (List.mem_range.1 hi)

/-- A bucket with a pool points into it. -/
theorem InPool.addr {b : StrBucket} {buf : ℤ} (h : InPool S b) (hbuf : S.buf = some buf) :
    ∃ addr, b.str = .pool addr ∧ buf ≤ addr ∧ addr + b.len < buf + S.bufTop := by
  unfold InPool at h
  rw [hbuf] at h
  cases hstr : b.str with
  | pool addr =>
    rw [hstr] at h
    exact ⟨addr, rfl, h⟩
  | caller s =>
    rw [hstr] at h
    exact h.elim

/-- The end of the pool is free for a copy. -/
theorem StrRep.copy (R : StrRep p S items M) {buf : ℤ} (hbuf : S.buf = some buf)
    (hroom : S.bufTop + s.length + 1 ≤ S.bufSize) :
    StrRep p (strtabCopy S s buf).1 items M ∧ (strtabCopy S s buf).2.bytes (strtabCopy S s buf).1.mem s.length = s ∧
      ∀ h val, InPool (strtabCopy S s buf).1 ⟨h, s.length, (strtabCopy S s buf).2, val⟩ := by
  obtain ⟨htop, hpos, hsize⟩ := R.pool (by rw [hbuf]; exact Option.some_ne_none buf)
  have hnewTop : (strtabCopy S s buf).1.bufTop = S.bufTop + (s.length + 1) := Nat.mod_eq_of_lt (by omega)
  have hnewBuf : (strtabCopy S s buf).1.buf = some buf := hbuf
  have hnewSize : (strtabCopy S s buf).1.bufSize = S.bufSize := rfl
  have hbelow : ∀ a : ℤ, a < buf + S.bufTop → (strtabCopy S s buf).1.mem a = S.mem a := by
    intro a ha
    show (if _ then _ else if _ then _ else _) = _
    rw [if_neg (by omega), if_neg (by omega)]
  refine ⟨?_, ?_, fun h val => ?_⟩
  · have hmap : StrRep p (strtabCopy S s buf).1 (items.map id) M := by
      refine R.map ?_ (fun _ _ => rfl) (fun _ _ => rfl) (fun b hb => ?_) (fun b hb => ?_) ?_
      · rw [List.map_id]
        exact R.rep
      · obtain ⟨addr, hstr, hge, hlt⟩ := (R.inPool b hb).addr hbuf
        show b.str.bytes _ b.len = b.str.bytes _ b.len
        rw [hstr]
        exact bytes_congr fun i hi => hbelow _ (by omega)
      · obtain ⟨addr, hstr, hge, hlt⟩ := (R.inPool b hb).addr hbuf
        unfold InPool
        rw [id, hstr, hnewBuf, hnewTop]
        exact ⟨hge, by push_cast; omega⟩
      · intro _
        rw [hnewTop, hnewSize]
        omega
    rw [List.map_id] at hmap
    exact hmap
  · apply List.ext_getElem?
    intro i
    show ((List.range s.length).map _)[i]? = s[i]?
    rw [List.getElem?_map]
    by_cases hi : i < s.length
    · rw [List.getElem?_range hi]
      have hsub : buf + S.bufTop + (i : ℤ) - (buf + S.bufTop) = i := by omega
      show some (if _ then _ else _) = _
      rw [if_pos ⟨by omega, by omega⟩, hsub, Int.toNat_natCast, List.getD_eq_getElem?_getD,
        List.getElem?_eq_getElem hi]
      rfl
    · rw [List.getElem?_eq_none (by simpa using hi), List.getElem?_eq_none (by omega)]
      rfl
  · unfold InPool
    rw [hnewBuf, hnewTop]
    show buf ≤ buf + S.bufTop ∧ buf + S.bufTop + (s.length : ℤ) < buf + ((S.bufTop + (s.length + 1) : ℕ) : ℤ)
    push_cast
    omega

/-- Doubling ends, with a size that is large enough. -/
theorem doubled_spec {top len : ℕ} (hneed : top + len + 1 ≤ 2 ^ 31) : ∀ {rounds size : ℕ}, 0 < size → top ≤ size →
    size < top + len + 1 → top + len + 1 ≤ size * 2 ^ rounds →
      ∃ size', doubled top len rounds size = some size' ∧ top + len + 1 ≤ size' ∧ size' < 2 ^ 32
  | 0, size, _, _, hsmall, hrounds => by
    rw [Nat.pow_zero, Nat.mul_one] at hrounds
    omega
  | rounds + 1, size, hpos, htop, hsmall, hrounds => by
    have hdouble : size * 2 % 2 ^ 32 = size * 2 := Nat.mod_eq_of_lt (by omega)
    have hsub : sub32 (size * 2) top = size * 2 - top := by
      unfold sub32
      have hsplit : size * 2 + 2 ^ 32 - top = size * 2 - top + 2 ^ 32 := by omega
      rw [hsplit, Nat.add_mod_right]
      exact Nat.mod_eq_of_lt (by omega)
    have hlen : (len + 1) % 2 ^ 32 = len + 1 := Nat.mod_eq_of_lt (by omega)
    rw [doubled, hdouble, hsub, hlen]
    by_cases hless : size * 2 - top < len + 1
    · rw [if_pos hless]
      refine doubled_spec hneed (by omega) (by omega) (by omega) ?_
      rw [Nat.mul_assoc, ← Nat.pow_succ']
      exact hrounds
    · rw [if_neg hless]
      exact ⟨size * 2, rfl, by omega, by omega⟩

/-- The loop moves the pointers of the buckets from the `n`-th on. -/
theorem moveStrs_spec (d : ℤ) (i n : ℕ) (bucket : Offset → StrBucket) :
    (∀ j, n ≤ j → j < n + i → moveStrs d i (n * 24) bucket (place strtabLayout j) =
      { bucket (place strtabLayout j) with str := (bucket (place strtabLayout j)).str.moved d }) ∧
    ∀ j < n, moveStrs d i (n * 24) bucket (place strtabLayout j) = bucket (place strtabLayout j) := by
  induction i generalizing n bucket with
  | zero => exact ⟨fun j hge hlt => by omega, fun j _ => rfl⟩
  | succ i ih =>
    have hnext : n * 24 + 24 = (n + 1) * 24 := by omega
    rw [moveStrs, hnext]
    obtain ⟨hmoved, hkept⟩ := ih (n + 1) (Function.update bucket (place strtabLayout n)
      { bucket (place strtabLayout n) with str := (bucket (place strtabLayout n)).str.moved d })
    refine ⟨fun j hge hlt => ?_, fun j hj => ?_⟩
    · by_cases hjn : j = n
      · subst hjn
        refine (hkept j (Nat.lt_succ_self j)).trans ?_
        rw [Function.update_self]
      · refine (hmoved j (by omega) (by omega)).trans ?_
        rw [Function.update_of_ne fun h => hjn (place_inj h)]
    · refine (hkept j (by omega)).trans ?_
      rw [Function.update_of_ne fun h => absurd (place_inj h) (by omega)]

/-- Moving nothing. -/
theorem moved_zero (b : StrBucket) : { b with str := b.str.moved 0 } = b := by
  have hstr : b.str.moved 0 = b.str := by
    cases b.str with
    | pool addr =>
      show Str.pool (addr + 0) = _
      rw [Int.add_zero]
    | caller s => rfl
  rw [hstr]

/-- The pool grows, and the strings move with it. -/
theorem StrRep.growBuf (R : StrRep p S items M) {buf : ℤ} (hbuf : S.buf = some buf) (moved : ℤ)
    (hneed : S.bufTop + s.length + 2 ≤ 2 ^ 31) (hsmall : S.bufSize < S.bufTop + s.length + 1) :
    ∃ S', strtabGrowBuf S buf (s.length + 1) moved = some S' ∧ S'.buf = some moved ∧
      S'.bufTop + s.length + 1 ≤ S'.bufSize ∧ S'.tab.size = S.tab.size ∧
        StrRep p S' (items.map fun b => { b with str := b.str.moved (moved - buf) }) M := by
  obtain ⟨htop, hpos, hsize⟩ := R.pool (by rw [hbuf]; exact Option.some_ne_none buf)
  have hlimit : S.bufTop + (s.length + 1) + 1 ≤ 2 ^ 31 := by omega
  have hrounds : S.bufTop + (s.length + 1) + 1 ≤ S.bufSize * 2 ^ 33 := by omega
  obtain ⟨size, hdoubled, hge, hlt⟩ := doubled_spec hlimit hpos htop (by omega) hrounds
  refine ⟨_, by rw [strtabGrowBuf, hdoubled, Option.map_some], rfl, ?_, ?_, ?_⟩
  · dsimp only
    omega
  · dsimp only
    split_ifs <;> rfl
  · refine R.map ?_ (fun _ _ => rfl) (fun _ _ => rfl) (fun b hb => ?_) (fun b hb => ?_) fun _ => ?_
    · dsimp only
      by_cases hsame : moved = buf
      · have hid : (items.map fun b => { b with str := b.str.moved (moved - buf) }) = items := by
          rw [hsame, Int.sub_self]
          exact (List.map_congr_left fun b _ => moved_zero b).trans (List.map_id _)
        rw [if_neg (not_not.2 hsame), hid]
        exact R.rep
      · rw [if_pos hsame]
        refine R.rep.map (fun b => { b with str := b.str.moved (moved - buf) }) (fun _ _ => rfl) fun j hj => ?_
        have hspec := (moveStrs_spec (moved - buf) S.tab.count 0 S.tab.bucket).1 j (Nat.zero_le j)
          (by rw [R.rep.count_eq]; omega)
        rw [Nat.zero_mul] at hspec
        exact hspec
    · obtain ⟨addr, hstr, haddr, hend⟩ := (R.inPool b hb).addr hbuf
      show (b.str.moved (moved - buf)).bytes _ b.len = b.str.bytes _ b.len
      rw [hstr]
      refine bytes_congr fun i hi => ?_
      dsimp only
      rw [if_pos ⟨by omega, by omega⟩]
      congr 1
      omega
    · obtain ⟨addr, hstr, haddr, hend⟩ := (R.inPool b hb).addr hbuf
      unfold InPool
      dsimp only
      rw [hstr]
      show moved ≤ addr + (moved - buf) ∧ addr + (moved - buf) + (b.len : ℤ) < moved + S.bufTop
      omega
    · dsimp only
      omega

/-- A new bucket behind the others has an own string in the pool, or the one of the caller. -/
theorem StrRep.store (R : StrRep p S items M) (moved : ℤ) (hfits : S.buf ≠ none → S.bufTop + s.length + 2 ≤ 2 ^ 31) :
    ∃ S' str f, strtabStore S s moved = some (S', str) ∧ StrRep p S' (items.map f) M ∧
      (∀ b, (f b).val = b.val) ∧ S'.tab.size = S.tab.size ∧ str.bytes S'.mem s.length = s ∧
        ∀ h val, InPool S' ⟨h, s.length, str, val⟩ := by
  unfold strtabStore
  cases hbuf : S.buf with
  | none =>
    refine ⟨S, .caller s, id, rfl, by rw [List.map_id]; exact R, fun _ => rfl, rfl, List.take_length, fun h val => ?_⟩
    unfold InPool
    rw [hbuf]
  | some buf =>
    have hneed := hfits (by rw [hbuf]; exact Option.some_ne_none buf)
    obtain ⟨htop, hpos, hsize⟩ := R.pool (by rw [hbuf]; exact Option.some_ne_none buf)
    have hlen : (s.length + 1) % 2 ^ 32 = s.length + 1 := Nat.mod_eq_of_lt (by omega)
    have hsub : sub32 S.bufSize S.bufTop = S.bufSize - S.bufTop := by
      unfold sub32
      have hsplit : S.bufSize + 2 ^ 32 - S.bufTop = S.bufSize - S.bufTop + 2 ^ 32 := by omega
      rw [hsplit, Nat.add_mod_right]
      exact Nat.mod_eq_of_lt (by omega)
    dsimp only
    rw [hsub, hlen]
    by_cases hfull : S.bufSize - S.bufTop < s.length + 1
    · rw [if_pos hfull]
      obtain ⟨S', hgrow, hbuf', hroom, htab, R'⟩ := R.growBuf hbuf moved hneed (by omega)
      obtain ⟨R'', hbytes, hin⟩ := R'.copy hbuf' hroom
      refine ⟨_, _, _, by rw [hgrow]; rfl, R'', fun _ => rfl, htab, hbytes, hin⟩
    · rw [if_neg hfull]
      have hroom : S.bufTop + s.length + 1 ≤ S.bufSize := by omega
      obtain ⟨R', hbytes, hin⟩ := R.copy hbuf hroom
      refine ⟨_, _, id, rfl, by rw [List.map_id]; exact R', fun _ => rfl, rfl, hbytes, hin⟩

/-- A new bucket for a new string. -/
theorem StrRep.append (R : StrRep p S items M) (h : M s = none) (hroom : items.length * 24 < 2 ^ 32)
    (hlen : items.length < S.tab.size) {str : Str} (hbytes : str.bytes S.mem s.length = s)
    (hin : ∀ h val, InPool S ⟨h, s.length, str, val⟩) (val : BitVec 32) :
    StrRep p { S with tab := S.tab.append strtabLayout ⟨strHash p s, s.length, str, val⟩ }
      (items ++ [⟨strHash p s, s.length, str, val⟩]) (Function.update M s (some val)) where
  rep := R.rep.append hroom hlen _
  hashes := by
    intro b hb
    rcases List.mem_append.1 hb with hb | hb
    · exact R.hashes b hb
    · rw [List.mem_singleton.1 hb]
      exact congrArg (strHash p) hbytes.symm
  inPool := by
    intro b hb
    rcases List.mem_append.1 hb with hb | hb
    · exact R.inPool b hb
    · rw [List.mem_singleton.1 hb]
      exact hin _ _
  texts := by
    rw [List.map_append, List.map_singleton]
    refine List.nodup_append.2 ⟨R.texts, List.nodup_singleton _, fun t ht t' ht' => ?_⟩
    obtain ⟨b, hb, rfl⟩ := List.mem_map.1 ht
    rw [List.mem_singleton.1 ht']
    intro heq
    exact R.not_text h b hb (heq.trans hbytes)
  maps := by
    intro t v
    by_cases ht : t = s
    · subst ht
      rw [Function.update_self, Option.some_inj]
      constructor
      · rintro rfl
        exact ⟨_, List.mem_append_right _ (List.mem_singleton_self _), hbytes, rfl⟩
      · rintro ⟨b, hb, htext, hval⟩
        rcases List.mem_append.1 hb with hb | hb
        · exact absurd htext (R.not_text h b hb)
        · rw [List.mem_singleton.1 hb] at hval
          exact hval
    · rw [Function.update_of_ne ht, R.maps]
      constructor
      · rintro ⟨b, hb, htext, hval⟩
        exact ⟨b, List.mem_append_left _ hb, htext, hval⟩
      · rintro ⟨b, hb, htext, hval⟩
        rcases List.mem_append.1 hb with hb | hb
        · exact ⟨b, hb, htext, hval⟩
        · rw [List.mem_singleton.1 hb] at htext
          exact absurd (htext.symm.trans hbytes) ht
  pool := R.pool

/-- What a lookup of a new string needs: an offset for its bucket, and a pool of at most `2 ^ 31` bytes. -/
def StrtabFits (S : Strtab) (M : List Byte → Option (BitVec 32)) (s : List Byte) : Prop :=
  M s = none → S.tab.count * 24 < 2 ^ 32 ∧ (S.buf ≠ none → S.bufTop + s.length + 2 ≤ 2 ^ 31)

/-- A new string is stored. -/
theorem StrRep.lookup_new (R : StrRep p S items M) (h : M s = none) (hfits : StrtabFits S M s) (val : BitVec 32)
    (moved : ℤ) : ∃ S' f b, strtabLookup p S s val moved = some (val, S') ∧
      StrRep p S' (items.map f ++ [b]) (Function.update M s (some val)) ∧ (∀ b, (f b).val = b.val) ∧ b.val = val := by
  obtain ⟨hcount, hpool⟩ := hfits h
  have hroom : items.length * 24 < 2 ^ 32 := R.rep.count_eq ▸ hcount
  obtain ⟨hgrown, hlen⟩ := R.rep.grow hroom
  obtain ⟨S', str, f, hstore, R', hval, hsize, hbytes, hin⟩ := (R.withTab hgrown).store moved hpool
  have hlen' : (items.map f).length = items.length := List.length_map f
  have hnew := R'.append h (by rw [hlen']; exact hroom) (by rw [hlen', hsize]; exact hlen) hbytes hin val
  refine ⟨_, f, _, ?_, hnew, hval, rfl⟩
  unfold strtabLookup
  rw [R.search_none h, Option.bind_some, if_neg (not_not.2 rfl), hstore]
  rfl

/-- A string that is known has its value. -/
theorem StrRep.lookup_old (R : StrRep p S items M) {v : BitVec 32} (h : M s = some v) (val : BitVec 32) (moved : ℤ) :
    strtabLookup p S s val moved = some (v, S) := by
  obtain ⟨j, b, hj, -, hval, hsearch⟩ := R.search_some h
  unfold strtabLookup
  rw [hsearch, Option.bind_some, if_pos place_ne_zero, R.rep.bucket_eq j b hj, hval]

theorem StrRep.find_eq (R : StrRep p S items M) (s : List Byte) : strtabFind p S s = some ((M s).getD 0) := by
  unfold strtabFind
  cases h : M s with
  | none =>
    rw [R.search_none h]
    rfl
  | some v =>
    obtain ⟨j, b, hj, -, hval, hsearch⟩ := R.search_some h
    rw [hsearch, Option.map_some, if_neg place_ne_zero, R.rep.bucket_eq j b hj, hval]
    rfl

theorem StrRep.update_new (R : StrRep p S items M) (h : M s = none) (val : BitVec 32) :
    strtabUpdate p S s val = some (0, S) := by
  unfold strtabUpdate
  rw [R.search_none h]
  rfl

/-- An update changes the value of a string that is known. -/
theorem StrRep.update_old (R : StrRep p S items M) {v : BitVec 32} (h : M s = some v) (val : BitVec 32) :
    ∃ S' items', strtabUpdate p S s val = some (val, S') ∧ StrRep p S' items' (Function.update M s (some val)) := by
  obtain ⟨j, b, hj, htext, hval, hsearch⟩ := R.search_some h
  have hb := List.mem_of_getElem? hj
  have hgets : ∀ i, (items.set j { b with val := val })[i]? =
      if i = j then some { b with val := val } else items[i]? := by
    intro i
    obtain ⟨hlt, -⟩ := List.getElem?_eq_some_iff.1 hj
    by_cases hij : i = j
    · subst hij
      rw [if_pos rfl, List.getElem?_set_self hlt]
    · rw [if_neg hij, List.getElem?_set_ne (Ne.symm hij)]
  have hset : ∀ a ∈ items.set j { b with val := val }, a = { b with val := val } ∨ a ∈ items := fun a ha =>
    (List.mem_or_eq_of_mem_set ha).symm
  refine ⟨{ S with tab := { S.tab with
    bucket := Function.update S.tab.bucket (place strtabLayout j) { b with val := val } } },
    items.set j { b with val := val }, ?_, ?_⟩
  · unfold strtabUpdate
    rw [hsearch, Option.map_some, if_pos place_ne_zero, R.rep.bucket_eq j b hj]
  · refine ⟨R.rep.set hj rfl, fun a ha => ?_, fun a ha => ?_, ?_, fun t w => ?_, R.pool⟩
    · rcases hset a ha with rfl | ha
      · exact R.hashes b hb
      · exact R.hashes a ha
    · rcases hset a ha with rfl | ha
      · exact R.inPool b hb
      · exact R.inPool a ha
    · have htexts : (items.set j { b with val := val }).map (text S) = items.map (text S) := by
        apply List.ext_getElem?
        intro i
        rw [List.getElem?_map, List.getElem?_map, hgets]
        split_ifs with hij
        · subst hij
          rw [hj]
          rfl
        · rfl
      show ((items.set j { b with val := val }).map (text S)).Nodup
      rw [htexts]
      exact R.texts
    · show _ ↔ ∃ a ∈ items.set j { b with val := val }, text S a = t ∧ a.val = w
      by_cases ht : t = s
      · subst ht
        rw [Function.update_self, Option.some_inj]
        constructor
        · rintro rfl
          exact ⟨{ b with val := val }, List.mem_iff_getElem?.2 ⟨j, by rw [hgets, if_pos rfl]⟩, htext, rfl⟩
        · rintro ⟨a, ha, hat, rfl⟩
          obtain ⟨i, hi⟩ := List.mem_iff_getElem?.1 ha
          rw [hgets] at hi
          split_ifs at hi with hij
          · exact congrArg StrBucket.val (Option.some.inj hi)
          · exact absurd (R.text_inj hi hj (hat.trans htext.symm)) hij
      · rw [Function.update_of_ne ht, R.maps]
        constructor
        · rintro ⟨a, ha, hat, haw⟩
          obtain ⟨i, hi⟩ := List.mem_iff_getElem?.1 ha
          have hij : i ≠ j := by
            rintro rfl
            rw [hj] at hi
            exact ht (hat.symm.trans ((congrArg (text S) (Option.some.inj hi)).symm.trans htext))
          exact ⟨a, List.mem_iff_getElem?.2 ⟨i, by rw [hgets, if_neg hij, hi]⟩, hat, haw⟩
        · rintro ⟨a, ha, hat, haw⟩
          rcases hset a ha with rfl | ha
          · exact absurd (hat.symm.trans htext) ht
          · exact ⟨a, ha, hat, haw⟩

end Rep

/-! ## Runs -/

section Runs

variable {p : Platform} {S : Strtab} {M : List Byte → Option (BitVec 32)}

/-- The tables after some calls, with the map after them; each lookup is as `ok` says. -/
inductive StrtabRuns (p : Platform) (ok : Strtab → (List Byte → Option (BitVec 32)) → List Byte → Prop) :
    Strtab → (List Byte → Option (BitVec 32)) → Prop
  | init {memory : Strtab} {size bufSize : ℕ} {buf : ℤ} : 0 < size → size ≤ 2 ^ 31 → bufSize < 2 ^ 32 →
    StrtabRuns p ok (strtabInit memory size bufSize buf) fun _ => none
  | lookup {S S' : Strtab} {M : List Byte → Option (BitVec 32)} {s : List Byte} {val v : BitVec 32} {moved : ℤ} :
    StrtabRuns p ok S M → ok S M s → strtabLookup p S s val moved = some (v, S') →
    StrtabRuns p ok S' (if M s = none then Function.update M s (some val) else M)
  | update {S S' : Strtab} {M : List Byte → Option (BitVec 32)} {s : List Byte} {val v : BitVec 32} :
    StrtabRuns p ok S M → strtabUpdate p S s val = some (v, S') →
    StrtabRuns p ok S' (if M s = none then M else Function.update M s (some val))

/-- The table is the map: a lookup returns the value that a string has or else gets. -/
structure StrtabServes (p : Platform) (ok : Strtab → (List Byte → Option (BitVec 32)) → List Byte → Prop) (S : Strtab)
    (M : List Byte → Option (BitVec 32)) : Prop where
  find : ∀ s, strtabFind p S s = some ((M s).getD 0)
  lookup : ∀ s val moved, ok S M s → ∃ S', strtabLookup p S s val moved = some ((M s).getD val, S')
  update : ∀ s val, ∃ S', strtabUpdate p S s val = some (if M s = none then 0 else val, S')

theorem strRep_init (memory : Strtab) {size bufSize : ℕ} (buf : ℤ) (hpos : 0 < size) (hle : size ≤ 2 ^ 31)
    (hbuf : bufSize < 2 ^ 32) : StrRep p (strtabInit memory size bufSize buf) [] fun _ => none where
  rep := rep_init _ hpos hle
  hashes := fun b hb => absurd hb List.not_mem_nil
  inPool := fun b hb => absurd hb List.not_mem_nil
  texts := List.nodup_nil
  maps := by simp
  pool := by
    intro hne
    have hsize : bufSize ≠ 0 := fun h => hne (if_neg (not_not.2 h))
    exact ⟨Nat.zero_le _, Nat.pos_of_ne_zero hsize, hbuf⟩

/-- The table after some calls has the buckets of a map. -/
theorem StrtabRuns.rep (h : StrtabRuns p StrtabFits S M) : ∃ items, StrRep p S items M := by
  induction h with
  | init hpos hle hbuf => exact ⟨[], strRep_init _ _ hpos hle hbuf⟩
  | @lookup S S' M s val v moved _ hok hlookup ih =>
    obtain ⟨items, R⟩ := ih
    cases hs : M s with
    | none =>
      obtain ⟨S'', f, b, hnew, R', -⟩ := R.lookup_new hs hok val moved
      rw [hlookup] at hnew
      obtain rfl := congrArg Prod.snd (Option.some.inj hnew)
      rw [if_pos rfl]
      exact ⟨_, R'⟩
    | some w =>
      rw [R.lookup_old hs val moved] at hlookup
      obtain rfl := congrArg Prod.snd (Option.some.inj hlookup)
      rw [if_neg (Option.some_ne_none w)]
      exact ⟨items, R⟩
  | @update S S' M s val v _ hupdate ih =>
    obtain ⟨items, R⟩ := ih
    cases hs : M s with
    | none =>
      rw [R.update_new hs val] at hupdate
      obtain rfl := congrArg Prod.snd (Option.some.inj hupdate)
      rw [if_pos rfl]
      exact ⟨items, R⟩
    | some w =>
      obtain ⟨S'', items', hold, R'⟩ := R.update_old hs val
      rw [hupdate] at hold
      obtain rfl := congrArg Prod.snd (Option.some.inj hold)
      rw [if_neg (Option.some_ne_none w)]
      exact ⟨items', R'⟩

theorem StrRep.serves {items : List StrBucket} (R : StrRep p S items M) :
    StrtabServes p StrtabFits S M where
  find := R.find_eq
  lookup := by
    intro s val moved hfits
    cases hs : M s with
    | none =>
      obtain ⟨S', f, b, hnew, -⟩ := R.lookup_new hs hfits val moved
      exact ⟨S', hnew⟩
    | some w => exact ⟨S, R.lookup_old hs val moved⟩
  update := by
    intro s val
    cases hs : M s with
    | none =>
      rw [if_pos rfl]
      exact ⟨S, R.update_new hs val⟩
    | some w =>
      obtain ⟨S', items', hold, -⟩ := R.update_old hs val
      rw [if_neg (Option.some_ne_none w)]
      exact ⟨S', hold⟩

end Runs

/-! ## Strings by indexes -/

section Strings

variable {p : Platform} {ctx : Option Strtab} {calls : List (List Byte × BitVec 32)}

/-- The tables after some calls of `ir_stringl`, with the strings and the indexes they got; each call is as `ok`
says.  `ir_string` is a call for the bytes before a zero. -/
inductive StringRuns (p : Platform) (ok : Option Strtab → List (List Byte × BitVec 32) → List Byte → Prop) :
    Option Strtab → List (List Byte × BitVec 32) → Prop
  | start : StringRuns p ok none []
  | call {memory : Strtab} {buf moved : ℤ} {ctx ctx' : Option Strtab} {calls : List (List Byte × BitVec 32)}
      {s : List Byte} {idx : BitVec 32} :
    StringRuns p ok ctx calls → ok ctx calls s → stringl p memory buf ctx s moved = some (idx, ctx') →
    StringRuns p ok ctx' ((s, idx) :: calls)

/-- What a new string needs. -/
def StringFits (ctx : Option Strtab) (calls : List (List Byte × BitVec 32)) (s : List Byte) : Prop :=
  (∀ c ∈ calls, c.1 ≠ s) → ctx.elim 0 (·.tab.count) * 24 < 2 ^ 32 ∧ ctx.elim 0 Strtab.bufTop + s.length + 2 ≤ 2 ^ 31

/-- Indexes give back the strings, equal ones exactly for equal strings, and every string gets one. -/
structure StringServes (p : Platform) (ok : Option Strtab → List (List Byte × BitVec 32) → List Byte → Prop)
    (ctx : Option Strtab) (calls : List (List Byte × BitVec 32)) : Prop where
  get : ∀ c ∈ calls, getStrl ctx c.2 = some c.1
  inj : ∀ c ∈ calls, ∀ c' ∈ calls, c.2 = c'.2 ↔ c.1 = c'.1
  call : ∀ memory buf s moved, ok ctx calls s → ∃ idx ctx', stringl p memory buf ctx s moved = some (idx, ctx')

/-- The buckets of a table of indexes. -/
structure StringRep (p : Platform) (S : Strtab) (items : List StrBucket) (M : List Byte → Option (BitVec 32))
    (calls : List (List Byte × BitVec 32)) : Prop where
  strings : StrRep p S items M
  indexes : ∀ j b, items[j]? = some b → b.val = BitVec.ofNat 32 (j + 1)
  calls : ∀ c : List Byte × BitVec 32, c ∈ calls ↔ M c.1 = some c.2

/-- The table of a context: the one it has, or the one that a first call makes. -/
def StringTable (p : Platform) (ctx : Option Strtab) (calls : List (List Byte × BitVec 32)) : Prop :=
  match ctx with
  | none => calls = []
  | some S => ∃ items M, StringRep p S items M calls

theorem stringRep_init (memory : Strtab) (buf : ℤ) :
    StringRep p (strtabInit memory 64 4096 buf) [] (fun _ => none) [] where
  strings := strRep_init memory buf (by decide) (by decide) (by decide)
  indexes := fun j b h => absurd h (by simp)
  calls := by simp

/-- One call. -/
theorem StringRep.call {S : Strtab} {items : List StrBucket} {M : List Byte → Option (BitVec 32)}
    (R : StringRep p S items M calls) {s : List Byte}
    (hfits : StringFits (some S) calls s) (moved : ℤ) :
    ∃ idx S', strtabLookup p S s (BitVec.ofNat 32 (S.tab.count + 1)) moved = some (idx, S') ∧
      ∃ items' M', StringRep p S' items' M' ((s, idx) :: calls) := by
  cases hs : M s with
  | none =>
    have hnew : ∀ c ∈ calls, c.1 ≠ s := by
      rintro c hc rfl
      rw [(R.calls c).1 hc] at hs
      exact absurd hs (Option.some_ne_none _)
    obtain ⟨hcount, hpool⟩ := hfits hnew
    obtain ⟨S', f, b, hlookup, R', hf, hb⟩ := R.strings.lookup_new hs (fun _ => ⟨hcount, fun _ => hpool⟩)
      (BitVec.ofNat 32 (S.tab.count + 1)) moved
    have hlen : (items.map f).length = items.length := List.length_map f
    refine ⟨_, S', hlookup, _, _, R', fun j a ha => ?_, fun c => ?_⟩
    · rcases getElem?_append_singleton ha with hold | ⟨rfl, rfl⟩
      · rw [List.getElem?_map, Option.map_eq_some_iff] at hold
        obtain ⟨a', ha', rfl⟩ := hold
        rw [hf]
        exact R.indexes j a' ha'
      · rw [hb, hlen, R.strings.rep.count_eq]
    · obtain ⟨t, idx⟩ := c
      rw [List.mem_cons, R.calls, Prod.mk.injEq]
      by_cases ht : t = s
      · subst ht
        rw [Function.update_self, hs, Option.some_inj]
        constructor
        · rintro (⟨-, rfl⟩ | h)
          · rfl
          · exact absurd h.symm (Option.some_ne_none _)
        · rintro rfl
          exact Or.inl ⟨rfl, rfl⟩
      · rw [Function.update_of_ne ht]
        exact ⟨fun h => h.resolve_left fun h => ht h.1, Or.inr⟩
  | some idx =>
    refine ⟨idx, S, R.strings.lookup_old hs _ moved, items, M, R.strings, R.indexes, fun c => ?_⟩
    rw [List.mem_cons, R.calls]
    constructor
    · rintro (rfl | h)
      · exact hs
      · exact h
    · exact Or.inr

theorem stringFits_init {memory : Strtab} {buf : ℤ} {s : List Byte} (h : StringFits none [] s) :
    StringFits (some (strtabInit memory 64 4096 buf)) [] s := h

/-- One call, also the first one. -/
theorem StringTable.call (h : StringTable p ctx calls) {s : List Byte} (hfits : StringFits ctx calls s)
    (memory : Strtab) (buf moved : ℤ) :
    ∃ idx ctx', stringl p memory buf ctx s moved = some (idx, ctx') ∧ StringTable p ctx' ((s, idx) :: calls) := by
  cases ctx with
  | none =>
    obtain rfl : calls = [] := h
    obtain ⟨idx, S', hlookup, R⟩ := (stringRep_init (p := p) memory buf).call (stringFits_init hfits) moved
    refine ⟨idx, some S', ?_, R⟩
    unfold stringl
    rw [Option.getD_none]
    dsimp only
    rw [hlookup]
    rfl
  | some S =>
    obtain ⟨items, M, R⟩ := h
    obtain ⟨idx, S', hlookup, R'⟩ := R.call hfits moved
    refine ⟨idx, some S', ?_, R'⟩
    unfold stringl
    rw [Option.getD_some]
    dsimp only
    rw [hlookup]
    rfl

theorem StringRuns.table (h : StringRuns p StringFits ctx calls) : StringTable p ctx calls := by
  induction h with
  | start => exact rfl
  | @call memory buf moved ctx ctx' calls s idx _ hok hcall ih =>
    obtain ⟨idx', ctx'', hcall', hnext⟩ := ih.call hok memory buf moved
    rw [hcall] at hcall'
    obtain ⟨rfl, rfl⟩ := Prod.mk.inj (Option.some.inj hcall')
    exact hnext

/-- The bucket of an index. -/
theorem StringRep.bucket {S : Strtab} {items : List StrBucket} {M : List Byte → Option (BitVec 32)}
    (R : StringRep p S items M calls) {c : List Byte × BitVec 32} (hc : c ∈ calls) :
    ∃ j b, items[j]? = some b ∧ text S b = c.1 ∧ c.2.toNat = j + 1 ∧ j < 2 ^ 30 := by
  obtain ⟨b, hb, htext, hval⟩ := (R.strings.maps c.1 c.2).1 ((R.calls c).1 hc)
  obtain ⟨j, hj⟩ := List.mem_iff_getElem?.1 hb
  obtain ⟨hlt, -⟩ := List.getElem?_eq_some_iff.1 hj
  have hfits : j * 24 < 2 ^ 32 := R.strings.rep.fits j hlt
  refine ⟨j, b, hj, htext, ?_, by omega⟩
  rw [← hval, R.indexes j b hj, BitVec.toNat_ofNat]
  exact Nat.mod_eq_of_lt (by omega)

theorem StringTable.serves (h : StringTable p ctx calls) : StringServes p StringFits ctx calls where
  get := by
    intro c hc
    cases ctx with
    | none =>
      obtain rfl : calls = [] := h
      exact absurd hc List.not_mem_nil
    | some S =>
      obtain ⟨items, M, R⟩ := h
      obtain ⟨j, b, hj, htext, hidx, hlt⟩ := R.bucket hc
      have hsign : ¬ c.2.toInt < 0 := by
        rw [BitVec.toInt_eq_toNat_cond, if_pos (by omega)]
        omega
      unfold getStrl
      rw [if_neg hsign, Option.map_some, hidx, Nat.add_sub_cancel, R.strings.rep.bucket_eq j b hj]
      exact congrArg some htext
  inj := by
    intro c hc c' hc'
    cases ctx with
    | none =>
      obtain rfl : calls = [] := h
      exact absurd hc List.not_mem_nil
    | some S =>
      obtain ⟨items, M, R⟩ := h
      constructor
      · intro heq
        obtain ⟨j, b, hj, htext, hidx, -⟩ := R.bucket hc
        obtain ⟨j', b', hj', htext', hidx', -⟩ := R.bucket hc'
        rw [heq, hidx', Nat.add_right_cancel_iff] at hidx
        subst hidx
        rw [← htext, ← htext', Option.some.inj (hj.symm.trans hj')]
      · intro heq
        have hval := (R.calls c).1 hc
        rw [heq, (R.calls c').1 hc'] at hval
        exact (Option.some.inj hval).symm
  call := by
    intro memory buf s moved hfits
    obtain ⟨idx, ctx', hcall, -⟩ := h.call hfits memory buf moved
    exact ⟨idx, ctx', hcall⟩

end Strings

/-! ## All tables -/

/-- Every table is the map that its calls make, and sorting orders the buckets by their keys. -/
structure TablesServe (p : Platform) (strOk : Strtab → (List Byte → Option (BitVec 32)) → List Byte → Prop)
    (stringOk : Option Strtab → List (List Byte × BitVec 32) → List Byte → Prop)
    (hashOk : Hashtab → (BitVec 32 → Option (BitVec 32)) → HashtabCall → Prop)
    (addrOk : Addrtab → (BitVec 64 → Option (BitVec 32)) → BitVec 64 → Prop) : Prop where
  strtab : ∀ S M, StrtabRuns p strOk S M → StrtabServes p strOk S M
  string : ∀ ctx calls, StringRuns p stringOk ctx calls → StringServes p stringOk ctx calls
  hashtab : ∀ tab M, HashtabRuns hashOk tab M → HashtabServes tab M
  keySort : ∀ tab M, HashtabRuns hashOk tab M → hashOk tab M .keySort → Ordered (hashtabKeySort tab)
  addrtab : ∀ tab M, AddrtabRuns addrOk tab M → AddrtabServes tab M

theorem tables_serve (p : Platform) : TablesServe p StrtabFits StringFits HashtabFits AddrtabFits where
  strtab := by
    intro S M h
    obtain ⟨items, R⟩ := h.rep
    exact R.serves
  string := fun ctx calls h => h.table.serves
  hashtab := by
    intro tab M h
    obtain ⟨items, R, hM⟩ := h.rep
    exact hashtab_serves_of_rep R hM
  keySort := by
    intro tab M h hok
    obtain ⟨items, R, hM⟩ := h.rep
    exact ordered_hashtabKeySort R hM hok
  addrtab := by
    intro tab M h
    obtain ⟨items, R, hM⟩ := h.rep
    exact addrtab_serves_of_rep R hM

/-- Memory that has zeros. -/
def zeros : Hashtab := ⟨fun _ => 0, fun _ => ⟨0, 0⟩, fun _ => 0, 0, 0, 0, 0⟩

/-- A table for one bucket gets a second one. -/
example : ((hashtabAdd (hashtabInit zeros 1) 5 7).bind fun r => (hashtabAdd r.2 9 8).bind fun r => hashtabFind r.2 5) =
    some 7 := by decide

section Counterexample

/-- A table with room for four buckets. -/
def four : Hashtab := hashtabInit zeros 4

/-- Then the keys `0` and `0x80000001`. -/
def farKeys : Hashtab :=
  ((((four.grow hashtabLayout).append hashtabLayout ⟨0, 0⟩).grow hashtabLayout).append hashtabLayout ⟨0x80000001, 0⟩)

theorem rep_farKeys : Rep hashtabLayout farKeys [⟨0, 0⟩, ⟨0x80000001, 0⟩] := by
  have R : Rep hashtabLayout four [] := rep_init zeros (by decide) (by decide)
  obtain ⟨R₀, hlen₀⟩ := R.grow (by decide)
  have R₁ := R₀.append (by decide) hlen₀ ⟨0, 0⟩
  obtain ⟨R₂, hlen₂⟩ := R₁.grow (by decide)
  exact R₂.append (by decide) hlen₂ ⟨0x80000001, 0⟩

/-- The larger key comes first. -/
theorem not_ordered_farKeys : ¬ Ordered (hashtabKeySort farKeys) := by
  unfold Ordered
  rw [(rep_hashtabKeySort rep_farKeys (by rw [rep_farKeys.count_eq]; decide)).array_eq]
  decide

theorem runs_farKeys : HashtabRuns (fun _ _ _ => True) farKeys
    ((HashtabCall.add 0x80000001 0).effect ((HashtabCall.add 0 0).effect fun _ => none)) := by
  have R : Rep hashtabLayout four [] := rep_init zeros (by decide) (by decide)
  have hM : Maps ([] : List (Bucket (BitVec 32))) fun _ => none := ⟨List.nodup_nil, fun key val => by simp⟩
  have hadd := hashtabAdd_new 0 0 R hM rfl
  obtain ⟨R₀, hlen₀⟩ := R.grow (by decide)
  have R₁ := R₀.append (by decide) hlen₀ ⟨0, 0⟩
  have hM₁ : Maps ([] ++ [⟨0, 0⟩]) (Function.update (fun _ => none) (0 : BitVec 32) (some 0)) := hM.append rfl 0
  have hadd₁ := hashtabAdd_new 0x80000001 0 R₁ hM₁ (by decide)
  exact .add (.add (.init (by decide) (by decide)) trivial hadd) trivial hadd₁

theorem not_tables_serve : ¬ TablesServe ⟨false, true⟩ (fun _ _ _ => True) (fun _ _ _ => True) (fun _ _ _ => True)
    fun _ _ _ => True :=
  fun h => not_ordered_farKeys (h.keySort _ _ runs_farKeys trivial)

end Counterexample

end IrJit.Helper
