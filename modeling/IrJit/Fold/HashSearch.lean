import Mathlib.Data.BitVec
import Mathlib.Data.List.Basic
import Mathlib.Data.List.Nodup
import IrJit.Lib.TwoSlot

/-!
# Fold.HashSearch — the table of the folding rules (`gen_ir_fold_hash.c`, 53–130, and `ir.c`, 960–1014)
-/

namespace IrJit.FoldHash

open TwoSlot (Slots)

/-- `MAX_RULES`. -/
def maxRules : ℕ := 2048

/-- `MAX_SLOTS`. -/
def maxSlots : ℕ := maxRules * 4

/-! ## The generator -/

/-- `IR_FOLD_KEY`. -/
def foldKey (x : BitVec 32) : BitVec 32 := x &&& 0x1fffff

/-- `IR_FOLD_RULE`. -/
def foldRule (x : BitVec 32) : ℕ := (x >>> 21).toNat

/-- `mask[rules] = i | (rules << 21)`. -/
def packed (key : BitVec 32) (rule : ℕ) : BitVec 32 := key ||| (BitVec.ofNat 32 rule <<< 21)

/-- `mask`. -/
def masksOf (keys : List (BitVec 32)) : List (BitVec 32) := keys.zipIdx.map fun (key, rule) => packed key rule

/-- `hash_shl2`. -/
def hashShl2 (mask : BitVec 32) (r1 r2 : ℕ) : BitVec 32 := ((mask <<< r1) - mask) <<< r2

/-- `h` of a mask. -/
def slotOf (n r1 r2 : ℕ) (mask : BitVec 32) : ℕ := (hashShl2 (mask &&& 0x1fffff) r1 r2).toNat % n

/-- What `find_hash` prints. -/
structure Header where
  /-- `_ir_fold_hash` -/
  hash : List (BitVec 32)
  /-- `IR_FOLD_SEMI_PERFECT_HASH` -/
  semiPerfect : Bool
  r1 : ℕ
  r2 : ℕ
  n : ℕ

/-- `print_hash`: the first `count` slots and a zero. -/
def printHash (hash : ℕ → BitVec 32) (count : ℕ) : List (BitVec 32) := (List.range count).map hash ++ [0]

/-- The body of the loops over `r1` and `r2`: `memset`, and the masks in turn. -/
def attempt (masks : List (BitVec 32)) (n r1 r2 : ℕ) (S : Slots (BitVec 32)) : Slots (BitVec 32) × Bool :=
  TwoSlot.storeAll (slotOf n r1 r2) { S with hash := fun i => if i < n then 0 else S.hash i } masks

/-- The loops over `r1` and `r2`, for what is left of them. -/
def tryShifts (masks : List (BitVec 32)) (n : ℕ) (S : Slots (BitVec 32)) :
    List (ℕ × ℕ) → Slots (BitVec 32) ⊕ Header
  | [] => .inl S
  | (r1, r2) :: shifts =>
    match attempt masks n r1 r2 S with
    | (S, true) => .inr ⟨printHash S.hash n, S.moved, r1, r2, n⟩
    | (S, false) => tryShifts masks n S shifts

/-- The values of `r1` and `r2`. -/
def shifts : List (ℕ × ℕ) := (List.range 31).flatMap fun r1 => (List.range 32).map fun r2 => (r1, r2)

/-- The loop over `n`; nothing when no hash function is found. -/
def trySizes (masks : List (BitVec 32)) (n : ℕ) (hash : ℕ → BitVec 32) : Option Header :=
  if n < maxSlots then
    match tryShifts masks n ⟨hash, false⟩ shifts with
    | .inr H => some H
    | .inl S => trySizes masks (n + 2) S.hash
  else none
termination_by maxSlots - n

/-- `find_hash`; `stack` is what `hash` has at first. -/
def findHash (stack : ℕ → BitVec 32) (masks : List (BitVec 32)) : Option Header :=
  trySizes masks (masks.length ||| 1) stack

/-! ## The consumer -/

/-- `_ir_fold_hashkey`. -/
def Header.hashkey (H : Header) (h : BitVec 32) : ℕ := (((h <<< H.r1) - h) <<< H.r2).toNat % H.n

/-- The probes of `ir_folding` for the key `k`: the rule, if there is one; no result when it reads outside of the
table. -/
def Header.find (H : Header) (k : BitVec 32) : Option (Option ℕ) :=
  let h := H.hashkey k
  H.hash[h]?.bind fun fh =>
    if foldKey fh = k then some (some (foldRule fh))
    else if H.semiPerfect then
      H.hash[h + 1]?.bind fun fh => if fh &&& 0x1fffff = k then some (some (foldRule fh)) else some none
    else some none

/-- The next mask. -/
def nextMask (any : BitVec 32) : BitVec 32 :=
  ((any &&& (any <<< 7)) &&& 0x1fc000) ||| (~~~any &&& 0x3f80) ||| 0x7f

/-- The rules that the loop of `ir_folding` tries, in at most so many rounds; `leaves` says which of them do not go
on to the next pattern. -/
def tried (H : Header) (leaves : ℕ → Bool) (key : BitVec 32) : ℕ → BitVec 32 → Option (List ℕ)
  | 0, _ => none
  | rounds + 1, any =>
    (H.find (key &&& any)).bind fun rule =>
      if rule.any leaves then some rule.toList
      else if any = 0x7f then some rule.toList
      else (tried H leaves key rounds (nextMask any)).map fun rules => rule.toList ++ rules

/-- `key` of `ir_folding`. -/
def foldingKey (op op1 op2 : BitVec 7) : BitVec 32 :=
  (op.setWidth 32) + (op1.setWidth 32 <<< 7) + (op2.setWidth 32 <<< 14)

/-- The key of the rule `IR_FOLD(op(op1, op2))`, with zero for `_` and for what is not there. -/
def ruleKey (op op1 op2 : BitVec 7) : BitVec 32 :=
  op.setWidth 32 ||| op1.setWidth 32 <<< 7 ||| op2.setWidth 32 <<< 14

open TwoSlot (Slots Moves Placed)

/-! ## Keys and rules in one word -/

section Packed

variable {k : BitVec 32} {rule : ℕ}

theorem toNat_packed (hk : k.toNat < 2 ^ 21) (hrule : rule < maxRules) :
    (packed k rule).toNat = rule * 2 ^ 21 + k.toNat := by
  have hrule : rule < 2048 := hrule
  have hshift : (BitVec.ofNat 32 rule <<< 21).toNat = rule <<< 21 := by
    rw [BitVec.toNat_shiftLeft, BitVec.toNat_ofNat, Nat.mod_eq_of_lt (by omega : rule < 2 ^ 32), Nat.shiftLeft_eq]
    exact Nat.mod_eq_of_lt (by omega)
  unfold packed
  rw [BitVec.toNat_or, hshift, Nat.or_comm, ← Nat.shiftLeft_add_eq_or_of_lt hk, Nat.shiftLeft_eq]

theorem foldKey_packed (hk : k.toNat < 2 ^ 21) (hrule : rule < maxRules) : foldKey (packed k rule) = k := by
  apply BitVec.eq_of_toNat_eq
  have hmask : (0x1fffff : BitVec 32).toNat = 2 ^ 21 - 1 := by decide
  unfold foldKey
  rw [BitVec.toNat_and, hmask, Nat.and_two_pow_sub_one_eq_mod, toNat_packed hk hrule]
  omega

theorem foldRule_packed (hk : k.toNat < 2 ^ 21) (hrule : rule < maxRules) : foldRule (packed k rule) = rule := by
  unfold foldRule
  rw [BitVec.toNat_ushiftRight, toNat_packed hk hrule, Nat.shiftRight_eq_div_pow]
  omega

theorem packed_ne_zero (hk : k.toNat < 2 ^ 21) (hrule : rule < maxRules) (hne : k ≠ 0) : packed k rule ≠ 0 := by
  intro h
  have hkey := foldKey_packed hk hrule
  rw [h] at hkey
  exact hne (hkey.symm.trans BitVec.zero_and)

theorem foldKey_zero : foldKey 0 = 0 := BitVec.zero_and

/-- The keys of the rules: distinct, not zero, with 21 bits. -/
structure Keys (keys : List (BitVec 32)) : Prop where
  length_le : keys.length ≤ maxRules
  ne_zero : ∀ k ∈ keys, k ≠ 0
  bits : ∀ k ∈ keys, k.toNat < 2 ^ 21
  nodup : keys.Nodup

variable {keys : List (BitVec 32)} {m : BitVec 32} {i : ℕ}

theorem getElem?_masksOf : (masksOf keys)[i]? = keys[i]?.map fun k => packed k i := by
  unfold masksOf
  rw [List.getElem?_map, List.getElem?_zipIdx, Option.map_map, Nat.zero_add]
  rfl

theorem mem_masksOf : m ∈ masksOf keys ↔ ∃ i k, keys[i]? = some k ∧ m = packed k i := by
  rw [List.mem_iff_getElem?]
  refine exists_congr fun i => ?_
  rw [getElem?_masksOf, Option.map_eq_some_iff]
  exact exists_congr fun k => and_congr Iff.rfl eq_comm

namespace Keys

variable (K : Keys keys)

include K

theorem lt_maxRules (h : keys[i]? = some k) : i < maxRules :=
  (List.getElem?_eq_some_iff.1 h).1.trans_le K.length_le

theorem foldKey_eq (h : keys[i]? = some k) : foldKey (packed k i) = k :=
  foldKey_packed (K.bits k (List.mem_of_getElem? h)) (K.lt_maxRules h)

theorem foldRule_eq (h : keys[i]? = some k) : foldRule (packed k i) = i :=
  foldRule_packed (K.bits k (List.mem_of_getElem? h)) (K.lt_maxRules h)

theorem mask_ne_zero (hm : m ∈ masksOf keys) : m ≠ 0 := by
  obtain ⟨i, k, hi, rfl⟩ := mem_masksOf.1 hm
  have hk := List.mem_of_getElem? hi
  exact packed_ne_zero (K.bits k hk) (K.lt_maxRules hi) (K.ne_zero k hk)

/-- The masks with a key. -/
theorem mask_of_key (hm : m ∈ masksOf keys) : keys[foldRule m]? = some (foldKey m) := by
  obtain ⟨i, k, hi, rfl⟩ := mem_masksOf.1 hm
  rw [K.foldKey_eq hi, K.foldRule_eq hi, hi]

theorem key_inj {j : ℕ} (hi : keys[i]? = some k) (hj : keys[j]? = some k) : i = j := by
  obtain ⟨hlt, hki⟩ := List.getElem?_eq_some_iff.1 hi
  obtain ⟨hlt', hkj⟩ := List.getElem?_eq_some_iff.1 hj
  exact (K.nodup.getElem_inj_iff (i := i) (j := j)).1 (hki.trans hkj.symm)

theorem mask_inj {m' : BitVec 32} (hm : m ∈ masksOf keys) (hm' : m' ∈ masksOf keys) (h : foldKey m = foldKey m') :
    m = m' := by
  obtain ⟨i, k, hi, rfl⟩ := mem_masksOf.1 hm
  obtain ⟨j, k', hj, rfl⟩ := mem_masksOf.1 hm'
  rw [K.foldKey_eq hi, K.foldKey_eq hj] at h
  subst h
  rw [K.key_inj hi hj]

theorem masks_nodup : (masksOf keys).Nodup := by
  rw [List.nodup_iff_injective_get]
  intro a b hab
  have ha : (masksOf keys)[a.1]? = some ((masksOf keys).get a) := List.getElem?_eq_getElem a.2
  have hb : (masksOf keys)[b.1]? = some ((masksOf keys).get b) := List.getElem?_eq_getElem b.2
  rw [getElem?_masksOf, Option.map_eq_some_iff] at ha hb
  obtain ⟨k, hk, hka⟩ := ha
  obtain ⟨k', hk', hkb⟩ := hb
  have hrule := K.foldRule_eq hk
  rw [hka, hab, ← hkb, K.foldRule_eq hk'] at hrule
  exact Fin.ext hrule.symm

/-- The slot of a mask is that of its key. -/
theorem slotOf_packed (n r1 r2 : ℕ) (h : keys[i]? = some k) :
    slotOf n r1 r2 (packed k i) = (hashShl2 k r1 r2).toNat % n := by
  have hkey := K.foldKey_eq h
  unfold foldKey at hkey
  unfold slotOf
  rw [hkey]

end Keys

end Packed

/-! ## The try that succeeds -/

section Search

variable {masks : List (BitVec 32)} {H : Header} {n : ℕ}

/-- A try that gives every mask a place, and what is printed then. -/
structure Succeeds (masks : List (BitVec 32)) (H : Header) (S S' : Slots (BitVec 32)) : Prop where
  pos : 0 < H.n
  placed : attempt masks H.n H.r1 H.r2 S = (S', true)
  hash : H.hash = printHash S'.hash H.n
  semi : H.semiPerfect = S'.moved

theorem tryShifts_cases {shifts : List (ℕ × ℕ)} {S : Slots (BitVec 32)} (hn : 0 < n)
    (h : tryShifts masks n S shifts = .inr H) : ∃ S S', Succeeds masks H S S' := by
  induction shifts generalizing S with
  | nil => exact absurd h (by simp [tryShifts])
  | cons r rest ih =>
    obtain ⟨r1, r2⟩ := r
    rw [tryShifts] at h
    rcases htry : attempt masks n r1 r2 S with ⟨S', success⟩
    rw [htry] at h
    cases success with
    | true =>
      obtain rfl := Sum.inr.inj h
      exact ⟨S, S', hn, htry, rfl, rfl⟩
    | false => exact ih h

theorem trySizes_cases {hash : ℕ → BitVec 32} (hn : 0 < n) (h : trySizes masks n hash = some H) :
    ∃ S S', Succeeds masks H S S' := by
  induction n, hash using trySizes.induct masks with
  | case1 n hash hlt H' htry =>
    rw [trySizes, if_pos hlt, htry] at h
    obtain rfl := Option.some.inj h
    exact tryShifts_cases hn htry
  | case2 n hash hlt S htry ih =>
    rw [trySizes, if_pos hlt, htry] at h
    exact ih (by omega) h
  | case3 n hash hge =>
    rw [trySizes, if_neg hge] at h
    exact absurd h (by simp)

theorem findHash_cases {stack : ℕ → BitVec 32} (h : findHash stack masks = some H) :
    ∃ S S', Succeeds masks H S S' := by
  refine trySizes_cases ?_ h
  have hle : 1 ≤ masks.length ||| 1 := Nat.right_le_or
  omega

end Search

/-! ## The probes -/

section Find

variable {keys : List (BitVec 32)} {H : Header} {S S' : Slots (BitVec 32)} {k m : BitVec 32} {i : ℕ}

/-- `_ir_fold_hash[j]`. -/
def entry (H : Header) (S' : Slots (BitVec 32)) (j : ℕ) : BitVec 32 := if j < H.n then S'.hash j else 0

/-- The slot of a key or a mask. -/
abbrev Header.slot (H : Header) : BitVec 32 → ℕ := slotOf H.n H.r1 H.r2

theorem Succeeds.getElem? {masks : List (BitVec 32)} (T : Succeeds masks H S S') {j : ℕ} (hj : j ≤ H.n) :
    H.hash[j]? = some (entry H S' j) := by
  unfold entry
  rw [T.hash, printHash]
  by_cases hlt : j < H.n
  · rw [if_pos hlt, List.getElem?_append_left (by simpa using hlt), List.getElem?_map, List.getElem?_range hlt]
    rfl
  · obtain rfl : j = H.n := by omega
    rw [if_neg hlt, List.getElem?_append_right (by simp)]
    simp

theorem Succeeds.hashkey_lt {masks : List (BitVec 32)} (T : Succeeds masks H S S') : H.hashkey k < H.n :=
  Nat.mod_lt _ T.pos

/-- No probe reads outside of the table. -/
theorem Succeeds.find_eq {masks : List (BitVec 32)} (T : Succeeds masks H S S') : H.find k = some (
    if foldKey (entry H S' (H.hashkey k)) = k then some (foldRule (entry H S' (H.hashkey k)))
    else if S'.moved then
      if foldKey (entry H S' (H.hashkey k + 1)) = k then some (foldRule (entry H S' (H.hashkey k + 1))) else none
    else none) := by
  have hlt := T.hashkey_lt (k := k)
  unfold Header.find
  dsimp only
  rw [T.getElem? hlt.le, T.getElem? hlt, T.semi]
  dsimp only [Option.bind_some]
  unfold foldKey
  split_ifs <;> rfl

variable (K : Keys keys) (T : Succeeds (masksOf keys) H S S')

include K T

theorem placed : Placed H.slot { S with hash := fun i => if i < H.n then 0 else S.hash i } S' (masksOf keys) :=
  TwoSlot.storeAll_placed (fun _ hm => K.mask_ne_zero hm) T.placed

/-- What is in the table is a mask. -/
theorem mem_of_entry {j : ℕ} (h : entry H S' j ≠ 0) : entry H S' j ∈ masksOf keys := by
  unfold entry at h ⊢
  split_ifs at h ⊢ with hj
  · rcases (placed K T).origin j with hold | hnew
    · exact absurd (hold.trans (if_pos hj)) h
    · exact hnew
  · exact absurd rfl h

theorem key_of_entry {j : ℕ} (hk : k ≠ 0) (h : foldKey (entry H S' j) = k) :
    keys[foldRule (entry H S' j)]? = some k := by
  have hne : entry H S' j ≠ 0 := by
    intro h0
    rw [h0, foldKey_zero] at h
    exact hk h.symm
  rw [K.mask_of_key (mem_of_entry K T hne), h]

/-- A rule that is found has the key. -/
theorem key_of_find (hk : k ≠ 0) (h : H.find k = some (some i)) : keys[i]? = some k := by
  rw [T.find_eq] at h
  have h := Option.some.inj h
  split_ifs at h with hfirst hmoved hsecond
  · rw [← Option.some.inj h]
    exact key_of_entry K T hk hfirst
  · rw [← Option.some.inj h]
    exact key_of_entry K T hk hsecond

/-- A mask is where it belongs, or was moved there from a slot that is taken by another one. -/
theorem find_stored (hi : keys[i]? = some k) :
    H.find k = some (some i) ↔ ¬(H.slot (packed k i) + 1 = H.n ∧ S'.hash (H.slot (packed k i)) ≠ packed k i) := by
  have hmem : packed k i ∈ masksOf keys := mem_masksOf.2 ⟨i, k, hi, rfl⟩
  have hkey := K.foldKey_eq hi
  have hrule := K.foldRule_eq hi
  have hk := K.ne_zero k (List.mem_of_getElem? hi)
  have hslot : H.hashkey k = H.slot (packed k i) := (K.slotOf_packed H.n H.r1 H.r2 hi).symm
  have hlt := T.hashkey_lt (k := k)
  have hentry : entry H S' (H.hashkey k) = S'.hash (H.slot (packed k i)) := by
    unfold entry
    rw [if_pos hlt, hslot]
  rw [T.find_eq]
  by_cases hself : S'.hash (H.slot (packed k i)) = packed k i
  · rw [hentry, hself, if_pos hkey, hrule]
    exact ⟨fun _ h => h.2 rfl, fun _ => rfl⟩
  · rcases (placed K T).stored _ hmem with h | ⟨hnext, htaken, hmoved⟩
    · exact absurd h hself
    · -- the other mask has another key
      have hother : foldKey (entry H S' (H.hashkey k)) ≠ k := by
        intro h
        have hne : entry H S' (H.hashkey k) ≠ 0 := hentry.trans_ne htaken
        have hsame := K.mask_inj (mem_of_entry K T hne) hmem (h.trans hkey.symm)
        exact hself (hentry.symm.trans hsame)
      rw [if_neg hother, if_pos hmoved, hslot]
      by_cases hlast : H.slot (packed k i) + 1 = H.n
      · have hzero : entry H S' (H.slot (packed k i) + 1) = 0 := by
          unfold entry
          rw [if_neg (by omega)]
        rw [hzero, foldKey_zero, if_neg (Ne.symm hk)]
        exact ⟨fun h => absurd (Option.some.inj h) (by simp), fun h => absurd ⟨hlast, hself⟩ h⟩
      · have hfound : entry H S' (H.slot (packed k i) + 1) = packed k i := by
          unfold entry
          rw [if_pos (by omega), hnext]
        rw [hfound, if_pos hkey, hrule]
        exact ⟨fun _ h => hlast h.1, fun _ => rfl⟩

/-- `0` is no key, but what a free slot seems to have. -/
theorem find_zero : H.find 0 = some none ↔ entry H S' 0 ≠ 0 ∧ (S'.moved = true → entry H S' 1 ≠ 0) := by
  have hkey : H.hashkey 0 = 0 := by
    unfold Header.hashkey
    simp
  have hfold : ∀ j, foldKey (entry H S' j) = 0 ↔ entry H S' j = 0 := by
    intro j
    refine ⟨fun h => ?_, fun h => by rw [h, foldKey_zero]⟩
    by_contra hne
    have hmem := K.mask_of_key (mem_of_entry K T hne)
    rw [h] at hmem
    exact K.ne_zero 0 (List.mem_of_getElem? hmem) rfl
  rw [T.find_eq, hkey]
  by_cases hfirst : entry H S' 0 = 0
  · rw [if_pos ((hfold 0).2 hfirst)]
    exact ⟨fun h => absurd (Option.some.inj h) (by simp), fun h => absurd hfirst h.1⟩
  · rw [if_neg (mt (hfold 0).1 hfirst)]
    by_cases hmoved : S'.moved = true
    · rw [if_pos hmoved]
      by_cases hsecond : entry H S' 1 = 0
      · rw [if_pos ((hfold 1).2 hsecond)]
        exact ⟨fun h => absurd (Option.some.inj h) (by simp), fun h => absurd hsecond (h.2 hmoved)⟩
      · rw [if_neg (mt (hfold 1).1 hsecond)]
        exact ⟨fun _ => ⟨hfirst, fun _ => hsecond⟩, fun _ => rfl⟩
    · rw [if_neg hmoved]
      exact ⟨fun _ => ⟨hfirst, fun h => absurd h hmoved⟩, fun _ => rfl⟩

end Find

/-! ## The keys that are looked up -/

section Masks

variable (op op1 op2 : BitVec 7)

/-- A field of seven bits. -/
theorem getLsbD_field (x : BitVec 7) (s i : ℕ) :
    (x.setWidth 32 <<< s).getLsbD i = (decide (i < 32) && decide (s ≤ i) && x.getLsbD (i - s)) := by
  rw [BitVec.getLsbD_shiftLeft, BitVec.getLsbD_setWidth]
  by_cases hi : i < 32
  · by_cases hs : i < s
    · have hle : ¬s ≤ i := by omega
      simp [hs, hle]
    · have hle : s ≤ i := by omega
      have hlt : i - s < 32 := by omega
      simp [hi, hs, hle, hlt]
  · simp [hi]

theorem getLsbD_ruleKey (i : ℕ) : (ruleKey op op1 op2).getLsbD i =
    (decide (i < 32) && (op.getLsbD i || decide (7 ≤ i) && op1.getLsbD (i - 7) ||
      decide (14 ≤ i) && op2.getLsbD (i - 14))) := by
  unfold ruleKey
  rw [BitVec.getLsbD_or, BitVec.getLsbD_or, BitVec.getLsbD_setWidth, getLsbD_field, getLsbD_field]
  by_cases hi : i < 32
  · simp [hi]
  · simp [hi]

/-- The fields do not overlap. -/
theorem foldingKey_eq : foldingKey op op1 op2 = ruleKey op op1 op2 := by
  unfold foldingKey ruleKey
  have hlow : op.setWidth 32 &&& op1.setWidth 32 <<< 7 = 0#32 := by
    apply BitVec.eq_of_getLsbD_eq
    intro i hi
    rw [BitVec.getLsbD_and, BitVec.getLsbD_setWidth, getLsbD_field, BitVec.getLsbD_zero]
    by_cases h7 : 7 ≤ i
    · rw [BitVec.getLsbD_of_ge op i h7]
      simp
    · simp [h7]
  have hhigh : (op.setWidth 32 ||| op1.setWidth 32 <<< 7) &&& op2.setWidth 32 <<< 14 = 0#32 := by
    apply BitVec.eq_of_getLsbD_eq
    intro i hi
    rw [BitVec.getLsbD_and, BitVec.getLsbD_or, BitVec.getLsbD_setWidth, getLsbD_field, getLsbD_field,
      BitVec.getLsbD_zero]
    by_cases h14 : 14 ≤ i
    · rw [BitVec.getLsbD_of_ge op i (by omega), BitVec.getLsbD_of_ge op1 (i - 7) (by omega)]
      simp
    · simp [h14]
  rw [BitVec.add_eq_or_of_and_eq_zero _ _ hlow, BitVec.add_eq_or_of_and_eq_zero _ _ hhigh]

/-- A mask that keeps the opcode, and the fields of the operands as `keep1` and `keep2` say. -/
theorem ruleKey_and {mask : BitVec 32} (keep1 keep2 : Bool)
    (hmask : ∀ i < 32, mask.getLsbD i =
      (decide (i < 7) || keep1 && decide (7 ≤ i ∧ i < 14) || keep2 && decide (14 ≤ i ∧ i < 21))) :
    ruleKey op op1 op2 &&& mask = ruleKey op (if keep1 then op1 else 0) (if keep2 then op2 else 0) := by
  apply BitVec.eq_of_getLsbD_eq
  intro i hi
  rw [BitVec.getLsbD_and, getLsbD_ruleKey, getLsbD_ruleKey, hmask i hi]
  rcases Nat.lt_or_ge i 7 with h7 | h7
  · have h7' : ¬7 ≤ i := by omega
    have h14' : ¬14 ≤ i := by omega
    simp [h7, h7', h14']
  · have h7' : ¬i < 7 := by omega
    have hop := BitVec.getLsbD_of_ge op i h7
    rcases Nat.lt_or_ge i 14 with h14 | h14
    · have h14' : ¬14 ≤ i := by omega
      cases keep1 <;> simp [h7, h7', h14, h14', hi]
    · have h14' : ¬i < 14 := by omega
      have hop1 := BitVec.getLsbD_of_ge op1 (i - 7) (by omega)
      rcases Nat.lt_or_ge i 21 with h21 | h21
      · cases keep1 <;> cases keep2 <;> simp [hop, hop1, h7', h14, h14', h21, hi]
      · have h21' : ¬i < 21 := by omega
        have hop2 := BitVec.getLsbD_of_ge op2 (i - 14) (by omega)
        cases keep1 <;> cases keep2 <;> simp [hop, hop1, hop2, h7', h14', h21']

theorem ruleKey_lt : (ruleKey op op1 op2).toNat < 2 ^ 21 := by
  have hsame : ruleKey op op1 op2 &&& 0x1fffff = ruleKey op op1 op2 := ruleKey_and op op1 op2 true true (by decide)
  have hmask : (0x1fffff : BitVec 32).toNat = 2 ^ 21 - 1 := by decide
  rw [← hsame, BitVec.toNat_and, hmask, Nat.and_two_pow_sub_one_eq_mod]
  exact Nat.mod_lt _ (by decide)

end Masks

/-! ## The claim about a table -/

section Faithful

/-- The number of the rule with a key. -/
def ruleOf (keys : List (BitVec 32)) (k : BitVec 32) : Option ℕ := keys.findIdx? fun k' => k' = k

/-- The rules that match, from both operands to none. -/
def matching (keys : List (BitVec 32)) (op op1 op2 : BitVec 7) : List ℕ :=
  [ruleKey op op1 op2, ruleKey op 0 op2, ruleKey op op1 0, ruleKey op 0 0].filterMap (ruleOf keys)

/-- Up to the first that leaves the loop. -/
def upTo (leaves : ℕ → Bool) : List ℕ → List ℕ
  | [] => []
  | rule :: rules => if leaves rule then [rule] else rule :: upTo leaves rules

/-- The table gives back the rule of every key and nothing else, and `ir_folding` tries the rules that match. -/
def Faithful (H : Header) (keys : List (BitVec 32)) : Prop :=
  (∀ k : BitVec 32, k.toNat < 2 ^ 21 → H.find k ≠ none ∧ ∀ i, H.find k = some (some i) ↔ keys[i]? = some k) ∧
    ∀ leaves op op1 op2,
      tried H leaves (foldingKey op op1 op2) 4 0x1fffff = some (upTo leaves (matching keys op op1 op2))

/-- No mask is moved behind the last slot, and a probe for `0` meets no free slot. -/
def Suits (H : Header) (masks : List (BitVec 32)) : Prop :=
  ¬Moves H.slot masks (H.n - 1) ∧ (∃ m ∈ masks, H.slot m = 0) ∧
    (H.semiPerfect = true → 1 < H.n ∧ ((∃ m ∈ masks, H.slot m = 1) ∨ Moves H.slot masks 0))

variable {keys : List (BitVec 32)} {H : Header} {S S' : Slots (BitVec 32)} {k : BitVec 32} {i : ℕ}

theorem ruleOf_eq_some (K : Keys keys) : ruleOf keys k = some i ↔ keys[i]? = some k := by
  unfold ruleOf
  rw [List.findIdx?_eq_some_iff_getElem]
  constructor
  · rintro ⟨hlt, hk, -⟩
    rw [List.getElem?_eq_getElem hlt, of_decide_eq_true hk]
  · intro h
    obtain ⟨hlt, hk⟩ := List.getElem?_eq_some_iff.1 h
    refine ⟨hlt, decide_eq_true hk, fun j hj hjk => ?_⟩
    have hj' : keys[j]? = some k := by
      rw [List.getElem?_eq_getElem (hj.trans hlt), of_decide_eq_true hjk]
    have hsame := K.key_inj hj' h
    omega

/-- The same try on free slots. -/
theorem exists_empty (T : Succeeds (masksOf keys) H S S') :
    ∃ E, TwoSlot.storeAll H.slot TwoSlot.empty (masksOf keys) = (E, true) ∧ ∀ j < H.n, E.hash j = S'.hash j := by
  have hbelow : TwoSlot.Below H.n { S with hash := fun i => if i < H.n then 0 else S.hash i } TwoSlot.empty :=
    ⟨fun j hj => (if_pos hj).symm, fun _ => rfl⟩
  obtain ⟨E, hE, hsame⟩ := hbelow.storeAll (fun m _ => Nat.mod_lt _ T.pos) T.placed
  exact ⟨E, hE, hsame.1⟩

/-- The condition, on the slots at last. -/
theorem suits_iff (K : Keys keys) (T : Succeeds (masksOf keys) H S S') : Suits H (masksOf keys) ↔
    (∀ m ∈ masksOf keys, ¬(H.slot m + 1 = H.n ∧ S'.hash (H.slot m) ≠ m)) ∧
      entry H S' 0 ≠ 0 ∧ (S'.moved = true → entry H S' 1 ≠ 0) := by
  obtain ⟨E, hE, hsame⟩ := exists_empty T
  have hne : ∀ m ∈ masksOf keys, m ≠ 0 := fun m hm => K.mask_ne_zero hm
  have hpos := T.pos
  have hlast : Moves H.slot (masksOf keys) (H.n - 1) ↔
      ∃ m ∈ masksOf keys, H.slot m + 1 = H.n ∧ S'.hash (H.slot m) ≠ m := by
    rw [TwoSlot.moves_iff hne K.masks_nodup hE]
    have hE' := hsame (H.n - 1) (by omega)
    refine exists_congr fun m => and_congr Iff.rfl ⟨?_, ?_⟩
    · rintro ⟨hslot, hnot⟩
      rw [hslot, ← hE']
      exact ⟨by omega, hnot⟩
    · rintro ⟨hslot, hnot⟩
      have hslot : H.slot m = H.n - 1 := by omega
      rw [hE', ← hslot]
      exact ⟨rfl, hnot⟩
  have hzero : entry H S' 0 ≠ 0 ↔ ∃ m ∈ masksOf keys, H.slot m = 0 := by
    unfold entry
    rw [if_pos hpos, ← hsame 0 hpos]
    exact TwoSlot.storeAll_taken_zero hne hE
  have hone : entry H S' 1 ≠ 0 ↔
      1 < H.n ∧ ((∃ m ∈ masksOf keys, H.slot m = 1) ∨ Moves H.slot (masksOf keys) 0) := by
    unfold entry
    by_cases h1 : 1 < H.n
    · rw [if_pos h1, ← hsame 1 h1]
      exact (TwoSlot.storeAll_taken hne hE).trans (iff_and_self.2 fun _ => h1)
    · rw [if_neg h1]
      exact ⟨fun h => absurd rfl h, fun h => absurd h.1 h1⟩
  unfold Suits
  rw [hlast, ← hzero, ← hone, T.semi, not_exists]
  refine and_congr (forall_congr' fun m => ?_) Iff.rfl
  exact not_and

/-- The probes find what the keys say exactly when the condition holds. -/
theorem find_exact (K : Keys keys) (T : Succeeds (masksOf keys) H S S') :
    (∀ k : BitVec 32, k.toNat < 2 ^ 21 → H.find k ≠ none ∧ ∀ i, H.find k = some (some i) ↔ keys[i]? = some k) ↔
      Suits H (masksOf keys) := by
  rw [suits_iff K T]
  constructor
  · intro h
    refine ⟨fun m hm => ?_, ?_⟩
    · obtain ⟨i, k, hi, rfl⟩ := mem_masksOf.1 hm
      exact (find_stored K T hi).1 (((h k (K.bits k (List.mem_of_getElem? hi))).2 i).2 hi)
    · refine (find_zero K T).1 ?_
      obtain ⟨hread, hfind⟩ := h 0 (by decide)
      obtain ⟨rule, hrule⟩ := Option.ne_none_iff_exists'.1 hread
      cases rule with
      | none => exact hrule
      | some i => exact absurd rfl (K.ne_zero 0 (List.mem_of_getElem? ((hfind i).1 hrule)))
  · rintro ⟨hstored, hzero⟩ k hk
    refine ⟨?_, fun i => ?_⟩
    · rw [T.find_eq]
      exact Option.some_ne_none _
    · by_cases h0 : k = 0
      · subst h0
        rw [(find_zero K T).2 hzero]
        exact ⟨fun h => absurd (Option.some.inj h) (by simp), fun h => absurd rfl (K.ne_zero 0 (List.mem_of_getElem? h))⟩
      · refine ⟨key_of_find K T h0, fun hi => (find_stored K T hi).2 ?_⟩
        exact hstored _ (mem_masksOf.2 ⟨i, k, hi, rfl⟩)

/-- One probe of the loop. -/
theorem find_eq_ruleOf (K : Keys keys)
    (h : ∀ k : BitVec 32, k.toNat < 2 ^ 21 → H.find k ≠ none ∧ ∀ i, H.find k = some (some i) ↔ keys[i]? = some k)
    (hk : k.toNat < 2 ^ 21) : H.find k = some (ruleOf keys k) := by
  obtain ⟨hread, hfind⟩ := h k hk
  obtain ⟨rule, hrule⟩ := Option.ne_none_iff_exists'.1 hread
  rw [hrule]
  congr 1
  cases rule with
  | some i => exact ((ruleOf_eq_some K).2 ((hfind i).1 hrule)).symm
  | none =>
    cases hof : ruleOf keys k with
    | none => rfl
    | some i =>
      rw [(hfind i).2 ((ruleOf_eq_some K).1 hof)] at hrule
      exact absurd (Option.some.inj hrule) (by simp)

/-- One round of the loop. -/
theorem tried_round {key any : BitVec 32} {rule : Option ℕ} {rules : List ℕ} {rounds : ℕ} (leaves : ℕ → Bool)
    (hfind : H.find (key &&& any) = some rule) (hany : any ≠ 0x7f)
    (hrest : tried H leaves key rounds (nextMask any) = some (upTo leaves rules)) :
    tried H leaves key (rounds + 1) any = some (upTo leaves (rule.toList ++ rules)) := by
  rw [tried, hfind]
  dsimp only [Option.bind_some]
  rw [if_neg hany, hrest]
  cases rule with
  | none => rfl
  | some i =>
    show (if leaves i then some [i] else some ([i] ++ upTo leaves rules)) = some (upTo leaves (i :: rules))
    rw [upTo]
    split_ifs <;> rfl

/-- The masks go from both operands to none. -/
theorem tried_eq (K : Keys keys)
    (h : ∀ k : BitVec 32, k.toNat < 2 ^ 21 → H.find k ≠ none ∧ ∀ i, H.find k = some (some i) ↔ keys[i]? = some k)
    (leaves : ℕ → Bool) (op op1 op2 : BitVec 7) :
    tried H leaves (foldingKey op op1 op2) 4 0x1fffff = some (upTo leaves (matching keys op op1 op2)) := by
  have hboth := find_eq_ruleOf K h (ruleKey_lt op op1 op2)
  have hsecond := find_eq_ruleOf K h (ruleKey_lt op 0 op2)
  have hfirst := find_eq_ruleOf K h (ruleKey_lt op op1 0)
  have hnone := find_eq_ruleOf K h (ruleKey_lt op 0 0)
  have hmask11 : ruleKey op op1 op2 &&& 0x1fffff = ruleKey op op1 op2 :=
    ruleKey_and op op1 op2 true true (by decide)
  have hmask10 : ruleKey op op1 op2 &&& 0x1fc07f = ruleKey op 0 op2 := ruleKey_and op op1 op2 false true (by decide)
  have hmask01 : ruleKey op op1 op2 &&& 0x003fff = ruleKey op op1 0 := ruleKey_and op op1 op2 true false (by decide)
  have hmask00 : ruleKey op op1 op2 &&& 0x00007f = ruleKey op 0 0 := ruleKey_and op op1 op2 false false (by decide)
  rw [← hmask11] at hboth
  rw [← hmask10] at hsecond
  rw [← hmask01] at hfirst
  rw [← hmask00] at hnone
  rw [foldingKey_eq]
  have hlast : tried H leaves (ruleKey op op1 op2) 1 0x00007f =
      some (upTo leaves (ruleOf keys (ruleKey op op1 op2 &&& 0x00007f)).toList) := by
    rw [tried, hnone]
    dsimp only [Option.bind_some]
    rw [if_pos rfl, ite_self]
    cases ruleOf keys (ruleKey op op1 op2 &&& 0x00007f) with
    | none => rfl
    | some i =>
      show some [i] = some (if leaves i then [i] else [i])
      rw [ite_self]
  have hround01 := tried_round leaves hfirst (by decide) hlast
  have hround10 := tried_round leaves hsecond (by decide) hround01
  have hround11 := tried_round leaves hboth (by decide) hround10
  rw [hround11, hmask11, hmask10, hmask01, hmask00, matching]
  congr 2
  simp only [List.filterMap_cons, List.filterMap_nil]
  cases ruleOf keys (ruleKey op op1 op2) <;> cases ruleOf keys (ruleKey op 0 op2) <;>
    cases ruleOf keys (ruleKey op op1 0) <;> cases ruleOf keys (ruleKey op 0 0) <;> rfl

/-- The first size may be large enough. -/
theorem findHash_first {stack : ℕ → BitVec 32} {masks : List (BitVec 32)} (hn : masks.length ||| 1 < maxSlots)
    (h : tryShifts masks (masks.length ||| 1) ⟨stack, false⟩ shifts = .inr H) : findHash stack masks = some H := by
  rw [findHash, trySizes, if_pos hn, h]

/-- The table that is found gives back the rules exactly when the condition holds. -/
theorem find_iff (stack : ℕ → BitVec 32) (K : Keys keys) (h : findHash stack (masksOf keys) = some H) :
    Faithful H keys ↔ Suits H (masksOf keys) := by
  obtain ⟨S, S', T⟩ := findHash_cases h
  rw [← find_exact K T]
  exact ⟨And.left, fun hfind => ⟨hfind, fun leaves => tried_eq K hfind leaves⟩⟩

/-- Three keys that fill the table. -/
theorem find_iff_full : Faithful ⟨[3, 0x200006, 0x400007, 0], true, 1, 0, 3⟩ [3, 6, 7] ↔
    Suits ⟨[3, 0x200006, 0x400007, 0], true, 1, 0, 3⟩ (masksOf [3, 6, 7]) :=
  find_iff (fun _ => 0) ⟨by decide, by simp, by simp, by decide⟩ (findHash_first (by decide) rfl)

/-- The key 5 is stored behind the last slot, where a zero is printed. -/
theorem not_find : ¬∀ (stack : ℕ → BitVec 32) (keys : List (BitVec 32)) (H : Header), Keys keys →
    findHash stack (masksOf keys) = some H → Faithful H keys := by
  intro h
  have hfaithful := h (fun _ => 0) [1, 2, 5] ⟨[0, 1, 0x200002, 0], true, 1, 0, 3⟩
    ⟨by decide, by simp, by simp, by decide⟩ (findHash_first (by decide) rfl)
  have hfind := ((hfaithful.1 5 (by decide)).2 2).2 rfl
  exact absurd hfind (by decide)

end Faithful

end IrJit.FoldHash
