import IrJit.Lib.Fields
import Mathlib.Logic.Function.Basic

/-!
# Patch.Code — the branches of a code area led to another address (`ir_patch`, AArch64)

The code is scanned backwards.  A branch is taken for one to `from_addr` when its displacement agrees with the
distance, both cut to some low bits.  A conditional branch that cannot reach `to_addr` is led to the first `B` that
was patched, the veneer.
-/

namespace IrJit.Patch

open Fields

/-! ## The instructions -/

/-- The branches with a displacement of 26, 19 and 14 bits: `B`; `B.cond`, `CBZ` and `CBNZ`; `TBZ` and `TBNZ`. -/
inductive BranchKind
  | imm26 | imm19 | imm14
  deriving DecidableEq

/-- The first bit of the displacement. -/
def BranchKind.lo : BranchKind → ℕ
  | imm26 => 0
  | imm19 | imm14 => 5

/-- The number of bits of the displacement. -/
def BranchKind.width : BranchKind → ℕ
  | imm26 => 26
  | imm19 => 19
  | imm14 => 14

/-- The number of low bits of the displacement that are compared. -/
def BranchKind.compared : BranchKind → ℕ
  | imm26 => 25
  | imm19 => 19
  | imm14 => 14

def branchKind (ins : BitVec 32) : Option BranchKind :=
  if ins &&& 0xfc000000 = 0x14000000 then some .imm26
  else if ins &&& 0xff000000 = 0x54000000 ∨ ins &&& 0x7e000000 = 0x34000000 then some .imm19
  else if ins &&& 0x7e000000 = 0x36000000 then some .imm14
  else none

/-- The displacement in words. -/
def displacement (kind : BranchKind) (ins : BitVec 32) : BitVec kind.width := ins.extractLsb' kind.lo kind.width

/-- Where a branch at `p` leads to. -/
def target (p : BitVec 64) (ins : BitVec 32) : Option (BitVec 64) :=
  (branchKind ins).map fun kind => p + (displacement kind ins).signExtend 64 <<< 2

/-! ## The code area -/

/-- Instructions from the address `code` on, which is aligned to words. -/
structure Area where
  code : BitVec 64
  count : ℕ
  words : ℕ → BitVec 32
  aligned : code.toNat % 4 = 0

/-- The address of the instruction `k`. -/
def Area.addr (a : Area) (k : ℕ) : BitVec 64 := a.code + BitVec.ofNat 64 (4 * k)

/-- `(uint32_t*)addr - ins_ptr` -/
def delta (p addr : BitVec 64) : BitVec 64 := (addr - p).sshiftRight 2

/-- The state of `ir_patch_code`.  `changed` are the instructions that were stored to, the last one first. -/
structure State where
  words : ℕ → BitVec 32
  ret : BitVec 32
  veneer : BitVec 64
  changed : List ℕ

/-- `*ins_ptr = ins; ret++;` -/
def State.store (s : State) (k : ℕ) (ins : BitVec 32) : State :=
  { s with
    words := Function.update s.words k ins
    ret := s.ret + 1
    changed := k :: s.changed }

/-- The distance to `to_addr`, or to the veneer, when it is in the range; otherwise the code aborts. -/
def reach (half : BitVec 64) (bits : ℕ) (p toAddr veneer : BitVec 64) : Option (BitVec 64) :=
  if (delta p toAddr + half).sshiftRight bits ≠ 0 then
    if veneer ≠ 0 then
      if (delta p veneer + half).sshiftRight bits ≠ 0 then none else some (delta p veneer)
    else none
  else some (delta p toAddr)

section

variable (a : Area) (fromAddr toAddr : BitVec 64)

/-- The body of the loop, for the instruction `k`. -/
def patchInsn (k : ℕ) (s : State) : Option State :=
  let p := a.addr k
  let ins := s.words k
  if ins &&& 0xfc000000 = 0x14000000 then
    -- B (imm26:0..25)
    if (ins ^^^ (delta p fromAddr).setWidth 32) &&& 0x01ffffff = 0 then
      if (delta p toAddr + 0x02000000).sshiftRight 26 ≠ 0 then none
      else
        some { s.store k ((ins &&& 0xfc000000) ||| ((delta p toAddr).setWidth 32 &&& 0x03ffffff)) with
          veneer := if s.veneer = 0 then p else s.veneer }
    else some s
  else if ins &&& 0xff000000 = 0x54000000 ∨ ins &&& 0x7e000000 = 0x34000000 then
    -- B.cond, CBZ, CBNZ (imm19:5..23)
    if (ins ^^^ ((delta p fromAddr).setWidth 32 <<< 5)) &&& 0x00ffffe0 = 0 then do
      let d ← reach 0x40000 19 p toAddr s.veneer
      some (s.store k ((ins &&& 0xff00001f) ||| ((d.setWidth 32 &&& 0x7ffff) <<< 5)))
    else some s
  else if ins &&& 0x7e000000 = 0x36000000 then
    -- TBZ, TBNZ (imm14:5..18)
    if (ins ^^^ ((delta p fromAddr).setWidth 32 <<< 5)) &&& 0x0007ffe0 = 0 then do
      let d ← reach 0x2000 14 p toAddr s.veneer
      some (s.store k ((ins &&& 0xfff8001f) ||| ((d.setWidth 32 &&& 0x3fff) <<< 5)))
    else some s
  else some s

/-- The instructions before `k`, from the last one on. -/
def patchFrom : ℕ → State → Option State
  | 0, s => some s
  | k + 1, s => do
    let s ← patchInsn a fromAddr toAddr k s
    patchFrom k s

/-- `ir_patch_code`; none when the code aborts. -/
def patchCode : Option State :=
  patchFrom a fromAddr toAddr a.count { words := a.words, ret := 0, veneer := 0, changed := [] }

/-- The slots of the jump table, and how many were changed. -/
def patchSlots : List (BitVec 64) → List (BitVec 64) × BitVec 32
  | [] => ([], 0)
  | slot :: slots =>
    let (slots, ret) := patchSlots slots
    if slot = fromAddr then (toAddr :: slots, ret + 1) else (slot :: slots, ret)

/-- What `ir_patch` leaves behind. -/
structure Result where
  slots : List (BitVec 64)
  words : ℕ → BitVec 32
  changed : List ℕ
  ret : BitVec 32

/-- `ir_patch`. -/
def irPatch (slots : List (BitVec 64)) : Option Result := do
  let s ← patchCode a fromAddr toAddr
  some {
    slots := (patchSlots fromAddr toAddr slots).1
    words := s.words
    changed := s.changed
    ret := (patchSlots fromAddr toAddr slots).2 + s.ret }

end

/-! ## What one instruction becomes -/

/-- The instruction `ins` at `p` is taken for a branch to `fromAddr`. -/
def Taken (p fromAddr : BitVec 64) (ins : BitVec 32) (kind : BranchKind) : Prop :=
  branchKind ins = some kind ∧
    ins.extractLsb' kind.lo kind.compared = (delta p fromAddr).setWidth kind.compared

/-- The branch `ins` at `p`, led to `dest`. -/
def redirect (p dest : BitVec 64) (ins : BitVec 32) (kind : BranchKind) : BitVec 32 :=
  insertField kind.lo ins ((delta p dest).setWidth kind.width)

/-- The distance is in the range of the displacement. -/
def InReach (p dest : BitVec 64) (kind : BranchKind) : Prop :=
  -(2 ^ (kind.width - 1)) ≤ (delta p dest).toInt ∧ (delta p dest).toInt < 2 ^ (kind.width - 1)

variable {a : Area} {fromAddr toAddr p dest d : BitVec 64} {ins : BitVec 32} {kind : BranchKind} {s s' : State} {k : ℕ}

theorem setWidth_and_fieldMask {w : ℕ} (hw : w ≤ 32) (d : BitVec 64) :
    d.setWidth 32 &&& fieldMask 32 0 w = (d.setWidth w).setWidth 32 := by
  apply BitVec.eq_of_getLsbD_eq
  intro i hi
  rw [BitVec.getLsbD_and, getLsbD_fieldMask (by omega), BitVec.getLsbD_setWidth, BitVec.getLsbD_setWidth,
    BitVec.getLsbD_setWidth, decide_eq_true hi]
  simp [Bool.and_comm]

/-- The test on the low bits, in terms of the displacement. -/
theorem taken_iff {lo w : ℕ} (h : lo + w ≤ 32) (ins : BitVec 32) (d : BitVec 64) :
    (ins ^^^ (d.setWidth 32 <<< lo)) &&& fieldMask 32 lo w = 0 ↔ ins.extractLsb' lo w = d.setWidth w := by
  refine (xor_and_fieldMask h _ _).trans ?_
  have hfield : (d.setWidth 32 <<< lo).extractLsb' lo w = d.setWidth w := by
    ext i hi
    rw [BitVec.getElem_extractLsb', BitVec.getLsbD_shiftLeft, BitVec.getLsbD_setWidth, BitVec.getElem_setWidth,
      Nat.add_sub_cancel_left, decide_eq_true (by omega : lo + i < 32), decide_eq_false (by omega : ¬ lo + i < lo),
      decide_eq_true (by omega : i < 32)]
    simp
  rw [hfield]

/-- A distance that passes the range test. -/
theorem reach_cases {half : BitVec 64} {bits : ℕ} {veneer : BitVec 64} (h : reach half bits p toAddr veneer = some d) :
    ∃ dest, (dest = toAddr ∨ veneer ≠ 0 ∧ dest = veneer) ∧ d = delta p dest ∧ (d + half).sshiftRight bits = 0#64 := by
  unfold reach at h
  split_ifs at h with h1 h2 h3
  · exact ⟨veneer, Or.inr ⟨h2, rfl⟩, (Option.some.inj h).symm, by rw [← Option.some.inj h]; exact not_not.mp h3⟩
  · exact ⟨toAddr, Or.inl rfl, (Option.some.inj h).symm, by rw [← Option.some.inj h]; exact not_not.mp h1⟩

/-- The new instruction, in terms of the displacement. -/
theorem encode_eq {kind : BranchKind} (ins : BitVec 32) :
    (ins &&& ~~~fieldMask 32 kind.lo kind.width) ||| (((delta p dest).setWidth 32 &&& fieldMask 32 0 kind.width) <<< kind.lo)
      = redirect p dest ins kind := by
  rw [setWidth_and_fieldMask (by cases kind <;> decide)]
  rfl

/-- The kinds of branches, by the tests of the loop body. -/
theorem branchKind_cases (ins : BitVec 32) :
    (ins &&& 0xfc000000 = 0x14000000 ∧ branchKind ins = some .imm26) ∨
    (ins &&& 0xfc000000 ≠ 0x14000000 ∧ (ins &&& 0xff000000 = 0x54000000 ∨ ins &&& 0x7e000000 = 0x34000000) ∧
      branchKind ins = some .imm19) ∨
    (ins &&& 0xfc000000 ≠ 0x14000000 ∧ ¬ (ins &&& 0xff000000 = 0x54000000 ∨ ins &&& 0x7e000000 = 0x34000000) ∧
      ins &&& 0x7e000000 = 0x36000000 ∧ branchKind ins = some .imm14) ∨
    (ins &&& 0xfc000000 ≠ 0x14000000 ∧ ¬ (ins &&& 0xff000000 = 0x54000000 ∨ ins &&& 0x7e000000 = 0x34000000) ∧
      ins &&& 0x7e000000 ≠ 0x36000000 ∧ branchKind ins = none) := by
  unfold branchKind
  split_ifs with h1 h2 h3
  · exact Or.inl ⟨h1, rfl⟩
  · exact Or.inr (Or.inl ⟨h1, h2, rfl⟩)
  · exact Or.inr (Or.inr (Or.inl ⟨h1, h2, h3, rfl⟩))
  · exact Or.inr (Or.inr (Or.inr ⟨h1, h2, h3, rfl⟩))

theorem not_taken (hk : branchKind ins = some kind)
    (h : ins.extractLsb' kind.lo kind.compared ≠ (delta p fromAddr).setWidth kind.compared) (kind' : BranchKind) :
    ¬ Taken p fromAddr ins kind' := by
  rintro ⟨hk', hcut⟩
  rw [hk, Option.some.injEq] at hk'
  subst hk'
  exact h hcut

/-- **What the loop body does**: it leaves an instruction that is not taken as it is; a branch that is taken leads to
`toAddr` or to the veneer, and a `B` becomes the veneer when there is none. -/
theorem patchInsn_cases (h : patchInsn a fromAddr toAddr k s = some s') :
    ((∀ kind, ¬ Taken (a.addr k) fromAddr (s.words k) kind) ∧ s' = s) ∨
    ∃ kind dest, Taken (a.addr k) fromAddr (s.words k) kind ∧ InReach (a.addr k) dest kind ∧
      (dest = toAddr ∨ kind ≠ .imm26 ∧ s.veneer ≠ 0 ∧ dest = s.veneer) ∧
      s' = { s.store k (redirect (a.addr k) dest (s.words k) kind) with
        veneer := if kind = .imm26 ∧ s.veneer = 0 then a.addr k else s.veneer } := by
  unfold patchInsn at h
  rcases branchKind_cases (s.words k) with ⟨h1, hk⟩ | ⟨h1, h2, hk⟩ | ⟨h1, h2, h3, hk⟩ | ⟨h1, h2, h3, hk⟩
  · -- B
    rw [if_pos h1] at h
    have htaken := taken_iff (show 0 + 25 ≤ 32 by decide) (s.words k) (delta (a.addr k) fromAddr)
    rw [BitVec.shiftLeft_zero, show fieldMask 32 0 25 = (0x01ffffff : BitVec 32) from by decide] at htaken
    by_cases hcut : (s.words k).extractLsb' 0 25 = (delta (a.addr k) fromAddr).setWidth 25
    · rw [if_pos (htaken.mpr hcut)] at h
      by_cases hrange : (delta (a.addr k) toAddr + 0x02000000).sshiftRight 26 = 0
      · rw [if_neg (not_not.mpr hrange)] at h
        have hreach := range_of_sshiftRight (w := 26) (c := 0x02000000) (by decide) (by decide) (by decide) hrange
        have hmask : (0xfc000000 : BitVec 32) = ~~~fieldMask 32 0 26 := by decide
        have hfield : (0x03ffffff : BitVec 32) = fieldMask 32 0 26 := by decide
        have hins := @encode_eq (a.addr k) toAddr .imm26 (s.words k)
        rw [BranchKind.lo, BranchKind.width, ← hmask, ← hfield, BitVec.shiftLeft_zero] at hins
        refine Or.inr ⟨.imm26, toAddr, ⟨hk, hcut⟩, hreach, Or.inl rfl, ?_⟩
        rw [← Option.some.inj h, hins]
        simp only [true_and]
      · rw [if_pos hrange] at h
        cases h
    · rw [if_neg (fun hz => hcut (htaken.mp hz)), Option.some.injEq] at h
      exact Or.inl ⟨not_taken hk hcut, h.symm⟩
  · -- B.cond, CBZ, CBNZ
    rw [if_neg h1, if_pos h2] at h
    have htaken := taken_iff (show 5 + 19 ≤ 32 by decide) (s.words k) (delta (a.addr k) fromAddr)
    rw [show fieldMask 32 5 19 = (0x00ffffe0 : BitVec 32) from by decide] at htaken
    by_cases hcut : (s.words k).extractLsb' 5 19 = (delta (a.addr k) fromAddr).setWidth 19
    · rw [if_pos (htaken.mpr hcut)] at h
      obtain ⟨d, hd, hs⟩ := Option.bind_eq_some_iff.mp h
      obtain ⟨dest, hdest, rfl, hrange⟩ := reach_cases hd
      have hreach := range_of_sshiftRight (w := 19) (c := 0x40000) (by decide) (by decide) (by decide) hrange
      refine Or.inr ⟨.imm19, dest, ⟨hk, hcut⟩, hreach, hdest.imp_right fun hv => ⟨by decide, hv⟩, ?_⟩
      rw [← Option.some.inj hs, ← encode_eq]
      rfl
    · rw [if_neg (fun hz => hcut (htaken.mp hz)), Option.some.injEq] at h
      exact Or.inl ⟨not_taken hk hcut, h.symm⟩
  · -- TBZ, TBNZ
    rw [if_neg h1, if_neg h2, if_pos h3] at h
    have htaken := taken_iff (show 5 + 14 ≤ 32 by decide) (s.words k) (delta (a.addr k) fromAddr)
    rw [show fieldMask 32 5 14 = (0x0007ffe0 : BitVec 32) from by decide] at htaken
    by_cases hcut : (s.words k).extractLsb' 5 14 = (delta (a.addr k) fromAddr).setWidth 14
    · rw [if_pos (htaken.mpr hcut)] at h
      obtain ⟨d, hd, hs⟩ := Option.bind_eq_some_iff.mp h
      obtain ⟨dest, hdest, rfl, hrange⟩ := reach_cases hd
      have hreach := range_of_sshiftRight (w := 14) (c := 0x2000) (by decide) (by decide) (by decide) hrange
      refine Or.inr ⟨.imm14, dest, ⟨hk, hcut⟩, hreach, hdest.imp_right fun hv => ⟨by decide, hv⟩, ?_⟩
      rw [← Option.some.inj hs, ← encode_eq]
      rfl
    · rw [if_neg (fun hz => hcut (htaken.mp hz)), Option.some.injEq] at h
      exact Or.inl ⟨not_taken hk hcut, h.symm⟩
  · rw [if_neg h1, if_neg h2, if_neg h3, Option.some.injEq] at h
    refine Or.inl ⟨fun kind ht => ?_, h.symm⟩
    rw [ht.1] at hk
    cases hk

end IrJit.Patch
