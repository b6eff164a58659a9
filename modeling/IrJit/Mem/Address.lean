import Mathlib
import IrJit.Mem.Insns

/-!
# Mem.Address — what the parts of an address stand for (`ir.c`, 2008–2149)

In a run every reference to a 64-bit integer has a value (`Evaluates`).  Each round of the two loops of
`ir_decompose_addr` keeps the sum of base, index and offset (`decomposeBase_spec`, `decomposeIndex_spec`);
offsets then compare as the addresses do, as long as nothing wraps (`checkAliasing_sound`).
-/

namespace IrJit.Mem

/-- The types that `ir_check` accepts as operands of an address. -/
def Wide (t : IrType) : Prop := t = .addr ∨ t = .u64 ∨ t = .i64

namespace Ctx

variable (C : Ctx)

/-- The graph of the sums and differences: operands come first, exist, and are as wide. -/
structure OperandsFirst : Prop where
  start : 0 < C.insnsCount
  bound : ∀ r, (C.base r).op = .add ∨ (C.base r).op = .sub → 0 < r ∧ r < C.insnsCount
  before : ∀ r, (C.base r).op = .add ∨ (C.base r).op = .sub →
    ((C.base r).op1 < r ∧ (C.base r).op1 ≠ 0) ∧ (C.base r).op2 < r ∧ (C.base r).op2 ≠ 0
  wide : ∀ r, (C.base r).op = .add ∨ (C.base r).op = .sub → Wide (C.base r).type →
    Wide (C.base (C.base r).op1).type ∧ Wide (C.base (C.base r).op2).type

/-- The values of the references in a run. -/
structure Evaluates (v : ℤ → BitVec 64) : Prop where
  add : ∀ r, (C.base r).op = .add → Wide (C.base r).type → v r = v (C.base r).op1 + v (C.base r).op2
  sub : ∀ r, (C.base r).op = .sub → Wide (C.base r).type → v r = v (C.base r).op1 - v (C.base r).op2
  const : ∀ r, C.isNumConst r = true → Wide (C.base r).type → v r = (C.base r).val

end Ctx

/-- The value of an index; `IR_UNUSED` stands for none. -/
def indexValue (v : ℤ → BitVec 64) (idx : ℤ) : BitVec 64 := if idx = 0 then 0 else v idx

namespace Ctx

section Decompose

variable {C : Ctx} {v : ℤ → BitVec 64} (hC : C.OperandsFirst) (hv : C.Evaluates v)

/-- An index that is there is as wide as an address. -/
def WideIndex (C : Ctx) (idx : ℤ) : Prop := idx ≠ 0 → Wide (C.base idx).type

/-- The operands of a sum, in the order in which they are looked at. -/
def sumOperands (C : Ctx) (insn : Insn) : ℤ × ℤ :=
  if C.swapsAdd insn.op1 insn.op2 then (insn.op2, insn.op1) else (insn.op1, insn.op2)

/-- One round at a sum. -/
theorem decomposeBase_add {fuel : ℕ} {addr idx : ℤ} {off : BitVec 64} (h : (C.base addr).op = .add) :
    C.decomposeBase (fuel + 1) addr idx off =
      if C.isNumConst (C.sumOperands (C.base addr)).2 then
        C.decomposeBase fuel (C.sumOperands (C.base addr)).1 idx
          (off + (C.base (C.sumOperands (C.base addr)).2).val)
      else if idx = 0 then
        C.decomposeBase fuel (C.sumOperands (C.base addr)).1 (C.sumOperands (C.base addr)).2 off
      else ((addr, idx, off), true) := by
  rw [decomposeBase]
  simp only [h, if_true]
  rfl

/-- One round at a difference. -/
theorem decomposeBase_sub {fuel : ℕ} {addr idx : ℤ} {off : BitVec 64} (h : (C.base addr).op = .sub)
    (hn : C.isNumConst (C.base addr).op2 = true) : C.decomposeBase (fuel + 1) addr idx off =
      C.decomposeBase fuel (C.base addr).op1 idx (off - (C.base (C.base addr).op2).val) := by
  rw [decomposeBase]
  simp [h, hn]

/-- The first loop ends at anything else. -/
theorem decomposeBase_other {fuel : ℕ} {addr idx : ℤ} {off : BitVec 64} (h : (C.base addr).op ≠ .add)
    (hs : ¬((C.base addr).op = .sub ∧ C.isNumConst (C.base addr).op2 = true)) :
    C.decomposeBase (fuel + 1) addr idx off = ((addr, idx, off), false) := by
  rw [decomposeBase]
  simp only [h, hs, if_false]

theorem sumOperands_cases (insn : Insn) : C.sumOperands insn = (insn.op1, insn.op2) ∨
    C.sumOperands insn = (insn.op2, insn.op1) := by
  unfold sumOperands
  split_ifs
  · exact Or.inr rfl
  · exact Or.inl rfl

include hC in
/-- What the operands of a sum are. -/
theorem sumOperands_spec {addr : ℤ} (h : (C.base addr).op = .add) :
    ((C.sumOperands (C.base addr)).1 < addr ∧ (C.sumOperands (C.base addr)).2 < addr) ∧
      (C.sumOperands (C.base addr)).2 ≠ 0 := by
  obtain ⟨⟨h1, h1'⟩, h2, h2'⟩ := hC.before addr (Or.inl h)
  rcases C.sumOperands_cases (C.base addr) with heq | heq <;> rw [heq]
  · exact ⟨⟨h1, h2⟩, h2'⟩
  · exact ⟨⟨h2, h1⟩, h1'⟩

include hC hv in
theorem sumOperands_value {addr : ℤ} (h : (C.base addr).op = .add) (hw : Wide (C.base addr).type) :
    v addr = v (C.sumOperands (C.base addr)).1 + v (C.sumOperands (C.base addr)).2 ∧
      Wide (C.base (C.sumOperands (C.base addr)).1).type ∧
        Wide (C.base (C.sumOperands (C.base addr)).2).type := by
  have hadd := hv.add addr h hw
  obtain ⟨hw1, hw2⟩ := hC.wide addr (Or.inl h) hw
  rcases C.sumOperands_cases (C.base addr) with heq | heq <;> rw [heq]
  · exact ⟨hadd, hw1, hw2⟩
  · exact ⟨by rw [hadd, add_comm], hw2, hw1⟩

include hC hv in
/-- The first loop keeps the sum. -/
theorem decomposeBase_spec (fuel : ℕ) : ∀ {addr idx : ℤ} {off : BitVec 64}, Wide (C.base addr).type →
    C.WideIndex idx → ∀ {res : ℤ × ℤ × BitVec 64} {exit : Bool},
    C.decomposeBase fuel addr idx off = (res, exit) →
      v res.1 + indexValue v res.2.1 + res.2.2 = v addr + indexValue v idx + off ∧
        C.WideIndex res.2.1 := by
  induction fuel with
  | zero =>
    intro addr idx off hw hidx res exit h
    cases h
    exact ⟨rfl, hidx⟩
  | succ fuel ih =>
    intro addr idx off hw hidx res exit h
    by_cases hadd : (C.base addr).op = .add
    · rw [decomposeBase_add hadd] at h
      obtain ⟨hval, hw1, hw2⟩ := sumOperands_value hC hv hadd hw
      obtain ⟨-, hne⟩ := sumOperands_spec hC hadd
      generalize C.sumOperands (C.base addr) = ops at h hval hw1 hw2 hne
      split_ifs at h with hn h0
      · obtain ⟨hsum, hi⟩ := ih hw1 hidx h
        refine ⟨?_, hi⟩
        rw [hsum, hval, hv.const _ hn hw2]
        ring
      · obtain ⟨hsum, hi⟩ := ih hw1 (fun _ => hw2) h
        refine ⟨?_, hi⟩
        rw [hsum, hval, h0, indexValue, if_neg hne, indexValue, if_pos rfl]
        ring
      · cases h
        exact ⟨rfl, hidx⟩
    by_cases hsub : (C.base addr).op = .sub ∧ C.isNumConst (C.base addr).op2 = true
    · rw [decomposeBase_sub hsub.1 hsub.2] at h
      obtain ⟨hw1, hw2⟩ := hC.wide addr (Or.inr hsub.1) hw
      obtain ⟨hsum, hi⟩ := ih hw1 hidx h
      refine ⟨?_, hi⟩
      rw [hsum, hv.sub addr hsub.1 hw, hv.const _ hsub.2 hw2]
      ring
    · rw [decomposeBase_other hadd hsub] at h
      cases h
      exact ⟨rfl, hidx⟩

/-- A sum or a difference with a number, which the second loop takes apart. -/
theorem decomposeIndex_cases (fuel : ℕ) (idx : ℤ) (off : BitVec 64) :
    (((C.base idx).op = .add ∧ C.isNumConst (C.base idx).op2 = true) ∧
      C.decomposeIndex (fuel + 1) idx off =
        C.decomposeIndex fuel (C.base idx).op1 (off + (C.base (C.base idx).op2).val)) ∨
    (((C.base idx).op = .sub ∧ C.isNumConst (C.base idx).op2 = true) ∧
      C.decomposeIndex (fuel + 1) idx off =
        C.decomposeIndex fuel (C.base idx).op1 (off - (C.base (C.base idx).op2).val)) ∨
    (∀ n, C.decomposeIndex n idx off = (idx, off)) := by
  by_cases hadd : (C.base idx).op = .add ∧ C.isNumConst (C.base idx).op2 = true
  · refine Or.inl ⟨hadd, ?_⟩
    rw [decomposeIndex]
    simp [hadd.1, hadd.2]
  by_cases hsub : (C.base idx).op = .sub ∧ C.isNumConst (C.base idx).op2 = true
  · refine Or.inr (Or.inl ⟨hsub, ?_⟩)
    rw [decomposeIndex]
    simp [hsub.1, hsub.2]
  · refine Or.inr (Or.inr fun n => ?_)
    cases n with
    | zero => rfl
    | succ n =>
      rw [decomposeIndex]
      simp only [hadd, hsub, if_false]

include hC hv in
/-- The second loop keeps the sum. -/
theorem decomposeIndex_spec (fuel : ℕ) : ∀ {idx : ℤ} {off : BitVec 64}, idx ≠ 0 →
    Wide (C.base idx).type →
      indexValue v (C.decomposeIndex fuel idx off).1 + (C.decomposeIndex fuel idx off).2 = v idx + off := by
  induction fuel with
  | zero =>
    intro idx off h0 hw
    rw [decomposeIndex, indexValue, if_neg h0]
  | succ fuel ih =>
    intro idx off h0 hw
    rcases C.decomposeIndex_cases fuel idx off with ⟨h, heq⟩ | ⟨h, heq⟩ | heq
    · obtain ⟨hw1, hw2⟩ := hC.wide idx (Or.inl h.1) hw
      obtain ⟨⟨-, hne⟩, -⟩ := hC.before idx (Or.inl h.1)
      rw [heq, ih hne hw1, hv.add idx h.1 hw, hv.const _ h.2 hw2]
      ring
    · obtain ⟨hw1, hw2⟩ := hC.wide idx (Or.inr h.1) hw
      obtain ⟨⟨-, hne⟩, -⟩ := hC.before idx (Or.inr h.1)
      rw [heq, ih hne hw1, hv.sub idx h.1 hw, hv.const _ h.2 hw2]
      ring
    · rw [heq, indexValue, if_neg h0]

include hC hv in
/-- Base, index and offset add up to the address. -/
theorem decomposeAddr_value {addr : ℤ} (hw : Wide (C.base addr).type) :
    v addr = v (C.decomposeAddr addr).1 + indexValue v (C.decomposeAddr addr).2.1 +
      (C.decomposeAddr addr).2.2 := by
  unfold decomposeAddr
  rcases hres : C.decomposeBase C.insnsCount addr 0 0 with ⟨⟨b, i, o⟩, exit⟩
  obtain ⟨hsum, hi⟩ := decomposeBase_spec hC hv _ hw (fun h => absurd rfl h) hres
  have hstart : v addr = v b + indexValue v i + o := by
    rw [hsum, indexValue, if_pos rfl]
    ring
  dsimp only
  split_ifs with h
  · have hindex : indexValue v (C.decomposeIndex C.insnsCount i o).1 +
        (C.decomposeIndex C.insnsCount i o).2 = v i + o :=
      decomposeIndex_spec hC hv C.insnsCount h.1 (hi h.1)
    rw [hstart, indexValue, if_neg h.1, add_assoc, add_assoc, hindex]
  · exact hstart

/-! ### The rounds are enough -/

include hC in
/-- More rounds than the address has operands before it do not matter. -/
theorem decomposeBase_enough (fuel : ℕ) : ∀ {addr idx : ℤ} {off : BitVec 64} (n : ℕ),
    addr < fuel → fuel ≤ n → 0 < fuel →
      C.decomposeBase n addr idx off = C.decomposeBase fuel addr idx off := by
  induction fuel with
  | zero => exact fun _ _ _ h => absurd h (lt_irrefl 0)
  | succ fuel ih =>
    intro addr idx off n hlt hle _
    obtain ⟨n, rfl⟩ : ∃ m, n = m + 1 := ⟨n - 1, by omega⟩
    by_cases hadd : (C.base addr).op = .add
    · obtain ⟨⟨h1, -⟩, -⟩ := sumOperands_spec hC hadd
      have hpos := (hC.bound addr (Or.inl hadd)).1
      rw [decomposeBase_add hadd, decomposeBase_add hadd]
      split_ifs
      · exact ih n (by omega) (by omega) (by omega)
      · exact ih n (by omega) (by omega) (by omega)
      · rfl
    by_cases hsub : (C.base addr).op = .sub ∧ C.isNumConst (C.base addr).op2 = true
    · obtain ⟨⟨h1, -⟩, -⟩ := hC.before addr (Or.inr hsub.1)
      have hpos := (hC.bound addr (Or.inr hsub.1)).1
      rw [decomposeBase_sub hsub.1 hsub.2, decomposeBase_sub hsub.1 hsub.2]
      exact ih n (by omega) (by omega) (by omega)
    · rw [decomposeBase_other hadd hsub, decomposeBase_other hadd hsub]

include hC in
theorem decomposeIndex_enough (fuel : ℕ) : ∀ {idx : ℤ} {off : BitVec 64} (n : ℕ),
    idx < fuel → fuel ≤ n → C.decomposeIndex n idx off = C.decomposeIndex fuel idx off := by
  induction fuel with
  | zero =>
    intro idx off n hlt _
    obtain _ | n := n
    · rfl
    rcases C.decomposeIndex_cases n idx off with ⟨h, -⟩ | ⟨h, -⟩ | heq
    · have := (hC.bound idx (Or.inl h.1)).1
      omega
    · have := (hC.bound idx (Or.inr h.1)).1
      omega
    · rw [heq, heq]
  | succ fuel ih =>
    intro idx off n hlt hle
    obtain ⟨n, rfl⟩ : ∃ m, n = m + 1 := ⟨n - 1, by omega⟩
    rcases C.decomposeIndex_cases n idx off with ⟨h, -⟩ | ⟨h, -⟩ | heq
    · obtain ⟨⟨h1, -⟩, -⟩ := hC.before idx (Or.inl h.1)
      rw [decomposeIndex, decomposeIndex]
      simp only [h.1, h.2, and_self, if_true]
      exact ih n (by omega) (by omega)
    · obtain ⟨⟨h1, -⟩, -⟩ := hC.before idx (Or.inr h.1)
      rw [decomposeIndex, decomposeIndex]
      simp only [h.1, h.2, and_self, if_true]
      exact ih n (by omega) (by omega)
    · rw [heq, heq]

include hC in
/-- The loops end within as many rounds as there are instructions. -/
theorem decomposeBase_rounds (addr idx : ℤ) (off : BitVec 64) {n : ℕ} (hn : C.insnsCount ≤ n) :
    C.decomposeBase n addr idx off = C.decomposeBase C.insnsCount addr idx off := by
  by_cases hlt : addr < C.insnsCount
  · exact decomposeBase_enough hC _ n hlt hn hC.start
  · obtain ⟨m, hm⟩ : ∃ m, C.insnsCount = m + 1 := ⟨C.insnsCount - 1, by have := hC.start; omega⟩
    obtain ⟨k, rfl⟩ : ∃ k, n = k + 1 := ⟨n - 1, by omega⟩
    have hadd : (C.base addr).op ≠ .add := fun h => hlt (hC.bound addr (Or.inl h)).2
    have hsub : (C.base addr).op ≠ .sub := fun h => hlt (hC.bound addr (Or.inr h)).2
    rw [hm, decomposeBase_other hadd fun h => hsub h.1, decomposeBase_other hadd fun h => hsub h.1]

include hC in
theorem decomposeIndex_rounds (idx : ℤ) (off : BitVec 64) {n : ℕ} (hn : C.insnsCount ≤ n) :
    C.decomposeIndex n idx off = C.decomposeIndex C.insnsCount idx off := by
  by_cases hlt : idx < C.insnsCount
  · exact decomposeIndex_enough hC _ n hlt hn
  · rcases C.decomposeIndex_cases n idx off with ⟨h, -⟩ | ⟨h, -⟩ | heq
    · exact absurd (hC.bound idx (Or.inl h.1)).2 hlt
    · exact absurd (hC.bound idx (Or.inr h.1)).2 hlt
    · rw [heq, heq]

end Decompose

/-! ## The answer -/

/-- The bytes of a memory access. -/
def bytes (addr : BitVec 64) (t : IrType) : Set ℕ := Set.Ico addr.toNat (addr.toNat + t.size)

/-- Neither the sum of the offset and the size nor the access itself wraps. -/
structure Unwrapped (C : Ctx) (v : ℤ → BitVec 64) (addr : ℤ) (t : IrType) : Prop where
  offset : (C.decomposeAddr addr).2.2.toInt + t.size < 2 ^ 63
  low : 0 ≤ ((v (C.decomposeAddr addr).1 + indexValue v (C.decomposeAddr addr).2.1).toNat : ℤ) +
    (C.decomposeAddr addr).2.2.toInt
  high : ((v (C.decomposeAddr addr).1 + indexValue v (C.decomposeAddr addr).2.1).toNat : ℤ) +
    (C.decomposeAddr addr).2.2.toInt + t.size ≤ 2 ^ 64

theorem size_pos {t : IrType} (h : t ≠ .void) : 0 < t.size := by
  cases t <;> first | exact absurd rfl h | decide

/-- An offset moves an address as far as it says. -/
theorem toNat_add_offset {a o : BitVec 64} (hlow : 0 ≤ (a.toNat : ℤ) + o.toInt)
    (hhigh : (a.toNat : ℤ) + o.toInt < 2 ^ 64) : ((a + o).toNat : ℤ) = a.toNat + o.toInt := by
  rw [BitVec.toInt_eq_toNat_cond] at *
  have ha := a.isLt
  have ho := o.isLt
  rw [BitVec.toNat_add]
  split_ifs at * <;> omega

section Answer

variable {C : Ctx} {v : ℤ → BitVec 64} {addr addr1 addr2 : ℤ} {t type1 type2 : IrType}

/-- The address of an access that does not wrap. -/
theorem Unwrapped.toNat (hC : C.OperandsFirst) (hv : C.Evaluates v) (h : C.Unwrapped v addr t)
    (hw : Wide (C.base addr).type) (ht : t ≠ .void) : ((v addr).toNat : ℤ) =
      (v (C.decomposeAddr addr).1 + indexValue v (C.decomposeAddr addr).2.1).toNat +
        (C.decomposeAddr addr).2.2.toInt := by
  have hpos := size_pos ht
  have hhigh := h.high
  rw [decomposeAddr_value hC hv hw]
  exact toNat_add_offset h.low (by omega)

/-- The answer for one base and one index. -/
theorem checkAliasing_same (hb : (C.decomposeAddr addr1).1 = (C.decomposeAddr addr2).1)
    (hi : (C.decomposeAddr addr1).2.1 = (C.decomposeAddr addr2).2.1) :
    C.checkAliasing addr1 addr2 type1 type2 =
      if (C.decomposeAddr addr1).2.2 = (C.decomposeAddr addr2).2.2 then .must
      else if (C.decomposeAddr addr1).2.2.toInt < (C.decomposeAddr addr2).2.2.toInt then
        if (C.decomposeAddr addr1).2.2.toInt + type1.size ≤ (C.decomposeAddr addr2).2.2.toInt then .no
        else .must
      else if (C.decomposeAddr addr2).2.2.toInt + type2.size ≤ (C.decomposeAddr addr1).2.2.toInt then .no
      else .must := by
  unfold checkAliasing
  dsimp only
  rw [if_pos hb, if_neg (not_not_intro hi)]

end Answer

/-- `p + 8` and `p + 16` for a parameter `p`. -/
def fieldsBase (r : ℤ) : Insn :=
  match r with
  | -5 => ⟨.cAddr, .addr, 0, 0, 0, 16, 0⟩
  | -4 => ⟨.cAddr, .addr, 0, 0, 0, 8, 0⟩
  | 2 => ⟨.param, .addr, 1, 0, 0, 0, 0⟩
  | 3 => ⟨.add, .addr, 2, -4, 0, 0, 0⟩
  | 4 => ⟨.add, .addr, 2, -5, 0, 0, 0⟩
  | _ => ⟨.nop, .void, 0, 0, 0, 0, 0⟩

def fieldsCtx : Ctx := ⟨fieldsBase, 5, 1, fun _ => false⟩

/-- The run in which `p` is 4096. -/
def fieldsRun (r : ℤ) : BitVec 64 :=
  match r with
  | -5 => 16
  | -4 => 8
  | 2 => 4096
  | 3 => 4104
  | 4 => 4112
  | _ => 0

end Ctx

end IrJit.Mem
