import IrJit.X86.Switch

/-!
# X86.SwitchSpec — the compare sequence of `ir_emit_switch`
-/

namespace IrJit.X86.Switch

/-! ### Values -/

/-- The integer types of an operand. -/
def IsOperandType (type : IrType) : Prop := type.isInt = true ∧ type ≠ .void

variable {type : IrType} {a b v x : Word}

theorem width_cases (ht : IsOperandType type) : type.size = 1 ∨ type.size = 2 ∨ type.size = 4 ∨ type.size = 8 := by
  obtain ⟨h1, h2⟩ := ht
  cases type <;> simp_all [IrType.isInt, IrType.size]

theorem width_le (ht : IsOperandType type) : 8 * type.size ≤ 64 := by
  rcases width_cases ht with h | h | h | h <;> omega

theorem setWidth_extend (ht : IsOperandType type) (v : Word) :
    (extend type v).setWidth (8 * type.size) = v.setWidth (8 * type.size) := by
  have hw := width_le ht
  unfold extend
  split_ifs
  · ext i hi
    have hi64 : i < 64 := by omega
    simp [BitVec.getElem_signExtend, hi, hi64]
  · ext i hi
    have hi64 : i < 64 := by omega
    simp [hi, hi64]

theorem extend_eq_iff (ht : IsOperandType type) :
    extend type a = extend type b ↔ a.setWidth (8 * type.size) = b.setWidth (8 * type.size) := by
  constructor
  · intro h
    rw [← setWidth_extend ht a, ← setWidth_extend ht b, h]
  · intro h
    unfold extend
    rw [h]

theorem extend_extend (ht : IsOperandType type) (v : Word) : extend type (extend type v) = extend type v :=
  (extend_eq_iff ht).mpr (setWidth_extend ht v)

theorem extend_eight (h : type.size = 8) (v : Word) : extend type v = v := by
  unfold extend
  rw [h]
  simp

/-- The number a constant or an extended operand stands for. -/
def value (type : IrType) (v : Word) : ℤ := if type.isSigned then v.toInt else v.toNat

theorem value_inj (h : value type a = value type b) : a = b := by
  unfold value at h
  split_ifs at h
  · exact BitVec.eq_of_toInt_eq h
  · exact BitVec.eq_of_toNat_eq (by exact_mod_cast h)

theorem value_extend (ht : IsOperandType type) (v : Word) : value type (extend type v) =
    if type.isSigned then (v.setWidth (8 * type.size)).toInt else ((v.setWidth (8 * type.size)).toNat : ℤ) := by
  have hw := width_le ht
  unfold value extend
  split_ifs
  · exact BitVec.toInt_signExtend_of_le hw
  · rw [BitVec.toNat_setWidth_of_le hw]

/-- The condition of `jl` or `jb`, by the type. -/
def ltCond (type : IrType) : JumpCond := if type.isSigned then .l else .b

def leCond (type : IrType) : JumpCond := if type.isSigned then .le else .be

section

variable (ht : IsOperandType type)
include ht

/-- A comparison at the width of the type. -/
theorem holds_lt (a b : Word) :
    (ltCond type).holds (cmpFlags (a.setWidth (8 * type.size)) (b.setWidth (8 * type.size))) = true ↔
      value type (extend type a) < value type (extend type b) := by
  rw [value_extend ht, value_extend ht]
  unfold ltCond cmpFlags
  split_ifs
  · exact BitVec.slt_iff_toInt_lt
  · exact BitVec.ult_iff_toNat_lt.trans Int.ofNat_lt.symm

theorem holds_e (a b : Word) :
    JumpCond.holds (cmpFlags (a.setWidth (8 * type.size)) (b.setWidth (8 * type.size))) .e = true ↔
      extend type a = extend type b := by
  rw [extend_eq_iff ht]
  exact beq_iff_eq

theorem holds_le (a b : Word) :
    (leCond type).holds (cmpFlags (a.setWidth (8 * type.size)) (b.setWidth (8 * type.size))) = true ↔
      value type (extend type a) ≤ value type (extend type b) := by
  have hlt := holds_lt ht a b
  have he := holds_e ht a b
  have hsplit : (leCond type).holds (cmpFlags (a.setWidth (8 * type.size)) (b.setWidth (8 * type.size))) =
      ((ltCond type).holds (cmpFlags (a.setWidth (8 * type.size)) (b.setWidth (8 * type.size))) ||
        JumpCond.holds (cmpFlags (a.setWidth (8 * type.size)) (b.setWidth (8 * type.size))) .e) := by
    unfold leCond ltCond
    split_ifs
    · rfl
    · rfl
  rw [hsplit, Bool.or_eq_true, hlt, he]
  constructor
  · rintro (h | h)
    · omega
    · rw [h]
  · intro h
    rcases lt_or_eq_of_le h with h | h
    · exact Or.inl h
    · exact Or.inr (value_inj h)

end

/-! ### What a compare instruction sees -/

/-- The constant that the compare of a case works with. -/
def seen (type : IrType) (v : Word) : Word :=
  extend type (if is32Bit type v then (v.setWidth 32).signExtend 64 else v)

/-- An unsigned 64-bit constant whose immediate is sign-extended to another one. -/
def IsWide (type : IrType) (v : Word) : Prop :=
  type.size = 8 ∧ type.isSigned = false ∧ 2 ^ 31 ≤ v.toNat ∧ v.toNat < 2 ^ 32

theorem toInt_signExtend_setWidth_of_fits (h : isSigned32Bit v = true) : (v.setWidth 32).signExtend 64 = v := by
  unfold isSigned32Bit at h
  simp only [Bool.and_eq_true, decide_eq_true_eq] at h
  apply BitVec.eq_of_toInt_eq
  rw [BitVec.toInt_signExtend_of_le (by omega), BitVec.toInt_setWidth]
  rw [BitVec.toInt_eq_toNat_bmod] at h ⊢
  have := v.isLt
  simp only [Int.bmod_def] at h ⊢
  omega

theorem toNat_signExtend_setWidth (v : Word) : ((v.setWidth 32).signExtend 64).toNat =
    if v.toNat % 2 ^ 32 < 2 ^ 31 then v.toNat % 2 ^ 32 else v.toNat % 2 ^ 32 + (2 ^ 64 - 2 ^ 32) := by
  rw [BitVec.toNat_signExtend]
  simp only [BitVec.msb_eq_decide, BitVec.toNat_setWidth]
  split_ifs <;> simp_all <;> omega

/-- All other constants are seen as they are. -/
theorem seen_eq (ht : IsOperandType type) (hv : extend type v = v) (hn : ¬ IsWide type v) : seen type v = v := by
  unfold seen
  split_ifs with h
  · by_cases h8 : type.size = 8
    · rw [extend_eight h8]
      unfold is32Bit at h
      split_ifs at h with hs
      · exact toInt_signExtend_setWidth_of_fits h
      · have hlt : v.toNat < 2 ^ 31 := by
          by_contra hge
          refine hn ⟨h8, by simpa using hs, by omega, ?_⟩
          simp at h
          omega
        apply BitVec.eq_of_toNat_eq
        rw [toNat_signExtend_setWidth]
        split_ifs <;> omega
    · -- the low half is all there is
      have hle : 8 * type.size ≤ 32 := by
        rcases width_cases ht with h' | h' | h' | h' <;> omega
      conv_rhs => rw [← hv]
      rw [extend_eq_iff ht]
      ext i hi
      have hi32 : i < 32 := by omega
      have hi64 : i < 64 := by omega
      rw [BitVec.getElem_setWidth, BitVec.getElem_setWidth, BitVec.getLsbD_signExtend]
      simp [hi32, hi64]
  · exact hv

/-- What is seen of a wide constant. -/
theorem seen_wide (hn : IsWide type v) : (seen type v).toNat = v.toNat + (2 ^ 64 - 2 ^ 32) := by
  obtain ⟨h8, hs, h1, h2⟩ := hn
  have h32 : is32Bit type v = true := by
    unfold is32Bit
    rw [hs]
    simp
    omega
  unfold seen
  rw [if_pos h32, extend_eight h8, toNat_signExtend_setWidth]
  split_ifs <;> omega

/-! ### The code of a case -/

/-- The operand, extended, is in the case. -/
def CaseInsn.Hits (type : IrType) (x : Word) : CaseInsn → Prop
  | .caseVal v => x = v
  | .caseRange v v2 => value type v ≤ value type x ∧ value type x ≤ value type v2
  | .caseDefault => False

/-- The case with the constants that its code sees. -/
def CaseInsn.seen (type : IrType) : CaseInsn → CaseInsn
  | .caseVal v => .caseVal (Switch.seen type v)
  | .caseRange v v2 => .caseRange (Switch.seen type v) (Switch.seen type v2)
  | .caseDefault => .caseDefault

theorem exec_append_cmp (sw : SwitchInsn) (table : Word) (v : Word) (rest : List Instr) (s : SwState) :
    ∃ s', exec table false (sw.emitCompare v ++ rest) s = exec table false rest s' ∧ s'.op2 = s.op2 ∧
      s'.flags = cmpFlags (s.op2.setWidth (8 * sw.type.size)) ((if is32Bit sw.type v then
        (v.setWidth 32).signExtend 64 else v).setWidth (8 * sw.type.size)) := by
  unfold SwitchInsn.emitCompare
  split_ifs
  · exact ⟨_, rfl, rfl, rfl⟩
  · exact ⟨_, rfl, rfl, rfl⟩

/-- **The code of a successor.** -/
theorem exec_emitCase (sw : SwitchInsn) (ht : IsOperandType sw.type) (table : Word) (t : Successor) (rest : List Instr)
    (s : SwState) :
    ((t.insn.seen sw.type).Hits sw.type (extend sw.type s.op2) →
      exec table false (sw.emitCase t ++ rest) s = .block t.block) ∧
    (¬ (t.insn.seen sw.type).Hits sw.type (extend sw.type s.op2) →
      ∃ s', exec table false (sw.emitCase t ++ rest) s = exec table false rest s' ∧ s'.op2 = s.op2) := by
  obtain ⟨insn, block⟩ := t
  cases insn with
  | caseDefault => exact ⟨fun h => absurd h id, fun _ => ⟨s, rfl, rfl⟩⟩
  | caseVal v =>
    have hcode : ∃ s', exec table false (sw.emitCase ⟨.caseVal v, block⟩ ++ rest) s =
        exec table false (.jcc .e block :: .next :: rest) s' ∧ s'.op2 = s.op2 ∧
        s'.flags = cmpFlags (s.op2.setWidth (8 * sw.type.size)) ((if is32Bit sw.type v then
          (v.setWidth 32).signExtend 64 else v).setWidth (8 * sw.type.size)) := by
      unfold SwitchInsn.emitCase
      dsimp only
      rw [List.append_assoc]
      by_cases hv : v = 0
      · subst hv
        rw [if_pos rfl]
        refine ⟨_, rfl, rfl, ?_⟩
        simp
      · rw [if_neg hv]
        exact exec_append_cmp sw table v _ s
    obtain ⟨s', hexec, hop, hflags⟩ := hcode
    have he := holds_e ht s.op2 (if is32Bit sw.type v then (v.setWidth 32).signExtend 64 else v)
    rw [← hflags] at he
    rw [hexec]
    constructor
    · intro h
      rw [exec, if_pos (he.mpr h)]
    · intro h
      refine ⟨s', ?_, hop⟩
      rw [exec, if_neg (fun hh => h (he.mp hh)), exec]
  | caseRange v v2 =>
    obtain ⟨s₁, hexec₁, hop₁, hflags₁⟩ := exec_append_cmp sw table v
      (.jccNext (ltCond sw.type) :: (sw.emitCompare v2 ++ .jcc (leCond sw.type) block :: .next :: rest)) s
    obtain ⟨s₂, hexec₂, hop₂, hflags₂⟩ := exec_append_cmp sw table v2
      (.jcc (leCond sw.type) block :: .next :: rest) s₁
    have hlt := holds_lt ht s.op2 (if is32Bit sw.type v then (v.setWidth 32).signExtend 64 else v)
    have hle := holds_le ht s₁.op2 (if is32Bit sw.type v2 then (v2.setWidth 32).signExtend 64 else v2)
    rw [← hflags₁] at hlt
    rw [← hflags₂, hop₁] at hle
    have hcode : sw.emitCase ⟨.caseRange v v2, block⟩ ++ rest = sw.emitCompare v ++
        (.jccNext (ltCond sw.type) :: (sw.emitCompare v2 ++ .jcc (leCond sw.type) block :: .next :: rest)) := by
      simp [SwitchInsn.emitCase, ltCond, leCond]
    -- from the first jump the label is found behind the second compare
    have hskip : exec table true (sw.emitCompare v2 ++ .jcc (leCond sw.type) block :: .next :: rest) s₁ =
        exec table false rest s₁ := by
      unfold SwitchInsn.emitCompare
      split_ifs
      · simp [exec]
      · simp [exec]
    rw [hcode, hexec₁]
    constructor
    · rintro ⟨h1, h2⟩
      have hno : ¬ (ltCond sw.type).holds s₁.flags = true := fun h => absurd (hlt.mp h) (not_lt.mpr h1)
      rw [exec, Bool.eq_false_iff.mpr hno, hexec₂, exec, if_pos (hle.mpr h2)]
    · intro h
      by_cases h1 : (ltCond sw.type).holds s₁.flags = true
      · refine ⟨s₁, ?_, hop₁⟩
        rw [exec, h1, hskip]
      · have h2 : ¬ (leCond sw.type).holds s₂.flags = true := fun hh =>
          h ⟨not_lt.mp fun hlt' => h1 (hlt.mpr hlt'), hle.mp hh⟩
        refine ⟨s₂, ?_, hop₂.trans hop₁⟩
        rw [exec, Bool.eq_false_iff.mpr h1, hexec₂, exec, if_neg h2, exec]

end IrJit.X86.Switch
