import IrJit.Fold.Floats

/-!
# Fold.Choose — conditional values and booleans

`COND` takes the value of its second or of its third operand.  A number is true unless it is zero, a
symbol is the address of something and so not zero, whatever the index of its name.
-/

namespace IrJit.Fold

open Ieee

/-! ## Values -/

/-- The condition of `COND`. -/
def Ctx.truth (c : Ctx) (ρ : ℤ → ℤ) (r : ℤ) : Bool :=
  if (c.insn r).type.isInt then ρ r ≠ 0 else !isZero (c.insn r).type (pattern ρ r)

/-- `ORDERED` of integers holds, they are no NaN. -/
def orders (o : IrOp) (c : Ctx) (ρ : ℤ → ℤ) (r s : ℤ) : Bool :=
  holds o (if (c.insn r).type.isInt then .equal else relate (c.insn r).type (pattern ρ r) (pattern ρ s))

/-- The value of the instruction that is asked for. -/
def Question.denoted (c : Ctx) (ρ : ℤ → ℤ) (q : Question) : ℤ :=
  match q.op with
  | .cond => if c.truth ρ q.op1 then ρ q.op2 else ρ q.op3
  | .ordered | .unordered => if orders q.op c ρ q.op1 q.op2 then 1 else 0
  | _ => q.value c ρ

/-- Two integers or two floating point values. -/
def Comparable (t u : IrType) : Prop := (IsInt t ∧ IsInt u) ∨ (isFp t = true ∧ u = t)

instance (t u : IrType) : Decidable (Comparable t u) := by unfold Comparable; infer_instance

/-- What the types of a graph are besides those of `Ctx.Typed`: a comparison has two integers or two
floating point values, `ir_const` returns `IR_FALSE` or `IR_TRUE` for a boolean, and a symbol is an
address. -/
structure Ctx.Compares (c : Ctx) : Prop where
  node : ∀ r, isCmp (c.insn r).op = true →
    Comparable (c.insn (c.insn r).op1).type (c.insn (c.insn r).op2).type
  ordered : ∀ r, (c.insn r).op = .ordered ∨ (c.insn r).op = .unordered → (c.insn r).type = .bool
  booleans : ∀ r, (c.insn r).op = .cBool → r = irFalse ∨ r = irTrue
  symbols : ∀ r, (c.insn r).op.isSymConst = true → (c.insn r).type = .addr

/-- A run: the values of the integers, of the floating point values, of `ORDERED` and of the symbols. -/
structure Ctx.Runs (c : Ctx) (ρ : ℤ → ℤ) : Prop where
  models : c.Models ρ
  floats : c.Floats ρ
  ordered : ∀ r, (c.insn r).op = .ordered ∨ (c.insn r).op = .unordered →
    ρ r = if orders (c.insn r).op c ρ (c.insn r).op1 (c.insn r).op2 then 1 else 0
  symbol : ∀ r, (c.insn r).op.isSymConst = true → ρ r ≠ 0

/-- The types that are asked for. -/
structure Question.Allowed (c : Ctx) (q : Question) : Prop where
  typed : q.op ≠ .cond → q.Typed c
  compares : isCmp q.op = true → Comparable (c.insn q.op1).type (c.insn q.op2).type
  condition : q.op = .cond → (c.insn q.op1).type ≠ .void ∧ q.type ≠ .void
  choices : q.op = .cond → Compat q.type (c.insn q.op2).type ∧ Compat q.type (c.insn q.op3).type

/-- What a rule replies denotes the value of the question. -/
def Reply.Denotes (c : Ctx) (ρ : ℤ → ℤ) (q : Question) : Reply → Prop
  | .const v => Agree q.type (constValue q.type v) (q.denoted c ρ)
  | .copy r => Agree q.type (ρ r) (q.denoted c ρ)
  | .restart c' q' => Agree q.type (q'.denoted c' ρ) (q.denoted c ρ)
  | .emit _ | .next => True
  | .undefined => False

/-! ## Conditions -/

/-- An integer constant whose bits are not all zero is not zero in its type, or it does not matter. -/
def ConstAgrees (c : Ctx) (ρ : ℤ → ℤ) (q : Question) : Prop :=
  (c.insn q.op1).type.isInt = true → (c.insn q.op1).type ≠ .bool → (c.insn q.op1).val ≠ 0 →
    valueOf (c.insn q.op1).type (c.insn q.op1).val ≠ 0 ∨ Agree q.type (ρ q.op2) (ρ q.op3)

/-- `EQ(x, TRUE)` is answered with `x`. -/
def EqAgrees (_ : Ctx) (ρ : ℤ → ℤ) (q : Question) : Prop :=
  q.op2 = irTrue → ρ q.op1 = 1 ∨ toU 8 (ρ q.op1) = 0

/-- `NE(x, FALSE)` is answered with `x`, and `NE(x, TRUE)` with `NOT(x)`. -/
def NeAgrees (_ : Ctx) (ρ : ℤ → ℤ) (q : Question) : Prop :=
  (q.op2 = irFalse → ρ q.op1 = 0 ∨ toU 8 (ρ q.op1) = 1) ∧
    (q.op2 = irTrue → ρ q.op1 = 0 ∨ ρ q.op1 = 1)

/-- The body takes `COND` of a boolean for its conversion. -/
def Numeric (c : Ctx) (q : Question) : Prop :=
  (c.insn q.op1).type = .bool ∧ q.op2 ≠ irTrue ∧ q.op3 ≠ irFalse ∧ q.op2 ≠ irFalse ∧
    (q.type.isInt = true ∧ q.op2 < 0 ∧ q.op3 < 0 ∧ (c.insn q.op2).val = 1 ∧ (c.insn q.op3).val = 0)

/-- A symbol that is chosen is the address 1, and none is chosen for 0. -/
def NumericAgrees (c : Ctx) (ρ : ℤ → ℤ) (q : Question) : Prop :=
  Numeric c q → (ρ q.op1 ≠ 0 → (c.insn q.op2).op.isSymConst = true → ρ q.op2 = 1) ∧
    (ρ q.op1 = 0 → (c.insn q.op3).op.isSymConst = false)

/-- The body drops `NE` or `EQ` of the condition. -/
def DropsNull (c : Ctx) (q : Question) : Prop :=
  q.op2 ≠ q.op3 ∧ condBool c q (c.insn q.op2) = .next ∧
    ((c.insn q.op1).op = .ne ∨ (c.insn q.op1).op = .eq) ∧ (c.insn q.op1).op2 < 0 ∧
      (c.insn (c.insn q.op1).op2).type.isInt = true ∧ (c.insn (c.insn q.op1).op2).val = 0

/-- What is compared with a symbol is neither that symbol nor zero, or it does not matter. -/
def NullAgrees (c : Ctx) (ρ : ℤ → ℤ) (q : Question) : Prop :=
  DropsNull c q → (c.insn (c.insn q.op1).op2).op.isSymConst = true →
    let t := (c.insn (c.insn q.op1).op1).type
    let x := ρ (c.insn q.op1).op1
    let k := wrap t (ρ (c.insn q.op1).op2)
    k = 0 ∨ (x ≠ 0 ∧ x ≠ k) ∨ Agree q.type (ρ q.op2) (ρ q.op3)

def CondAgrees (c : Ctx) (ρ : ℤ → ℤ) (q : Question) : Prop := NumericAgrees c ρ q ∧ NullAgrees c ρ q

/-! ## Truth -/

section Truth

variable {c : Ctx} {ρ : ℤ → ℤ} {q : Question} {r : ℤ}

theorem Agree.symm {t : IrType} {m n : ℤ} (h : Agree t m n) : Agree t n m := Eq.symm h

theorem Comparable.isInt {t u : IrType} (h : Comparable t u) (hu : IsInt u) : IsInt t := by
  rcases h with h | ⟨hf, rfl⟩
  · exact h.1
  · exact hu

theorem Comparable.both {t u : IrType} (h : Comparable t u) (ht : t.isInt = true) : IsInt t ∧ IsInt u := by
  rcases h with h | ⟨hf, -⟩
  · exact h
  · rw [not_isInt_of_isFp hf] at ht
    cases ht

theorem agree_comm {t : IrType} {m n : ℤ} : Agree t m n ↔ Agree t n m := ⟨Agree.symm, Agree.symm⟩

theorem truth_of_isInt (h : (c.insn r).type.isInt = true) : c.truth ρ r = decide (ρ r ≠ 0) := if_pos h

theorem denoted_cond (h : q.op = .cond) :
    q.denoted c ρ = if c.truth ρ q.op1 then ρ q.op2 else ρ q.op3 := by
  unfold Question.denoted
  rw [h]

theorem denoted_value (h : q.op ≠ .cond ∧ q.op ≠ .ordered ∧ q.op ≠ .unordered) :
    q.denoted c ρ = q.value c ρ := by
  unfold Question.denoted
  split
  · exact absurd ‹_› h.1
  · exact absurd ‹_› h.2.1
  · exact absurd ‹_› h.2.2
  · rfl

theorem denoted_orders (h : q.op = .ordered ∨ q.op = .unordered) :
    q.denoted c ρ = if orders q.op c ρ q.op1 q.op2 then 1 else 0 := by
  unfold Question.denoted
  rcases h with h | h <;> rw [h]

/-- One of the two operands is chosen. -/
theorem denotes_second (h : q.op = .cond) : (Reply.copy q.op2).Denotes c ρ q ↔
    c.truth ρ q.op1 = true ∨ Agree q.type (ρ q.op2) (ρ q.op3) := by
  show Agree q.type (ρ q.op2) (q.denoted c ρ) ↔ _
  rw [denoted_cond h]
  cases c.truth ρ q.op1
  · simp
  · simp [Agree.refl]

theorem denotes_third (h : q.op = .cond) : (Reply.copy q.op3).Denotes c ρ q ↔
    c.truth ρ q.op1 = false ∨ Agree q.type (ρ q.op2) (ρ q.op3) := by
  show Agree q.type (ρ q.op3) (q.denoted c ρ) ↔ _
  rw [denoted_cond h]
  cases c.truth ρ q.op1
  · simp [Agree.refl]
  · simp [agree_comm]

/-- A boolean is 0 or 1. -/
theorem Ctx.Models.bool_cases (hρ : c.Models ρ) (h : (c.insn r).type = .bool) : ρ r = 0 ∨ ρ r = 1 := by
  have hr := hρ.range r (by rw [h]; decide)
  rw [h] at hr
  exact inRange_bool_cases hr

end Truth

/-! ## Constant conditions -/

section Constants

variable {F : FloatOps} {c : Ctx} {ρ : ℤ → ℤ} {q : Question} (hw : c.WellFormed) (hc : c.Typed)
  (hρ : c.Runs ρ)

include hw hc hρ

/-- `ir_const_is_true` of a number and the value of the number. -/
theorem constIsTrue_iff {r : ℤ} (h : (c.insn r).op.isConstOp = true) :
    (constIsTrue (ieee F) (c.insn r) = c.truth ρ r) ↔
      ((c.insn r).type.isInt = true → (c.insn r).type ≠ .bool → (c.insn r).val ≠ 0 →
        valueOf (c.insn r).type (c.insn r).val ≠ 0) := by
  have hsym : (c.insn r).op.isSymConst = false := by
    generalize (c.insn r).op = o at h
    cases o <;> first | rfl | exact absurd h (by decide)
  obtain ⟨hneg, hmem⟩ := mem_consts hw h
  have hop := hc.consts _ hmem h
  have hvoid : (c.insn r).type ≠ .void := fun hv => by
    rw [hop, hv] at h
    cases h
  unfold constIsTrue Ctx.truth
  rw [hsym, if_neg Bool.false_ne_true]
  cases hint : (c.insn r).type.isInt
  · -- a floating point constant
    have hbool : (c.insn r).type ≠ .bool := fun hb => by
      rw [hb] at hint
      cases hint
    have hfp : isFp (c.insn r).type = true := by
      generalize (c.insn r).type = t at hint
      cases t <;> first | rfl | cases hint
    rw [if_neg hbool, if_neg Bool.false_ne_true, if_neg Bool.false_ne_true,
      hρ.floats.const r hneg hsym hfp]
    exact iff_of_true rfl fun h => by cases h
  have hvalue := hρ.models.number r hneg hsym ⟨hint, hvoid⟩
  rw [if_pos rfl, hvalue]
  by_cases hb : (c.insn r).type = .bool
  · have hrange := hρ.models.bool_cases hb
    rw [hvalue, hb] at hrange
    rw [if_pos hb, hb]
    refine iff_of_true ?_ fun _ hne => absurd rfl hne
    have hval : valueOf .bool (c.insn r).val = u8 (c.insn r).val := rfl
    unfold valB
    rw [if_pos rfl, hval]
  · rw [if_neg hb, if_pos rfl]
    have hz : i64 (c.insn r).val ≠ 0 ↔ (c.insn r).val ≠ 0 := by
      unfold i64
      rw [toI_toNat (by norm_num), ← BitVec.toInt_zero (w := 64), Ne, Ne, BitVec.toInt_inj]
      rfl
    rw [decide_eq_decide, hz]
    constructor
    · exact fun h _ _ hne => h.1 hne
    · refine fun h => ⟨h rfl hb, fun hne hv => hne ?_⟩
      rw [hv]
      exact valueOf_zero ⟨hint, hvoid⟩

theorem condConst_right_iff (hm : condConst.Matches c q) :
    (condConst.reply (ieee F) c q).Denotes c ρ q ↔ ConstAgrees c ρ q := by
  obtain ⟨k1, k2, hk1, -, hp⟩ := hm
  simp only [condConst, Bool.and_eq_true, decide_eq_true_eq] at hp
  obtain ⟨⟨hop, hconst⟩, -⟩ := hp
  rw [← hk1.eq (by rintro rfl; cases hconst)] at hconst
  have hiff := constIsTrue_iff (F := F) hw hc hρ hconst
  have hreply : condConst.reply (ieee F) c q =
      if constIsTrue (ieee F) (c.insn q.op1) then .copy q.op2 else .copy q.op3 := rfl
  have hright : (condConst.reply (ieee F) c q).Denotes c ρ q ↔
      constIsTrue (ieee F) (c.insn q.op1) = c.truth ρ q.op1 ∨ Agree q.type (ρ q.op2) (ρ q.op3) := by
    rw [hreply]
    cases constIsTrue (ieee F) (c.insn q.op1)
    · rw [if_neg Bool.false_ne_true, denotes_third hop, eq_comm]
    · rw [if_pos rfl, denotes_second hop, eq_comm]
  rw [hright, hiff]
  unfold ConstAgrees
  by_cases ha : Agree q.type (ρ q.op2) (ρ q.op3)
  · exact iff_of_true (Or.inr ha) fun _ _ _ => Or.inr ha
  · simp only [ha, or_false]

end Constants

/-! ## Equality with a boolean -/

section Booleans

variable {F : FloatOps} {c : Ctx} {ρ : ℤ → ℤ} {q : Question}

/-- `NOT` of type `BOOL` as an answer. -/
theorem denotes_not {r : ℤ} : (Reply.unary c q .not .bool r).Denotes c ρ q ↔
    Agree q.type (if ρ r = 0 then 1 else 0) (q.denoted c ρ) := Iff.rfl

theorem wrap_bit {t : IrType} (ht : IsInt t) (b : Bool) : wrap t (if b then 1 else 0) = if b then 1 else 0 := by
  cases b
  · exact valueOf_zero ht
  · exact valueOf_one ht

theorem agree_bit (x : ℤ) (b : Bool) :
    Agree .bool x (if b then 1 else 0) ↔ toU 8 x = if b then 1 else 0 := by
  cases b <;> exact Iff.rfl

variable (hw : c.WellFormed) (hc : c.Typed) (hg : c.Compares) (hρ : c.Runs ρ) (hq : q.Allowed c)

include hw hc hg hρ hq

/-- Comparison with a boolean constant. -/
theorem value_eqBool (hop : q.op = .eq ∨ q.op = .ne) (h2 : (c.insn q.op2).op = .cBool) :
    q.type = .bool ∧ (q.op2 = irFalse ∨ q.op2 = irTrue) ∧ q.denoted c ρ =
      if decide (ρ q.op1 = if q.op2 = irTrue then 1 else 0) = decide (q.op = .eq) then 1 else 0 := by
  have hcmp : isCmp q.op = true := by rcases hop with h | h <;> rw [h] <;> rfl
  have hcond : q.op ≠ .cond ∧ q.op ≠ .ordered ∧ q.op ≠ .unordered := by
    rcases hop with h | h <;> rw [h] <;> decide
  have hbool : q.type = .bool := by
    have hacc := (hq.typed hcond.1).accepts
    rcases hop with h | h <;> rw [h] at hacc <;> exact hacc
  have hb := hg.booleans q.op2 h2
  have hint2 : IsInt (c.insn q.op2).type := by
    rcases hb with h | h <;> rw [h]
    · rw [hc.isFalse.1]; decide
    · rw [hc.isTrue.1]; decide
  have hint1 := (hq.compares hcmp).isInt hint2
  refine ⟨hbool, hb, ?_⟩
  have hy : wrap (c.insn q.op1).type (ρ q.op2) = if q.op2 = irTrue then 1 else 0 := by
    rcases hb with h | h
    · rw [h, hρ.models.isFalse hw hc, if_neg (by decide)]
      exact valueOf_zero hint1
    · rw [h, hρ.models.isTrue hw hc, if_pos rfl]
      exact valueOf_one hint1
  rw [denoted_value hcond, Question.value]
  rcases hop with h | h
  · rw [h]
    show (if decide (ρ q.op1 = wrap (c.insn q.op1).type (ρ q.op2)) then (1 : ℤ) else 0) = _
    rw [hy]
    simp
  · rw [h]
    show (if decide (ρ q.op1 ≠ wrap (c.insn q.op1).type (ρ q.op2)) then (1 : ℤ) else 0) = _
    rw [hy]
    simp

theorem eqBool_right_iff (hm : eqBool.Matches c q) :
    (eqBool.reply F c q).Denotes c ρ q ↔ EqAgrees c ρ q := by
  obtain ⟨k1, k2, -, hk2, hp⟩ := hm
  simp only [eqBool, Bool.and_eq_true, decide_eq_true_eq] at hp
  obtain ⟨⟨hop, -⟩, rfl⟩ := hp
  obtain ⟨htype, hb, hvalue⟩ := value_eqBool hw hc hg hρ hq (Or.inl hop) (hk2.eq (by decide))
  have hreply : eqBool.reply F c q =
      if q.op2 = irTrue then .copy q.op1 else .unary c q .not .bool q.op1 := rfl
  rw [hreply]
  unfold EqAgrees
  split_ifs with h
  · have heq : decide (IrOp.eq = .eq) = true := rfl
    rw [forall_prop_of_true h, Reply.Denotes, hvalue, if_pos h, hop, htype, heq]
    by_cases h1 : ρ q.op1 = 1
    · rw [h1]
      exact iff_of_true (Agree.refl _ _) (Or.inl rfl)
    · simp only [h1, decide_false, Bool.false_eq_true, if_false, false_or]
      exact agree_bit (ρ q.op1) false
  · refine iff_of_true ?_ fun h' => absurd h' h
    rw [denotes_not, hvalue, if_neg h, hop]
    simp [Agree.refl]

theorem neBool_right_iff (hm : neBool.Matches c q) :
    (neBool.reply F c q).Denotes c ρ q ↔ NeAgrees c ρ q := by
  obtain ⟨k1, k2, -, hk2, hp⟩ := hm
  simp only [neBool, Bool.and_eq_true, decide_eq_true_eq] at hp
  obtain ⟨⟨hop, -⟩, rfl⟩ := hp
  obtain ⟨htype, hb, hvalue⟩ := value_eqBool hw hc hg hρ hq (Or.inr hop) (hk2.eq (by decide))
  have hreply : neBool.reply F c q =
      if q.op2 ≠ irTrue then .copy q.op1 else .unary c q .not .bool q.op1 := rfl
  have hne : decide (IrOp.ne = .eq) = false := rfl
  rw [hreply]
  unfold NeAgrees
  rcases hb with h | h
  · have hft : irFalse ≠ irTrue := by decide
    rw [h, if_pos hft, Reply.Denotes, hvalue, h, if_neg hft, hop, htype, hne]
    by_cases h0 : ρ q.op1 = 0
    · rw [h0]
      exact iff_of_true (Agree.refl _ _) ⟨fun _ => Or.inl rfl, fun h => absurd h hft⟩
    · simp only [h0, decide_false, if_true, false_or, hft, false_imp_iff, and_true, true_imp_iff]
      exact agree_bit (ρ q.op1) true
  · have htf : irTrue ≠ irFalse := by decide
    rw [h, if_neg (not_not.2 rfl), denotes_not, hvalue, h, if_pos rfl, hop, htype, hne]
    simp only [htf, false_imp_iff, true_and, true_imp_iff]
    by_cases h0 : ρ q.op1 = 0
    · rw [h0]
      exact iff_of_true (by decide) (Or.inl rfl)
    · by_cases h1 : ρ q.op1 = 1
      · rw [h1]
        exact iff_of_true (by decide) (Or.inr rfl)
      · simp only [h0, h1, decide_false, if_true, if_false, or_self, iff_false]
        decide

end Booleans

/-! ## Negated comparisons and bits -/

section Bits

variable {F : FloatOps} {c : Ctx} {ρ : ℤ → ℤ} {q : Question} (hw : c.WellFormed) (hc : c.Typed)
  (hg : c.Compares) (hρ : c.Runs ρ) (hq : q.Allowed c)

include hw hc hg hρ hq

omit hw hc hg hρ hq in
theorem compat_bool {t : IrType} (h : Compat t .bool) : t = .bool := by
  rcases h with h | ⟨-, h | h⟩ | ⟨h, -⟩
  · exact h
  all_goals cases h

omit hw hc hg hρ hq in
/-- The opposite comparison of integers. -/
theorem result_xorOne {o : IrOp} (h : isCmp o = true) (t t₁ t₂ : IrType) (x y : ℤ) :
    result (xorOne o) t t₁ t₂ x y = if result o t t₁ t₂ x y = 0 then 1 else 0 := by
  have hbit : ∀ P Q : Prop, [Decidable P] → [Decidable Q] → (Q ↔ ¬P) →
      (if decide Q then (1 : ℤ) else 0) = if (if decide P then (1 : ℤ) else 0) = 0 then 1 else 0 := by
    intro P Q _ _ hiff
    by_cases hP : P <;> simp [hP, hiff]
  cases o <;> first | exact absurd h (by decide) | exact hbit _ _ (by simp)

omit hw hc hg hρ hq in
theorem orders_xorOne {o : IrOp} (h : o = .ordered ∨ o = .unordered) (r s : ℤ) :
    orders (xorOne o) c ρ r s = !orders o c ρ r s := by
  unfold orders
  generalize (if (c.insn r).type.isInt then _ else _) = rel
  rcases h with rfl | rfl <;> cases rel <;> rfl

omit hw in
/-- `NOT` of a comparison of integers is the opposite comparison. -/
theorem notCmp_right (hm : notCmp.Matches c q) : (notCmp.reply F c q).Denotes c ρ q := by
  obtain ⟨k1, k2, hk1, -, hp⟩ := hm
  simp only [notCmp, Bool.and_eq_true, Bool.or_eq_true, decide_eq_true_eq] at hp
  obtain ⟨⟨hop, hcmp⟩, -⟩ := hp
  have hk : (c.insn q.op1).op = k1 := hk1.eq (by rintro rfl; rcases hcmp with (h | h) | h <;> cases h)
  rw [← hk, or_assoc] at hcmp
  have hta : (c.insn q.op1).type = .bool := by
    rcases hcmp with h | h
    · have hcomp : computes (c.insn q.op1).op = true := by
        generalize (c.insn q.op1).op = o at h
        cases o <;> first | rfl | exact absurd h (by decide)
      have hacc := hc.insns q.op1 hcomp
      generalize (c.insn q.op1).op = o at h hacc
      cases o <;> first | exact hacc | exact absurd h (by decide)
    · exact hg.ordered q.op1 h
  have htype : q.type = .bool := by
    have hacc := (hq.typed (by rw [hop]; decide)).accepts
    rw [hop, hta] at hacc
    exact hacc.elim compat_bool id
  have hvalue : q.denoted c ρ = if ρ q.op1 = 0 then 1 else 0 := by
    rw [denoted_value (by rw [hop]; decide), Question.value, hop, htype]
    rfl
  have hreply : notCmp.reply F c q =
      if (c.insn (c.insn q.op1).op1).type.isInt then
        .restart c { q with op := xorOne (c.insn q.op1).op, type := (c.insn q.op1).type,
                            op1 := (c.insn q.op1).op1, op2 := (c.insn q.op1).op2 }
      else .next := rfl
  rw [hreply]
  split_ifs with hint
  · rw [Reply.Denotes, hvalue, hta]
    rcases hcmp with h | h
    · have hboth := (hg.node q.op1 h).both hint
      have hcomp : computes (c.insn q.op1).op = true := by
        generalize (c.insn q.op1).op = o at h
        cases o <;> first | rfl | exact absurd h (by decide)
      have hx : xorOne (c.insn q.op1).op ≠ .cond ∧ xorOne (c.insn q.op1).op ≠ .ordered ∧
          xorOne (c.insn q.op1).op ≠ .unordered := by
        generalize (c.insn q.op1).op = o at h
        cases o <;> first | decide | exact absurd h (by decide)
      rw [hρ.models.node q.op1 hcomp (by rw [hta]; decide) ⟨hboth.1, fun _ => hboth.2⟩, hta,
        denoted_value hx, Question.value]
      dsimp only
      rw [result_xorOne h]
      exact Agree.refl _ _
    · have hx : xorOne (c.insn q.op1).op = .ordered ∨ xorOne (c.insn q.op1).op = .unordered := by
        rcases h with h | h <;> rw [h]
        · exact Or.inr rfl
        · exact Or.inl rfl
      rw [hρ.ordered q.op1 h, denoted_orders hx]
      dsimp only
      rw [orders_xorOne h]
      cases orders (c.insn q.op1).op c ρ (c.insn q.op1).op1 (c.insn q.op1).op2 <;> exact Agree.refl _ _
  · trivial

/-- A bit operation with a boolean constant. -/
theorem bits_cBool (hop : q.op = .and ∨ q.op = .or ∨ q.op = .xor) {k : IrOp}
    (hk : Key k (c.insn q.op2).op) (h : k = .cBool) :
    q.type = .bool ∧ (ρ q.op1 = 0 ∨ ρ q.op1 = 1) ∧
      ρ q.op2 = (if valB (c.insn q.op2).val then 1 else 0) ∧
        q.denoted c ρ = result q.op .bool .bool .bool (ρ q.op1) (ρ q.op2) := by
  have hne : q.op ≠ .cond ∧ q.op ≠ .ordered ∧ q.op ≠ .unordered := by
    rcases hop with h | h | h <;> rw [h] <;> decide
  have hacc := (hq.typed hne.1).accepts
  have hcompat : Compat q.type (c.insn q.op1).type ∧ Compat q.type (c.insn q.op2).type := by
    rcases hop with h | h | h <;> rw [h] at hacc <;> exact hacc
  have hb := hg.booleans q.op2 (by rw [hk.eq (by rw [h]; decide), h])
  have h2 : (c.insn q.op2).type = .bool := by
    rcases hb with h | h <;> rw [h]
    · exact hc.isFalse.1
    · exact hc.isTrue.1
  rw [h2] at hcompat
  have htype := compat_bool hcompat.2
  have h1 : (c.insn q.op1).type = .bool := by
    rw [htype] at hcompat
    exact compat_bool hcompat.1.symm
  refine ⟨htype, hρ.models.bool_cases h1, ?_, ?_⟩
  · rcases hb with h | h
    · rw [h, hρ.models.isFalse hw hc, hc.isFalse.2]
      rfl
    · rw [h, hρ.models.isTrue hw hc, hc.isTrue.2]
      rfl
  · rw [denoted_value hne, Question.value, htype, h1, h2]

theorem andBool_right (hm : andBool.Matches c q) : (andBool.reply F c q).Denotes c ρ q := by
  obtain ⟨k1, k2, -, hk2, hp⟩ := hm
  simp only [andBool, Bool.and_eq_true, decide_eq_true_eq] at hp
  obtain ⟨htype, h1, h2, hvalue⟩ := bits_cBool hw hc hg hρ hq (Or.inl hp.1.1) hk2 hp.2
  have hreply : andBool.reply F c q =
      if valB (c.insn q.op2).val then .copy q.op1 else .copy q.op2 := rfl
  rw [hreply]
  cases hv : valB (c.insn q.op2).val <;> rw [hv] at h2 <;>
    simp only [Bool.false_eq_true, if_false, if_true] at h2 ⊢ <;>
    rw [Reply.Denotes, hvalue, htype, h2, hp.1.1] <;> rcases h1 with h1 | h1 <;> rw [h1] <;> decide

theorem orBool_right (hm : orBool.Matches c q) : (orBool.reply F c q).Denotes c ρ q := by
  obtain ⟨k1, k2, -, hk2, hp⟩ := hm
  simp only [orBool, Bool.and_eq_true, decide_eq_true_eq] at hp
  obtain ⟨htype, h1, h2, hvalue⟩ := bits_cBool hw hc hg hρ hq (Or.inr (Or.inl hp.1.1)) hk2 hp.2
  have hreply : orBool.reply F c q =
      if valB (c.insn q.op2).val then .copy q.op2 else .copy q.op1 := rfl
  rw [hreply]
  cases hv : valB (c.insn q.op2).val <;> rw [hv] at h2 <;>
    simp only [Bool.false_eq_true, if_false, if_true] at h2 ⊢ <;>
    rw [Reply.Denotes, hvalue, htype, h2, hp.1.1] <;> rcases h1 with h1 | h1 <;> rw [h1] <;> decide

theorem xorBool_right (hm : xorBool.Matches c q) : (xorBool.reply F c q).Denotes c ρ q := by
  obtain ⟨k1, k2, -, hk2, hp⟩ := hm
  simp only [xorBool, Bool.and_eq_true, decide_eq_true_eq] at hp
  obtain ⟨htype, h1, h2, hvalue⟩ := bits_cBool hw hc hg hρ hq (Or.inr (Or.inr hp.1.1)) hk2 hp.2
  have hreply : xorBool.reply F c q =
      if ¬valB (c.insn q.op2).val then .copy q.op1 else .unary c q .not q.type q.op1 := rfl
  rw [hreply, htype]
  cases hv : valB (c.insn q.op2).val <;> rw [hv] at h2
  · simp only [Bool.false_eq_true, if_false] at h2
    rw [if_pos Bool.false_ne_true, Reply.Denotes, hvalue, htype, h2, hp.1.1]
    rcases h1 with h1 | h1 <;> rw [h1] <;> decide
  · simp only [if_true] at h2
    rw [if_neg (not_not.2 rfl), denotes_not, hvalue, htype, h2, hp.1.1]
    rcases h1 with h1 | h1 <;> rw [h1] <;> decide

end Bits

/-! ## Unsigned comparisons with zero -/

section Unsigned

variable {F : FloatOps} {c : Ctx} {ρ : ℤ → ℤ} {q : Question} (hw : c.WellFormed) (hc : c.Typed)
  (hρ : c.Runs ρ) (hq : q.Allowed c)

theorem toU_eq_zero {t : IrType} (ht : IsInt t) {x : ℤ} (hx : InRange t x) :
    toU (bits t) x = 0 ↔ x = 0 := by
  constructor
  · intro h
    have hwrap : wrap t x = wrap t 0 := wrap_congr (h.trans (by simp [toU]))
    rw [wrap_eq_self ht hx] at hwrap
    exact hwrap.trans (valueOf_zero ht)
  · rintro rfl
    simp [toU]

/-- An unsigned comparison of `x` with zero. -/
def againstZero (o : IrOp) (x : ℤ) : ℤ :=
  match o with
  | .uge => 1
  | .ugt => if x ≠ 0 then 1 else 0
  | .ule => if x = 0 then 1 else 0
  | _ => 0

theorem result_zero {o : IrOp} (ho : o = .uge ∨ o = .ult ∨ o = .ugt ∨ o = .ule) {t₁ : IrType} {x y : ℤ}
    (ht : IsInt t₁) (hx : InRange t₁ x) (hy : wrap t₁ y = 0) (t t₂ : IrType) :
    result o t t₁ t₂ x y = againstZero o x := by
  have hzero : toU (bits t₁) 0 = 0 := Int.zero_emod _
  have hpos : 0 ≤ toU (bits t₁) x := Int.emod_nonneg _ (by positivity)
  have hiff := toU_eq_zero ht hx
  have hne : 0 < toU (bits t₁) x ↔ x ≠ 0 := by
    rw [Ne, ← hiff]
    omega
  have hle : toU (bits t₁) x ≤ 0 ↔ x = 0 := by
    rw [← hiff]
    omega
  rcases ho with rfl | rfl | rfl | rfl
  · show (if decide (toU (bits t₁) x ≥ toU (bits t₁) (wrap t₁ y)) then (1 : ℤ) else 0) = 1
    rw [hy, hzero, decide_eq_true hpos]
    rfl
  · show (if decide (toU (bits t₁) x < toU (bits t₁) (wrap t₁ y)) then (1 : ℤ) else 0) = 0
    rw [hy, hzero, decide_eq_false hpos.not_gt]
    rfl
  · show (if decide (toU (bits t₁) x > toU (bits t₁) (wrap t₁ y)) then (1 : ℤ) else 0) =
      if x ≠ 0 then 1 else 0
    rw [hy, hzero]
    simp only [decide_eq_true_eq, gt_iff_lt, hne]
  · show (if decide (toU (bits t₁) x ≤ toU (bits t₁) (wrap t₁ y)) then (1 : ℤ) else 0) =
      if x = 0 then 1 else 0
    rw [hy, hzero]
    simp only [decide_eq_true_eq, hle]

include hw hc hρ hq

/-- The operands of a comparison with the integer constant 0. -/
theorem zero_second (ho : q.op = .uge ∨ q.op = .ult ∨ q.op = .ugt ∨ q.op = .ule) {k : IrOp}
    (hk : Key k (c.insn q.op2).op) (h : isUIA k = true) (h0 : (c.insn q.op2).val = 0) :
    wrap (c.insn q.op1).type (ρ q.op2) = 0 ∧ q.denoted c ρ = againstZero q.op (ρ q.op1) := by
  have hop2 : isUIA (c.insn q.op2).op = true := by rwa [hk.eq (ne_nop_of_isUIA h)]
  obtain ⟨hneg, hnum, -, hint2⟩ := number_of_isUIA hw hc hop2
  have hcmp : isCmp q.op = true := by rcases ho with h | h | h | h <;> rw [h] <;> rfl
  have hint1 := (hq.compares hcmp).isInt hint2
  have hsym : (c.insn q.op2).op.isSymConst = false := by
    unfold Ctx.isNumber at hnum
    simpa using (Bool.and_eq_true_iff.1 hnum).2
  have hval := hρ.models.number q.op2 hneg hsym hint2
  rw [h0, valueOf_zero hint2] at hval
  have hy : wrap (c.insn q.op1).type (ρ q.op2) = 0 := by
    rw [hval]
    exact valueOf_zero hint1
  refine ⟨hy, ?_⟩
  rw [denoted_value (by rcases ho with h | h | h | h <;> rw [h] <;> decide), Question.value,
    result_zero ho hint1 (hρ.models.range q.op1 hint1) hy]

theorem ugeZero_right (hm : ugeZero.Matches c q) : (ugeZero.reply F c q).Denotes c ρ q := by
  obtain ⟨k1, k2, -, hk2, hp⟩ := hm
  simp only [ugeZero, Bool.and_eq_true, decide_eq_true_eq] at hp
  have hreply : ugeZero.reply F c q = if (c.insn q.op2).val = 0 then .copy irTrue else .next := rfl
  rw [hreply]
  split_ifs with h0
  · rw [Reply.Denotes, (zero_second hw hc hρ hq (Or.inl hp.1.1) hk2 hp.2 h0).2, hp.1.1,
      hρ.models.isTrue hw hc]
    exact Agree.refl _ _
  · trivial

theorem ultZero_right (hm : ultZero.Matches c q) : (ultZero.reply F c q).Denotes c ρ q := by
  obtain ⟨k1, k2, -, hk2, hp⟩ := hm
  simp only [ultZero, Bool.and_eq_true, decide_eq_true_eq] at hp
  have hreply : ultZero.reply F c q = if (c.insn q.op2).val = 0 then .copy irFalse else .next := rfl
  rw [hreply]
  split_ifs with h0
  · rw [Reply.Denotes, (zero_second hw hc hρ hq (Or.inr (Or.inl hp.1.1)) hk2 hp.2 h0).2, hp.1.1,
      hρ.models.isFalse hw hc]
    exact Agree.refl _ _
  · trivial

theorem ugtZero_right (hm : ugtZero.Matches c q) : (ugtZero.reply F c q).Denotes c ρ q := by
  obtain ⟨k1, k2, -, hk2, hp⟩ := hm
  simp only [ugtZero, Bool.and_eq_true, decide_eq_true_eq] at hp
  have hreply : ugtZero.reply F c q =
      if (c.insn q.op2).val = 0 then .restart c { q with op := .ne, type := .bool } else .next := rfl
  rw [hreply]
  split_ifs with h0
  · obtain ⟨hy, hd⟩ := zero_second hw hc hρ hq (Or.inr (Or.inr (Or.inl hp.1.1))) hk2 hp.2 h0
    have hne : (Question.denoted c ρ { q with op := .ne, type := .bool }) =
        if decide (ρ q.op1 ≠ wrap (c.insn q.op1).type (ρ q.op2)) then 1 else 0 := rfl
    rw [Reply.Denotes, hd, hp.1.1, hne, hy]
    simp only [decide_eq_true_eq]
    exact Agree.refl _ _
  · trivial

theorem uleZero_right (hm : uleZero.Matches c q) : (uleZero.reply F c q).Denotes c ρ q := by
  obtain ⟨k1, k2, -, hk2, hp⟩ := hm
  simp only [uleZero, Bool.and_eq_true, decide_eq_true_eq] at hp
  have hreply : uleZero.reply F c q =
      if (c.insn q.op2).val = 0 then .restart c { q with op := .eq, type := .bool } else .next := rfl
  rw [hreply]
  split_ifs with h0
  · obtain ⟨hy, hd⟩ := zero_second hw hc hρ hq (Or.inr (Or.inr (Or.inr hp.1.1))) hk2 hp.2 h0
    have heq : (Question.denoted c ρ { q with op := .eq, type := .bool }) =
        if decide (ρ q.op1 = wrap (c.insn q.op1).type (ρ q.op2)) then 1 else 0 := rfl
    rw [Reply.Denotes, hd, hp.1.1, heq, hy]
    simp only [decide_eq_true_eq]
    exact Agree.refl _ _
  · trivial

end Unsigned

/-! ## `COND` of any operands -/

section Cond

variable {F : FloatOps} {c : Ctx} {ρ : ℤ → ℤ} {q : Question} (hw : c.WellFormed) (hc : c.Typed)
  (hρ : c.Runs ρ) (hq : q.Allowed c) (hop : q.op = .cond)

include hw hc hρ hq hop

omit hw hρ in
/-- A choice in which a boolean constant takes part is a boolean. -/
theorem type_of_second (h : q.op2 = irTrue ∨ q.op2 = irFalse) : q.type = .bool := by
  have hcompat := (hq.choices hop).1
  rcases h with h | h <;> rw [h] at hcompat
  · rw [hc.isTrue.1] at hcompat
    exact compat_bool hcompat
  · rw [hc.isFalse.1] at hcompat
    exact compat_bool hcompat

omit hw hρ in
theorem type_of_third (h : q.op3 = irTrue ∨ q.op3 = irFalse) : q.type = .bool := by
  have hcompat := (hq.choices hop).2
  rcases h with h | h <;> rw [h] at hcompat
  · rw [hc.isTrue.1] at hcompat
    exact compat_bool hcompat
  · rw [hc.isFalse.1] at hcompat
    exact compat_bool hcompat

omit hw hρ hc hop hq in
theorem bool_of_compat {r : ℤ} (hb : q.type = .bool) (h : Compat q.type (c.insn r).type) :
    (c.insn r).type = .bool := by
  rw [hb] at h
  exact compat_bool h.symm

omit hw hc hρ hq in
/-- The choice of a boolean. -/
theorem denoted_of_bool (ha : (c.insn q.op1).type = .bool) :
    q.denoted c ρ = if ρ q.op1 = 0 then ρ q.op3 else ρ q.op2 := by
  rw [denoted_cond hop, truth_of_isInt (by rw [ha]; rfl)]
  by_cases h : ρ q.op1 = 0 <;> simp [h]

/-- `COND` of a boolean, but for numbers. -/
theorem condBool_right (ha : (c.insn q.op1).type = .bool) (hn : ¬Numeric c q) :
    (condBool c q (c.insn q.op2)).Denotes c ρ q := by
  have hvalue := denoted_of_bool (ρ := ρ) hop ha
  have hx := hρ.models.bool_cases ha
  have ht := hρ.models.isTrue hw hc
  have hf := hρ.models.isFalse hw hc
  have hcompat := hq.choices hop
  unfold condBool
  by_cases h2 : q.op2 = irTrue
  · have hb := type_of_second hc hq hop (Or.inl h2)
    rw [if_pos h2]
    by_cases h3 : q.op3 = irFalse
    · rw [if_pos h3, Reply.Denotes, hvalue, hb, h2, h3, ht, hf]
      rcases hx with h | h <;> rw [h] <;> decide
    · have ht3 := bool_of_compat hb hcompat.2
      have hy := hρ.models.bool_cases ht3
      have hor : (Question.denoted c ρ { q with op := .or, type := .bool, op2 := q.op3, op3 := 0 }) =
          result .or .bool (c.insn q.op1).type (c.insn q.op3).type (ρ q.op1) (ρ q.op3) := rfl
      rw [if_neg h3, Reply.Denotes, hor, hvalue, hb, ha, ht3, h2, ht]
      rcases hx with h | h <;> rcases hy with h' | h' <;> rw [h, h'] <;> decide
  rw [if_neg h2]
  by_cases h3 : q.op3 = irFalse
  · have hb := type_of_third hc hq hop (Or.inr h3)
    have ht2 := bool_of_compat hb hcompat.1
    have hy := hρ.models.bool_cases ht2
    have hand : (Question.denoted c ρ { q with op := .and, type := .bool, op3 := 0 }) =
        result .and .bool (c.insn q.op1).type (c.insn q.op2).type (ρ q.op1) (ρ q.op2) := rfl
    rw [if_pos h3, Reply.Denotes, hand, hvalue, hb, ha, ht2, h3, hf]
    rcases hx with h | h <;> rcases hy with h' | h' <;> rw [h, h'] <;> decide
  rw [if_neg h3]
  by_cases hf2 : q.op2 = irFalse
  · have hb := type_of_second hc hq hop (Or.inr hf2)
    rw [if_pos hf2]
    split_ifs with ht3
    · have hnot : (Question.denoted c ρ { q with op := .not, type := .bool, op2 := 0, op3 := 0 }) =
          if ρ q.op1 = 0 then 1 else 0 := rfl
      rw [Reply.Denotes, hnot, hvalue, hb, hf2, ht3, ht, hf]
      exact Agree.refl _ _
    · trivial
  rw [if_neg hf2]
  by_cases hnum : q.type.isInt = true ∧ q.op2 < 0 ∧ q.op3 < 0 ∧ (c.insn q.op2).val = 1 ∧
      (c.insn q.op3).val = 0
  · exact absurd ⟨ha, h2, h3, hf2, hnum⟩ hn
  · rw [if_neg hnum]
    trivial

omit hw hc hρ hop hq in
theorem condBool_of_numeric (hn : Numeric c q) : condBool c q (c.insn q.op2) =
    .restart c { q with op := if q.type.size > 1 then .zext else .bitcast, op2 := 0, op3 := 0 } := by
  unfold condBool
  rw [if_neg hn.2.1, if_neg hn.2.2.1, if_neg hn.2.2.2.1, if_pos hn.2.2.2.2]

omit hw hc hq hop in
/-- A symbol is an address of 64 bits. -/
theorem agree_symbol (hg : c.Compares) {r n : ℤ} (hr : Compat q.type (c.insn r).type)
    (hs : (c.insn r).op.isSymConst = true) (h0 : 0 ≤ n ∧ n < 2 ^ 64) :
    Agree q.type n (ρ r) ↔ ρ r = n := by
  have haddr := hg.symbols r hs
  have hrange := hρ.models.range r (by rw [haddr]; decide)
  rw [haddr] at hr hrange
  have hbits : bits q.type = 64 := hr.bits_eq
  have hself : ∀ m : ℤ, 0 ≤ m ∧ m < 2 ^ 64 → toU 64 m = m := fun m h => Int.emod_eq_of_lt h.1 h.2
  unfold Agree
  rw [hbits, hself n h0, hself (ρ r) hrange]
  exact eq_comm

omit hw hc hop hq in
/-- A constant among the operands. -/
theorem agree_number {r : ℤ} (hr : Compat q.type (c.insn r).type) (ht : IsInt q.type) (hneg : r < 0)
    (hs : (c.insn r).op.isSymConst = false) : ρ r = valueOf (c.insn r).type (c.insn r).val :=
  hρ.models.number r hneg hs (hr.isInt ht)

omit hw hc in
/-- The conversion of the condition has the value of the choice when it has the values of the
constants. -/
theorem condBool_numeric_iff (hg : c.Compares) (hn : Numeric c q) :
    (condBool c q (c.insn q.op2)).Denotes c ρ q ↔ NumericAgrees c ρ q := by
  have hcompat := hq.choices hop
  have ht : IsInt q.type := ⟨hn.2.2.2.2.1, (hq.condition hop).2⟩
  have hnum := hn
  obtain ⟨ha, -, -, -, -, h2, h3, hv2, hv3⟩ := hnum
  have hx := hρ.models.bool_cases ha
  have hconv : ∀ o : IrOp, o = .zext ∨ o = .bitcast →
      (Question.denoted c ρ { q with op := o, op2 := 0, op3 := 0 }) = ρ q.op1 := by
    intro o ho
    have hbit : ∀ b : Bool, wrap q.type (if b then 1 else 0) = if b then 1 else 0 := wrap_bit ht
    have hvalue : ∀ b : Bool, result o q.type .bool (c.insn 0).type (if b then 1 else 0) (ρ 0) =
        if b then 1 else 0 := by
      intro b
      rcases ho with rfl | rfl
      · have htoU : toU 8 (if b then 1 else 0) = if b then 1 else 0 := by cases b <;> rfl
        show wrap q.type (toU 8 (if b then 1 else 0)) = _
        rw [htoU, hbit]
      · show (if q.type = .bool then (if decide (toU 8 (if b then 1 else 0) ≠ 0) then (1 : ℤ) else 0)
          else wrap q.type (if b then 1 else 0)) = _
        rw [hbit]
        cases b <;> simp [toU]
    have hdenoted : (Question.denoted c ρ { q with op := o, op2 := 0, op3 := 0 }) =
        result o q.type (c.insn q.op1).type (c.insn 0).type (ρ q.op1) (ρ 0) := by
      rcases ho with rfl | rfl <;> rfl
    rw [hdenoted, ha]
    rcases hx with h | h
    · rw [h]
      exact hvalue false
    · rw [h]
      exact hvalue true
  rw [condBool_of_numeric hn, Reply.Denotes, hconv _ (by split_ifs <;> simp),
    denoted_of_bool (ρ := ρ) hop ha]
  have hP : NumericAgrees c ρ q ↔ (ρ q.op1 ≠ 0 → (c.insn q.op2).op.isSymConst = true → ρ q.op2 = 1) ∧
      (ρ q.op1 = 0 → (c.insn q.op3).op.isSymConst = false) := ⟨fun h => h hn, fun h _ => h⟩
  rw [hP]
  rcases hx with h | h
  · rw [h, if_pos rfl]
    cases hs : (c.insn q.op3).op.isSymConst
    · rw [agree_number hρ hcompat.2 ht h3 hs, hv3, valueOf_zero (hcompat.2.isInt ht)]
      simp [Agree.refl]
    · rw [agree_symbol hρ hg hcompat.2 hs (by norm_num)]
      simp [hρ.symbol q.op3 hs]
  · rw [h, if_neg one_ne_zero]
    cases hs : (c.insn q.op2).op.isSymConst
    · rw [agree_number hρ hcompat.1 ht h2 hs, hv2, valueOf_one (hcompat.1.isInt ht)]
      simp [Agree.refl]
    · rw [agree_symbol hρ hg hcompat.1 hs (by norm_num)]
      simp

omit hw hc hρ hq hop in
theorem denotes_withConst {q' : Question} {op : IrOp} {s : ℤ} {v : Val} {t : IrType} :
    (Reply.withConst c q' op s v t).Denotes c ρ q ↔
      Agree q.type (Question.denoted (c.const v t).1 ρ
        { q' with op := op, op1 := s, op2 := (c.const v t).2 }) (q.denoted c ρ) := Iff.rfl

omit hρ in
/-- `COND` of an integer as a comparison with zero. -/
theorem condInt_right (ha : (c.insn q.op1).type ≠ .bool) (hint : (c.insn q.op1).type.isInt = true)
    (hρ : ((condInt c q (c.insn q.op1)).ctx c).Runs ρ) (hρ' : c.Runs ρ) :
    (condInt c q (c.insn q.op1)).Denotes c ρ q := by
  have ht : IsInt (c.insn q.op1).type := ⟨hint, (hq.condition hop).1⟩
  have hvalue : q.denoted c ρ = if ρ q.op1 = 0 then ρ q.op3 else ρ q.op2 := by
    rw [denoted_cond hop, truth_of_isInt hint]
    by_cases h : ρ q.op1 = 0 <;> simp [h]
  have hone := hρ'.models.isTrue hw hc
  have hzero := hρ'.models.isFalse hw hc
  have hinsn := (grown_const c 0 (c.insn q.op1).type).insn (valid_of_isInt ht)
  have hnew : (c.const 0 (c.insn q.op1).type).1.Runs ρ →
      wrap (c.insn q.op1).type (ρ (c.const 0 (c.insn q.op1).type).2) = 0 := fun hrun => by
    rw [hrun.models.new hw hc ht]
    unfold constValue
    rw [if_neg ha, valueOf_zero ht]
    exact valueOf_zero ht
  have hcmp : ∀ o, o = .ne ∨ o = .eq → (c.const 0 (c.insn q.op1).type).1.Runs ρ →
      (Question.denoted (c.const 0 (c.insn q.op1).type).1 ρ { q with
          op := o, type := .bool, op2 := (c.const 0 (c.insn q.op1).type).2, op3 := 0 }) =
        if decide (ρ q.op1 = 0) = decide (o = .eq) then 1 else 0 := by
    intro o ho hrun
    rcases ho with rfl | rfl
    · show (if decide (ρ q.op1 ≠ wrap ((c.const 0 (c.insn q.op1).type).1.insn q.op1).type
        (ρ (c.const 0 (c.insn q.op1).type).2)) then (1 : ℤ) else 0) = _
      rw [hinsn, hnew hrun]
      simp
    · show (if decide (ρ q.op1 = wrap ((c.const 0 (c.insn q.op1).type).1.insn q.op1).type
        (ρ (c.const 0 (c.insn q.op1).type).2)) then (1 : ℤ) else 0) = _
      rw [hinsn, hnew hrun]
      simp
  unfold condInt at hρ ⊢
  split_ifs at hρ ⊢ with h1 h2
  · have hb := type_of_second hc hq hop (Or.inl h1.1)
    rw [denotes_withConst, hcmp .ne (Or.inl rfl) hρ, hvalue, hb, h1.1, h1.2, hone, hzero]
    by_cases h : ρ q.op1 = 0 <;> simp [h, Agree.refl]
  · have hb := type_of_second hc hq hop (Or.inr h2.1)
    rw [denotes_withConst, hcmp .eq (Or.inr rfl) hρ, hvalue, hb, h2.1, h2.2, hone, hzero]
    by_cases h : ρ q.op1 = 0 <;> simp [h, Agree.refl]
  · trivial

omit hw hc hρ hq hop in
/-- A choice by `x ≠ 0` and by `x ≠ k`. -/
theorem agree_choice {t : IrType} {x k m n : ℤ} :
    Agree t (if x = 0 then n else m) (if x = k then n else m) ↔
      k = 0 ∨ (x ≠ 0 ∧ x ≠ k) ∨ Agree t m n := by
  by_cases hk : k = 0
  · rw [hk]
    exact iff_of_true (Agree.refl _ _) (Or.inl rfl)
  by_cases hx : x = 0
  · have hxk : x ≠ k := fun h => hk (h ▸ hx)
    rw [if_pos hx, if_neg hxk, agree_comm]
    simp [hk, hx]
  by_cases hxk : x = k
  · rw [if_neg hx, if_pos hxk]
    simp [hk, hxk]
  · rw [if_neg hx, if_neg hxk]
    exact iff_of_true (Agree.refl _ _) (Or.inr (Or.inl ⟨hx, hxk⟩))

omit hw hq in
/-- A comparison that is dropped has the truth value of what is compared. -/
theorem condCompare_right_iff (hg : c.Compares) (hd : DropsNull c q) :
    (condCompare c q (c.insn q.op1)).Denotes c ρ q ↔ NullAgrees c ρ q := by
  have hdrop := hd
  obtain ⟨-, -, ho, hneg, hint, h0⟩ := hdrop
  have hcomp : computes (c.insn q.op1).op = true := by rcases ho with h | h <;> rw [h] <;> rfl
  have hacc := hc.insns q.op1 hcomp
  have ha : (c.insn q.op1).type = .bool := by
    rcases ho with h | h <;> rw [h] at hacc <;> exact hacc
  have hboth : IsInt (c.insn (c.insn q.op1).op1).type ∧ IsInt (c.insn (c.insn q.op1).op2).type := by
    rcases hg.node q.op1 (by rcases ho with h | h <;> rw [h] <;> rfl) with h | ⟨hf, h⟩
    · exact h
    · rw [h, not_isInt_of_isFp hf] at hint
      cases hint
  have hnode := hρ.models.node q.op1 hcomp (by rw [ha]; decide) ⟨hboth.1, fun _ => hboth.2⟩
  have hk : (c.insn (c.insn q.op1).op2).op.isSymConst = false →
      wrap (c.insn (c.insn q.op1).op1).type (ρ (c.insn q.op1).op2) = 0 := fun hs => by
    rw [hρ.models.number _ hneg hs hboth.2, h0, valueOf_zero hboth.2]
    exact valueOf_zero hboth.1
  have hP : NullAgrees c ρ q ↔ wrap (c.insn (c.insn q.op1).op1).type (ρ (c.insn q.op1).op2) = 0 ∨
      (ρ (c.insn q.op1).op1 ≠ 0 ∧ ρ (c.insn q.op1).op1 ≠
        wrap (c.insn (c.insn q.op1).op1).type (ρ (c.insn q.op1).op2)) ∨
          Agree q.type (ρ q.op2) (ρ q.op3) := by
    constructor
    · intro h
      cases hs : (c.insn (c.insn q.op1).op2).op.isSymConst
      · exact Or.inl (hk hs)
      · exact h hd hs
    · exact fun h _ _ => h
  have hcond : ∀ q' : Question, q'.op = .cond → q'.op1 = (c.insn q.op1).op1 → q'.denoted c ρ =
      if ρ (c.insn q.op1).op1 = 0 then ρ q'.op3 else ρ q'.op2 := fun q' h h1 => by
    rw [denoted_cond h, h1, truth_of_isInt hboth.1.1]
    by_cases hz : ρ (c.insn q.op1).op1 = 0 <;> simp [hz]
  rw [hP, ← agree_choice]
  unfold condCompare
  rcases ho with h | h
  · have hx : ρ q.op1 = if decide (ρ (c.insn q.op1).op1 ≠
        wrap (c.insn (c.insn q.op1).op1).type (ρ (c.insn q.op1).op2)) then 1 else 0 := by
      rw [hnode, h]
      rfl
    rw [if_pos ⟨h, hneg, hint, h0⟩, Reply.Denotes, hcond { q with op1 := (c.insn q.op1).op1 } hop rfl,
      denoted_of_bool (ρ := ρ) hop ha, hx]
    by_cases heq : ρ (c.insn q.op1).op1 =
      wrap (c.insn (c.insn q.op1).op1).type (ρ (c.insn q.op1).op2) <;> simp [heq]
  · have hx : ρ q.op1 = if decide (ρ (c.insn q.op1).op1 =
        wrap (c.insn (c.insn q.op1).op1).type (ρ (c.insn q.op1).op2)) then 1 else 0 := by
      rw [hnode, h]
      rfl
    have hne : ¬((c.insn q.op1).op = .ne ∧ (c.insn q.op1).op2 < 0 ∧
        (c.insn (c.insn q.op1).op2).type.isInt = true ∧ (c.insn (c.insn q.op1).op2).val = 0) := fun h' => by
      rw [h] at h'
      cases h'.1
    rw [if_neg hne, if_pos ⟨h, hneg, hint, h0⟩, Reply.Denotes,
      hcond { q with op1 := (c.insn q.op1).op1, op2 := q.op3, op3 := q.op2 } hop rfl,
      denoted_of_bool (ρ := ρ) hop ha, hx]
    have hif : (if (if decide (ρ (c.insn q.op1).op1 = wrap (c.insn (c.insn q.op1).op1).type
          (ρ (c.insn q.op1).op2)) then (1 : ℤ) else 0) = 0 then ρ q.op3 else ρ q.op2) =
        if ρ (c.insn q.op1).op1 = wrap (c.insn (c.insn q.op1).op1).type (ρ (c.insn q.op1).op2)
          then ρ q.op2 else ρ q.op3 := by
      by_cases heq : ρ (c.insn q.op1).op1 =
        wrap (c.insn (c.insn q.op1).op1).type (ρ (c.insn q.op1).op2) <;> simp [heq]
    rw [hif]
    exact agree_choice.trans ((or_congr_right (or_congr_right agree_comm)).trans agree_choice.symm)

omit hw hc hρ hq hop in
theorem orElse_next (r : Reply) : Reply.next.orElse r = r := rfl

omit hw hc hρ hq hop in
theorem orElse_self_next (r : Reply) : r.orElse .next = r := by
  cases r <;> rfl

omit hw hc hρ hq hop in
theorem orElse_of_ne {r s : Reply} (h : r ≠ .next) : r.orElse s = r := by
  cases r
  case next => exact absurd rfl h
  all_goals rfl

omit hw hc hρ hq hop in
theorem condCompare_of_not (h : ¬((c.insn q.op1).op = .ne ∨ (c.insn q.op1).op = .eq)) :
    condCompare c q (c.insn q.op1) = .next := by
  unfold condCompare
  rw [if_neg fun h' => h (Or.inl h'.1), if_neg fun h' => h (Or.inr h'.1)]

omit hw hq in
/-- The second attempt for `COND` of a boolean. -/
theorem condCompare_iff (hg : c.Compares) (hne : q.op2 ≠ q.op3)
    (hnext : condBool c q (c.insn q.op2) = .next) :
    (condCompare c q (c.insn q.op1)).Denotes c ρ q ↔ NullAgrees c ρ q := by
  by_cases hd : DropsNull c q
  · exact condCompare_right_iff hc hρ hop hg hd
  · refine iff_of_true ?_ fun h => absurd h hd
    unfold condCompare
    dsimp only
    split_ifs with h1 h2
    · exact absurd ⟨hne, hnext, Or.inl h1.1, h1.2⟩ hd
    · exact absurd ⟨hne, hnext, Or.inr h2.1, h2.2⟩ hd
    · trivial

theorem condAny_right_iff (hg : c.Compares) (hρ' : ((condAny.reply F c q).ctx c).Runs ρ) :
    (condAny.reply F c q).Denotes c ρ q ↔ CondAgrees c ρ q := by
  have hreply : condAny.reply F c q =
      if q.op2 = q.op3 then .copy q.op2
      else
        (if (c.insn q.op1).type = .bool then condBool c q (c.insn q.op2)
          else if (c.insn q.op1).type.isInt then condInt c q (c.insn q.op1) else .next).orElse
          (condCompare c q (c.insn q.op1)) := rfl
  rw [hreply] at hρ' ⊢
  unfold CondAgrees
  by_cases hsame : q.op2 = q.op3
  · rw [if_pos hsame, denotes_second hop, hsame]
    refine iff_of_true (Or.inr (Agree.refl _ _)) ⟨fun hn => ?_, fun hd => absurd hsame hd.1⟩
    have h2 := hn.2.2.2.2.2.2.2.1
    rw [hsame, hn.2.2.2.2.2.2.2.2] at h2
    exact absurd h2 (by decide)
  rw [if_neg hsame] at hρ' ⊢
  by_cases ha : (c.insn q.op1).type = .bool
  · rw [if_pos ha]
    by_cases hnext : condBool c q (c.insn q.op2) = .next
    · have hn : ¬Numeric c q := fun hn => by
        rw [condBool_of_numeric hn] at hnext
        cases hnext
      rw [hnext, orElse_next, condCompare_iff hc hρ hop hg hsame hnext]
      exact ⟨fun h => ⟨fun hn' => absurd hn' hn, h⟩, fun h => h.2⟩
    · have hd : ¬DropsNull c q := fun hd => hnext hd.2.1
      have hN : NullAgrees c ρ q := fun h => absurd h hd
      rw [orElse_of_ne hnext, and_iff_left hN]
      by_cases hn : Numeric c q
      · exact condBool_numeric_iff hρ hq hop hg hn
      · exact iff_of_true (condBool_right hw hc hρ hq hop ha hn) fun h => absurd h hn
  · have hop1 : ¬((c.insn q.op1).op = .ne ∨ (c.insn q.op1).op = .eq) := fun ho => by
      have hacc := hc.insns q.op1 (by rcases ho with h | h <;> rw [h] <;> rfl)
      rcases ho with h | h <;> rw [h] at hacc <;> exact ha hacc
    have hright : NumericAgrees c ρ q ∧ NullAgrees c ρ q :=
      ⟨fun hn => absurd hn.1 ha, fun hd => absurd hd.2.2.1 hop1⟩
    rw [if_neg ha] at hρ' ⊢
    rw [condCompare_of_not hop1, orElse_self_next] at hρ' ⊢
    refine iff_of_true ?_ hright
    split_ifs at hρ' ⊢ with hint
    · exact condInt_right hw hc hq hop ha hint hρ' hρ
    · trivial

end Cond

/-! ## All of them -/

/-- The rules, and when they keep the value. -/
def choose : List (Rule × (Ctx → (ℤ → ℤ) → Question → Prop)) :=
  [(condConst, ConstAgrees), (condAny, CondAgrees), (eqBool, EqAgrees), (neBool, NeAgrees),
    (notCmp, Always), (andBool, Always), (orBool, Always), (xorBool, Always), (ugeZero, Always),
    (ugtZero, Always), (ultZero, Always), (uleZero, Always)]

section All

variable {F : FloatOps} {c : Ctx} {ρ : ℤ → ℤ} {q : Question} {r : Rule}
  {P : Ctx → (ℤ → ℤ) → Question → Prop}

theorem mem_rules_of_choose (h : (r, P) ∈ choose) : r ∈ rules := by
  simp only [choose, List.mem_cons, Prod.mk.injEq, List.not_mem_nil, or_false] at h
  rcases h with ⟨rfl, -⟩ | ⟨rfl, -⟩ | ⟨rfl, -⟩ | ⟨rfl, -⟩ | ⟨rfl, -⟩ | ⟨rfl, -⟩ | ⟨rfl, -⟩ | ⟨rfl, -⟩ |
    ⟨rfl, -⟩ | ⟨rfl, -⟩ | ⟨rfl, -⟩ | ⟨rfl, -⟩ <;>
    simp [rules, restarting, answering]

/-- The values of a graph when it has grown. -/
theorem Ctx.Runs.reply (hr : r ∈ rules) (hw : c.WellFormed)
    (hρ : ((r.reply F c q).ctx c).Runs ρ) : c.Runs ρ := by
  have hg := grown_reply (F := F) (c := c) (q := q) hr
  obtain ⟨W, hW⟩ := exists_weighed hw
  have hinsn : ∀ {s : ℤ}, (c.insn s).op ≠ .nop → ((r.reply F c q).ctx c).insn s = c.insn s :=
    fun {s} ho => by
      refine hg.insn ?_
      by_contra hv
      rw [insn_of_not_valid hv] at ho
      exact ho rfl
  refine ⟨hρ.models.mono hw hg, hρ.floats.mono hg, fun s ho => ?_, fun s ho => ?_⟩
  · have hs := hinsn (s := s) (by rcases ho with h | h <;> rw [h] <;> decide)
    have hdata : isDataOp (c.insn s).op = true := by rcases ho with h | h <;> rw [h] <;> rfl
    have h1 := hg.insn (hW.one s hdata).1
    have hnode := hρ.ordered s (by rwa [hs])
    rw [hnode, hs]
    unfold orders
    rw [h1]
  · have hs := hinsn (s := s) (by rintro h; rw [h] at ho; cases ho)
    exact hρ.symbol s (by rwa [hs])

/-- What a rule of the list replies denotes the value of the question, if and only if the condition of the
rule holds. -/
theorem choose_right_iff (hr : (r, P) ∈ choose) (hw : c.WellFormed) (hc : c.Typed) (hg : c.Compares)
    (hq : q.Allowed c) (hm : r.Matches c q) (hρ : ((r.reply (ieee F) c q).ctx c).Runs ρ) :
    (r.reply (ieee F) c q).Denotes c ρ q ↔ P c ρ q := by
  have hρ' := hρ.reply (mem_rules_of_choose hr) hw
  simp only [choose, List.mem_cons, Prod.mk.injEq, List.not_mem_nil, or_false] at hr
  rcases hr with ⟨rfl, rfl⟩ | ⟨rfl, rfl⟩ | ⟨rfl, rfl⟩ | ⟨rfl, rfl⟩ | ⟨rfl, rfl⟩ | ⟨rfl, rfl⟩ |
    ⟨rfl, rfl⟩ | ⟨rfl, rfl⟩ | ⟨rfl, rfl⟩ | ⟨rfl, rfl⟩ | ⟨rfl, rfl⟩ | ⟨rfl, rfl⟩
  · exact condConst_right_iff hw hc hρ' hm
  · have hop : q.op = .cond := by
      obtain ⟨k1, k2, -, -, hp⟩ := hm
      simp only [condAny, Bool.and_eq_true, decide_eq_true_eq] at hp
      exact hp.1.1
    exact condAny_right_iff hw hc hρ' hq hop hg hρ
  · exact eqBool_right_iff hw hc hg hρ' hq hm
  · exact neBool_right_iff hw hc hg hρ' hq hm
  · exact iff_of_true (notCmp_right hc hg hρ' hq hm) trivial
  · exact iff_of_true (andBool_right hw hc hg hρ' hq hm) trivial
  · exact iff_of_true (orBool_right hw hc hg hρ' hq hm) trivial
  · exact iff_of_true (xorBool_right hw hc hg hρ' hq hm) trivial
  · exact iff_of_true (ugeZero_right hw hc hρ' hq hm) trivial
  · exact iff_of_true (ugtZero_right hw hc hρ' hq hm) trivial
  · exact iff_of_true (ultZero_right hw hc hρ' hq hm) trivial
  · exact iff_of_true (uleZero_right hw hc hρ' hq hm) trivial

end All

/-- The symbol with the first name and a boolean parameter. -/
def symbolCtx : Ctx where
  consts := [⟨.cAddr, .addr, 0, 0, 0, 0⟩, ⟨.cBool, .bool, 0, 0, 0, 0⟩, ⟨.cBool, .bool, 0, 0, 0, 1⟩,
    ⟨.sym, .addr, 0, 0, 0, 1⟩]
  insns := [⟨.nop, .void, 0, 0, 0, 0⟩, ⟨.start, .void, 0, 0, 0, 0⟩, ⟨.param, .bool, 1, 0, 0, 0⟩]
  useLists := none

/-- The run in which the symbol is the address 4096 and the parameter is true. -/
def symbolRun (r : ℤ) : ℤ :=
  match r with
  | -3 => 1
  | -4 => 4096
  | 2 => 1
  | _ => 0

theorem symbolCtx_wellFormed : symbolCtx.WellFormed :=
  wellFormed_of_check (by decide) rfl (by decide) (by decide) ⟨rfl, rfl, rfl⟩ (by decide)

theorem symbolCtx_typed : symbolCtx.Typed :=
  typed_of_check (by decide) (by decide) (by decide)

/-- What holds of the references of a context and outside of it. -/
theorem forall_of_refs {c : Ctx} {P : ℤ → Prop} (hn : ∀ r, c.insn r = default → P r)
    (h : ∀ r ∈ c.refs, P r) (r : ℤ) : P r := by
  by_cases hv : c.valid r
  · exact h r (mem_refs hv)
  · exact hn r (insn_of_not_valid hv)

theorem symbolCtx_compares : symbolCtx.Compares where
  node := forall_of_refs (fun r h ho => by rw [h] at ho; cases ho) (by decide)
  ordered := forall_of_refs (fun r h ho => by rw [h] at ho; rcases ho with h | h <;> cases h) (by decide)
  booleans := forall_of_refs (fun r h ho => by rw [h] at ho; cases ho) (by decide)
  symbols := forall_of_refs (fun r h ho => by rw [h] at ho; cases ho) (by decide)

theorem symbolCtx_runs : symbolCtx.Runs symbolRun where
  models := models_of_check (by decide) (by decide) (by decide)
  floats := floats_of_check (by decide) (by decide)
  ordered := forall_of_refs (fun r h ho => by rw [h] at ho; rcases ho with h | h <;> cases h) (by decide)
  symbol := forall_of_refs (fun r h ho => by rw [h] at ho; cases ho) (by decide)

/-- The parameter decides between the symbol and `NULL`. -/
def symbolQuestion : Question := ⟨.cond, .addr, 2, -4, -1⟩

theorem symbolQuestion_allowed : symbolQuestion.Allowed symbolCtx where
  typed h := absurd rfl h
  compares h := by cases h
  condition _ := by decide
  choices _ := by decide

theorem condAny_matches : condAny.Matches symbolCtx symbolQuestion :=
  ⟨.nop, .nop, Or.inl rfl, Or.inl rfl, rfl⟩

/-- The choice is 4096, the rule asks for the conversion of the parameter. -/
theorem choose_not_right : ¬∀ (F : FloatOps) (c : Ctx) (ρ : ℤ → ℤ) (q : Question) (r : Rule)
    (P : Ctx → (ℤ → ℤ) → Question → Prop), (r, P) ∈ choose → c.WellFormed → c.Typed → c.Compares →
    q.Allowed c → r.Matches c q → ((r.reply (ieee F) c q).ctx c).Runs ρ →
    (r.reply (ieee F) c q).Denotes c ρ q := by
  intro h
  have hright := h noFloats symbolCtx symbolRun symbolQuestion condAny CondAgrees (by simp [choose])
    symbolCtx_wellFormed symbolCtx_typed symbolCtx_compares symbolQuestion_allowed condAny_matches
    symbolCtx_runs
  have hagree : Agree .addr 1 4096 := hright
  exact absurd hagree (by decide)

theorem choose_right_iff_symbol :
    (condAny.reply (ieee noFloats) symbolCtx symbolQuestion).Denotes symbolCtx symbolRun
      symbolQuestion ↔ CondAgrees symbolCtx symbolRun symbolQuestion :=
  choose_right_iff (by simp [choose]) symbolCtx_wellFormed symbolCtx_typed symbolCtx_compares
    symbolQuestion_allowed condAny_matches symbolCtx_runs

end IrJit.Fold
