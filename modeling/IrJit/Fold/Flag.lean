import IrJit.Fold.Overflow

/-!
# Fold.Flag — the reference that stands for an operation, and its flag

`overflow_right_iff` follows the engine from `ADD_OV`, `SUB_OV` or `MUL_OV` to its answer, and asks for
the `OVERFLOW` of that.  The answer has the wrapped value; the flag is the one of the operation unless
the other operand is zero and the one that is kept has a flag of its own, or two constants are not
folded as their sum, difference or product asks for.
-/

namespace IrJit.Fold

/-! ## Two constants -/

section Constants

variable {F : FloatOps} {c : Ctx} {ρ : ℤ → ℤ} {q : Question} {o : IrOp} {t t₁ t₂ : IrType} {w : ℕ}
  {a b : Val} {x y : ℤ}

/-- The operation on bits. -/
def ovBits (o : IrOp) {w : ℕ} (x y : BitVec w) : BitVec w :=
  match o with
  | .addOv => x + y
  | .subOv => x - y
  | .mulOv => x * y
  | _ => 0

theorem ofInt_exactOv (ho : isOv o = true) (w : ℕ) (x y : ℤ) :
    BitVec.ofInt w (exactOv o x y) = ovBits o (BitVec.ofInt w x) (BitVec.ofInt w y) := by
  rcases isOv_cases ho with rfl | rfl | rfl
  · exact ofInt_add w x y
  · exact ofInt_sub w x y
  · exact ofInt_mul w x y

theorem ofInt_u64 (w : ℕ) (v : Val) : BitVec.ofInt w (u64 v) = v.setWidth w := by
  unfold u64
  rw [BitVec.ofInt_natCast, BitVec.ofNat_toNat]

theorem ofInt_toU_of_le (hw : w ≤ 64) (n : ℤ) : BitVec.ofInt w (toU 64 n) = BitVec.ofInt w n := by
  rw [ofInt_eq_ofInt_iff]
  unfold toU
  exact Int.emod_emod_of_dvd _ (pow_dvd_pow 2 hw)

theorem ofInt_toI (hw : w ≤ 64) (n : ℤ) : BitVec.ofInt w (toI 64 n) = BitVec.ofInt w n := by
  rw [ofInt_eq_ofInt_iff]
  have h : toI 64 n = wrap .i64 n := rfl
  rw [h, wrap_emod .i64 hw n]

theorem ofInt_i64 (hw : w ≤ 64) (v : Val) : BitVec.ofInt w (i64 v) = v.setWidth w := by
  unfold i64
  rw [ofInt_toI hw]
  exact ofInt_u64 w v

/-- The tests of the rules for two constants. -/
def OvPasses (o k : IrOp) (t : IrType) (a b : Val) : Prop :=
  match o, isU k with
  | .addOv, true => u64 a ≤ toU 64 (maxU t.size - u64 b)
  | .addOv, false => ¬((i64 b > 0 ∧ i64 a > maxI t.size - i64 b) ∨
      (i64 b < 0 ∧ i64 a < minI t.size - i64 b))
  | .subOv, true => u64 b ≤ u64 a
  | .subOv, false => ¬((i64 b > 0 ∧ i64 a < minI t.size + i64 b) ∨
      (i64 b < 0 ∧ i64 a > maxI t.size + i64 b))
  | _, true => ¬((u64 a ≠ 0 ∧ (toU 64 (u64 a * u64 b)).tdiv (u64 a) ≠ u64 b) ∨
      toU 64 (u64 a * u64 b) > maxU t.size)
  | _, false => ¬((i64 a ≠ 0 ∧ (toI 64 (u64 a * u64 b)).tdiv (i64 a) ≠ i64 b) ∨
      toI 64 (u64 a * u64 b) < minI t.size ∨ toI 64 (u64 a * u64 b) > maxI t.size)

/-- `INT64_MIN / -1` is computed. -/
def OvTraps (o k : IrOp) (a b : Val) : Prop :=
  o = .mulOv ∧ isU k = false ∧ i64 a = -1 ∧ toI 64 (u64 a * u64 b) = -2 ^ 63

/-- What the rule for two constants replies. -/
theorem ovConst_cases (ho : isOv q.op = true) (hs : samePair c q = true) (hw : w ≤ 64) :
    (OvTraps q.op (c.insn q.op1).op (c.insn q.op1).val (c.insn q.op2).val ∧
      ovConst F c q = .undefined) ∨
    ¬OvTraps q.op (c.insn q.op1).op (c.insn q.op1).val (c.insn q.op2).val ∧
      ((OvPasses q.op (c.insn q.op1).op q.type (c.insn q.op1).val (c.insn q.op2).val ∧
        ∃ v, ovConst F c q = .const v ∧ v.setWidth w =
          ovBits q.op ((c.insn q.op1).val.setWidth w) ((c.insn q.op2).val.setWidth w)) ∨
      (¬OvPasses q.op (c.insn q.op1).op q.type (c.insn q.op1).val (c.insn q.op2).val ∧
        ovConst F c q = .next)) := by
  have hreply : ovConst F c q = (ovConstRule q.op (c.insn q.op1).op).reply F c q := if_pos hs
  rw [hreply]
  unfold Rule.reply OvTraps OvPasses
  generalize (c.insn q.op1).op = k
  generalize ha : (c.insn q.op1).val = a
  generalize hb : (c.insn q.op2).val = b
  -- a test, and the constant that is stored when it passes
  have hif : ∀ {P : Prop} [Decidable P] {e : ℤ},
      BitVec.ofInt w e = ovBits q.op (a.setWidth w) (b.setWidth w) →
      (¬P ∧ ∃ v, (if P then Reply.next else .const (BitVec.ofInt 64 e)) = .const v ∧
          v.setWidth w = ovBits q.op (a.setWidth w) (b.setWidth w)) ∨
        (¬¬P ∧ (if P then Reply.next else .const (BitVec.ofInt 64 e)) = .next) := by
    intro P _ e he
    by_cases hP : P
    · exact Or.inr ⟨not_not_intro hP, if_pos hP⟩
    · exact Or.inl ⟨hP, _, if_neg hP, (setWidth_ofInt hw e).trans he⟩
  have hnot : ∀ {o : IrOp} {P : Prop}, o ≠ .mulOv → ¬(o = .mulOv ∧ P) := fun h h' => h h'.1
  rcases isOv_cases ho with hop | hop | hop <;> rw [hop] at hif ⊢ <;> cases hu : isU k
  · refine Or.inr ⟨hnot IrOp.noConfusion, ?_⟩
    simp only [ovConstRule, hu, Bool.false_eq_true, if_false, addOvI, ha, hb]
    exact hif (by rw [ofInt_add, ofInt_i64 hw, ofInt_i64 hw]; rfl)
  · refine Or.inr ⟨hnot IrOp.noConfusion, ?_⟩
    simp only [ovConstRule, hu, if_true, addOvU, ha, hb, ← not_lt]
    exact hif (by rw [ofInt_add, ofInt_u64, ofInt_u64]; rfl)
  · refine Or.inr ⟨hnot IrOp.noConfusion, ?_⟩
    simp only [ovConstRule, hu, Bool.false_eq_true, if_false, subOvI, ha, hb]
    exact hif (by rw [ofInt_sub, ofInt_i64 hw, ofInt_i64 hw]; rfl)
  · refine Or.inr ⟨hnot IrOp.noConfusion, ?_⟩
    simp only [ovConstRule, hu, if_true, subOvU, ha, hb, ← not_lt]
    exact hif (by rw [ofInt_sub, ofInt_u64, ofInt_u64]; rfl)
  · simp only [ovConstRule, hu, Bool.false_eq_true, if_false, mulOvI, ha, hb]
    have hres : BitVec.ofInt w (toI 64 (u64 a * u64 b)) = ovBits .mulOv (a.setWidth w) (b.setWidth w) := by
      rw [ofInt_toI hw, ofInt_mul, ofInt_u64, ofInt_u64]
      rfl
    generalize toI 64 (u64 a * u64 b) = res at hres
    generalize (-2 ^ 63 : ℤ) = lowest
    by_cases ht : i64 a = -1 ∧ res = lowest
    · exact Or.inl ⟨⟨trivial, trivial, ht⟩, if_pos ht⟩
    · refine Or.inr ⟨fun h => ht h.2.2, ?_⟩
      rw [if_neg ht]
      exact hif hres
  · refine Or.inr ⟨fun h => Bool.noConfusion h.2.1, ?_⟩
    simp only [ovConstRule, hu, if_true, mulOvU, ha, hb]
    exact hif (by rw [ofInt_toU_of_le hw, ofInt_mul, ofInt_u64, ofInt_u64]; rfl)

/-! ### The tests of canonical constants -/

theorem fits_signed_iff (ht : IsInt t) (hs : t.isSigned = true) (n : ℤ) :
    wrap t n = n ↔ minI t.size ≤ n ∧ n ≤ maxI t.size := by
  have hM : minI t.size = -2 ^ (bits t - 1) ∧ maxI t.size = 2 ^ (bits t - 1) - 1 := by
    unfold minI maxI bits
    omega
  rw [hM.1, hM.2]
  constructor
  · intro h
    have hb := wrap_bounds_signed ht hs n
    omega
  · exact fun h => wrap_signed_self hs h.1 (by omega) ht

theorem fits_unsigned_iff (hs : t.isSigned = false) (n : ℤ) : wrap t n = n ↔ 0 ≤ n ∧ n ≤ maxU t.size := by
  have hM : maxU t.size = 2 ^ bits t - 1 := rfl
  rw [hM]
  constructor
  · intro h
    have hb := wrap_bounds_unsigned hs n
    omega
  · exact fun h => wrap_unsigned_self hs h.1 (by omega)

theorem maxU_le (t : IrType) : maxU t.size < 2 ^ 64 := by
  have h : (2 : ℤ) ^ (8 * t.size) ≤ 2 ^ 64 := pow_le_pow_right₀ (by norm_num) (by have := t.size_le; omega)
  unfold maxU
  omega

theorem toU_le {n : ℤ} (h : 0 ≤ n) : toU w n ≤ n := by
  have hdiv := Int.emod_add_mul_ediv n (2 ^ w)
  have hq : 0 ≤ n / 2 ^ w := Int.ediv_nonneg h (by positivity)
  have hm : 0 ≤ 2 ^ w * (n / 2 ^ w) := mul_nonneg (by positivity) hq
  unfold toU
  omega

theorem toI_eq_add (w : ℕ) (n : ℤ) : ∃ k, toI w n = n + 2 ^ w * k := by
  have hdiv := Int.emod_add_mul_ediv (n + 2 ^ (w - 1)) (2 ^ w)
  refine ⟨-((n + 2 ^ (w - 1)) / 2 ^ w), ?_⟩
  unfold toI
  rw [mul_neg]
  omega

/-- The quotient of the product shows whether it was reduced. -/
theorem tdiv_toU_iff (hx : 0 < x) (hy : 0 ≤ y) :
    (toU 64 (x * y)).tdiv x = y ↔ toU 64 (x * y) = x * y := by
  constructor
  · intro h
    have hle := toU_le (w := 64) (mul_nonneg hx.le hy)
    have hmod := Int.tdiv_mul_add_tmod (toU 64 (x * y)) x
    have hpos : 0 ≤ (toU 64 (x * y)).tmod x := Int.tmod_nonneg _ (Int.emod_nonneg _ (by norm_num))
    rw [h, mul_comm] at hmod
    omega
  · intro h
    rw [h, Int.mul_tdiv_cancel_left _ hx.ne']

theorem tdiv_toI_iff (hx : x.natAbs ≤ 2 ^ 63) (hx0 : x ≠ 0) :
    (toI 64 (x * y)).tdiv x = y ↔ toI 64 (x * y) = x * y := by
  constructor
  · intro h
    obtain ⟨k, hk⟩ := toI_eq_add 64 (x * y)
    have hmod := Int.tdiv_mul_add_tmod (toI 64 (x * y)) x
    have hlt : ((toI 64 (x * y)).tmod x).natAbs < x.natAbs := by
      rw [Int.natAbs_tmod]
      exact Nat.mod_lt _ (by omega)
    rw [h, mul_comm] at hmod
    have hk0 : k = 0 := by omega
    rw [hk, hk0]
    omega
  · intro h
    rw [h, Int.mul_tdiv_cancel_left _ hx0]

theorem ovPasses_unsigned (ho : isOv o = true) (hk : isU k = true)
    (hx : u64 a = x) (hy : u64 b = y) (hx0 : 0 ≤ x) (hy0 : 0 ≤ y) (hx1 : x ≤ maxU t.size)
    (hy1 : y ≤ maxU t.size) :
    OvPasses o k t a b ↔ 0 ≤ exactOv o x y ∧ exactOv o x y ≤ maxU t.size := by
  have hlt := maxU_le t
  unfold OvPasses exactOv
  rcases isOv_cases ho with rfl | rfl | rfl <;> simp only [hk, hx, hy]
  · have hself : toU 64 (maxU t.size - y) = maxU t.size - y := by
      unfold toU
      exact Int.emod_eq_of_lt (by omega) (by omega)
    rw [hself]
    omega
  · omega
  · have hnn := mul_nonneg hx0 hy0
    have hle := toU_le (w := 64) hnn
    rcases hx0.eq_or_lt with rfl | hpos
    · simp only [zero_mul] at hle ⊢
      have hz : toU 64 0 = 0 := rfl
      rw [hz]
      omega
    · have hiff := tdiv_toU_iff hpos hy0
      have hself : x * y ≤ maxU t.size → toU 64 (x * y) = x * y := by
        intro h
        unfold toU
        exact Int.emod_eq_of_lt hnn (by omega)
      constructor
      · intro h
        have hq : (toU 64 (x * y)).tdiv x = y := by
          by_contra hq
          exact h (Or.inl ⟨hpos.ne', hq⟩)
        rw [hiff] at hq
        omega
      · rintro ⟨-, h⟩ (⟨-, hq⟩ | hgt)
        · exact hq (hiff.2 (hself h))
        · omega

theorem toI_congr {m n : ℤ} (h : BitVec.ofInt 64 m = BitVec.ofInt 64 n) : toI 64 m = toI 64 n := by
  have hm : ∀ k, toI 64 k = wrap .i64 k := fun _ => rfl
  rw [hm, hm]
  exact wrap_congr ((ofInt_eq_ofInt_iff 64 m n).1 h)

theorem toI_self {n : ℤ} (h0 : -2 ^ 63 ≤ n) (h1 : n < 2 ^ 63) : toI 64 n = n := by
  unfold toI
  omega

theorem minI_ge (t : IrType) : -2 ^ 63 ≤ minI t.size ∧ maxI t.size < 2 ^ 63 := by
  have h : (2 : ℤ) ^ (8 * t.size - 1) ≤ 2 ^ 63 :=
    pow_le_pow_right₀ (by norm_num) (by have := t.size_le; omega)
  unfold minI maxI
  omega

theorem ovPasses_signed (ho : isOv o = true) (hk : isU k = false)
    (hx : i64 a = x) (hy : i64 b = y) (hx0 : minI t.size ≤ x) (hy0 : minI t.size ≤ y)
    (hx1 : x ≤ maxI t.size) (hy1 : y ≤ maxI t.size) :
    OvPasses o k t a b ↔ minI t.size ≤ exactOv o x y ∧ exactOv o x y ≤ maxI t.size := by
  have hlt := minI_ge t
  have hprod : toI 64 (u64 a * u64 b) = toI 64 (x * y) := by
    apply toI_congr
    rw [ofInt_mul, ofInt_mul, ofInt_u64, ofInt_u64, ← hx, ← hy, ofInt_i64 le_rfl, ofInt_i64 le_rfl]
  unfold OvPasses exactOv
  rcases isOv_cases ho with rfl | rfl | rfl <;> simp only [hk, hx, hy]
  · omega
  · omega
  · rw [hprod]
    have hself : minI t.size ≤ x * y ∧ x * y ≤ maxI t.size → toI 64 (x * y) = x * y := by
      exact fun h => toI_self (by omega) (by omega)
    by_cases hx0 : x = 0
    · have hz : toI 64 (x * y) = 0 ∧ x * y = 0 := by
        rw [hx0, zero_mul]
        exact ⟨toI_self (by norm_num) (by norm_num), rfl⟩
      rw [hz.1, hz.2]
      omega
    · have hiff := tdiv_toI_iff (y := y) (by omega) hx0
      constructor
      · intro h
        have hq : (toI 64 (x * y)).tdiv x = y := by
          by_contra hq
          exact h (Or.inl ⟨hx0, hq⟩)
        rw [hiff] at hq
        omega
      · rintro hfit (⟨-, hq⟩ | hout)
        · exact hq (hiff.2 (hself hfit))
        · rw [hself hfit] at hout
          omega

/-- The test of the rule for canonical constants of a type as signed as the operation. -/
theorem ovPasses_iff_fits (ho : isOv o = true) (ht : IsInt t) (hb : t ≠ .bool) (hk : isU k = !t.isSigned)
    (hx : InRange t x) (hy : InRange t y) (ha : a = BitVec.ofInt 64 x) (hb' : b = BitVec.ofInt 64 y) :
    OvPasses o k t a b ↔ OvFits o t x y := by
  unfold OvFits
  rw [wrap_eq_self ht hx, wrap_eq_self ht hy]
  subst ha hb'
  cases hs : t.isSigned <;> rw [hs] at hk
  · rw [fits_unsigned_iff hs]
    have hM : maxU t.size = 2 ^ bits t - 1 := rfl
    have hx' := (inRange_unsigned hs hb x).1 hx
    have hy' := (inRange_unsigned hs hb y).1 hy
    exact ovPasses_unsigned ho hk (u64_self ht hs hx) (u64_self ht hs hy) hx'.1 hy'.1 (by omega) (by omega)
  · rw [fits_signed_iff ht hs]
    have hx' := (fits_signed_iff ht hs x).1 (wrap_eq_self ht hx)
    have hy' := (fits_signed_iff ht hs y).1 (wrap_eq_self ht hy)
    exact ovPasses_signed ho hk (i64_self hs hx) (i64_self hs hy) hx'.1 hy'.1 hx'.2 hy'.2

end Constants

/-! ## The condition -/

section Condition

variable (c : Ctx) (ρ : ℤ → ℤ) (q : Question)

/-- The result of the question is representable. -/
def Fits : Prop := OvFits q.op q.type (ρ q.op1) (ρ q.op2)

/-- Both operands are constants. -/
def BothConst : Prop := (c.insn q.op1).op.isConstOp = true ∧ (c.insn q.op2).op.isConstOp = true

/-- A zero is added or subtracted. -/
def ZeroSecond : Prop :=
  q.op ≠ .mulOv ∧ isUIA (c.insn q.op2).op = true ∧ (c.insn q.op2).val = 0

/-- A reference is subtracted from itself. -/
def SameSub : Prop := q.op = .subOv ∧ q.op1 = q.op2

def Traps : Prop :=
  samePair c q = true ∧ OvTraps q.op (c.insn q.op1).op (c.insn q.op1).val (c.insn q.op2).val

/-- The test of the rule for two constants. -/
def TestPasses : Prop := OvPasses q.op (c.insn q.op1).op q.type (c.insn q.op1).val (c.insn q.op2).val

/-- The engine goes on with the operands swapped. -/
def Swaps : Prop :=
  q.op ≠ .subOv ∧ q.op1 < q.op2 ∧ ¬Traps c q ∧ ¬(samePair c q = true ∧ TestPasses c q) ∧ ¬ZeroSecond c q

def Question.swapped : Question := { q with op1 := q.op2, op2 := q.op1 }

/-- Canonical constants of a type as signed as the operation. -/
structure Proper : Prop where
  first : Canonical (c.insn q.op1).type (c.insn q.op1).val
  second : Canonical (c.insn q.op2).type (c.insn q.op2).val
  sign : (c.insn q.op1).type.isSigned = q.type.isSigned

/-- The engine does not trap; two constants that no other rule folds are canonical and as signed as the
operation, or the test gives the same result, and where they have no rule the result is not
representable; what remains when a zero is added has not overflowed itself. -/
structure Flagged : Prop where
  trap : ¬Traps c q
  pair : samePair c q = true → ¬ZeroSecond c q → ¬SameSub q → Proper c q ∨ (TestPasses c q ↔ Fits ρ q)
  noRule : BothConst c q → samePair c q = false → ¬ZeroSecond c q → ¬SameSub q → ¬Fits ρ q
  kept : ZeroSecond c q → ∀ s, Reveals c q.type q.op1 s → ¬Overflowed ρ (c.insn s)

/-- The condition on the question that is answered in the end. -/
structure OvSafe : Prop where
  swapped : Swaps c q → Flagged c ρ q.swapped
  asked : ¬Swaps c q → Flagged c ρ q

/-- What a question and the instruction of its answer have to do with each other. -/
structure OvAnswer (q' : Question) (rep : Reply) : Prop where
  defined : rep ≠ .undefined
  value : ∀ v, rep.answer c ρ q' = some v → Agree q.type v (q.value c ρ)
  const : BothConst c q → (isConstant (rep.insn c q').op = true ↔ Fits ρ q)
  flag : Overflowed ρ (rep.insn c q') ↔ ¬Fits ρ q

end Condition

section Core

variable {F : FloatOps} {c : Ctx} {ρ : ℤ → ℤ} {q : Question} (hw : c.WellFormed) (hc : c.Typed)
  (hρ : c.Models ρ) (hq : q.Typed c) (ho : isOv q.op = true)

include ho

theorem Question.value_ov : q.value c ρ = wrap q.type (exactOv q.op (ρ q.op1) (ρ q.op2)) := by
  unfold Question.value exactOv
  rcases isOv_cases ho with h | h | h <;> rw [h] <;> rfl

include hq in
theorem Question.Typed.ov : Compat q.type (c.insn q.op1).type ∧ Compat q.type (c.insn q.op2).type := by
  have h := hq.accepts
  rcases isOv_cases ho with hop | hop | hop <;> rw [hop] at h <;> exact h

theorem not_isConstant_of_isOv : isConstant q.op = false := by
  rcases isOv_cases ho with h | h | h <;> rw [h] <;> rfl

omit ho in
/-- A pair with a rule. -/
theorem isConstOp_of_isUI {o : IrOp} (h : isUI o = true) : o.isConstOp = true := by
  rcases isUI_cases h with rfl | rfl | rfl | rfl | rfl | rfl | rfl | rfl <;> rfl

omit ho in
theorem samePair_iff : samePair c q = true ↔
    (c.insn q.op1).op = (c.insn q.op2).op ∧ isUI (c.insn q.op1).op = true := by
  unfold samePair
  simp

omit ho in
theorem bothConst_of_samePair (hs : samePair c q = true) : BothConst c q := by
  obtain ⟨heq, hui⟩ := samePair_iff.1 hs
  exact ⟨isConstOp_of_isUI hui, isConstOp_of_isUI (heq ▸ hui)⟩

omit ho in
/-- A constant has not overflowed. -/
theorem not_overflowed_of_const {i : Insn} (h : i.op.isConstOp = true) : ¬Overflowed ρ i := by
  rintro ⟨hov, -⟩
  rcases isOv_cases hov with h' | h' | h' <;> rw [h'] at h <;> cases h

omit ho in
include hw hc hρ in
/-- The operands of the rule for two constants. -/
theorem operand_of_samePair (hs : samePair c q = true) {r : ℤ} (hr : r = q.op1 ∨ r = q.op2) :
    (c.insn r).type ≠ .bool ∧ IsInt (c.insn r).type ∧ isUI (c.insn r).op = true ∧
      ρ r = valueOf (c.insn r).type (c.insn r).val := by
  obtain ⟨heq, hui⟩ := samePair_iff.1 hs
  have hui' : isUI (c.insn r).op = true := by
    rcases hr with rfl | rfl
    · exact hui
    · exact heq ▸ hui
  obtain ⟨hneg, hnum, hb, hint⟩ := number_of_isUIA hw hc (isUIA_of_isUI hui')
  exact ⟨hb, hint, hui', hρ.number r hneg (by simpa [Ctx.isNumber, hneg] using hnum) hint⟩

include hw hc hρ hq in
/-- The reply of the rule for two constants. -/
theorem ovAnswer_const (hs : samePair c q = true) {v : Val} (hv : v.setWidth (bits q.type) =
    ovBits q.op ((c.insn q.op1).val.setWidth _) ((c.insn q.op2).val.setWidth _)) :
    OvAnswer c ρ q q (.const v) ↔ Fits ρ q := by
  obtain ⟨hb, -, -, hx⟩ := operand_of_samePair hw hc hρ hs (Or.inl rfl)
  obtain ⟨-, -, -, hy⟩ := operand_of_samePair hw hc hρ hs (Or.inr rfl)
  obtain ⟨hk1, hk2⟩ := hq.ov ho
  have hbool : q.type ≠ .bool := fun h => hb (hk1.bool_iff.1 h)
  obtain ⟨hconst, hov⟩ := isConstant_constOp hq.int
  have hflag : ¬Overflowed ρ ((Reply.const v).insn c q) := by
    rintro ⟨h, -⟩
    rw [show isOv ((Reply.const v).insn c q).op = false from hov] at h
    cases h
  have hvalue : Agree q.type (constValue q.type v) (q.value c ρ) := by
    rw [agree_iff rfl, Question.value_ov ho, ofInt_wrap rfl, ofInt_exactOv ho, hx, hy,
      ofInt_valueOf hk1.bits_eq.symm, ofInt_valueOf hk2.bits_eq.symm, ← hv]
    unfold constValue
    rw [if_neg hbool]
    exact ofInt_valueOf rfl v
  constructor
  · intro h
    by_contra hfit
    exact hflag (h.flag.2 hfit)
  · intro hfit
    refine ⟨Reply.noConfusion, ?_, fun _ => iff_of_true hconst hfit, iff_of_false hflag (not_not_intro hfit)⟩
    rintro _ ⟨⟩
    exact hvalue

omit ho in
include hw hc hρ in
theorem value_of_zeroSecond (hz : ZeroSecond c q) : ρ q.op2 = 0 := by
  obtain ⟨-, huia, hval⟩ := hz
  obtain ⟨hneg, hnum, -, hint⟩ := number_of_isUIA hw hc huia
  rw [hρ.number _ hneg (by simpa [Ctx.isNumber, hneg] using hnum) hint, hval, valueOf_zero hint]

include hw hc hρ hq in
theorem exact_of_zeroSecond (hz : ZeroSecond c q) :
    q.value c ρ = wrap q.type (ρ q.op1) ∧ Fits ρ q := by
  have h0 := value_of_zeroSecond hw hc hρ hz
  have hw0 : wrap q.type 0 = 0 := valueOf_zero hq.int
  have hexact : ∀ x, exactOv q.op x 0 = x := by
    intro x
    rcases isOv_cases ho with h | h | h
    · rw [h]; exact add_zero x
    · rw [h]; exact sub_zero x
    · exact absurd h hz.1
  refine ⟨by rw [Question.value_ov ho, h0, hexact], ?_⟩
  unfold Fits OvFits
  rw [h0, hw0, hexact, wrap_wrap rfl]

omit ho in
include hq in
theorem fits_of_sameSub (hs : SameSub q) : q.value c ρ = 0 ∧ Fits ρ q := by
  have hw0 : wrap q.type 0 = 0 := valueOf_zero hq.int
  have hvalue : q.value c ρ = wrap q.type (ρ q.op2 - ρ q.op2) := by
    unfold Question.value
    rw [hs.1, hs.2]
    rfl
  refine ⟨by rw [hvalue, sub_self, hw0], ?_⟩
  unfold Fits OvFits exactOv
  rw [hs.1, hs.2]
  dsimp only
  rw [sub_self, hw0]

/-- The question is left to the CSE. -/
theorem ovAnswer_asked {rep : Reply} (hrep : rep = .next ∨ rep = .emit 0) :
    OvAnswer c ρ q q rep ↔ (BothConst c q → ¬Fits ρ q) := by
  have hinsn : rep.insn c q = { op := q.op, type := q.type, op1 := q.op1, op2 := q.op2, op3 := q.op3 } := by
    rcases hrep with rfl | rfl <;> rfl
  have hans : rep.answer c ρ q = some (q.value c ρ) := by
    rcases hrep with rfl | rfl <;> rfl
  have hnot : isConstant (rep.insn c q).op = false := by
    rw [hinsn]
    exact not_isConstant_of_isOv ho
  constructor
  · intro h hboth hfit
    have := (h.const hboth).2 hfit
    rw [hnot] at this
    cases this
  · intro h
    refine ⟨by rcases hrep with rfl | rfl <;> exact Reply.noConfusion, ?_, fun hboth => ?_, ?_⟩
    · intro v hv
      rw [hans] at hv
      cases hv
      exact Agree.refl _ _
    · rw [hnot]
      exact iff_of_false Bool.false_ne_true (h hboth)
    · rw [hinsn]
      exact and_iff_right ho

omit ho in
include hw hc in
theorem isU_of_isUI {r : ℤ} (h : isUI (c.insn r).op = true) : isU (c.insn r).op = !(c.insn r).type.isSigned := by
  have hconst := isConstOp_of_isUI h
  have hop := hc.consts _ (mem_consts hw hconst).2 hconst
  rw [hop] at h ⊢
  generalize (c.insn r).type = t at h
  cases t <;> first | rfl | exact absurd h (by decide)

omit ho in
theorem InRange.of_bits {t u : IrType} {n : ℤ} (h : InRange u n) (hb : bits u = bits t)
    (hs : u.isSigned = t.isSigned) (hu : u ≠ .bool) (ht : t ≠ .bool) : InRange t n := by
  unfold InRange at h ⊢
  rw [if_neg hu, hb, hs] at h
  rwa [if_neg ht]

include hw hc hρ hq in
/-- The test of canonical constants. -/
theorem Proper.passes_iff (hp : Proper c q) (hs : samePair c q = true) :
    TestPasses c q ↔ Fits ρ q := by
  obtain ⟨hb1, hint1, hui1, hx⟩ := operand_of_samePair hw hc hρ hs (Or.inl rfl)
  obtain ⟨hb2, hint2, hui2, hy⟩ := operand_of_samePair hw hc hρ hs (Or.inr rfl)
  obtain ⟨hk1, hk2⟩ := hq.ov ho
  have hbool : q.type ≠ .bool := fun h => hb1 (hk1.bool_iff.1 h)
  have hu1 := isU_of_isUI hw hc hui1
  have hu2 := isU_of_isUI hw hc hui2
  have hsign : (c.insn q.op2).type.isSigned = q.type.isSigned := by
    rw [← (samePair_iff.1 hs).1, hu1, hp.sign] at hu2
    simpa using hu2.symm
  obtain ⟨hr1, hv1⟩ := hp.first
  obtain ⟨hr2, hv2⟩ := hp.second
  rw [← hx] at hr1 hv1
  rw [← hy] at hr2 hv2
  exact ovPasses_iff_fits ho hq.int hbool (by rw [hu1, hp.sign])
    (hr1.of_bits hk1.bits_eq.symm hp.sign hb1 hbool) (hr2.of_bits hk2.bits_eq.symm hsign hb2 hbool) hv1 hv2

/-! ### One question -/

variable {c' : Ctx} {q' : Question} {rep : Reply} (hu : c.useLists = none)

omit ho in
/-- An answer ends the run. -/
theorem run_of_answer {n : ℕ} {r : Reply} (hd : dispatch F c q = r) (hr : ∀ c'' q'', r ≠ .restart c'' q'')
    (hrun : folding F (n + 1) c q = some (c', q', rep)) : c' = c ∧ q' = q ∧ rep = r := by
  rw [folding_succ_of_answer (by rw [hd]; exact hr), hd] at hrun
  cases hrun
  exact ⟨rfl, rfl, rfl⟩

omit ho in
theorem flagged_of_zeroSecond (hz : ZeroSecond c q) (ht : ¬Traps c q) :
    Flagged c ρ q ↔ ∀ s, Reveals c q.type q.op1 s → ¬Overflowed ρ (c.insn s) :=
  ⟨fun h => h.kept hz, fun h => ⟨ht, fun _ h' => absurd hz h', fun _ _ h' => absurd hz h', fun _ => h⟩⟩

omit ho in
theorem flagged_of_not_zeroSecond (hz : ¬ZeroSecond c q) (ht : ¬Traps c q) (hs : ¬SameSub q) :
    Flagged c ρ q ↔ (samePair c q = true → Proper c q ∨ (TestPasses c q ↔ Fits ρ q)) ∧
      (BothConst c q → samePair c q = false → ¬Fits ρ q) :=
  ⟨fun h => ⟨fun hp => h.pair hp hz hs, fun hb hp => h.noRule hb hp hz hs⟩,
    fun h => ⟨ht, fun hp _ _ => h.1 hp, fun hb hp _ _ => h.2 hb hp, fun hz' => absurd hz' hz⟩⟩

omit ho in
theorem Compat.full_of_ne {t u : IrType} (h : Compat t u) (hne : t ≠ u) : Full t ∧ Full u := by
  rcases h with h | ⟨rfl, rfl | rfl⟩ | ⟨rfl, rfl | rfl⟩
  · exact absurd h hne
  all_goals exact ⟨by simp [Full], by simp [Full]⟩

include hw hc hρ hq hu in
/-- A zero is added or subtracted: the other operand is what remains. -/
theorem ovAnswer_zero (hz : ZeroSecond c q) (ht : ¬Traps c q) {n : ℕ}
    (hd : dispatch F c q = addZero.reply F c q) (hrun : folding F (n + 1) c q = some (c', q', rep)) :
    c' = c ∧ (OvAnswer c ρ q q' rep ↔ Flagged c ρ q) := by
  obtain ⟨hvalue, hfit⟩ := exact_of_zeroSecond hw hc hρ hq ho hz
  obtain ⟨hk1, -⟩ := hq.ov ho
  rw [flagged_of_zeroSecond hz ht]
  simp only [Rule.reply, addZero, if_pos hz.2.2] at hd
  by_cases htype : (c.insn q.op1).type = q.type
  · rw [if_neg (not_not_intro htype)] at hd
    obtain ⟨rfl, rfl, rfl⟩ := run_of_answer hd (fun _ _ => Reply.noConfusion) hrun
    refine ⟨rfl, fun h s hs hov => ?_, fun h => ?_⟩
    · rw [hs.unique (.same htype)] at hov
      exact (h.flag.1 hov) hfit
    · refine ⟨Reply.noConfusion, ?_, fun hb => ?_, iff_of_false (h _ (.same htype)) (not_not_intro hfit)⟩
      · rintro _ ⟨⟩
        rw [agree_iff_wrap, hvalue, wrap_wrap rfl]
      · refine iff_of_true ?_ hfit
        show isConstant (c'.insn q'.op1).op = true
        unfold isConstant
        rw [hb.1]
        rfl
  · rw [if_pos htype] at hd
    obtain ⟨hfull, hfull1⟩ := hk1.full_of_ne fun h => htype h.symm
    rw [folding_succ_of_restart hd hu] at hrun
    obtain ⟨rfl, hans⟩ := bitcast_run hw hc hρ hu hfull n q.op1 hfull1 htype c' q' rep hrun
    have hval : ∀ v, rep.answer c' ρ q' = some v → Agree q.type v (q.value c' ρ) := by
      intro v hv
      refine (hans.value v hv).trans ?_
      show Agree q.type _ _
      rw [agree_iff_wrap, hvalue, wrap_wrap rfl]
    have hconst : BothConst c' q → (isConstant (rep.insn c' q').op = true ↔ Fits ρ q) :=
      fun hb => iff_of_true (hans.const hb.1) hfit
    refine ⟨rfl, fun h s hs hov => ?_, fun h => ⟨hans.defined, hval, hconst, ?_⟩⟩
    · rcases hans.revealed with ⟨s', rfl, hs'⟩ | ⟨hno, -⟩
      · rw [hs.unique hs'] at hov
        exact (h.flag.1 hov) hfit
      · have hfalse := hov.1
        rw [hno s hs] at hfalse
        cases hfalse
    · refine iff_of_false ?_ (not_not_intro hfit)
      rcases hans.revealed with ⟨s, rfl, hs⟩ | ⟨-, hno⟩
      · exact h s hs
      · rintro ⟨hov, -⟩
        rw [hno] at hov
        cases hov

include hw hc hρ hq in
/-- The condition where the question is left to the CSE. -/
theorem asked_iff (hp : ¬(samePair c q = true ∧ TestPasses c q)) : (BothConst c q → ¬Fits ρ q) ↔
    (samePair c q = true → Proper c q ∨ (TestPasses c q ↔ Fits ρ q)) ∧
      (BothConst c q → samePair c q = false → ¬Fits ρ q) := by
  constructor
  · intro h
    refine ⟨fun hs => Or.inr (iff_of_false (fun ht => hp ⟨hs, ht⟩) (h (bothConst_of_samePair hs))), ?_⟩
    exact fun hb _ => h hb
  · rintro ⟨hpair, hno⟩ hb hfit
    cases hs : samePair c q
    · exact hno hb hs hfit
    · rcases hpair hs with hprop | hiff
      · exact hp ⟨hs, (hprop.passes_iff hw hc hρ hq ho hs).2 hfit⟩
      · exact hp ⟨hs, hiff.2 hfit⟩

include hw hc hρ hq hu in
/-- The rule for two constants does not answer. -/
theorem ovAnswer_rest (hn : ¬Swaps c q) (ht : ¬Traps c q) (hp : ¬(samePair c q = true ∧ TestPasses c q))
    (hd : dispatch F c q = (ovZero F c q).orElse ((ovLastRule q.op).reply F c q)) {n : ℕ}
    (hrun : folding F (n + 1) c q = some (c', q', rep)) :
    c' = c ∧ (OvAnswer c ρ q q' rep ↔ Flagged c ρ q) := by
  by_cases hz : ZeroSecond c q
  · refine ovAnswer_zero hw hc hρ hq ho hu hz ht ?_ hrun
    have hzero : ovZero F c q = addZero.reply F c q := if_pos ⟨hz.1, hz.2.1⟩
    rw [hd, hzero]
    simp only [Rule.reply, addZero, if_pos hz.2.2]
    split_ifs <;> rfl
  have hlast : dispatch F c q = (ovLastRule q.op).reply F c q := by
    have hzero : ovZero F c q = .next := by
      unfold ovZero
      split_ifs with h
      · exact if_neg fun hval => hz ⟨h.1, h.2, hval⟩
      · rfl
    rw [hd, hzero]
    rfl
  unfold ovLastRule at hlast
  by_cases hsub : q.op = .subOv
  · rw [if_pos hsub] at hlast
    simp only [Rule.reply, subOvAny] at hlast
    by_cases hsame : q.op1 = q.op2
    · rw [if_pos hsame] at hlast
      obtain ⟨rfl, rfl, rfl⟩ := run_of_answer hlast (fun _ _ => Reply.noConfusion) hrun
      obtain ⟨hvalue, hfit⟩ := fits_of_sameSub hq ⟨hsub, hsame⟩
      obtain ⟨hconst, hov⟩ := isConstant_constOp hq.int
      refine ⟨rfl, iff_of_true ⟨Reply.noConfusion, ?_, fun _ => iff_of_true hconst hfit, ?_⟩
        ⟨ht, fun _ _ h => absurd ⟨hsub, hsame⟩ h, fun _ _ _ h => absurd ⟨hsub, hsame⟩ h,
          fun h => absurd h hz⟩⟩
      · rintro _ ⟨⟩
        rw [agree_iff rfl, ofInt_constValue_zero, hvalue]
        exact (BitVec.ofInt_natCast _ 0).symm
      · refine iff_of_false ?_ (not_not_intro hfit)
        rintro ⟨h, -⟩
        exact Bool.false_ne_true (hov.symm.trans h)
    · rw [if_neg hsame] at hlast
      obtain ⟨rfl, rfl, rfl⟩ := run_of_answer hlast (fun _ _ => Reply.noConfusion) hrun
      refine ⟨rfl, ?_⟩
      rw [ovAnswer_asked ho (Or.inr rfl), flagged_of_not_zeroSecond hz ht fun h => hsame h.2]
      exact asked_iff hw hc hρ hq ho hp
  · rw [if_neg hsub] at hlast
    simp only [Rule.reply, swapOv] at hlast
    have hle : ¬q.op1 < q.op2 := fun h => hn ⟨hsub, h, ht, hp, hz⟩
    rw [if_neg hle] at hlast
    obtain ⟨rfl, rfl, rfl⟩ := run_of_answer hlast (fun _ _ => Reply.noConfusion) hrun
    refine ⟨rfl, ?_⟩
    rw [ovAnswer_asked ho (Or.inr rfl), flagged_of_not_zeroSecond hz ht fun h => hsub h.1]
    exact asked_iff hw hc hρ hq ho hp

include hw hc hρ hq hu in
/-- A question whose operands are not swapped. -/
theorem ovAnswer_of_run (hn : ¬Swaps c q) {n : ℕ} (hrun : folding F n c q = some (c', q', rep)) :
    c' = c ∧ (OvAnswer c ρ q q' rep ↔ Flagged c ρ q) := by
  obtain _ | n := n
  · cases hrun
  by_cases hs : samePair c q = true
  swap
  · refine ovAnswer_rest hw hc hρ hq ho hu hn (fun h => hs h.1) (fun h => hs h.1) ?_ hrun
    rw [dispatch_ov ho, ovConst, if_neg hs]
    rfl
  rcases ovConst_cases (F := F) ho hs (bits_pos hq.int).2 with ⟨ht, hr⟩ | ⟨ht, ⟨hp, v, hr, hv⟩ | ⟨hp, hr⟩⟩
  · have hd : dispatch F c q = .undefined := by
      rw [dispatch_ov ho, hr]
      rfl
    obtain ⟨rfl, rfl, rfl⟩ := run_of_answer hd (fun _ _ => Reply.noConfusion) hrun
    exact ⟨rfl, fun h => absurd rfl h.defined, fun h => absurd ⟨hs, ht⟩ h.trap⟩
  · have hd : dispatch F c q = .const v := by
      rw [dispatch_ov ho, hr]
      rfl
    obtain ⟨rfl, rfl, rfl⟩ := run_of_answer hd (fun _ _ => Reply.noConfusion) hrun
    refine ⟨rfl, ?_⟩
    rw [ovAnswer_const hw hc hρ hq ho hs hv]
    refine ⟨fun hfit => ⟨fun h => ht h.2, fun _ _ _ => Or.inr (iff_of_true hp hfit),
      fun _ h => absurd hs (by rw [h]; exact Bool.false_ne_true), fun _ s hrev => ?_⟩, fun h => ?_⟩
    · -- a constant reveals itself only
      have hconst := (bothConst_of_samePair hs).1
      have hcast : (c'.insn q'.op1).op ≠ .bitcast := by
        intro h
        rw [h] at hconst
        cases hconst
      cases hrev with
      | same _ => exact not_overflowed_of_const hconst
      | inner _ h _ => exact absurd h hcast
      | deeper _ h _ _ _ => exact absurd h hcast
    · by_cases hz : ZeroSecond c' q'
      · exact (exact_of_zeroSecond hw hc hρ hq ho hz).2
      by_cases hsame : SameSub q'
      · exact (fits_of_sameSub hq hsame).2
      rcases h.pair hs hz hsame with hprop | hiff
      · exact (hprop.passes_iff hw hc hρ hq ho hs).1 hp
      · exact hiff.1 hp
  · refine ovAnswer_rest hw hc hρ hq ho hu hn (fun h => ht h.2) (fun h => hp h.2) ?_ hrun
    rw [dispatch_ov ho, hr]
    rfl

/-! ### Swapped operands -/

omit ho in
theorem exactOv_comm {o : IrOp} (h : o ≠ .subOv) (x y : ℤ) : exactOv o x y = exactOv o y x := by
  unfold exactOv
  split
  · exact add_comm x y
  · exact absurd rfl h
  · exact mul_comm x y
  · rfl

theorem dispatch_of_swaps (hs : Swaps c q) : dispatch F c q = .restart c q.swapped := by
  obtain ⟨hsub, hlt, ht, hp, hz⟩ := hs
  have hzero : ovZero F c q = .next := by
    unfold ovZero
    split_ifs with h
    · exact if_neg fun hval => hz ⟨h.1, h.2, hval⟩
    · rfl
  have hconst : ovConst F c q = .next := by
    by_cases hs : samePair c q = true
    · rcases ovConst_cases (F := F) ho hs (le_refl 64) with ⟨h, -⟩ | ⟨-, ⟨h, -⟩ | ⟨-, h⟩⟩
      · exact absurd ⟨hs, h⟩ ht
      · exact absurd ⟨hs, h⟩ hp
      · exact h
    · exact if_neg hs
  rw [dispatch_ov ho, hconst, hzero, next_orElse, next_orElse, ovLastRule, if_neg hsub]
  exact if_pos hlt

/-- The answer to the swapped question is one to the question. -/
theorem ovAnswer_swapped (hsub : q.op ≠ .subOv) :
    OvAnswer c ρ q q' rep ↔ OvAnswer c ρ q.swapped q' rep := by
  have hvalue : q.swapped.value c ρ = q.value c ρ := by
    rw [Question.value_ov (q := q.swapped) ho, Question.value_ov ho]
    show wrap q.type (exactOv q.op (ρ q.op2) (ρ q.op1)) = _
    rw [exactOv_comm hsub]
  have hfits : Fits ρ q.swapped ↔ Fits ρ q := by
    unfold Fits OvFits Question.swapped
    dsimp only
    rw [exactOv_comm hsub]
  have hboth : BothConst c q.swapped ↔ BothConst c q := and_comm
  constructor
  · intro h
    refine ⟨h.defined, fun v hv => ?_, fun hb => ?_, ?_⟩
    · rw [hvalue]
      exact h.value v hv
    · rw [hfits]
      exact h.const (hboth.1 hb)
    · rw [hfits]
      exact h.flag
  · intro h
    refine ⟨h.defined, fun v hv => ?_, fun hb => ?_, ?_⟩
    · rw [← hvalue]
      exact h.value v hv
    · rw [← hfits]
      exact h.const (hboth.2 hb)
    · rw [← hfits]
      exact h.flag

include hq in
theorem Question.Typed.swapped : q.swapped.Typed c := by
  obtain ⟨h1, h2⟩ := hq.ov ho
  refine ⟨hq.int, ?_⟩
  show Accepts q.op q.type _ _
  rcases isOv_cases ho with h | h | h <;> rw [h] <;> exact ⟨h2, h1⟩

include hw hc hρ hq hu in
/-- The answer to a question with a flag. -/
theorem ovAnswer_iff {n : ℕ} (hrun : folding F n c q = some (c', q', rep)) :
    c' = c ∧ (OvAnswer c ρ q q' rep ↔ OvSafe c ρ q) := by
  by_cases hs : Swaps c q
  · obtain _ | n := n
    · cases hrun
    rw [folding_succ_of_restart (dispatch_of_swaps ho hs) hu] at hrun
    have hn : ¬Swaps c q.swapped := fun h => absurd h.2.1 (not_lt.2 hs.2.1.le)
    obtain ⟨rfl, hiff⟩ := ovAnswer_of_run hw hc hρ (hq.swapped ho) ho hu hn hrun
    refine ⟨rfl, ?_⟩
    rw [ovAnswer_swapped ho hs.1, hiff]
    exact ⟨fun h => ⟨fun _ => h, fun h' => absurd hs h'⟩, fun h => h.swapped hs⟩
  · obtain ⟨rfl, hiff⟩ := ovAnswer_of_run hw hc hρ hq ho hu hs hrun
    refine ⟨rfl, ?_⟩
    rw [hiff]
    exact ⟨fun h => ⟨fun h' => absurd h' hs, fun _ => h⟩, fun h => h.asked hs⟩

end Core

/-! ## The reference and its `OVERFLOW` -/

section Reference

variable {F : FloatOps} {c c' c'' : Ctx} {ρ : ℤ → ℤ} {q q' : Question} {rep : Reply} {r : ℤ}

/-- The reference that the answer stands for, and the graph it is of: `ir_const` makes a constant, the
CSE finds or emits the question. -/
def Returned (c : Ctx) (q : Question) : Reply → Ctx → ℤ → Prop
  | .const v, c'', r => c'' = (c.const v q.type).1 ∧ r = (c.const v q.type).2
  | .copy s, c'', r => c'' = c ∧ r = s
  | .emit _, c'', r | .next, c'', r => Grown c c'' ∧ (c''.insn r).op = q.op ∧ (c''.insn r).type = q.type ∧
      (c''.insn r).op1 = q.op1 ∧ (c''.insn r).op2 = q.op2
  | _, c'', _ => c'' = c

/-- `OVERFLOW` of the reference, as the engine builds it: a constant, or the flag of the instruction. -/
def Reports (F : FloatOps) (c : Ctx) (ρ : ℤ → ℤ) (r : ℤ) : Prop :=
  match folding F 1 c ⟨.overflow, .bool, r, 0, 0⟩ with
  | some (_, _, .copy s) => ρ s ≠ 0
  | _ => Overflowed ρ (c.insn r)

theorem pattern_overflow {k1 k2 : IrOp} : ∀ r ∈ rules, r.pattern .overflow k1 k2 = true →
    k1 = .nop ∧ k2 = .nop := by
  unfold rules answering restarting
  simp only [List.forall_mem_append, List.forall_mem_cons, List.not_mem_nil, false_imp_iff,
    implies_true, and_true]
  and_intros
  all_goals intro hp
  all_goals first
    | exact absurd hp Bool.false_ne_true
    | simpa [overflowOf] using hp
    | simp [floatConvert, cmpExt, cmpExtExt] at hp

theorem dispatch_overflow (F : FloatOps) (c : Ctx) (r : ℤ) :
    dispatch F c ⟨.overflow, .bool, r, 0, 0⟩ = overflowOf.reply F c ⟨.overflow, .bool, r, 0, 0⟩ := by
  have hlast : attempt F c ⟨.overflow, .bool, r, 0, 0⟩ .nop .nop =
      overflowOf.reply F c ⟨.overflow, .bool, r, 0, 0⟩ := attempt_of_findRule rfl
  have hkey : ∀ k1 k2, attempt F c ⟨.overflow, .bool, r, 0, 0⟩ k1 k2 = .next ∨
      attempt F c ⟨.overflow, .bool, r, 0, 0⟩ k1 k2 =
        overflowOf.reply F c ⟨.overflow, .bool, r, 0, 0⟩ := by
    intro k1 k2
    by_cases h : k1 = .nop ∧ k2 = .nop
    · rw [h.1, h.2]
      exact Or.inr hlast
    · refine Or.inl (attempt_of_none ?_)
      unfold findRule
      rw [List.find?_eq_none]
      exact fun r hr hp => h (pattern_overflow r hr hp)
  have hor : ∀ {a b : Reply}, (a = .next ∨ a = b) → a.orElse b = b := by
    intro a b h
    rcases h with rfl | rfl
    · rfl
    · cases a <;> rfl
  unfold dispatch
  dsimp only
  rw [hlast, hor (hkey _ _), hor (hkey _ _), hor (hkey _ _)]

theorem reports_iff (hfalse : ρ irFalse = 0) : Reports F c ρ r ↔ Overflowed ρ (c.insn r) := by
  have hd := dispatch_overflow F c r
  have hreply : overflowOf.reply F c ⟨.overflow, .bool, r, 0, 0⟩ =
      if (c.insn r).op ≠ .addOv ∧ (c.insn r).op ≠ .subOv ∧ (c.insn r).op ≠ .mulOv then .copy irFalse
      else .next := rfl
  rw [hreply] at hd
  unfold Reports
  split_ifs at hd with h
  · rw [folding_succ_of_answer (by rw [hd]; exact fun _ _ => Reply.noConfusion), hd]
    refine iff_of_false (not_not_intro hfalse) fun hov => ?_
    rcases isOv_cases hov.1 with h' | h' | h'
    · exact h.1 h'
    · exact h.2.1 h'
    · exact h.2.2 h'
  · rw [folding_succ_of_answer (by rw [hd]; exact fun _ _ => Reply.noConfusion), hd]

/-- Where the engine goes on. -/
theorem restart_cases (ho : isOv q.op = true) (hq : IsInt q.type) {c₁ : Ctx} {q₁ : Question}
    (hd : dispatch F c q = .restart c₁ q₁) : (Swaps c q ∧ c₁ = c ∧ q₁ = q.swapped) ∨
      ((c.insn q.op1).type ≠ q.type ∧ c₁ = c ∧ q₁ = ⟨.bitcast, q.type, q.op1, 0, q.op3⟩) := by
  by_cases hs : Swaps c q
  · rw [dispatch_of_swaps ho hs] at hd
    cases hd
    exact Or.inl ⟨hs, rfl, rfl⟩
  refine Or.inr ?_
  rw [dispatch_ov ho] at hd
  have hlast : ∀ {b : Reply}, b = (ovLastRule q.op).reply F c q → b = .restart c₁ q₁ → q.op ≠ .subOv ∧
      q.op1 < q.op2 := by
    rintro _ rfl h
    unfold ovLastRule at h
    split_ifs at h with hsub
    · simp only [Rule.reply, subOvAny] at h
      split_ifs at h
    · simp only [Rule.reply, swapOv] at h
      split_ifs at h with hlt
      exact ⟨hsub, hlt⟩
  rcases orElse_cases (ovConst F c q) ((ovZero F c q).orElse ((ovLastRule q.op).reply F c q)) with h | ⟨hn, h⟩
  · exfalso
    rw [h] at hd
    by_cases hp : samePair c q = true
    · rcases ovConst_cases (F := F) ho hp (bits_pos hq).2 with ⟨-, h⟩ | ⟨-, ⟨-, _, h, -⟩ | ⟨-, h⟩⟩ <;>
        rw [h] at hd <;> cases hd
    · rw [ovConst, if_neg hp] at hd
      cases hd
  rw [h] at hd
  rcases orElse_cases (ovZero F c q) ((ovLastRule q.op).reply F c q) with h | ⟨hn', h⟩
  · rw [h] at hd
    unfold ovZero at hd
    split_ifs at hd with hz
    simp only [Rule.reply, addZero] at hd
    split_ifs at hd with h0 ht
    cases hd
    exact ⟨ht, rfl, rfl⟩
  · rw [h] at hd
    obtain ⟨hsub, hlt⟩ := hlast rfl hd
    have hquiet : ¬Traps c q ∧ ¬(samePair c q = true ∧ TestPasses c q) := by
      by_cases hp : samePair c q = true
      · rcases ovConst_cases (F := F) ho hp (bits_pos hq).2 with ⟨-, h⟩ | ⟨ht, ⟨-, _, h, -⟩ | ⟨hpass, -⟩⟩
        · rw [hn] at h
          cases h
        · rw [hn] at h
          cases h
        · exact ⟨fun h => ht h.2, fun h => hpass h.2⟩
      · exact ⟨fun h => hp h.1, fun h => hp h.1⟩
    refine absurd ⟨hsub, hlt, hquiet.1, hquiet.2, fun hz => ?_⟩ hs
    rw [ovZero, if_pos ⟨hz.1, hz.2.1⟩] at hn'
    simp only [Rule.reply, addZero, if_pos hz.2.2] at hn'
    split_ifs at hn'
    cases hn'

theorem computes_of_isOv {o : IrOp} (h : isOv o = true) : computes o = true := by
  rcases isOv_cases h with rfl | rfl | rfl <;> rfl

/-- The question that is answered. -/
theorem question_of_run (hw : c.WellFormed) (hc : c.Typed) (hρ : c.Models ρ) (hu : c.useLists = none)
    {n : ℕ} : ∀ {q : Question}, q.Typed c → isOv q.op = true → folding F n c q = some (c', q', rep) →
      (∀ c₁ q₁, rep ≠ .restart c₁ q₁) ∧ q'.type = q.type ∧ computes q'.op = true ∧
        IntOperands c q'.op q'.op1 q'.op2 := by
  induction n with
  | zero => exact fun _ _ h => nomatch h
  | succ n ih =>
    intro q hq ho hrun
    obtain ⟨hk1, hk2⟩ := hq.ov ho
    by_cases hd : ∃ c₁ q₁, dispatch F c q = .restart c₁ q₁
    · obtain ⟨c₁, q₁, hd⟩ := hd
      rcases restart_cases ho hq.int hd with ⟨-, rfl, rfl⟩ | ⟨ht, rfl, rfl⟩
      · rw [folding_succ_of_restart hd hu] at hrun
        exact ih (q := q.swapped) (hq.swapped ho) ho hrun
      · rw [folding_succ_of_restart hd hu] at hrun
        obtain ⟨hfull, hfull1⟩ := hk1.full_of_ne ht.symm
        obtain ⟨-, hans⟩ := bitcast_run hw hc hρ hu hfull n q.op1 hfull1 ht c' q' rep hrun
        obtain ⟨hop, htype, hf, hr⟩ := hans.question
        refine ⟨hr, htype, by rw [hop]; rfl, hf.isInt.1, fun h2 => ?_⟩
        rw [hop] at h2
        exact absurd h2 (by decide)
    · have hr : ∀ c₁ q₁, dispatch F c q ≠ .restart c₁ q₁ := fun c₁ q₁ h => hd ⟨c₁, q₁, h⟩
      obtain ⟨rfl, rfl, rfl⟩ := run_of_answer rfl hr hrun
      exact ⟨hr, rfl, computes_of_isOv ho, hk1.isInt hq.int, fun _ => hk2.isInt hq.int⟩

/-- The value and the flag of the reference are those of the answer. -/
theorem returned_answer (hw : c.WellFormed) (hc : c.Typed) (hint : IsInt q'.type)
    (hcomp : computes q'.op = true) (hops : IntOperands c q'.op q'.op1 q'.op2) (hdef : rep ≠ .undefined)
    (hr : ∀ c₁ q₁, rep ≠ .restart c₁ q₁) (hret : Returned c q' rep c'' r) (hρ : c''.Models ρ) :
    rep.answer c ρ q' = some (ρ r) ∧ isConstant (c''.insn r).op = isConstant (rep.insn c q').op ∧
      (Overflowed ρ (c''.insn r) ↔ Overflowed ρ (rep.insn c q')) := by
  have hasked : ∀ {c'' : Ctx}, c''.Models ρ → Grown c c'' → (c''.insn r).op = q'.op →
      (c''.insn r).type = q'.type → (c''.insn r).op1 = q'.op1 → (c''.insn r).op2 = q'.op2 →
      q'.value c ρ = ρ r ∧ (Overflowed ρ (c''.insn r) ↔ Overflowed ρ (Reply.next.insn c q')) := by
    intro c'' hρ hg hop htype h1 h2
    have hv1 := hg.insn (valid_of_isInt hops.1)
    have hnode := hρ.node r (by rw [hop]; exact hcomp) (by rw [htype]; exact hint)
      (by rw [hop, h1, h2]; exact ⟨by rw [hv1]; exact hops.1,
        fun h => by rw [hg.insn (valid_of_isInt (hops.2 h))]; exact hops.2 h⟩)
    refine ⟨?_, ?_⟩
    · rw [hnode, hop, htype, h1, h2]
      exact (result_congr hcomp (by rw [hv1])
        fun h => by rw [hg.insn (valid_of_isInt (hops.2 h))]).symm
    · unfold Overflowed
      rw [hop, htype, h1, h2]
      exact Iff.rfl
  cases rep with
  | const v =>
    obtain ⟨rfl, rfl⟩ := hret
    obtain ⟨W, hW⟩ := exists_weighed hw
    have hop := const_op hW (v := v) (t := q'.type)
    have hconst := isConstant_constOp hint
    refine ⟨by rw [hρ.new hw hc hint]; rfl, by rw [hop]; rfl, iff_of_false ?_ ?_⟩
    · rintro ⟨h, -⟩
      rw [hop, hconst.2] at h
      cases h
    · rintro ⟨h, -⟩
      exact Bool.false_ne_true (hconst.2.symm.trans h)
  | copy s =>
    obtain ⟨rfl, rfl⟩ := hret
    exact ⟨rfl, rfl, Iff.rfl⟩
  | emit k =>
    obtain ⟨hg, hop, htype, h1, h2⟩ := hret
    obtain ⟨hval, hflag⟩ := hasked hρ hg hop htype h1 h2
    exact ⟨congrArg some hval, by rw [hop]; rfl, hflag⟩
  | next =>
    obtain ⟨hg, hop, htype, h1, h2⟩ := hret
    obtain ⟨hval, hflag⟩ := hasked hρ hg hop htype h1 h2
    exact ⟨congrArg some hval, by rw [hop]; rfl, hflag⟩
  | restart c₁ q₁ => exact absurd rfl (hr c₁ q₁)
  | undefined => exact absurd rfl hdef

/-- The graph of the reference has that of the question in it. -/
theorem grown_of_returned (hret : Returned c q' rep c'' r) : Grown c c'' := by
  cases rep with
  | const v =>
    obtain ⟨rfl, rfl⟩ := hret
    exact grown_const c v q'.type
  | copy s => exact hret.1 ▸ (Kept.refl c).grown
  | emit k => exact hret.1
  | next => exact hret.1
  | restart c₁ q₁ => exact (hret : c'' = c) ▸ (Kept.refl c).grown
  | undefined => exact (hret : c'' = c) ▸ (Kept.refl c).grown

/-- The reference denotes the operation, and its `OVERFLOW` the overflow of that. -/
structure Denotes (F : FloatOps) (c c'' : Ctx) (ρ : ℤ → ℤ) (q : Question) (rep : Reply) (r : ℤ) : Prop where
  defined : rep ≠ .undefined
  value : Agree q.type (ρ r) (q.value c ρ)
  const : BothConst c q → (isConstant (c''.insn r).op = true ↔ Fits ρ q)
  flag : Reports F c'' ρ r ↔ ¬Fits ρ q

/-- **The reference that the engine returns for `ADD_OV`, `SUB_OV` or `MUL_OV` has the wrapped value, is
a constant for two constants exactly when the result is representable, and its `OVERFLOW` is the
overflow of the operation, if and only if the question is `OvSafe`.** -/
theorem overflow_right_iff {n : ℕ} (hw : c.WellFormed) (hc : c.Typed) (hu : c.useLists = none)
    (hq : q.Typed c) (ho : isOv q.op = true) (hrun : folding F n c q = some (c', q', rep))
    (hret : Returned c' q' rep c'' r) (hρ : c''.Models ρ) :
    Denotes F c c'' ρ q rep r ↔ OvSafe c ρ q := by
  have hρc : c.Models ρ := hρ.mono hw ((folding_grown hrun).trans (grown_of_returned hret))
  obtain ⟨rfl, hiff⟩ := ovAnswer_iff hw hc hρc hq ho hu hrun
  obtain ⟨hr, htype, hcomp, hops⟩ := question_of_run hw hc hρc hu hq ho hrun
  have hint : IsInt q'.type := htype ▸ hq.int
  have hfacts := fun hdef => returned_answer hw hc hint hcomp hops hdef hr hret hρ
  have hreports : Reports F c'' ρ r ↔ Overflowed ρ (c''.insn r) := reports_iff (hρc.isFalse hw hc)
  rw [← hiff]
  constructor
  · intro h
    obtain ⟨hans, hop, hflag⟩ := hfacts h.defined
    refine ⟨h.defined, fun v hv => ?_, fun hb => ?_, ?_⟩
    · rw [hans] at hv
      cases hv
      exact h.value
    · rw [← hop]
      exact h.const hb
    · rw [← hflag, ← hreports]
      exact h.flag
  · intro h
    obtain ⟨hans, hop, hflag⟩ := hfacts h.defined
    refine ⟨h.defined, h.value _ hans, fun hb => ?_, ?_⟩
    · rw [hop]
      exact h.const hb
    · rw [hreports, hflag]
      exact h.flag

end Reference

/-- Two parameters, the constant 0 and `ADD_OV` of the parameters. -/
def flagCtx : Ctx where
  consts := [⟨.cAddr, .addr, 0, 0, 0, 0⟩, ⟨.cBool, .bool, 0, 0, 0, 0⟩, ⟨.cBool, .bool, 0, 0, 0, 1⟩,
    ⟨.cI8, .i8, 0, 0, 0, 0⟩]
  insns := [⟨.nop, .void, 0, 0, 0, 0⟩, ⟨.start, .void, 0, 0, 0, 0⟩, ⟨.param, .i8, 1, 0, 0, 0⟩,
    ⟨.param, .i8, 1, 0, 0, 0⟩, ⟨.addOv, .i8, 2, 3, 0, 0⟩]
  useLists := none

/-- The run in which both parameters are 100. -/
def flagRun (r : ℤ) : ℤ :=
  match r with
  | -3 => 1
  | 2 => 100
  | 3 => 100
  | 4 => -56
  | _ => 0

theorem flagCtx_wellFormed : flagCtx.WellFormed :=
  wellFormed_of_check (by decide) rfl (by decide) (by decide) ⟨rfl, rfl, rfl⟩ (by decide)

theorem flagCtx_typed : flagCtx.Typed :=
  typed_of_check (by decide) (by decide) (by decide)

theorem flagCtx_models : flagCtx.Models flagRun :=
  models_of_check (by decide) (by decide) (by decide)

/-- `ADD_OV` of the sum and 0. -/
def flagQuestion : Question := ⟨.addOv, .i8, 4, -4, 0⟩

theorem flagQuestion_typed : flagQuestion.Typed flagCtx := ⟨by decide, by decide⟩

theorem flagQuestion_run :
    folding noFloats 1 flagCtx flagQuestion = some (flagCtx, flagQuestion, .copy 4) := rfl

/-- The sum has overflowed; `-56 + 0` has not. -/
theorem overflow_not_right : ¬∀ (F : FloatOps) (c c' c'' : Ctx) (ρ : ℤ → ℤ) (q q' : Question) (rep : Reply)
    (r : ℤ) (n : ℕ), c.WellFormed → c.Typed → c.useLists = none → q.Typed c → isOv q.op = true →
    folding F n c q = some (c', q', rep) → Returned c' q' rep c'' r → c''.Models ρ →
    Denotes F c c'' ρ q rep r := by
  intro h
  have hright := h noFloats flagCtx flagCtx flagCtx flagRun flagQuestion flagQuestion (.copy 4) 4 1
    flagCtx_wellFormed flagCtx_typed rfl flagQuestion_typed rfl flagQuestion_run ⟨rfl, rfl⟩ flagCtx_models
  have hreports : Reports noFloats flagCtx flagRun 4 := by
    rw [reports_iff rfl]
    exact ⟨rfl, by decide⟩
  have hfits : Fits flagRun flagQuestion := by
    unfold Fits
    decide
  exact hright.flag.1 hreports hfits

theorem overflow_right_iff_flag :
    Denotes noFloats flagCtx flagCtx flagRun flagQuestion (.copy 4) 4 ↔ OvSafe flagCtx flagRun flagQuestion :=
  overflow_right_iff flagCtx_wellFormed flagCtx_typed rfl flagQuestion_typed rfl flagQuestion_run
    ⟨rfl, rfl⟩ flagCtx_models

end IrJit.Fold
