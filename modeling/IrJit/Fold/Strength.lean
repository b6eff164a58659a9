import IrJit.Fold.Cancel
import IrJit.Fold.Folding
import IrJit.Lib.PowerTwo

/-!
# Fold.Strength — cheaper products, quotients, remainders and absolute values (`ir_fold.h`, 1624–1644, 1952–1968, 2267–2485, 2655–2680, 2792–2818, 3638–3649)

Each rule comes with the condition under which what it replies has the value of the question, and is
defined when the question is (`strength`).  The conditions that are not trivial come from the smallest
number of a type, which is its own negation, from `ADD` of booleans, and from unsigned types, where
a negated operand is a large one.
-/

namespace IrJit.Fold

/-! ## Numbers that are read in a type -/

section Numbers

variable {t u : IrType} {x y b : ℤ} {w k : ℕ}

/-- The smallest number of a signed type. -/
def minOf (t : IrType) : ℤ := -2 ^ (bits t - 1)

theorem two_pow_bits (ht : IsInt t) : (2 : ℤ) ^ bits t = 2 * 2 ^ (bits t - 1) := by
  have hpos := (bits_pos ht).1
  rw [← pow_succ']
  congr 1
  omega

theorem four_le_half (ht : IsInt t) : (4 : ℤ) ≤ 2 ^ (bits t - 1) := by
  have hsize := size_pos ht
  have hle : (2 : ℤ) ^ 2 ≤ 2 ^ (bits t - 1) := by
    apply pow_le_pow_right₀ (by norm_num)
    unfold bits
    omega
  simpa using hle

theorem wrap_bounds_signed (ht : IsInt t) (hs : t.isSigned = true) (n : ℤ) :
    -2 ^ (bits t - 1) ≤ wrap t n ∧ wrap t n < 2 ^ (bits t - 1) := by
  unfold wrap
  rw [if_pos hs]
  exact toI_bounds (bits_pos ht).1 n

theorem wrap_bounds_unsigned (hs : t.isSigned = false) (n : ℤ) :
    0 ≤ wrap t n ∧ wrap t n < 2 ^ bits t := by
  unfold wrap toU
  rw [if_neg (by simp [hs])]
  have hpos : (0 : ℤ) < 2 ^ bits t := by positivity
  exact ⟨Int.emod_nonneg n hpos.ne', Int.emod_lt_of_pos n hpos⟩

theorem wrap_signed_self (hs : t.isSigned = true) (h0 : -2 ^ (bits t - 1) ≤ x)
    (h1 : x < 2 ^ (bits t - 1)) (ht : IsInt t) : wrap t x = x := by
  apply wrap_eq_self ht
  rw [inRange_signed hs]
  exact ⟨h0, h1⟩

theorem wrap_unsigned_self (hs : t.isSigned = false) (h0 : 0 ≤ x) (h1 : x < 2 ^ bits t) :
    wrap t x = x := by
  unfold wrap toU
  rw [if_neg (by simp [hs])]
  exact Int.emod_eq_of_lt h0 h1

theorem wrap_add_period (t : IrType) (n : ℤ) : wrap t (n + 2 ^ bits t) = wrap t n := by
  apply wrap_congr
  unfold toU
  exact Int.add_emod_right ..

/-- The smallest number is its own negation. -/
theorem wrap_neg_min (ht : IsInt t) (hs : t.isSigned = true) : wrap t (-minOf t) = minOf t := by
  have htwo := two_pow_bits ht
  have hfour := four_le_half ht
  have heq : -minOf t = minOf t + 2 ^ bits t := by
    unfold minOf
    omega
  rw [heq, wrap_add_period, wrap_signed_self hs (by unfold minOf; omega) (by unfold minOf; omega) ht]

theorem wrap_neg_signed (ht : IsInt t) (hs : t.isSigned = true) (hx : wrap t x = x) :
    wrap t (-x) = if x = minOf t then minOf t else -x := by
  have hb := wrap_bounds_signed ht hs x
  rw [hx] at hb
  split_ifs with h
  · rw [h, wrap_neg_min ht hs]
  · unfold minOf at h
    exact wrap_signed_self hs (by omega) (by omega) ht

theorem wrap_neg_unsigned (hs : t.isSigned = false) (hx : wrap t x = x) :
    wrap t (-x) = if x = 0 then 0 else 2 ^ bits t - x := by
  have hb := wrap_bounds_unsigned hs x
  rw [hx] at hb
  split_ifs with h
  · rw [h, neg_zero]
    exact wrap_unsigned_self hs le_rfl (by positivity)
  · rw [← wrap_add_period]
    rw [wrap_unsigned_self hs (by omega) (by omega)]
    ring

/-- The values of the constants that the rules compare with. -/
theorem valueOf_zero (ht : IsInt t) : valueOf t 0 = 0 := by
  have heq : valueOf t 0 = wrap t 0 := rfl
  have hfour := four_le_half ht
  have htwo := two_pow_bits ht
  rw [heq]
  cases hs : t.isSigned
  · exact wrap_unsigned_self hs le_rfl (by omega)
  · exact wrap_signed_self hs (by omega) (by omega) ht

theorem valueOf_one (ht : IsInt t) : valueOf t 1 = 1 := by
  have heq : valueOf t 1 = wrap t 1 := rfl
  have hfour := four_le_half ht
  have htwo := two_pow_bits ht
  rw [heq]
  cases hs : t.isSigned
  · exact wrap_unsigned_self hs (by omega) (by omega)
  · exact wrap_signed_self hs (by omega) (by omega) ht

/-- `-x / y` is `x / -y`. -/
def NegDivides (t : IrType) (x y : ℤ) : Prop :=
  if t.isSigned then wrap t x = minOf t → wrap t y = minOf t
  else wrap t x = 0 ∨ wrap t x + wrap t y = 2 ^ bits t

/-- The quotient is defined. -/
def Divisible (t : IrType) (x y : ℤ) : Prop :=
  wrap t y ≠ 0 ∧ ¬(t.isSigned = true ∧ wrap t x = minOf t ∧ wrap t y = -1)

/-- A small dividend. -/
theorem tdiv_eq_zero_of_lt (h : x.natAbs < y.natAbs) : x.tdiv y = 0 := by
  have hq : (x.tdiv y).natAbs = x.natAbs / y.natAbs := Int.natAbs_tdiv x y
  rw [Nat.div_eq_of_lt h] at hq
  exact Int.natAbs_eq_zero.1 hq

theorem tdiv_ne_zero_of_le (hy : y ≠ 0) (h : y.natAbs ≤ x.natAbs) : x.tdiv y ≠ 0 := by
  intro h0
  have hq : (x.tdiv y).natAbs = x.natAbs / y.natAbs := Int.natAbs_tdiv x y
  rw [h0, Int.natAbs_zero] at hq
  have hpos := Nat.div_pos h (Int.natAbs_pos.2 hy)
  omega

theorem quotient_neg_signed (ht : IsInt t) (hs : t.isSigned = true) (hx : wrap t x = x)
    (hb : wrap t b = b) (h0 : b ≠ 0) (hdef : ¬(wrap t (-x) = minOf t ∧ b = -1)) :
    ((wrap t (-b) ≠ 0 ∧ ¬(x = minOf t ∧ wrap t (-b) = -1)) ∧
      wrap t (x.tdiv (wrap t (-b))) = wrap t ((wrap t (-x)).tdiv b)) ↔
      (x = minOf t → b = minOf t) := by
  have hxb := wrap_bounds_signed ht hs x
  have hbb := wrap_bounds_signed ht hs b
  have hfour := four_le_half ht
  rw [hx] at hxb
  rw [hb] at hbb
  rw [wrap_neg_signed ht hs hx] at hdef ⊢
  rw [wrap_neg_signed ht hs hb]
  have hmin : minOf t = -2 ^ (bits t - 1) := rfl
  by_cases hxm : x = minOf t
  · rw [if_pos hxm] at hdef ⊢
    by_cases hbm : b = minOf t
    · rw [if_pos hbm, hxm, hbm]
      exact iff_of_true ⟨⟨by omega, by omega⟩, rfl⟩ fun _ => rfl
    · rw [if_neg hbm]
      refine iff_of_false ?_ fun h => hbm (h hxm)
      rintro ⟨⟨-, hne⟩, heq⟩
      -- both quotients are in range, and they are opposite and not zero
      have hq := tdiv_bounds (x := x) (y := -b) hxb.1 hxb.2 (by rw [← hmin]; exact hne)
      have hq' := tdiv_bounds (x := minOf t) (y := b) (m := 2 ^ (bits t - 1)) (by omega) (by omega)
        (by rw [← hmin]; exact hdef)
      rw [wrap_signed_self hs hq.1 hq.2 ht, wrap_signed_self hs hq'.1 hq'.2 ht, ← hxm, Int.tdiv_neg] at heq
      have hnz := tdiv_ne_zero_of_le (x := x) h0 (by omega)
      omega
  · rw [if_neg hxm]
    refine iff_of_true ?_ fun h => absurd h hxm
    by_cases hbm : b = minOf t
    · rw [if_pos hbm, hbm, tdiv_eq_zero_of_lt (x := x) (by omega), tdiv_eq_zero_of_lt (x := -x) (by omega)]
      exact ⟨⟨by omega, fun h => hxm h.1⟩, rfl⟩
    · rw [if_neg hbm, Int.tdiv_neg, Int.neg_tdiv]
      exact ⟨⟨by omega, fun h => hxm h.1⟩, rfl⟩

theorem quotient_neg_unsigned (hs : t.isSigned = false) (hx : wrap t x = x)
    (hb : wrap t b = b) (h0 : b ≠ 0) :
    (wrap t (-b) ≠ 0 ∧ wrap t (x.tdiv (wrap t (-b))) = wrap t ((wrap t (-x)).tdiv b)) ↔
      (x = 0 ∨ x + b = 2 ^ bits t) := by
  have hxb := wrap_bounds_unsigned hs x
  have hbb := wrap_bounds_unsigned hs b
  rw [hx] at hxb
  rw [hb] at hbb
  rw [wrap_neg_unsigned hs hx, wrap_neg_unsigned hs hb, if_neg h0]
  have hpos : (0 : ℤ) < 2 ^ bits t := by positivity
  by_cases hx0 : x = 0
  · rw [if_pos hx0, hx0, Int.zero_tdiv, Int.zero_tdiv]
    exact iff_of_true ⟨by omega, rfl⟩ (Or.inl rfl)
  rw [if_neg hx0]
  have hq := tdiv_bounds_nonneg (y := 2 ^ bits t - b) hxb.1 hxb.2 (by omega)
  have hq' := tdiv_bounds_nonneg (x := 2 ^ bits t - x) (y := b) (m := 2 ^ bits t) (by omega) (by omega)
    hbb.1
  rw [wrap_unsigned_self hs hq.1 hq.2, wrap_unsigned_self hs hq'.1 hq'.2]
  have hne : (2 : ℤ) ^ bits t - b ≠ 0 := by omega
  constructor
  · rintro ⟨-, heq⟩
    refine Or.inr ?_
    by_contra hsum
    rcases lt_or_gt_of_ne hsum with hlt | hgt
    · -- the first quotient is zero, the other one is not
      rw [tdiv_eq_zero_of_lt (x := x) (by omega)] at heq
      exact tdiv_ne_zero_of_le (x := 2 ^ bits t - x) h0 (by omega) heq.symm
    · rw [tdiv_eq_zero_of_lt (x := 2 ^ bits t - x) (by omega)] at heq
      exact tdiv_ne_zero_of_le (x := x) hne (by omega) heq
  · rintro (h | h)
    · exact absurd h hx0
    · have h1 : (2 : ℤ) ^ bits t - b = x := by omega
      have h2 : (2 : ℤ) ^ bits t - x = b := by omega
      rw [h1, h2, Int.tdiv_self hx0, Int.tdiv_self h0]
      exact ⟨hx0, rfl⟩

theorem setWidth_zero_val (w : ℕ) : (0 : Val).setWidth w = 0 := BitVec.setWidth_zero w 64

theorem setWidth_one_val (hw : w ≤ 64) : (1 : Val).setWidth w = 1 :=
  (setWidth_ofInt hw 1).trans (BitVec.ofInt_natCast w 1)

theorem setWidth_minus_one (hw : w ≤ 64) : (BitVec.ofInt 64 (-1)).setWidth w = -1 := by
  rw [setWidth_ofInt hw, ofInt_neg]
  exact congrArg Neg.neg (BitVec.ofInt_natCast w 1)

theorem wrap_eq_of_bits (h : BitVec.ofInt (bits t) x = BitVec.ofInt (bits t) y) : wrap t x = wrap t y :=
  wrap_congr ((agree_iff rfl x y).2 h)

/-- The quotient of a negated dividend is asked again with a negated divisor. -/
theorem quotient_neg_iff (ht : IsInt t) {a k : ℤ} (ha : wrap t a = wrap t (-x))
    (hk : wrap t k = wrap t (-b)) (hdef : Divisible t a b) :
    (Divisible t x k ∧ Agree t (wrap t ((wrap t x).tdiv (wrap t k)))
      (wrap t ((wrap t a).tdiv (wrap t b)))) ↔ NegDivides t x b := by
  have hneg : ∀ n, wrap t (-n) = wrap t (-wrap t n) := fun n => by
    apply wrap_eq_of_bits
    rw [ofInt_neg, ofInt_neg, ofInt_wrap rfl]
  rw [agree_iff_wrap, wrap_wrap rfl, wrap_wrap rfl]
  unfold Divisible NegDivides at *
  rw [ha, hneg] at hdef
  rw [ha, hk, hneg x, hneg b]
  have hx := wrap_wrap (t := t) rfl x
  have hb := wrap_wrap (t := t) rfl b
  cases hs : t.isSigned
  · rw [if_neg Bool.false_ne_true, ← quotient_neg_unsigned hs hx hb hdef.1]
    simp
  · rw [hs] at hdef
    rw [if_pos rfl, ← quotient_neg_signed ht hs hx hb hdef.1 (fun h => hdef.2 ⟨rfl, h⟩)]
    simp

end Numbers

/-! ## Questions that are defined -/

/-- The divisor is not zero, and not `-1` under the smallest dividend. -/
def Question.Defined (ρ : ℤ → ℤ) (q : Question) : Prop :=
  q.op = .div ∨ q.op = .mod → Divisible q.type (ρ q.op1) (ρ q.op2)

/-- What is asked again is defined. -/
def Reply.Defined (ρ : ℤ → ℤ) : Reply → Prop
  | .restart _ q => q.Defined ρ
  | _ => True

/-- What a rule replies is defined, and has the value of the question. -/
def Reply.Right (c : Ctx) (ρ : ℤ → ℤ) (q : Question) (r : Reply) : Prop := r.Defined ρ ∧ r.Means c ρ q

section Questions

variable {F : FloatOps} {c : Ctx} {ρ : ℤ → ℤ} {q : Question} {r : Rule} {t : IrType} {v : Val} {op : IrOp}
  {s : ℤ}

theorem Question.defined_of_op (h : q.op ≠ .div ∧ q.op ≠ .mod) : q.Defined ρ :=
  fun hor => (hor.elim h.1 h.2).elim

theorem value_div (h : q.op = .div) :
    q.value c ρ = wrap q.type ((wrap q.type (ρ q.op1)).tdiv (wrap q.type (ρ q.op2))) := by
  unfold Question.value
  rw [h]
  rfl

theorem value_mod (h : q.op = .mod) :
    q.value c ρ = wrap q.type ((wrap q.type (ρ q.op1)).tmod (wrap q.type (ρ q.op2))) := by
  unfold Question.value
  rw [h]
  rfl

theorem right_copy : (Reply.copy s).Right c ρ q ↔ wrap q.type (ρ s) = wrap q.type (q.value c ρ) := by
  unfold Reply.Right
  rw [Reply.Means, agree_iff_wrap]
  exact and_iff_right trivial

theorem right_unary (h : op ≠ .div ∧ op ≠ .mod) : (Reply.unary c q op t s).Right c ρ q ↔
    (Reply.unary c q op t s).Means c ρ q :=
  and_iff_right (Question.defined_of_op (q := { q with op := op, type := t, op1 := s, op2 := 0 }) h)

theorem right_withConst (h : op ≠ .div ∧ op ≠ .mod) : (Reply.withConst c q op s v t).Right c ρ q ↔
    (Reply.withConst c q op s v t).Means c ρ q :=
  and_iff_right (Question.defined_of_op
    (q := { q with op := op, op1 := s, op2 := (c.const v t).2 }) h)

theorem right_const : (Reply.const v).Right c ρ q ↔ (Reply.const v).Means c ρ q :=
  and_iff_right trivial

theorem right_next : Reply.next.Right c ρ q := ⟨trivial, trivial⟩

/-- The bits of a constant that a rule makes. -/
theorem bits_new (hw : c.WellFormed) (hc : c.Typed) (ht : IsInt t) (hb : t ≠ .bool)
    (hρ : (c.const v t).1.Models ρ) {w : ℕ} (hbits : bits t = w) :
    BitVec.ofInt w (ρ (c.const v t).2) = v.setWidth w := by
  rw [hρ.new hw hc ht]
  unfold constValue
  rw [if_neg hb, ofInt_valueOf hbits]

/-- The bits of a number in a question. -/
theorem bits_number (hρ : c.Models ρ) (hn : c.isNumber s = true) (ht : IsInt (c.insn s).type) {w : ℕ}
    (hbits : bits (c.insn s).type = w) : BitVec.ofInt w (ρ s) = (c.insn s).val.setWidth w :=
  HasBits.number ⟨ht, hbits⟩ hρ hn

/-- A negation below a reference. -/
theorem neg_node (hc : c.Typed) (hρ : c.Models ρ) (hs : Like c t s) (hop : (c.insn s).op = .neg) :
    Like c t (c.insn s).op1 ∧
      BitVec.ofInt (bits t) (ρ s) = -BitVec.ofInt (bits t) (ρ (c.insn s).op1) := by
  have hcomp : computes (c.insn s).op = true := by rw [hop]; rfl
  have hacc := hc.insns s hcomp
  rw [hop] at hacc
  have hcompat : Compat (c.insn s).type (c.insn (c.insn s).op1).type := hacc
  have hint := hcompat.isInt hs.int
  refine ⟨⟨⟨hint, hcompat.bits_eq.symm.trans hs.bits⟩, hcompat.bool_iff.symm.trans hs.bool⟩, ?_⟩
  rw [hρ.node s hcomp hs.int ⟨hint, fun h2 => by rw [hop] at h2; exact absurd h2 (by decide)⟩, hop]
  exact bits_neg hs.bits _ _

end Questions

/-! ## Negated operands -/

/-- The condition of the rules of `DIV(NEG, _)`. -/
def NegQuotient (c : Ctx) (ρ : ℤ → ℤ) (q : Question) : Prop :=
  q.op = .div → NegDivides q.type (ρ (c.insn q.op1).op1) (ρ q.op2)

section Negated

variable {F : FloatOps} {c : Ctx} {ρ : ℤ → ℤ} {q : Question} (hc : c.Typed) (hq : q.Typed c)

include hc hq

omit hc in
/-- The operands of a product or a quotient. -/
theorem Question.Typed.factors (h : q.op = .mul ∨ q.op = .div ∨ q.op = .mod) :
    Like c q.type q.op1 ∧ Like c q.type q.op2 := by
  have hacc := hq.accepts
  have hcompat : Compat q.type (c.insn q.op1).type ∧ Compat q.type (c.insn q.op2).type := by
    rcases h with h | h | h <;> rw [h] at hacc <;> exact hacc
  exact ⟨hcompat.1.like hq.int, hcompat.2.like hq.int⟩

theorem mulDivNegConst_right_iff (hw : c.WellFormed) (hd : q.Defined ρ) (hm : mulDivNegConst.Matches c q)
    (hρ : ((mulDivNegConst.reply F c q).ctx c).Models ρ) :
    (mulDivNegConst.reply F c q).Right c ρ q ↔ NegQuotient c ρ q := by
  have hρ' := hρ.reply (by simp [rules, restarting]) hw
  obtain ⟨k1, k2, hk1, hk2, hp⟩ := hm
  simp only [mulDivNegConst, Bool.and_eq_true, Bool.or_eq_true, decide_eq_true_eq] at hp
  obtain ⟨⟨hop, rfl⟩, hi⟩ := hp
  have hneg := hk1.eq (by decide)
  have huia : isUIA (c.insn q.op2).op = true := by
    rw [hk2.eq (ne_nop_of_isUIA (isUIA_of_isI hi))]
    exact isUIA_of_isI hi
  obtain ⟨-, hnum, hbool, hint2⟩ := number_of_isUIA hw hc huia
  obtain ⟨h1, h2⟩ := hq.factors (hop.imp id Or.inl)
  obtain ⟨hin, hbits⟩ := neg_node hc hρ' h1 hneg
  have hconst := bits_number hρ' hnum hint2 h2.bits
  have h64 := (bits_pos hq.int).2
  have hreply : mulDivNegConst.reply F c q = .withConst c q q.op (c.insn q.op1).op1
      (-(c.insn q.op2).val) (c.insn q.op2).type := rfl
  rw [hreply] at hρ ⊢
  have hnew := bits_new hw hc hint2 hbool hρ h2.bits
  rcases hop with hop | hop
  · rw [right_withConst (by rw [hop]; decide), means_withConst hw hc hq (by rw [hop]; rfl)
      (by rw [hop]; rfl) h2.bits hint2 hbool hin.toHasBits hρ, hbits, hconst, hop]
    refine iff_of_true ?_ fun h => ?_
    · simp only [onBits, BitVec.setWidth_neg_of_le h64]
      ring
    · rw [hop] at h
      cases h
  · have hk : wrap q.type (ρ (c.const (-(c.insn q.op2).val) (c.insn q.op2).type).2) =
        wrap q.type (-ρ q.op2) := by
      apply wrap_eq_of_bits
      rw [hnew, ofInt_neg, hconst, BitVec.setWidth_neg_of_le h64]
    have ha : wrap q.type (ρ q.op1) = wrap q.type (-ρ (c.insn q.op1).op1) := by
      apply wrap_eq_of_bits
      rw [hbits, ofInt_neg]
    have hiff := quotient_neg_iff hq.int ha hk (hd (Or.inl hop))
    have hnq : NegQuotient c ρ q ↔ NegDivides q.type (ρ (c.insn q.op1).op1) (ρ q.op2) :=
      ⟨fun h => h hop, fun h _ => h⟩
    rw [hnq, ← hiff]
    have hmeans : (Reply.withConst c q q.op (c.insn q.op1).op1 (-(c.insn q.op2).val)
        (c.insn q.op2).type).Means c ρ q ↔ Agree q.type
          (wrap q.type ((wrap q.type (ρ (c.insn q.op1).op1)).tdiv
            (wrap q.type (ρ (c.const (-(c.insn q.op2).val) (c.insn q.op2).type).2))))
          (q.value c ρ) := by
      have heq : Reply.withConst c q q.op (c.insn q.op1).op1 (-(c.insn q.op2).val) (c.insn q.op2).type =
          .restart (c.const (-(c.insn q.op2).val) (c.insn q.op2).type).1
            { q with op := q.op, op1 := (c.insn q.op1).op1,
                     op2 := (c.const (-(c.insn q.op2).val) (c.insn q.op2).type).2 } := rfl
      rw [heq, Reply.Means, value_div (by exact hop)]
    rw [← value_div (c := c) hop, ← hmeans]
    exact and_congr ⟨fun h => h (Or.inl hop), fun h _ => h⟩ Iff.rfl

theorem mulDivNegNeg_right_iff (hd : q.Defined ρ) (hρ : c.Models ρ) (hm : mulDivNegNeg.Matches c q) :
    (mulDivNegNeg.reply F c q).Right c ρ q ↔ NegQuotient c ρ q := by
  obtain ⟨k1, k2, hk1, hk2, hp⟩ := hm
  simp only [mulDivNegNeg, Bool.and_eq_true, Bool.or_eq_true, decide_eq_true_eq] at hp
  obtain ⟨⟨hop, rfl⟩, rfl⟩ := hp
  obtain ⟨h1, h2⟩ := hq.factors (hop.imp id Or.inl)
  obtain ⟨hin, hbits⟩ := neg_node hc hρ h1 (hk1.eq (by decide))
  obtain ⟨hin', hbits'⟩ := neg_node hc hρ h2 (hk2.eq (by decide))
  have hreply : mulDivNegNeg.reply F c q = .restart c { q with op1 := (c.insn q.op1).op1,
                                                               op2 := (c.insn q.op2).op1 } := rfl
  rw [hreply]
  rcases hop with hop | hop
  · refine iff_of_true ⟨Question.defined_of_op (by rw [hop]; decide), ?_⟩ fun h => ?_
    · rw [Reply.Means, Question.value, agree_iff rfl, hq.bits_value (by rw [hop]; rfl)]
      dsimp only
      rw [onBits_result (by rw [hop]; rfl) rfl hin.bits, hbits, hbits', hop]
      simp only [onBits]
      ring
    · rw [hop] at h
      cases h
  · have hk : wrap q.type (ρ (c.insn q.op2).op1) = wrap q.type (-ρ q.op2) := by
      apply wrap_eq_of_bits
      rw [ofInt_neg, hbits', neg_neg]
    have ha : wrap q.type (ρ q.op1) = wrap q.type (-ρ (c.insn q.op1).op1) := by
      apply wrap_eq_of_bits
      rw [hbits, ofInt_neg]
    have hiff := quotient_neg_iff hq.int ha hk (hd (Or.inl hop))
    have hnq : NegQuotient c ρ q ↔ NegDivides q.type (ρ (c.insn q.op1).op1) (ρ q.op2) :=
      ⟨fun h => h hop, fun h _ => h⟩
    rw [hnq, ← hiff, ← value_div (c := c) hop]
    refine and_congr ⟨fun h => h (Or.inl hop), fun h _ => h⟩ ?_
    rw [Reply.Means, value_div (by exact hop)]

end Negated

/-! ## Products -/

section Products

variable {F : FloatOps} {c : Ctx} {ρ : ℤ → ℤ} {q : Question} (hw : c.WellFormed) (hc : c.Typed)
  (hq : q.Typed c) (hρ : c.Models ρ)

include hw hc hq hρ

omit hq in
/-- The value of the constant in the second operand. -/
theorem second_number (h : isUIA (c.insn q.op2).op = true) (hs : Like c q.type q.op2) :
    bitsOf ρ q q.op2 = (c.insn q.op2).val.setWidth (bits q.type) ∧ q.type ≠ .bool := by
  obtain ⟨-, hnum, hbool, hint⟩ := number_of_isUIA hw hc h
  exact ⟨bits_number hρ hnum hint hs.bits, fun hb => hbool (hs.bool.2 hb)⟩

theorem mul_isUIA {r : Rule} (hm : r.Matches c q)
    (hr : ∀ k1 k2, r.pattern q.op k1 k2 = true → q.op = .mul ∧ isUIA k2 = true) :
    q.op = .mul ∧ bitsOf ρ q q.op2 = (c.insn q.op2).val.setWidth (bits q.type) := by
  obtain ⟨k1, k2, -, hk2, hp⟩ := hm
  obtain ⟨hop, hi⟩ := hr k1 k2 hp
  have huia : isUIA (c.insn q.op2).op = true := by rwa [hk2.eq (ne_nop_of_isUIA hi)]
  exact ⟨hop, (second_number hw hc hρ huia (hq.factors (Or.inl hop)).2).1⟩

theorem mulU_right (hm : mulU.Matches c q) : (mulU.reply F c q).Right c ρ q := by
  obtain ⟨hop, hbits⟩ := mul_isUIA hw hc hq hρ hm fun k1 k2 hp => by
    simp only [mulU, Bool.and_eq_true, decide_eq_true_eq] at hp
    exact ⟨hp.1.1, isUIA_of_isUA hp.2⟩
  have hring : isRing q.op = true := by rw [hop]; rfl
  simp only [Rule.reply, mulU]
  split_ifs with h0 h1
  · refine ⟨trivial, (means_copy hq hring).2 ?_⟩
    rw [hop, hbits, h0, setWidth_zero_val]
    exact BitVec.mul_zero.symm
  · refine ⟨trivial, (means_copy hq hring).2 ?_⟩
    rw [hop, hbits, h1, setWidth_one_val (bits_pos hq.int).2]
    exact (BitVec.mul_one _).symm
  · exact right_next

theorem mulI_right (hm : mulI.Matches c q) : (mulI.reply F c q).Right c ρ q := by
  obtain ⟨hop, hbits⟩ := mul_isUIA hw hc hq hρ hm fun k1 k2 hp => by
    simp only [mulI, Bool.and_eq_true, decide_eq_true_eq] at hp
    exact ⟨hp.1.1, isUIA_of_isI hp.2⟩
  have hring : isRing q.op = true := by rw [hop]; rfl
  have h64 := (bits_pos hq.int).2
  simp only [Rule.reply, mulI]
  split_ifs with h0 h1 h2
  · refine ⟨trivial, (means_copy hq hring).2 ?_⟩
    rw [hop, hbits, h0, setWidth_zero_val]
    exact BitVec.mul_zero.symm
  · refine ⟨trivial, (means_copy hq hring).2 ?_⟩
    rw [hop, hbits, h1, setWidth_one_val h64]
    exact (BitVec.mul_one _).symm
  · refine (right_unary (by decide)).2 ((means_negate hq hring).2 ?_)
    rw [hop, hbits, h2, setWidth_minus_one h64]
    simp only [onBits]
    ring
  · exact right_next

/-- `0 - x` is `-x`. -/
theorem zeroSub_right (hm : zeroSub.Matches c q) : (zeroSub.reply F c q).Right c ρ q := by
  obtain ⟨k1, k2, hk1, -, hp⟩ := hm
  simp only [zeroSub, Bool.and_eq_true, decide_eq_true_eq] at hp
  obtain ⟨⟨hop, hi⟩, -⟩ := hp
  have huia : isUIA (c.insn q.op1).op = true := by
    rw [hk1.eq (ne_nop_of_isUIA (isUIA_of_isI hi))]
    exact isUIA_of_isI hi
  have hring : isRing q.op = true := by rw [hop]; rfl
  obtain ⟨-, hnum, -, hint⟩ := number_of_isUIA hw hc huia
  have hbits : bitsOf ρ q q.op1 = _ := bits_number hρ hnum hint (hq.like hring).1.bits
  simp only [Rule.reply, zeroSub]
  split_ifs with h0
  · refine (right_unary (by decide)).2 ((means_negate hq hring).2 ?_)
    rw [hop, hbits, h0, setWidth_zero_val]
    simp only [onBits]
    ring
  · exact right_next

/-- `x << 0` is `x`, `x << 1` is `x + x`. -/
theorem shlConst_right (hm : shlConst.Matches c q) : (shlConst.reply F c q).Right c ρ q := by
  obtain ⟨k1, k2, -, hk2, hp⟩ := hm
  simp only [shlConst, Bool.and_eq_true, decide_eq_true_eq] at hp
  obtain ⟨⟨hop, -⟩, hi⟩ := hp
  have huia : isUIA (c.insn q.op2).op = true := by
    rw [hk2.eq (ne_nop_of_isUIA (isUIA_of_isUI hi))]
    exact isUIA_of_isUI hi
  obtain ⟨hneg, hnum, -, hint⟩ := number_of_isUIA hw hc huia
  have hsym : (c.insn q.op2).op.isSymConst = false := by
    simpa [Ctx.isNumber, hneg] using hnum
  have hval := hρ.number q.op2 hneg hsym hint
  have hacc := hq.accepts
  rw [hop] at hacc
  have hcompat : Compat q.type (c.insn q.op1).type := hacc.1
  have hvalue : q.value c ρ = wrap q.type (ρ q.op1 * 2 ^ shift (bits (c.insn q.op1).type) (ρ q.op2)) := by
    unfold Question.value
    rw [hop]
    rfl
  have hsize := size_pos (hcompat.isInt hq.int)
  simp only [Rule.reply, shlConst]
  split_ifs with h0 h1
  · rw [right_copy, hvalue, hval, h0, valueOf_zero hint]
    simp [shift, wrap_wrap]
  · have hone : shift (bits (c.insn q.op1).type) 1 = 1 := by
      unfold shift bits
      rw [Int.emod_eq_of_lt (by omega) (by omega)]
      rfl
    refine ⟨Question.defined_of_op ⟨IrOp.noConfusion, IrOp.noConfusion⟩, ?_⟩
    rw [Reply.Means, hvalue, hval, h1, valueOf_one hint, hone, Question.value]
    have hsum : result .add q.type (c.insn q.op1).type (c.insn q.op1).type (ρ q.op1) (ρ q.op1) =
        wrap q.type (ρ q.op1 + ρ q.op1) := rfl
    rw [hsum, pow_one, mul_two]
    exact Agree.refl _ _
  · exact right_next

end Products

/-! ## Sums of equal operands -/

/-- The condition of `ADD(x, x)`. -/
def Doubles (_ : Ctx) (ρ : ℤ → ℤ) (q : Question) : Prop :=
  q.op1 = q.op2 → q.type = .bool → ρ q.op1 = 0

theorem addAny_right_iff {F : FloatOps} {c : Ctx} {ρ : ℤ → ℤ} {q : Question} (hw : c.WellFormed)
    (hc : c.Typed) (hq : q.Typed c) (hm : addAny.Matches c q)
    (hρ : ((addAny.reply F c q).ctx c).Models ρ) :
    (addAny.reply F c q).Right c ρ q ↔ Doubles c ρ q := by
  have hρ' := hρ.reply (by simp [rules, restarting]) hw
  obtain ⟨k1, k2, -, -, hp⟩ := hm
  simp only [addAny, Bool.and_eq_true, decide_eq_true_eq] at hp
  have hop := hp.1.1
  have hring : isRing q.op = true := by rw [hop]; rfl
  obtain ⟨h1, h2⟩ := hq.like hring
  simp only [Rule.reply, addAny] at hρ ⊢
  by_cases hsame : q.op1 = q.op2
  · rw [if_pos ⟨hq.int.1, hsame⟩] at hρ ⊢
    rw [right_withConst (by decide)]
    by_cases hb : q.type = .bool
    · have hD : Doubles c ρ q ↔ ρ q.op1 = 0 := ⟨fun h => h hsame hb, fun h _ _ => h⟩
      have hconst : Reply.withConst c q .mul q.op1 2 q.type =
          .restart c { q with op := .mul, op1 := q.op1, op2 := irTrue } := by
        unfold Reply.withConst Ctx.const
        rw [if_pos hb, if_pos (by decide)]
      rw [hD, hconst, Reply.Means, Question.value, Question.value, hop, ← hsame, hb]
      have hmul : result .mul .bool (c.insn q.op1).type (c.insn irTrue).type (ρ q.op1) (ρ irTrue) =
          wrap .bool (ρ q.op1 * ρ irTrue) := rfl
      have hadd : result .add .bool (c.insn q.op1).type (c.insn q.op1).type (ρ q.op1) (ρ q.op1) =
          wrap .bool (ρ q.op1 + ρ q.op1) := rfl
      have hrange := hρ'.range q.op1 h1.int
      rw [h1.bool.2 hb] at hrange
      dsimp only
      rw [hmul, hadd, hρ'.isTrue hw hc]
      rcases inRange_bool_cases hrange with h | h <;> rw [h] <;> decide
    · have hD : Doubles c ρ q := fun _ h => absurd h hb
      refine iff_of_true ?_ hD
      rw [means_withConst hw hc hq hring rfl rfl hq.int hb h1.toHasBits hρ, hop, ← hsame]
      have htwo : (2 : Val).setWidth (bits q.type) = 1 + 1 := by
        have hone := setWidth_one_val (bits_pos hq.int).2
        have hsum : (2 : Val) = 1 + 1 := rfl
        rw [hsum, BitVec.setWidth_add _ _ (bits_pos hq.int).2, hone]
      simp only [onBits]
      rw [htwo]
      ring
  · rw [if_neg fun h => hsame h.2]
    refine iff_of_true ?_ fun h => absurd h hsame
    unfold swapOps
    split_ifs
    · refine ⟨Question.defined_of_op (by rw [hop]; decide), ?_⟩
      rw [Reply.again, Reply.Means, Question.value, Question.value, hop]
      have hadd : ∀ t₁ t₂ x y, result .add q.type t₁ t₂ x y = wrap q.type (x + y) := fun _ _ _ _ => rfl
      dsimp only
      rw [hadd, hadd, add_comm]
      exact Agree.refl _ _
    · exact right_next

/-! ## Negations and absolute values -/

/-- The condition of `ABS(ABS x)`: the types may be of different sign. -/
def AbsTwice (c : Ctx) (ρ : ℤ → ℤ) (q : Question) : Prop :=
  q.type.isSigned = true → (c.insn q.op1).type.isSigned = false →
    0 ≤ wrap q.type (ρ (c.insn q.op1).op1) ∨ wrap q.type (ρ (c.insn q.op1).op1) = minOf q.type

/-- The condition of `ABS(NEG x)`. -/
def AbsNegated (c : Ctx) (ρ : ℤ → ℤ) (q : Question) : Prop :=
  q.type.isSigned = false → wrap q.type (2 * ρ (c.insn q.op1).op1) = 0

/-- The condition of a comparison of `ABS x` with zero. -/
def NotMin (c : Ctx) (ρ : ℤ → ℤ) (q : Question) : Prop :=
  (c.insn q.op2).val = 0 → (c.insn q.op1).type.isSigned = true →
    wrap (c.insn q.op1).type (ρ (c.insn q.op1).op1) ≠ minOf (c.insn q.op1).type

section Absolute

variable {F : FloatOps} {c : Ctx} {ρ : ℤ → ℤ} {q : Question} {t : IrType} {s : ℤ} (hc : c.Typed)
  (hρ : c.Models ρ)

theorem wrap_abs (ht : IsInt t) (n : ℤ) : wrap t |wrap t n| =
    if t.isSigned ∧ wrap t n ≠ minOf t then |wrap t n| else wrap t n := by
  have hfour := four_le_half ht
  have hmin : minOf t = -2 ^ (bits t - 1) := rfl
  cases hs : t.isSigned
  · have hb := wrap_bounds_unsigned hs n
    rw [if_neg (by simp), abs_of_nonneg hb.1, wrap_wrap rfl]
  · have hb := wrap_bounds_signed ht hs n
    by_cases hm : wrap t n = minOf t
    · rw [if_neg fun h => h.2 hm, hm, abs_of_neg (by omega), wrap_neg_min ht hs]
    · rw [if_pos ⟨rfl, hm⟩]
      have habs : 0 ≤ |wrap t n| ∧ |wrap t n| < 2 ^ (bits t - 1) :=
        ⟨abs_nonneg _, abs_lt.2 ⟨by omega, hb.2⟩⟩
      exact wrap_signed_self hs (by omega) habs.2 ht

/-- A number is its absolute value. -/
theorem wrap_abs_eq_self_iff (ht : IsInt t) (n : ℤ) : wrap t |wrap t n| = wrap t n ↔
    (t.isSigned = true → 0 ≤ wrap t n ∨ wrap t n = minOf t) := by
  rw [wrap_abs ht]
  split_ifs with h
  · rw [abs_eq_self]
    exact ⟨fun h0 _ => Or.inl h0, fun h0 => (h0 h.1).resolve_right h.2⟩
  · refine iff_of_true rfl fun hs => Or.inr ?_
    by_contra hm
    exact h ⟨hs, hm⟩

include hc hρ

/-- An absolute value below a reference. -/
theorem abs_node (hs : IsInt (c.insn s).type) (hop : (c.insn s).op = .abs) :
    Compat (c.insn s).type (c.insn (c.insn s).op1).type ∧
      ρ s = wrap (c.insn s).type |wrap (c.insn s).type (ρ (c.insn s).op1)| := by
  have hcomp : computes (c.insn s).op = true := by rw [hop]; rfl
  have hacc := hc.insns s hcomp
  rw [hop] at hacc
  have hcompat : Compat (c.insn s).type (c.insn (c.insn s).op1).type := hacc
  refine ⟨hcompat, ?_⟩
  rw [hρ.node s hcomp hs ⟨hcompat.isInt hs, fun h2 => by rw [hop] at h2; exact absurd h2 (by decide)⟩, hop]
  rfl

theorem absAbs_right_iff (hq : q.Typed c) (hm : absAbs.Matches c q) :
    (absAbs.reply F c q).Right c ρ q ↔ AbsTwice c ρ q := by
  obtain ⟨k1, k2, hk1, -, hp⟩ := hm
  simp only [absAbs, Bool.and_eq_true, decide_eq_true_eq] at hp
  obtain ⟨⟨hop, rfl⟩, -⟩ := hp
  have hacc := hq.accepts
  rw [hop] at hacc
  have hcompat : Compat q.type (c.insn q.op1).type := hacc
  have hint := hcompat.isInt hq.int
  have hbits := hcompat.bits_eq
  obtain ⟨-, hnode⟩ := abs_node hc hρ hint (hk1.eq (by decide))
  have hvalue : q.value c ρ = wrap q.type |wrap q.type (ρ q.op1)| := by
    unfold Question.value
    rw [hop]
    rfl
  have hreply : absAbs.reply F c q = .copy q.op1 := rfl
  rw [hreply, right_copy, hvalue, wrap_wrap rfl, eq_comm, wrap_abs_eq_self_iff hq.int]
  unfold AbsTwice
  refine forall_congr' fun hs => ?_
  rw [hnode, wrap_wrap hbits.symm]
  cases hs' : (c.insn q.op1).type.isSigned
  · have hb := wrap_bounds_unsigned hs' (ρ (c.insn q.op1).op1)
    rw [abs_of_nonneg hb.1, wrap_wrap hbits.symm]
    exact ⟨fun h _ => h, fun h => h rfl⟩
  · refine iff_of_true ?_ fun h => by cases h
    have hb := wrap_bounds_signed hint hs' (ρ (c.insn q.op1).op1)
    rw [← hbits] at hb
    have hmin : minOf q.type = -2 ^ (bits q.type - 1) := rfl
    by_cases hlt : |wrap (c.insn q.op1).type (ρ (c.insn q.op1).op1)| < 2 ^ (bits q.type - 1)
    · have hnn := abs_nonneg (wrap (c.insn q.op1).type (ρ (c.insn q.op1).op1))
      rw [wrap_signed_self hs (by omega) hlt hq.int]
      exact Or.inl hnn
    · have heq : |wrap (c.insn q.op1).type (ρ (c.insn q.op1).op1)| = -minOf q.type := by
        have hle := abs_le.2 ⟨hb.1, hb.2.le⟩
        omega
      rw [heq]
      exact Or.inr (wrap_neg_min hq.int hs)

theorem absNeg_right_iff (hq : q.Typed c) (hm : absNeg.Matches c q) :
    (absNeg.reply F c q).Right c ρ q ↔ AbsNegated c ρ q := by
  obtain ⟨k1, k2, hk1, -, hp⟩ := hm
  simp only [absNeg, Bool.and_eq_true, decide_eq_true_eq] at hp
  obtain ⟨⟨hop, rfl⟩, -⟩ := hp
  have hacc := hq.accepts
  rw [hop] at hacc
  have hcompat : Compat q.type (c.insn q.op1).type := hacc
  obtain ⟨-, hbits⟩ := neg_node hc hρ (hcompat.like hq.int) (hk1.eq (by decide))
  have hneg : wrap q.type (ρ q.op1) = wrap q.type (-wrap q.type (ρ (c.insn q.op1).op1)) := by
    apply wrap_eq_of_bits
    rw [hbits, ofInt_neg, ofInt_wrap rfl]
  have hvalue : ∀ r, ({ q with op1 := r } : Question).value c ρ = wrap q.type |wrap q.type (ρ r)| := by
    intro r
    unfold Question.value
    rw [hop]
    rfl
  have hreply : absNeg.reply F c q = .restart c { q with op1 := (c.insn q.op1).op1 } := rfl
  have hdef : ({ q with op1 := (c.insn q.op1).op1 } : Question).Defined ρ :=
    Question.defined_of_op (by rw [hop]; decide)
  have hq' : q.value c ρ = wrap q.type |wrap q.type (ρ q.op1)| := hvalue q.op1
  rw [hreply, Reply.Right, Reply.Means, hvalue, hq', agree_iff_wrap, wrap_wrap rfl, wrap_wrap rfl, hneg]
  refine (and_iff_right hdef).trans ?_
  have hself := wrap_wrap (t := q.type) rfl (ρ (c.insn q.op1).op1)
  have hfour := four_le_half hq.int
  unfold AbsNegated
  cases hs : q.type.isSigned
  · have hb := wrap_bounds_unsigned hs (ρ (c.insn q.op1).op1)
    have hb' := wrap_bounds_unsigned hs (-wrap q.type (ρ (c.insn q.op1).op1))
    have hdouble : wrap q.type (2 * ρ (c.insn q.op1).op1) =
        2 * wrap q.type (ρ (c.insn q.op1).op1) % 2 ^ bits q.type := by
      have heq : ∀ n, wrap q.type n = n % 2 ^ bits q.type := fun n => by
        unfold wrap
        rw [if_neg (by simp [hs])]
        rfl
      rw [heq, heq, Int.mul_emod 2 (_ % _), Int.emod_emod_of_dvd _ (dvd_refl _), ← Int.mul_emod]
    rw [abs_of_nonneg hb.1, abs_of_nonneg hb'.1, hself, wrap_wrap rfl, wrap_neg_unsigned hs hself, hdouble,
      forall_prop_of_true rfl]
    generalize wrap q.type (ρ (c.insn q.op1).op1) = x at hb
    split_ifs with h0
    · rw [h0, mul_zero, Int.zero_emod]
    · constructor
      · intro h
        have h2 : 2 * x = 2 ^ bits q.type := by omega
        rw [h2, Int.emod_self]
      · intro h
        obtain ⟨k, hk⟩ := Int.dvd_of_emod_eq_zero h
        have hk1 : k = 1 := by
          have hpos : (0 : ℤ) < 2 ^ bits q.type := by positivity
          have h1 : 0 < k := by
            by_contra hle
            have := Int.mul_nonpos_of_nonneg_of_nonpos hpos.le (not_lt.1 hle)
            omega
          have h2 : k < 2 := by
            by_contra hge
            have := Int.mul_le_mul_of_nonneg_left (not_lt.1 hge) hpos.le
            omega
          omega
        rw [hk1, mul_one] at hk
        omega
  · refine iff_of_true ?_ fun h => by cases h
    rw [wrap_neg_signed hq.int hs hself]
    split_ifs with hmin
    · rw [hmin]
    · rw [abs_neg]

/-- `NEG(NEG x)` is `x`. -/
theorem involution_right (hq : q.Typed c) (hop : q.op = .neg) (hm : involution.Matches c q) :
    (involution.reply F c q).Right c ρ q := by
  obtain ⟨k1, k2, hk1, -, hp⟩ := hm
  simp only [involution, Bool.and_eq_true, decide_eq_true_eq] at hp
  have hk : k1 = .neg := hp.1.2.trans hop
  have hacc := hq.accepts
  rw [hop] at hacc
  have hcompat : Compat q.type (c.insn q.op1).type := hacc
  obtain ⟨-, hbits⟩ := neg_node hc hρ (hcompat.like hq.int) (by rw [hk1.eq (by rw [hk]; decide), hk])
  have hvalue : BitVec.ofInt (bits q.type) (q.value c ρ) = -BitVec.ofInt _ (ρ q.op1) := by
    unfold Question.value
    rw [hop]
    exact bits_neg rfl _ _
  have hreply : involution.reply F c q = .copy (c.insn q.op1).op1 := rfl
  rw [hreply, right_copy]
  apply wrap_eq_of_bits
  rw [hvalue, hbits, neg_neg]

/-- The number zero in the second operand of a comparison. -/
theorem zero_operand (hw : c.WellFormed) (hi : isI (c.insn q.op2).op = true ∨ isF (c.insn q.op2).op = true)
    (hint : IsInt (c.insn q.op2).type) (h0 : (c.insn q.op2).val = 0) : ρ q.op2 = 0 := by
  have huia : isUIA (c.insn q.op2).op = true := by
    rcases hi with hi | hi
    · exact isUIA_of_isI hi
    · have hconst : (c.insn q.op2).op.isConstOp = true := by
        generalize (c.insn q.op2).op = o at hi
        cases o <;> first | rfl | exact absurd hi (by decide)
      rw [hc.consts _ (mem_consts hw hconst).2 hconst] at hi
      generalize (c.insn q.op2).type = t at hi hint
      cases t <;> first | exact absurd hi (by decide) | exact absurd hint.1 (by decide)
  obtain ⟨hneg, hnum, -, -⟩ := number_of_isUIA hw hc huia
  rw [hρ.number q.op2 hneg (by simpa [Ctx.isNumber, hneg] using hnum) hint, h0, valueOf_zero hint]

/-- `ABS x` below zero. -/
theorem abs_lt_zero_iff (hint : IsInt (c.insn s).type) (hop : (c.insn s).op = .abs) :
    ρ s < 0 ↔ ((c.insn s).type.isSigned = true ∧
      wrap (c.insn s).type (ρ (c.insn s).op1) = minOf (c.insn s).type) := by
  obtain ⟨-, hnode⟩ := abs_node hc hρ hint hop
  have hfour := four_le_half hint
  have hmin : minOf (c.insn s).type = -2 ^ (bits (c.insn s).type - 1) := rfl
  rw [hnode, wrap_abs hint]
  split_ifs with h
  · exact iff_of_false (not_lt.2 (abs_nonneg _)) fun hm => h.2 hm.2
  · cases hs : (c.insn s).type.isSigned
    · have hb := wrap_bounds_unsigned hs (ρ (c.insn s).op1)
      exact iff_of_false (by omega) fun hm => by cases hm.1
    · have hm : wrap (c.insn s).type (ρ (c.insn s).op1) = minOf (c.insn s).type := by
        by_contra hne
        exact h ⟨hs, hne⟩
      rw [hm]
      exact iff_of_true (by omega) ⟨rfl, rfl⟩

/-- What the rules for a comparison of `ABS x` with zero answer. -/
theorem means_compareAbs (hw : c.WellFormed) (hq : q.Typed c)
    (hints : IntOperands c q.op q.op1 q.op2) (hop : q.op = .lt ∨ q.op = .ge)
    (habs : (c.insn q.op1).op = .abs) (hi : isI (c.insn q.op2).op = true ∨ isF (c.insn q.op2).op = true)
    (h0 : (c.insn q.op2).val = 0) :
    (Reply.bool (decide (q.op = .ge))).Right c ρ q ↔ NotMin c ρ q := by
  have hint2 : IsInt (c.insn q.op2).type := hints.2 (by rcases hop with h | h <;> rw [h] <;> decide)
  have hzero := zero_operand hc hρ hw hi hint2 h0
  have hlt := abs_lt_zero_iff hc hρ hints.1 habs
  have hb : q.type = .bool := by
    have hacc := hq.accepts
    rcases hop with h | h <;> rw [h] at hacc <;> exact hacc
  have hwrap : wrap (c.insn q.op1).type 0 = 0 := by
    have := valueOf_zero hints.1
    exact this
  have hdef : (Reply.bool (decide (q.op = .ge))).Defined ρ := trivial
  unfold Reply.Right
  rw [and_iff_right hdef, means_bool hw hc hρ, hb, Question.value, hb, hzero]
  have hN : NotMin c ρ q ↔ ¬ρ q.op1 < 0 := by
    rw [hlt, not_and]
    exact ⟨fun h => h h0, fun h _ => h⟩
  have hge : 0 ≤ ρ q.op1 ↔ ¬ρ q.op1 < 0 := not_lt.symm
  rw [hN]
  rcases hop with h | h <;> rw [h] <;> by_cases hneg : ρ q.op1 < 0 <;>
    simp [result, spec, hwrap, hge, hneg] <;> decide

theorem ltAbs_right_iff (hw : c.WellFormed) (hq : q.Typed c) (hints : IntOperands c q.op q.op1 q.op2)
    (hm : ltAbs.Matches c q) : (ltAbs.reply F c q).Right c ρ q ↔ NotMin c ρ q := by
  obtain ⟨k1, k2, hk1, hk2, hp⟩ := hm
  simp only [ltAbs, Bool.and_eq_true, Bool.or_eq_true, decide_eq_true_eq] at hp
  obtain ⟨⟨hop, rfl⟩, hi⟩ := hp
  have hk : (c.insn q.op2).op = k2 := hk2.eq (by rintro rfl; rcases hi with h | h <;> cases h)
  rw [← hk] at hi
  simp only [Rule.reply, ltAbs]
  split_ifs with h0
  · have hreply : (Reply.copy irFalse) = .bool (decide (q.op = .ge)) := by
      rw [hop]
      rfl
    rw [hreply]
    exact means_compareAbs hc hρ hw hq hints (Or.inl hop) (hk1.eq (by decide)) hi h0
  · exact iff_of_true right_next fun h => absurd h h0

theorem geAbs_right_iff (hw : c.WellFormed) (hq : q.Typed c) (hints : IntOperands c q.op q.op1 q.op2)
    (hm : geAbs.Matches c q) : (geAbs.reply F c q).Right c ρ q ↔ NotMin c ρ q := by
  obtain ⟨k1, k2, hk1, hk2, hp⟩ := hm
  simp only [geAbs, Bool.and_eq_true, Bool.or_eq_true, decide_eq_true_eq] at hp
  obtain ⟨⟨hop, rfl⟩, hi⟩ := hp
  have hk : (c.insn q.op2).op = k2 := hk2.eq (by rintro rfl; rcases hi with h | h <;> cases h)
  rw [← hk] at hi
  simp only [Rule.reply, geAbs]
  split_ifs with h0
  · have hreply : (Reply.copy irTrue) = .bool (decide (q.op = .ge)) := by
      rw [hop]
      rfl
    rw [hreply]
    exact means_compareAbs hc hρ hw hq hints (Or.inr hop) (hk1.eq (by decide)) hi h0
  · exact iff_of_true right_next fun h => absurd h h0

end Absolute

/-! ## Quotients and remainders by a constant -/

/-- The condition of `DIV(x, -1)`. -/
def ByMinusOne (c : Ctx) (ρ : ℤ → ℤ) (q : Question) : Prop :=
  (c.insn q.op2).val = BitVec.ofInt 64 (-1) → q.type.isSigned = false →
    wrap q.type (ρ q.op1) = 0 ∨ wrap q.type (ρ q.op1) = wrap q.type (-1)

section PowerOfTwo

variable {t : IrType} {x : ℤ} {k : ℕ}

theorem two_pow_le_half (hk : k < bits t) : (2 : ℤ) ^ k ≤ 2 ^ (bits t - 1) :=
  pow_le_pow_right₀ (by norm_num) (by omega)

/-- A number that is not negative, as bits. -/
theorem toU_of_nonneg (ht : IsInt t) (h0 : 0 ≤ wrap t x) : toU (bits t) x = wrap t x := by
  have htwo := two_pow_bits ht
  have hfour := four_le_half ht
  rw [← wrap_emod t le_rfl x]
  unfold toU
  apply Int.emod_eq_of_lt h0
  cases hs : t.isSigned
  · exact (wrap_bounds_unsigned hs x).2
  · have := (wrap_bounds_signed ht hs x).2
    omega

/-- The divisor is `2 ^ k`, or the smallest number. -/
theorem wrap_two_pow (ht : IsInt t) (hk : k < bits t) : wrap t (2 ^ k) =
    if t.isSigned ∧ k = bits t - 1 then minOf t else 2 ^ k := by
  have htwo := two_pow_bits ht
  have hfour := four_le_half ht
  have hle := two_pow_le_half hk
  have hpos : (0 : ℤ) < 2 ^ k := by positivity
  have hmin : minOf t = -2 ^ (bits t - 1) := rfl
  cases hs : t.isSigned
  · rw [if_neg (by simp)]
    exact wrap_unsigned_self hs hpos.le (by omega)
  · by_cases hk1 : k = bits t - 1
    · rw [if_pos ⟨rfl, hk1⟩, hk1]
      have heq : (2 : ℤ) ^ (bits t - 1) = minOf t + 2 ^ bits t := by omega
      rw [heq, wrap_add_period, wrap_signed_self hs (by omega) (by omega) ht]
    · rw [if_neg fun h => hk1 h.2]
      have hlt : (2 : ℤ) ^ k < 2 ^ (bits t - 1) := pow_lt_pow_right₀ (by norm_num) (by omega)
      exact wrap_signed_self hs (by omega) hlt ht

theorem quotient_two_pow (ht : IsInt t) (hk : k < bits t) (h0 : 0 ≤ wrap t x) :
    (wrap t x).tdiv (wrap t (2 ^ k)) = wrap t x / 2 ^ k := by
  rw [wrap_two_pow ht hk]
  split_ifs with h
  · have hb := (wrap_bounds_signed ht h.1 x).2
    have hmin : minOf t = -2 ^ (bits t - 1) := rfl
    rw [tdiv_eq_zero_of_lt (by omega), h.2, Int.ediv_eq_zero_of_lt h0 hb]
  · exact Int.tdiv_eq_ediv_of_nonneg h0

theorem remainder_two_pow (ht : IsInt t) (hk : k < bits t) (h0 : 0 ≤ wrap t x) :
    (wrap t x).tmod (wrap t (2 ^ k)) = wrap t x % 2 ^ k := by
  have hq := quotient_two_pow ht hk h0
  rw [wrap_two_pow ht hk] at hq ⊢
  split_ifs at hq ⊢ with h
  · have hb := (wrap_bounds_signed ht h.1 x).2
    have hdiv := Int.mul_tdiv_add_tmod (wrap t x) (minOf t)
    rw [hq, h.2, Int.ediv_eq_zero_of_lt h0 hb] at hdiv
    rw [h.2, Int.emod_eq_of_lt h0 hb]
    omega
  · exact Int.tmod_eq_emod_of_nonneg h0

/-- The count of the shift. -/
theorem valueOf_count (ht : IsInt t) (hk : k < bits t) : valueOf t (BitVec.ofNat 64 k) = k := by
  have h64 := (bits_pos ht).2
  have hlt : (k : ℤ) < 2 ^ (bits t - 1) := by
    have hnat : bits t - 1 < 2 ^ (bits t - 1) := Nat.lt_two_pow_self
    have hcast : ((bits t - 1 : ℕ) : ℤ) < 2 ^ (bits t - 1) := by exact_mod_cast hnat
    omega
  have htwo := two_pow_bits ht
  have hnat : (BitVec.ofNat 64 k).toNat = k := by
    rw [BitVec.toNat_ofNat]
    exact Nat.mod_eq_of_lt (by omega)
  unfold valueOf
  rw [hnat]
  cases hs : t.isSigned
  · exact wrap_unsigned_self hs (by omega) (by omega)
  · exact wrap_signed_self hs (by omega) hlt ht

end PowerOfTwo

section Quotients

variable {F : FloatOps} {c : Ctx} {ρ : ℤ → ℤ} {q : Question} {k : ℕ} {s : ℤ} (hw : c.WellFormed)
  (hc : c.Typed) (hq : q.Typed c)

include hw hc hq

/-- A power of two that is not zero in the type of the question. -/
theorem exists_divisor (hρ : c.Models ρ) (hop : q.op = .div ∨ q.op = .mod) (hd : q.Defined ρ)
    (huia : isUIA (c.insn q.op2).op = true) (hp : isPowerOfTwo (c.insn q.op2).val = true) :
    ∃ k < bits q.type, (c.insn q.op2).val = BitVec.twoPow 64 k ∧
      wrap q.type (ρ q.op2) = wrap q.type (2 ^ k) := by
  simp only [isPowerOfTwo, ne_eq, Bool.and_eq_true, decide_eq_true_eq] at hp
  obtain ⟨k, hk, hv⟩ := PowerTwo.exists_twoPow hp.1 hp.2
  have hbits := (second_number hw hc hρ huia (hq.factors (Or.inr hop)).2).1
  have hpow : BitVec.ofInt (bits q.type) (2 ^ k) = (BitVec.twoPow 64 k).setWidth (bits q.type) := by
    have h64 : BitVec.twoPow 64 k = BitVec.ofInt 64 (2 ^ k) := by
      have hcast : ((2 : ℤ) ^ k) = ((2 ^ k : ℕ) : ℤ) := by push_cast; rfl
      rw [hcast, BitVec.ofInt_natCast]
      apply BitVec.eq_of_toNat_eq
      rw [BitVec.toNat_twoPow, BitVec.toNat_ofNat]
    rw [h64, setWidth_ofInt (bits_pos hq.int).2]
  have hwrap : wrap q.type (ρ q.op2) = wrap q.type (2 ^ k) := by
    apply wrap_eq_of_bits
    rw [hpow, ← hv]
    exact hbits
  refine ⟨k, ?_, hv, hwrap⟩
  by_contra hge
  have hzero : wrap q.type (2 ^ k) = 0 := by
    obtain ⟨m, hm⟩ : (2 : ℤ) ^ bits q.type ∣ 2 ^ k := pow_dvd_pow 2 (not_lt.1 hge)
    have hcongr : wrap q.type (2 ^ k) = wrap q.type 0 := by
      apply wrap_congr
      unfold toU
      rw [hm, Int.mul_emod_right, Int.zero_emod]
    rw [hcongr]
    exact valueOf_zero hq.int
  exact (hd hop).1 (hwrap.trans hzero)

omit hw hq in
/-- What `ZEXT` makes is not negative. -/
theorem zext_nonneg (hρ : c.Models ρ) (hint : IsInt (c.insn s).type) (hop : (c.insn s).op = .zext)
    {t : IrType} (ht : IsInt t) (hbits : bits (c.insn s).type = bits t) : 0 ≤ wrap t (ρ s) := by
  have hcomp : computes (c.insn s).op = true := by rw [hop]; rfl
  have hacc := hc.insns s hcomp
  rw [hop] at hacc
  obtain ⟨hsrc, hsize⟩ : IsInt (c.insn (c.insn s).op1).type ∧
      (c.insn (c.insn s).op1).type.size < (c.insn s).type.size := hacc
  rw [hρ.node s hcomp hint ⟨hsrc, fun h2 => by rw [hop] at h2; exact absurd h2 (by decide)⟩, hop]
  have heq : ∀ t₂ y, result .zext (c.insn s).type (c.insn (c.insn s).op1).type t₂ (ρ (c.insn s).op1) y =
      wrap (c.insn s).type (toU (bits (c.insn (c.insn s).op1).type) (ρ (c.insn s).op1)) := fun _ _ => rfl
  have hlt : bits (c.insn (c.insn s).op1).type < bits t := by
    rw [← hbits]
    unfold bits
    omega
  have hpos : (0 : ℤ) < 2 ^ bits (c.insn (c.insn s).op1).type := by positivity
  have h0 := Int.emod_nonneg (ρ (c.insn s).op1) hpos.ne'
  have h1 := Int.emod_lt_of_pos (ρ (c.insn s).op1) hpos
  have hle := two_pow_le_half hlt
  have htwo := two_pow_bits ht
  rw [heq, wrap_wrap hbits]
  unfold toU
  cases hs : t.isSigned
  · exact (wrap_bounds_unsigned hs _).1
  · rw [wrap_signed_self hs (by omega) (by omega) ht]
    exact h0

/-- The rules of a quotient and a remainder with a constant. -/
theorem second_const (hop : q.op = .div ∨ q.op = .mod) (hρ : c.Models ρ) {k2 : IrOp}
    (hk2 : Key k2 (c.insn q.op2).op) (hi : isUIA k2 = true) : isUIA (c.insn q.op2).op = true ∧
      wrap q.type (ρ q.op2) = valueOf q.type (c.insn q.op2).val ∧ q.type ≠ .bool := by
  have huia : isUIA (c.insn q.op2).op = true := by rwa [hk2.eq (ne_nop_of_isUIA hi)]
  obtain ⟨hbits, hb⟩ := second_number hw hc hρ huia (hq.factors (Or.inr hop)).2
  refine ⟨huia, ?_, hb⟩
  have heq : wrap q.type (valueOf q.type (c.insn q.op2).val) = valueOf q.type (c.insn q.op2).val :=
    wrap_wrap rfl _
  rw [← heq]
  apply wrap_eq_of_bits
  rw [ofInt_valueOf rfl]
  exact hbits

/-- `a / 2 ^ k` is `a >> k` if `a` is not negative. -/
theorem means_shift (hop : q.op = .div) (hk : k < bits q.type) (h0 : 0 ≤ wrap q.type (ρ q.op1))
    (hb : q.type ≠ .bool) (hdiv : wrap q.type (ρ q.op2) = wrap q.type (2 ^ k))
    (hρ : (c.const (log2 (BitVec.twoPow 64 k)) q.type).1.Models ρ) :
    (Reply.withConst c q .shr q.op1 (log2 (BitVec.twoPow 64 k)) q.type).Right c ρ q := by
  have hk64 : k < 64 := hk.trans_le (bits_pos hq.int).2
  have hlog : log2 (BitVec.twoPow 64 k) = BitVec.ofNat 64 k := by
    unfold log2
    rw [BitVec.toNat_twoPow_of_lt hk64, Nat.log2_two_pow]
  have hcount : ρ (c.const (log2 (BitVec.twoPow 64 k)) q.type).2 = k := by
    rw [hρ.new hw hc hq.int]
    unfold constValue
    rw [if_neg hb, hlog, valueOf_count hq.int hk]
  obtain ⟨h1, -⟩ := hq.factors (Or.inr (Or.inl hop))
  have hshift : shift (bits (c.insn q.op1).type) k = k := by
    unfold shift
    rw [h1.bits, Int.emod_eq_of_lt (by omega) (by omega)]
    rfl
  rw [right_withConst (by decide)]
  have heq : Reply.withConst c q .shr q.op1 (log2 (BitVec.twoPow 64 k)) q.type =
      .restart (c.const (log2 (BitVec.twoPow 64 k)) q.type).1
        { q with op := .shr, op2 := (c.const (log2 (BitVec.twoPow 64 k)) q.type).2 } := rfl
  have hold : (c.const (log2 (BitVec.twoPow 64 k)) q.type).1.insn q.op1 = c.insn q.op1 :=
    (grown_const c _ _).insn (valid_of_isInt h1.int)
  rw [heq, Reply.Means, value_div hop, hdiv, quotient_two_pow hq.int hk h0, Question.value]
  dsimp only
  rw [hold, hcount]
  have hres : ∀ t₂, result .shr q.type (c.insn q.op1).type t₂ (ρ q.op1) k =
      wrap q.type (toU (bits (c.insn q.op1).type) (ρ q.op1) / 2 ^ shift (bits (c.insn q.op1).type) k) :=
    fun _ => rfl
  rw [hres, hshift, h1.bits, toU_of_nonneg hq.int h0]
  exact Agree.refl _ _

/-- `a % 2 ^ k` is `a & (2 ^ k - 1)` if `a` is not negative. -/
theorem means_mask (hop : q.op = .mod) (hk : k < bits q.type) (h0 : 0 ≤ wrap q.type (ρ q.op1))
    (hb : q.type ≠ .bool) (hdiv : wrap q.type (ρ q.op2) = wrap q.type (2 ^ k))
    (hρ : (c.const (BitVec.twoPow 64 k - 1) q.type).1.Models ρ) :
    (Reply.withConst c q .and q.op1 (BitVec.twoPow 64 k - 1) q.type).Right c ρ q := by
  obtain ⟨h1, -⟩ := hq.factors (Or.inr (Or.inr hop))
  have h64 := (bits_pos hq.int).2
  rw [right_withConst (by decide)]
  have heq : Reply.withConst c q .and q.op1 (BitVec.twoPow 64 k - 1) q.type =
      .restart (c.const (BitVec.twoPow 64 k - 1) q.type).1
        { q with op := .and, op2 := (c.const (BitVec.twoPow 64 k - 1) q.type).2 } := rfl
  have hold : (c.const (BitVec.twoPow 64 k - 1) q.type).1.insn q.op1 = c.insn q.op1 :=
    (grown_const c _ _).insn (valid_of_isInt h1.int)
  rw [heq, Reply.Means, value_mod hop, hdiv, remainder_two_pow hq.int hk h0, agree_iff rfl,
    ofInt_wrap rfl, Question.value]
  dsimp only
  rw [bits_and rfl (by rw [hold]; exact h1.bits), bits_new hw hc hq.int hb hρ rfl]
  have hmask : (BitVec.twoPow 64 k - 1 : Val).setWidth (bits q.type) =
      BitVec.twoPow (bits q.type) k - 1#(bits q.type) := PowerTwo.setWidth_mask hk h64
  rw [hmask]
  apply BitVec.eq_of_toNat_eq
  have hnat : ((BitVec.ofInt (bits q.type) (ρ q.op1)).toNat : ℤ) = wrap q.type (ρ q.op1) := by
    rw [BitVec.toNat_ofInt, ← toU_of_nonneg hq.int h0]
    have hpos : (0 : ℤ) < 2 ^ bits q.type := by positivity
    have hnn := Int.emod_nonneg (ρ q.op1) hpos.ne'
    unfold toU
    push_cast
    exact Int.toNat_of_nonneg hnn
  rw [PowerTwo.toNat_and_mask _ hk, ← hnat]
  have hlt : (BitVec.ofInt (bits q.type) (ρ q.op1)).toNat % 2 ^ k < 2 ^ bits q.type :=
    (Nat.mod_lt _ (Nat.two_pow_pos k)).trans (Nat.pow_lt_pow_right (by omega) hk)
  have hcast : ((BitVec.ofInt (bits q.type) (ρ q.op1)).toNat : ℤ) % 2 ^ k =
      (((BitVec.ofInt (bits q.type) (ρ q.op1)).toNat % 2 ^ k : ℕ) : ℤ) := by
    push_cast
    rfl
  rw [hcast, BitVec.ofInt_natCast, BitVec.toNat_ofNat, Nat.mod_eq_of_lt hlt]

theorem divU_right (hd : q.Defined ρ) (hm : divU.Matches c q)
    (hρ : ((divU.reply F c q).ctx c).Models ρ) : (divU.reply F c q).Right c ρ q := by
  have hρ' := hρ.reply (by simp [rules, restarting]) hw
  obtain ⟨k1, k2, -, hk2, hp⟩ := hm
  simp only [divU, Bool.and_eq_true, decide_eq_true_eq] at hp
  obtain ⟨⟨hop, -⟩, hi⟩ := hp
  obtain ⟨huia, hval, hb⟩ := second_const hw hc hq (Or.inl hop) hρ' hk2 (isUIA_of_isU hi)
  have hs : q.type.isSigned = false := by
    have hi' : isU (c.insn q.op2).op = true := by rwa [hk2.eq (by rintro rfl; cases hi)]
    have hmem := mem_consts hw (r := q.op2) (by
      generalize (c.insn q.op2).op = o at hi'
      cases o <;> first | rfl | exact absurd hi' (by decide))
    have hacc := hq.accepts
    rw [hop] at hacc
    have hcompat : Compat q.type (c.insn q.op2).type := hacc.2
    rw [hc.consts _ hmem.2 (by
      generalize (c.insn q.op2).op = o at hi'
      cases o <;> first | rfl | exact absurd hi' (by decide))] at hi'
    generalize (c.insn q.op2).type = t at hi' hcompat
    rcases hcompat with h | ⟨h, h'⟩ | ⟨h, h'⟩
    · rw [h]
      cases t <;> first | rfl | exact absurd hi' (by decide)
    · rw [h]
      rfl
    · rw [h] at hi'
      exact absurd hi' (by decide)
  simp only [Rule.reply, divU] at hρ ⊢
  split_ifs at hρ ⊢ with h1 hpow
  · rw [right_copy, value_div hop, hval, h1, valueOf_one hq.int, Int.tdiv_one, wrap_wrap rfl, wrap_wrap rfl]
  · obtain ⟨k, hk, hv, hdiv⟩ := exists_divisor hw hc hq hρ' (Or.inl hop) hd huia hpow
    rw [hv] at hρ ⊢
    exact means_shift hw hc hq hop hk (wrap_bounds_unsigned hs _).1 hb hdiv hρ
  · exact right_next

theorem divI_right_iff (hd : q.Defined ρ) (hm : divI.Matches c q)
    (hρ : ((divI.reply F c q).ctx c).Models ρ) :
    (divI.reply F c q).Right c ρ q ↔ ByMinusOne c ρ q := by
  have hρ' := hρ.reply (by simp [rules, restarting]) hw
  obtain ⟨k1, k2, -, hk2, hp⟩ := hm
  simp only [divI, Bool.and_eq_true, decide_eq_true_eq] at hp
  obtain ⟨⟨hop, -⟩, hi⟩ := hp
  obtain ⟨huia, hval, hb⟩ := second_const hw hc hq (Or.inl hop) hρ' hk2 (isUIA_of_isI hi)
  simp only [Rule.reply, divI] at hρ ⊢
  by_cases h1 : (c.insn q.op2).val = 1
  · rw [if_pos h1] at hρ ⊢
    have hne : (c.insn q.op2).val ≠ BitVec.ofInt 64 (-1) := by
      rw [h1]
      decide
    refine iff_of_true ?_ fun h => absurd h hne
    rw [right_copy, value_div hop, hval, h1, valueOf_one hq.int, Int.tdiv_one, wrap_wrap rfl, wrap_wrap rfl]
  rw [if_neg h1] at hρ ⊢
  by_cases h2 : (c.insn q.op2).val = BitVec.ofInt 64 (-1)
  · rw [if_pos h2] at hρ ⊢
    have hminus : wrap q.type (ρ q.op2) = wrap q.type (-1) := by
      rw [hval, h2]
      have heq : wrap q.type (valueOf q.type (BitVec.ofInt 64 (-1))) =
          valueOf q.type (BitVec.ofInt 64 (-1)) := wrap_wrap rfl _
      rw [← heq]
      apply wrap_eq_of_bits
      rw [ofInt_valueOf rfl, setWidth_ofInt (bits_pos hq.int).2]
    have hB : ByMinusOne c ρ q ↔ (q.type.isSigned = false →
        wrap q.type (ρ q.op1) = 0 ∨ wrap q.type (ρ q.op1) = wrap q.type (-1)) :=
      ⟨fun h => h h2, fun h _ => h⟩
    rw [right_unary (by decide), hB, Reply.unary, Reply.Means, value_div hop, hminus, Question.value,
      agree_iff_wrap, wrap_wrap rfl]
    have hneg : ∀ t₁ t₂ y, result .neg q.type t₁ t₂ (ρ q.op1) y = wrap q.type (-wrap q.type (ρ q.op1)) :=
      fun _ _ _ => rfl
    dsimp only
    rw [hneg, wrap_wrap rfl]
    have hself := wrap_wrap (t := q.type) rfl (ρ q.op1)
    have hfour := four_le_half hq.int
    have htwo := two_pow_bits hq.int
    generalize wrap q.type (ρ q.op1) = x at hself
    cases hs : q.type.isSigned
    · -- the divisor is the largest number
      have hbx := wrap_bounds_unsigned hs x
      rw [hself] at hbx
      have hone : wrap q.type (-1) = 2 ^ bits q.type - 1 := by
        rw [← wrap_add_period]
        exact (wrap_unsigned_self hs (by omega) (by omega)).trans (by ring)
      rw [forall_prop_of_true rfl, hone, wrap_neg_unsigned hs hself]
      by_cases h0 : x = 0
      · rw [if_pos h0, h0, Int.zero_tdiv]
        exact iff_of_true (valueOf_zero hq.int).symm (Or.inl rfl)
      rw [if_neg h0]
      by_cases hlast : x = 2 ^ bits q.type - 1
      · rw [hlast, Int.tdiv_self (by omega), wrap_unsigned_self hs (by omega) (by omega)]
        exact iff_of_true (by ring) (Or.inr rfl)
      · rw [tdiv_eq_zero_of_lt (by omega), wrap_unsigned_self hs le_rfl (by omega)]
        exact iff_of_false (by omega) (by omega)
    · have hone : wrap q.type (-1) = -1 := wrap_signed_self hs (by omega) (by omega) hq.int
      refine iff_of_true ?_ fun h => by cases h
      rw [hone, Int.tdiv_neg, Int.tdiv_one]
  rw [if_neg h2] at hρ ⊢
  have hB : ByMinusOne c ρ q := fun h => absurd h h2
  split_ifs at hρ ⊢ with hpow
  · obtain ⟨k, hk, hv, hdiv⟩ := exists_divisor hw hc hq hρ' (Or.inl hop) hd huia hpow.1
    obtain ⟨hl, -⟩ := hq.factors (Or.inr (Or.inl hop))
    rw [hv] at hρ ⊢
    exact iff_of_true (means_shift hw hc hq hop hk
      (zext_nonneg hc hρ' hl.int hpow.2 hq.int hl.bits) hb hdiv hρ) hB
  · exact iff_of_true right_next hB

theorem modConst_right (hd : q.Defined ρ) (hm : modConst.Matches c q)
    (hρ : ((modConst.reply F c q).ctx c).Models ρ) : (modConst.reply F c q).Right c ρ q := by
  have hρ' := hρ.reply (by simp [rules, restarting]) hw
  obtain ⟨k1, k2, -, hk2, hp⟩ := hm
  simp only [modConst, Bool.and_eq_true, decide_eq_true_eq] at hp
  obtain ⟨⟨hop, -⟩, hi⟩ := hp
  obtain ⟨huia, hval, hb⟩ := second_const hw hc hq (Or.inr hop) hρ' hk2 (isUIA_of_isUI hi)
  simp only [Rule.reply, modConst] at hρ ⊢
  split_ifs at hρ ⊢ with h1 hpow
  · rw [right_const, Reply.Means, agree_iff rfl, value_mod hop, hval, h1, valueOf_one hq.int,
      ofInt_constValue_zero, Int.tmod_one, ofInt_wrap rfl]
    exact (BitVec.ofInt_natCast _ 0).symm
  · obtain ⟨k, hk, hv, hdiv⟩ := exists_divisor hw hc hq hρ' (Or.inr hop) hd huia hpow.1
    obtain ⟨hl, -⟩ := hq.factors (Or.inr (Or.inr hop))
    have h0 : 0 ≤ wrap q.type (ρ q.op1) := by
      rcases hpow.2 with hs | hz
      · exact (wrap_bounds_unsigned (by simpa using hs) _).1
      · exact zext_nonneg hc hρ' hl.int hz hq.int hl.bits
    rw [hv] at hρ ⊢
    exact means_mask hw hc hq hop hk h0 hb hdiv hρ
  · exact right_next

end Quotients

/-! ## All of them -/

/-- Nothing goes wrong. -/
def Always (_ : Ctx) (_ : ℤ → ℤ) (_ : Question) : Prop := True

/-- The rules, and when they are right. -/
def strength : List (Rule × (Ctx → (ℤ → ℤ) → Question → Prop)) :=
  [(absAbs, AbsTwice), (absNeg, AbsNegated), (involution, Always), (zeroSub, Always),
    (mulDivNegConst, NegQuotient), (mulU, Always), (mulI, Always), (divU, Always), (divI, ByMinusOne),
    (modConst, Always), (mulDivNegNeg, NegQuotient), (shlConst, Always), (ltAbs, NotMin),
    (geAbs, NotMin), (addAny, Doubles)]

section All

variable {F : FloatOps} {c : Ctx} {ρ : ℤ → ℤ} {q : Question} {r : Rule}
  {P : Ctx → (ℤ → ℤ) → Question → Prop}

theorem mem_rules_of_strength (h : (r, P) ∈ strength) : r ∈ rules := by
  simp only [strength, List.mem_cons, Prod.mk.injEq, List.not_mem_nil, or_false] at h
  rcases h with ⟨rfl, -⟩ | ⟨rfl, -⟩ | ⟨rfl, -⟩ | ⟨rfl, -⟩ | ⟨rfl, -⟩ | ⟨rfl, -⟩ | ⟨rfl, -⟩ | ⟨rfl, -⟩ |
    ⟨rfl, -⟩ | ⟨rfl, -⟩ | ⟨rfl, -⟩ | ⟨rfl, -⟩ | ⟨rfl, -⟩ | ⟨rfl, -⟩ | ⟨rfl, -⟩ <;>
    simp [rules, restarting, answering]

/-- What a rule of the list replies to a question that is defined is defined and has its value, if and
only if the condition of the rule holds. -/
theorem strength_right_iff (hr : (r, P) ∈ strength) (hw : c.WellFormed) (hc : c.Typed) (hq : q.Typed c)
    (hints : IntOperands c q.op q.op1 q.op2) (hop : q.op ≠ .not ∧ q.op ≠ .bswap) (hd : q.Defined ρ)
    (hm : r.Matches c q) (hρ : ((r.reply F c q).ctx c).Models ρ) :
    (r.reply F c q).Right c ρ q ↔ P c ρ q := by
  have hρ' := hρ.reply (mem_rules_of_strength hr) hw
  simp only [strength, List.mem_cons, Prod.mk.injEq, List.not_mem_nil, or_false] at hr
  rcases hr with ⟨rfl, rfl⟩ | ⟨rfl, rfl⟩ | ⟨rfl, rfl⟩ | ⟨rfl, rfl⟩ | ⟨rfl, rfl⟩ | ⟨rfl, rfl⟩ |
    ⟨rfl, rfl⟩ | ⟨rfl, rfl⟩ | ⟨rfl, rfl⟩ | ⟨rfl, rfl⟩ | ⟨rfl, rfl⟩ | ⟨rfl, rfl⟩ | ⟨rfl, rfl⟩ |
    ⟨rfl, rfl⟩ | ⟨rfl, rfl⟩
  · exact absAbs_right_iff hc hρ' hq hm
  · exact absNeg_right_iff hc hρ' hq hm
  · refine iff_of_true (involution_right hc hρ' hq ?_ hm) trivial
    obtain ⟨k1, k2, -, -, hp⟩ := hm
    simp only [involution, Bool.and_eq_true, Bool.or_eq_true, decide_eq_true_eq] at hp
    exact (hp.1.1.resolve_right hop.2).resolve_right hop.1
  · exact iff_of_true (zeroSub_right hw hc hq hρ' hm) trivial
  · exact mulDivNegConst_right_iff hc hq hw hd hm hρ
  · exact iff_of_true (mulU_right hw hc hq hρ' hm) trivial
  · exact iff_of_true (mulI_right hw hc hq hρ' hm) trivial
  · exact iff_of_true (divU_right hw hc hq hd hm hρ) trivial
  · exact divI_right_iff hw hc hq hd hm hρ
  · exact iff_of_true (modConst_right hw hc hq hd hm hρ) trivial
  · exact mulDivNegNeg_right_iff hc hq hd hρ' hm
  · exact iff_of_true (shlConst_right hw hc hq hρ' hm) trivial
  · exact ltAbs_right_iff hc hρ' hw hq hints hm
  · exact geAbs_right_iff hc hρ' hw hq hints hm
  · exact addAny_right_iff hw hc hq hm hρ

end All

/-- A parameter `x`, the constants 2 and -2, and `-x`. -/
def quotientCtx : Ctx where
  consts := [⟨.cAddr, .addr, 0, 0, 0, 0⟩, ⟨.cBool, .bool, 0, 0, 0, 0⟩, ⟨.cBool, .bool, 0, 0, 0, 1⟩,
    ⟨.cI8, .i8, 0, 0, 0, 2⟩, ⟨.cI8, .i8, 0, 0, 0, 0xfffffffffffffffe⟩]
  insns := [⟨.nop, .void, 0, 0, 0, 0⟩, ⟨.start, .void, 0, 0, 0, 0⟩, ⟨.param, .i8, 1, 0, 0, 0⟩,
    ⟨.neg, .i8, 2, 0, 0, 0⟩]
  useLists := none

/-- The run with `x = -128`. -/
def quotientRun (r : ℤ) : ℤ :=
  match r with
  | -3 => 1
  | -4 => 2
  | -5 => -2
  | 2 => -128
  | 3 => -128
  | _ => 0

theorem quotientCtx_wellFormed : quotientCtx.WellFormed :=
  wellFormed_of_check (by decide) rfl (by decide) (by decide) ⟨rfl, rfl, rfl⟩ (by decide)

theorem quotientCtx_typed : quotientCtx.Typed :=
  typed_of_check (by decide) (by decide) (by decide)

theorem quotientCtx_models : quotientCtx.Models quotientRun :=
  models_of_check (by decide) (by decide) (by decide)

/-- `-x / 2`. -/
def quotientQuestion : Question := ⟨.div, .i8, 3, -4, 0⟩

theorem quotientQuestion_typed : quotientQuestion.Typed quotientCtx := ⟨by decide, by decide⟩

theorem quotientQuestion_defined : quotientQuestion.Defined quotientRun := by
  intro _
  exact ⟨by decide, fun h => absurd h.2.2 (by decide)⟩

theorem mulDivNegConst_matches : mulDivNegConst.Matches quotientCtx quotientQuestion :=
  ⟨.neg, .cI8, Or.inr rfl, Or.inr rfl, rfl⟩

/-- `-(-128) / 2` is -64, the rule asks for `-128 / -2`. -/
theorem strength_not_right : ¬∀ (F : FloatOps) (c : Ctx) (ρ : ℤ → ℤ) (q : Question) (r : Rule)
    (P : Ctx → (ℤ → ℤ) → Question → Prop), (r, P) ∈ strength → c.WellFormed → c.Typed → q.Typed c →
    IntOperands c q.op q.op1 q.op2 → q.op ≠ .not ∧ q.op ≠ .bswap → q.Defined ρ → r.Matches c q →
    ((r.reply F c q).ctx c).Models ρ → (r.reply F c q).Right c ρ q := by
  intro h
  have hright := h noFloats quotientCtx quotientRun quotientQuestion mulDivNegConst NegQuotient
    (by simp [strength]) quotientCtx_wellFormed quotientCtx_typed quotientQuestion_typed
    (by decide) (by decide) quotientQuestion_defined mulDivNegConst_matches quotientCtx_models
  have hagree : Agree .i8 64 (-64) := hright.2
  exact absurd hagree (by decide)

theorem strength_right_iff_quotient :
    (mulDivNegConst.reply noFloats quotientCtx quotientQuestion).Right quotientCtx quotientRun
      quotientQuestion ↔ NegQuotient quotientCtx quotientRun quotientQuestion :=
  strength_right_iff (by simp [strength]) quotientCtx_wellFormed quotientCtx_typed quotientQuestion_typed
    (by decide) (by decide) quotientQuestion_defined mulDivNegConst_matches quotientCtx_models

end IrJit.Fold
