import IrJit.Fold.Choose

/-!
# Fold.Convert — chains of conversions

`TRUNC` and `BITCAST` to `BOOL` say whether the low byte is zero, as the constant rules have it; the other
conversions of integers keep the low bits.  A `BITCAST` from or to a floating point type keeps the pattern.
-/

namespace IrJit.Fold

open Ieee

/-! ## Values -/

/-- `TRUNC` and `BITCAST` of integers. -/
def low (t : IrType) (x : ℤ) : ℤ := if t = .bool then (if toU 8 x = 0 then 0 else 1) else wrap t x

/-- `SEXT` and `ZEXT`. -/
def extend (o : IrOp) (t t₁ : IrType) (x : ℤ) : ℤ :=
  wrap t (if o = .sext then toI (bits t₁) x else toU (bits t₁) x)

/-- An integer in units of a format. -/
def unitsOf (f : Format) (n : ℤ) : Datum := ((n * 2 ^ (f.frac + f.bias - 1) : ℤ) : WithTop ℤ)

/-- The integer part of a finite datum. -/
def truncated (f : Format) (d : Datum) : ℤ :=
  ((d.unbotD 0).untopD 0).tdiv (2 ^ (f.frac + f.bias - 1))

/-- The types of the conversions. -/
def Converts (op : IrOp) (t t₁ : IrType) : Prop :=
  match op with
  | .trunc => IsInt t ∧ IsInt t₁ ∧ t.size < t₁.size
  | .zext | .sext => IsInt t ∧ IsInt t₁ ∧ t₁.size < t.size
  | .bitcast => (IsInt t ∨ isFp t = true) ∧ (IsInt t₁ ∨ isFp t₁ = true) ∧ t.size = t₁.size
  | .int2fp => isFp t = true ∧ IsInt t₁
  | .fp2int => IsInt t ∧ isFp t₁ = true
  | _ => True

/-- The conversions of a graph have the types that their opcodes allow. -/
def Ctx.Conversions (c : Ctx) : Prop :=
  ∀ r, Converts (c.insn r).op (c.insn r).type (c.insn (c.insn r).op1).type

/-- A run: the integers, `BITCAST` from and to floating point types, and `INT2FP`, which is exact for the
data of the format. -/
structure Ctx.Converted (c : Ctx) (ρ : ℤ → ℤ) : Prop where
  models : c.Models ρ
  bitcast : ∀ r, (c.insn r).op = .bitcast →
    isFp (c.insn r).type = true ∨ isFp (c.insn (c.insn r).op1).type = true →
      Agree (c.insn r).type (ρ r) (ρ (c.insn r).op1)
  int2fp : ∀ r, (c.insn r).op = .int2fp → ∀ p, (format (c.insn r).type).decode p =
      some (unitsOf (format (c.insn r).type) (ρ (c.insn r).op1)) →
    (format (c.insn r).type).decode (pattern ρ r).toNat = (format (c.insn r).type).decode p

/-- The types of a question. -/
structure Question.Convertible (c : Ctx) (q : Question) : Prop where
  converts : Converts q.op q.type (c.insn q.op1).type
  compares : q.op = .eq ∨ q.op = .ne → q.type = .bool ∧ IsInt (c.insn q.op1).type ∧
    Compat (c.insn q.op1).type (c.insn q.op2).type
  sums : q.op = .add ∨ q.op = .sub ∨ q.op = .addOv ∨ q.op = .subOv → q.Typed c

/-- The value of the instruction that is asked for. -/
def Question.converted (c : Ctx) (ρ : ℤ → ℤ) (q : Question) : ℤ :=
  match q.op with
  | .bitcast =>
    if isFp q.type = true ∨ isFp (c.insn q.op1).type = true then ρ q.op1 else low q.type (ρ q.op1)
  | .fp2int =>
    let f := format (c.insn q.op1).type
    wrap q.type (((f.decode (pattern ρ q.op1).toNat).map (truncated f)).getD 0)
  | _ => q.value c ρ

/-- What a rule replies has the type and the value of the question. -/
def Reply.Converts (c : Ctx) (ρ : ℤ → ℤ) (q : Question) : Reply → Prop
  | .const v => Agree q.type (constValue q.type v) (q.converted c ρ)
  | .copy r => (c.insn r).type = q.type ∧ Agree q.type (ρ r) (q.converted c ρ)
  | .restart c' q' =>
    q'.type = q.type ∧ q'.Convertible c' ∧ Agree q.type (q'.converted c' ρ) (q.converted c ρ)
  | .emit _ | .next => True
  | .undefined => False

/-- Where the conversion to `BOOL` in the middle is left out, the byte is 0 or 1. -/
def ThroughBool (c : Ctx) (ρ : ℤ → ℤ) (q : Question) : Prop :=
  (c.insn q.op1).type = .bool → q.type ≠ .bool →
    toU 8 (ρ (c.insn q.op1).op1) = 0 ∨ toU 8 (ρ (c.insn q.op1).op1) = 1

/-! ## Low bits -/

section Low

variable {t t₁ : IrType} {v w : ℕ} {x y : ℤ}

theorem toU_toU (h : w ≤ v) (x : ℤ) : toU w (toU v x) = toU w x :=
  Int.emod_emod_of_dvd _ (pow_dvd_pow 2 h)

theorem toU_toI (h : w ≤ v) (x : ℤ) : toU w (toI v x) = toU w x := by
  have hdvd : (2 : ℤ) ^ w ∣ 2 ^ v := pow_dvd_pow 2 h
  unfold toU toI
  rw [Int.sub_emod, Int.emod_emod_of_dvd _ hdvd, ← Int.sub_emod, Int.add_sub_cancel]

theorem toI_of_toU (h : toU w x = toU w y) : toI w x = toI w y := by
  unfold toI
  unfold toU at h
  rw [Int.add_emod, h, ← Int.add_emod]

theorem extend_congr (o : IrOp) (h : toU (bits t₁) x = toU (bits t₁) y) :
    extend o t t₁ x = extend o t t₁ y := by
  unfold extend
  rw [toI_of_toU h, h]

/-- An extension keeps the low bits. -/
theorem toU_extend (o : IrOp) (h₁ : w ≤ bits t₁) (h : w ≤ bits t) :
    toU w (extend o t t₁ x) = toU w x := by
  unfold extend
  rw [wrap_emod t h]
  split_ifs
  · exact toU_toI h₁ x
  · exact toU_toU h₁ x

theorem toU_low (hb : t ≠ .bool) (h : w ≤ bits t) : toU w (low t x) = toU w x := by
  unfold low
  rw [if_neg hb]
  exact wrap_emod t h x

theorem low_congr (h : toU (bits t) x = toU (bits t) y) : low t x = low t y := by
  unfold low
  split_ifs with hb hx hy hy
  · rfl
  · subst hb
    exact absurd (h.symm.trans hx) hy
  · subst hb
    exact absurd (h.trans hy) hx
  · rfl
  · exact wrap_congr h

/-- What is in the range of the type is left alone. -/
theorem low_self (ht : IsInt t) (hx : InRange t x) : low t x = x := by
  unfold low
  split_ifs with hb h0
  · subst hb
    rcases inRange_bool_cases hx with rfl | rfl
    · rfl
    · exact absurd h0 (by decide)
  · subst hb
    rcases inRange_bool_cases hx with rfl | rfl
    · exact absurd rfl h0
    · rfl
  · exact wrap_eq_self ht hx

theorem low_bool (x : ℤ) : low .bool x = if toU 8 x = 0 then 0 else 1 := rfl

/-- The byte is what the conversion to `BOOL` gives. -/
theorem toU_eq_low_bool : toU 8 x = toU 8 (low .bool x) ↔ toU 8 x = 0 ∨ toU 8 x = 1 := by
  rw [low_bool]
  split_ifs with h
  · rw [h]
    exact iff_of_true rfl (Or.inl rfl)
  · exact ⟨fun h' => Or.inr (h'.trans rfl), fun h' => (h'.resolve_left h).trans rfl⟩

theorem low_bool_twice : low .bool (low .bool x) = low .bool x := by
  rw [low_bool x]
  split_ifs <;> rfl

theorem extend_of_size {o : IrOp} {u : IrType} (h : t.size = t₁.size) :
    extend o u t x = extend o u t₁ x := by
  unfold extend bits
  rw [h]

theorem eight_le_bits (ht : IsInt t) : 8 ≤ bits t := by
  obtain ⟨h1, h2⟩ := ht
  cases t <;> simp [IrType.isInt] at h1 h2 <;> simp [bits, IrType.size]

theorem toI_of_fits (hv : 0 < v) (h0 : -2 ^ (v - 1) ≤ x) (h1 : x < 2 ^ (v - 1)) : toI v x = x := by
  have hp : (2 : ℤ) ^ v = 2 * 2 ^ (v - 1) := by rw [← pow_succ', Nat.sub_add_cancel hv]
  unfold toI
  rw [Int.emod_eq_of_lt (by omega) (by omega)]
  omega

section Twice

variable {u : IrType} (ht₁ : IsInt t₁) (h : t₁.size < t.size)

include ht₁ h

theorem two_pow_le_of_size : (2 : ℤ) ^ bits t₁ ≤ 2 ^ (bits t - 1) ∧ 0 < bits t₁ ∧ 0 < bits t := by
  have h8 := eight_le_bits ht₁
  have hlt : bits t₁ < bits t := Nat.mul_lt_mul_of_pos_left h (by norm_num)
  exact ⟨pow_le_pow_right₀ (by norm_num) (by omega), by omega, by omega⟩

/-- A zero-extended value is the same number for both extensions. -/
theorem toI_zext : toI (bits t) (extend .zext t t₁ x) = toU (bits t₁) x := by
  obtain ⟨hpow, -, hpos⟩ := two_pow_le_of_size ht₁ h
  have h0 : 0 ≤ toU (bits t₁) x := Int.emod_nonneg _ (by positivity)
  have h1 : toU (bits t₁) x < 2 ^ bits t₁ := Int.emod_lt_of_pos _ (by positivity)
  show toI (bits t) (wrap t (toU (bits t₁) x)) = _
  rw [toI_of_toU (wrap_emod t le_rfl _)]
  have hneg : -(2 : ℤ) ^ (bits t - 1) ≤ 0 := neg_nonpos.2 (by positivity)
  exact toI_of_fits hpos (hneg.trans h0) (h1.trans_le hpow)

theorem toU_zext : toU (bits t) (extend .zext t t₁ x) = toU (bits t₁) x := by
  obtain ⟨hpow, -, hpos⟩ := two_pow_le_of_size ht₁ h
  have h1 : toU (bits t₁) x < 2 ^ bits t₁ := Int.emod_lt_of_pos _ (by positivity)
  have hle : (2 : ℤ) ^ (bits t - 1) ≤ 2 ^ bits t := pow_le_pow_right₀ (by norm_num) (by omega)
  show toU (bits t) (wrap t (toU (bits t₁) x)) = _
  rw [wrap_emod t le_rfl]
  exact Int.emod_eq_of_lt (Int.emod_nonneg _ (by positivity)) (h1.trans_le (hpow.trans hle))

theorem toI_sext : toI (bits t) (extend .sext t t₁ x) = toI (bits t₁) x := by
  obtain ⟨hpow, hpos₁, hpos⟩ := two_pow_le_of_size ht₁ h
  have hb := toI_bounds hpos₁ x
  have hle : (2 : ℤ) ^ (bits t₁ - 1) ≤ 2 ^ bits t₁ := pow_le_pow_right₀ (by norm_num) (by omega)
  show toI (bits t) (wrap t (toI (bits t₁) x)) = _
  rw [toI_of_toU (wrap_emod t le_rfl _)]
  exact toI_of_fits hpos (by omega) (by omega)

/-- Two extensions of one kind. -/
theorem extend_extend {o : IrOp} (ho : o = .sext ∨ o = .zext) :
    extend o u t (extend o t t₁ x) = extend o u t₁ x := by
  rcases ho with rfl | rfl
  · exact congrArg (wrap u) (toI_sext ht₁ h)
  · exact congrArg (wrap u) (toU_zext ht₁ h)

theorem extend_zext : extend .sext u t (extend .zext t t₁ x) = extend .zext u t₁ x :=
  congrArg (wrap u) (toI_zext ht₁ h)

end Twice

theorem size_le_of_bits (h : t.size ≤ t₁.size) : bits t ≤ bits t₁ := Nat.mul_le_mul_left 8 h

theorem bits_of_size (h : t.size = t₁.size) : bits t = bits t₁ := congrArg (8 * ·) h

/-- The larger type is not `BOOL`. -/
theorem ne_bool_of_size (ht : IsInt t) (h : t.size < t₁.size) : t₁ ≠ .bool := by
  have h8 := eight_le_bits ht
  rintro rfl
  unfold bits at h8
  have hone : IrType.size .bool = 1 := rfl
  omega

end Low

/-- The value and the value by way of `BOOL`, extended. -/
theorem agree_extend {t t₁ : IrType} {o : IrOp} {x : ℤ} (ht₁ : IsInt t₁) (h : t₁.size < t.size) :
    Agree t (extend o t t₁ x) (extend o t t₁ (low t₁ x)) ↔
      (t₁ = .bool → t ≠ .bool → toU 8 x = 0 ∨ toU 8 x = 1) := by
  by_cases hb : t₁ = .bool
  · subst hb
    have ht : t ≠ .bool := ne_bool_of_size ht₁ h
    have h8 : 8 ≤ bits t := size_le_of_bits (t := .bool) h.le
    rw [← toU_eq_low_bool]
    constructor
    · intro hagree _ _
      have hmod := congrArg (toU 8) hagree
      rw [toU_toU h8, toU_toU h8, toU_extend o (le_refl 8) h8, toU_extend o (le_refl 8) h8] at hmod
      exact hmod
    · intro heq
      have heq' : extend o t .bool x = extend o t .bool (low .bool x) := extend_congr o (heq rfl ht)
      rw [heq']
      exact Agree.refl _ _
  · refine iff_of_true ?_ fun h' => absurd h' hb
    rw [extend_congr o (toU_low hb le_rfl)]
    exact Agree.refl _ _

/-! ## Nodes and questions -/

section Nodes

variable {F : FloatOps} {c : Ctx} {ρ : ℤ → ℤ} {q : Question} {r : ℤ} {o : IrOp}

theorem result_low (t t₁ t₂ : IrType) (x y : ℤ) (h : o = .trunc ∨ o = .bitcast) :
    result o t t₁ t₂ x y = low t x := by
  have heq : (if t = .bool then (if decide (toU 8 x ≠ 0) then (1 : ℤ) else 0) else wrap t x) = low t x := by
    unfold low
    by_cases h0 : toU 8 x = 0 <;> simp [h0]
  rcases h with rfl | rfl <;> exact heq

theorem result_extend (t t₁ t₂ : IrType) (x y : ℤ) (h : o = .sext ∨ o = .zext) :
    result o t t₁ t₂ x y = extend o t t₁ x := by
  rcases h with rfl | rfl <;> rfl

theorem isInt_or_isFp {t : IrType} (h : IsInt t ∨ isFp t = true) (hi : t.isInt = true) : IsInt t := by
  rcases h with h | h
  · exact h
  · rw [not_isInt_of_isFp h] at hi
    cases hi

theorem size_bool_ne {t : IrType} (h : isFp t = true) : IrType.size .bool ≠ t.size := by
  cases t <;> first | decide | cases h

theorem not_isFp_of_isInt {t : IrType} (h : IsInt t) : isFp t = false := by
  obtain ⟨h1, h2⟩ := h
  cases t <;> first | rfl | cases h1

variable (hg : c.Conversions) (hρ : c.Converted ρ)

include hg hρ

/-- An extension or a truncation below a reference. -/
theorem node_trunc (h : (c.insn r).op = .trunc) :
    Converts .trunc (c.insn r).type (c.insn (c.insn r).op1).type ∧
      ρ r = low (c.insn r).type (ρ (c.insn r).op1) := by
  have hconv := hg r
  rw [h] at hconv
  refine ⟨hconv, ?_⟩
  rw [hρ.models.node r (by rw [h]; rfl) hconv.1
    ⟨hconv.2.1, fun h2 => by rw [h] at h2; exact absurd h2 (by decide)⟩, h]
  exact result_low _ _ _ _ _ (Or.inl rfl)

theorem node_extend (h : (c.insn r).op = .sext ∨ (c.insn r).op = .zext) :
    Converts (c.insn r).op (c.insn r).type (c.insn (c.insn r).op1).type ∧
      ρ r = extend (c.insn r).op (c.insn r).type (c.insn (c.insn r).op1).type (ρ (c.insn r).op1) := by
  have hconv := hg r
  have hints : IsInt (c.insn r).type ∧ IsInt (c.insn (c.insn r).op1).type := by
    rcases h with h | h <;> rw [h] at hconv <;> exact ⟨hconv.1, hconv.2.1⟩
  refine ⟨hconv, ?_⟩
  have hnode := hρ.models.node r (by rcases h with h | h <;> rw [h] <;> rfl) hints.1
    ⟨hints.2, fun h2 => by rcases h with h | h <;> rw [h] at h2 <;> exact absurd h2 (by decide)⟩
  rw [hnode]
  exact result_extend _ _ _ _ _ h

omit hg in
/-- A `BITCAST` of integers. -/
theorem node_bitcast (h : (c.insn r).op = .bitcast) (ht : IsInt (c.insn r).type)
    (ht₁ : IsInt (c.insn (c.insn r).op1).type) : ρ r = low (c.insn r).type (ρ (c.insn r).op1) := by
  rw [hρ.models.node r (by rw [h]; rfl) ht
    ⟨ht₁, fun h2 => by rw [h] at h2; exact absurd h2 (by decide)⟩, h]
  exact result_low _ _ _ _ _ (Or.inr rfl)

omit hg hρ in
/-- The types of a conversion are all that is asked of it. -/
theorem convertible_of (h : q.op = .trunc ∨ q.op = .zext ∨ q.op = .sext ∨ q.op = .bitcast)
    (hconv : Converts q.op q.type (c.insn q.op1).type) : q.Convertible c where
  converts := hconv
  compares h' := by
    rcases h with h | h | h | h <;> rw [h] at h' <;> rcases h' with h' | h' <;> cases h'
  sums h' := by
    rcases h with h | h | h | h <;> rw [h] at h' <;> rcases h' with h' | h' | h' | h' <;> cases h'

omit hg hρ in
theorem converted_trunc (h : q.op = .trunc) : q.converted c ρ = low q.type (ρ q.op1) := by
  unfold Question.converted Question.value
  rw [h]
  exact result_low _ _ _ _ _ (Or.inl rfl)

omit hg hρ in
theorem converted_extend (h : q.op = .sext ∨ q.op = .zext) :
    q.converted c ρ = extend q.op q.type (c.insn q.op1).type (ρ q.op1) := by
  unfold Question.converted Question.value
  rcases h with h | h <;> rw [h] <;> rfl

omit hg hρ in
theorem converted_bitcast (h : q.op = .bitcast) (ht : IsInt q.type) (ht₁ : IsInt (c.insn q.op1).type) :
    q.converted c ρ = low q.type (ρ q.op1) := by
  unfold Question.converted
  rw [h]
  dsimp only
  rw [if_neg]
  rw [not_isFp_of_isInt ht, not_isFp_of_isInt ht₁]
  simp

end Nodes

/-! ## Chains -/

section Chains

variable {F : FloatOps} {c : Ctx} {ρ : ℤ → ℤ} {q : Question} (hg : c.Conversions) (hρ : c.Converted ρ)
  (hq : q.Convertible c)

include hg hρ hq

/-- A truncated extension is the operand, converted to the type that is asked for. -/
theorem truncExt_right (hm : truncExt.Matches c q) : (truncExt.reply F c q).Converts c ρ q := by
  obtain ⟨k1, k2, hk1, -, hp⟩ := hm
  simp only [truncExt, Bool.and_eq_true, Bool.or_eq_true, decide_eq_true_eq] at hp
  obtain ⟨⟨hop, hk⟩, -⟩ := hp
  have ha : (c.insn q.op1).op = .sext ∨ (c.insn q.op1).op = .zext := by
    rcases hk with rfl | rfl
    · exact Or.inr (hk1.eq (by decide))
    · exact Or.inl (hk1.eq (by decide))
  obtain ⟨hconv, hx⟩ := node_extend hg hρ ha
  have hcq := hq.converts
  rw [hop] at hcq
  obtain ⟨ht, hmid, hsize⟩ := hcq
  have hsrc : IsInt (c.insn (c.insn q.op1).op1).type ∧
      (c.insn (c.insn q.op1).op1).type.size < (c.insn q.op1).type.size := by
    rcases ha with h | h <;> rw [h] at hconv <;> exact hconv.2
  have hvalue : q.converted c ρ = low q.type (ρ q.op1) := converted_trunc hop
  have hlow : ∀ {w}, w ≤ bits q.type → w ≤ bits (c.insn (c.insn q.op1).op1).type →
      toU w (ρ q.op1) = toU w (ρ (c.insn q.op1).op1) := fun {w} h h₁ => by
    rw [hx]
    exact toU_extend _ h₁ (h.trans (size_le_of_bits hsize.le))
  have hreply : truncExt.reply F c q =
      if (c.insn (c.insn q.op1).op1).type = q.type then .copy (c.insn q.op1).op1
      else if (c.insn (c.insn q.op1).op1).type.size = q.type.size then
        .restart c { q with op := .bitcast, op1 := (c.insn q.op1).op1 }
      else if (c.insn (c.insn q.op1).op1).type.size > q.type.size then
        .restart c { q with op := .trunc, op1 := (c.insn q.op1).op1 }
      else .restart c { q with op := (c.insn q.op1).op, op1 := (c.insn q.op1).op1 } := rfl
  rw [hreply]
  split_ifs with h1 h2 h3
  · refine ⟨h1, ?_⟩
    have hbits : bits q.type = bits (c.insn (c.insn q.op1).op1).type := by rw [h1]
    rw [hvalue, low_congr (hlow le_rfl hbits.le), low_self ht]
    · exact Agree.refl _ _
    · rw [← h1]
      exact hρ.models.range _ hsrc.1
  · refine ⟨rfl, convertible_of (Or.inr (Or.inr (Or.inr rfl))) ⟨Or.inl ht, Or.inl hsrc.1, h2.symm⟩, ?_⟩
    rw [converted_bitcast (q := { q with op := .bitcast, op1 := (c.insn q.op1).op1 }) rfl ht hsrc.1,
      hvalue, low_congr (hlow le_rfl (bits_of_size h2).ge)]
    exact Agree.refl _ _
  · refine ⟨rfl, convertible_of (Or.inl rfl) ⟨ht, hsrc.1, h3⟩, ?_⟩
    rw [converted_trunc (q := { q with op := .trunc, op1 := (c.insn q.op1).op1 }) rfl,
      hvalue, low_congr (hlow le_rfl (size_le_of_bits (le_of_lt h3)))]
    exact Agree.refl _ _
  · have hlt : (c.insn (c.insn q.op1).op1).type.size < q.type.size := by omega
    have hb := ne_bool_of_size hsrc.1 hlt
    have hnew : Converts (c.insn q.op1).op q.type (c.insn (c.insn q.op1).op1).type := by
      rcases ha with h | h <;> rw [h] <;> exact ⟨ht, hsrc.1, hlt⟩
    refine ⟨rfl, convertible_of ?_ hnew, ?_⟩
    · rcases ha with h | h
      · exact Or.inr (Or.inr (Or.inl h))
      · exact Or.inr (Or.inl h)
    · rw [converted_extend (q := { q with op := (c.insn q.op1).op, op1 := (c.insn q.op1).op1 }) ha, hvalue]
      show toU _ _ = toU _ _
      rw [toU_low hb le_rfl, hx]
      unfold extend
      rw [wrap_emod q.type le_rfl, wrap_emod _ (size_le_of_bits hsize.le)]

/-- Two truncations, two extensions of one kind. -/
theorem convertTwice_right (hm : convertTwice.Matches c q) :
    (convertTwice.reply F c q).Converts c ρ q := by
  obtain ⟨k1, k2, hk1, -, hp⟩ := hm
  simp only [convertTwice, Bool.and_eq_true, Bool.or_eq_true, decide_eq_true_eq] at hp
  obtain ⟨⟨hop, rfl⟩, -⟩ := hp
  have hreply : convertTwice.reply F c q = .restart c { q with op1 := (c.insn q.op1).op1 } := rfl
  have hcq := hq.converts
  rw [hreply]
  rcases or_assoc.1 hop with hop | hop
  · -- the middle type is larger than the destination
    have ha : (c.insn q.op1).op = .trunc := by
      rw [hk1.eq (by rw [hop]; decide), hop]
    obtain ⟨hconv, hx⟩ := node_trunc hg hρ ha
    rw [hop] at hcq
    obtain ⟨ht, hmid, hsize⟩ := hcq
    obtain ⟨-, hsrc, hsize'⟩ := hconv
    have hnew : Converts q.op q.type (c.insn (c.insn q.op1).op1).type := by
      rw [hop]
      exact ⟨ht, hsrc, hsize.trans hsize'⟩
    refine ⟨rfl, convertible_of (Or.inl hop) hnew, ?_⟩
    rw [converted_trunc (q := { q with op1 := (c.insn q.op1).op1 }) hop, converted_trunc hop, hx,
      low_congr (toU_low (ne_bool_of_size ht hsize) (size_le_of_bits hsize.le))]
    exact Agree.refl _ _
  · have hop' : q.op = .sext ∨ q.op = .zext := hop.symm
    have hae : (c.insn q.op1).op = q.op := hk1.eq (by rcases hop' with h | h <;> rw [h] <;> decide)
    have ha : (c.insn q.op1).op = .sext ∨ (c.insn q.op1).op = .zext := by rwa [hae]
    obtain ⟨hconv, hx⟩ := node_extend hg hρ ha
    have hsizes : IsInt q.type ∧ IsInt (c.insn q.op1).type ∧ (c.insn q.op1).type.size < q.type.size := by
      rcases hop' with h | h <;> rw [h] at hcq <;> exact hcq
    have hsrc : IsInt (c.insn (c.insn q.op1).op1).type ∧
        (c.insn (c.insn q.op1).op1).type.size < (c.insn q.op1).type.size := by
      rcases ha with h | h <;> rw [h] at hconv <;> exact hconv.2
    have hnew : Converts q.op q.type (c.insn (c.insn q.op1).op1).type := by
      rcases hop' with h | h <;> rw [h] <;> exact ⟨hsizes.1, hsrc.1, hsrc.2.trans hsizes.2.2⟩
    refine ⟨rfl, convertible_of ?_ hnew, ?_⟩
    · rcases hop' with h | h
      · exact Or.inr (Or.inr (Or.inl h))
      · exact Or.inr (Or.inl h)
    rw [converted_extend (q := { q with op1 := (c.insn q.op1).op1 }) hop', converted_extend hop', hx, hae,
      extend_extend hsrc.1 hsrc.2 hop']
    exact Agree.refl _ _

/-- A zero-extended value is not negative. -/
theorem sextZext_right (hm : sextZext.Matches c q) : (sextZext.reply F c q).Converts c ρ q := by
  obtain ⟨k1, k2, hk1, -, hp⟩ := hm
  simp only [sextZext, Bool.and_eq_true, decide_eq_true_eq] at hp
  obtain ⟨⟨hop, rfl⟩, -⟩ := hp
  have ha : (c.insn q.op1).op = .zext := hk1.eq (by decide)
  obtain ⟨hconv, hx⟩ := node_extend hg hρ (Or.inr ha)
  have hcq := hq.converts
  rw [hop] at hcq
  rw [ha] at hconv
  obtain ⟨ht, hmid, hsize⟩ := hcq
  obtain ⟨-, hsrc, hsize'⟩ := hconv
  have hreply : sextZext.reply F c q = .restart c { q with op := .zext, op1 := (c.insn q.op1).op1 } := rfl
  rw [hreply]
  refine ⟨rfl, convertible_of (Or.inr (Or.inl rfl)) ⟨ht, hsrc, hsize'.trans hsize⟩, ?_⟩
  rw [converted_extend (q := { q with op := .zext, op1 := (c.insn q.op1).op1 }) (Or.inr rfl),
    converted_extend (Or.inl hop), hx, ha, hop, extend_zext hsrc hsize']
  exact Agree.refl _ _

/-- The conversion of a `BITCAST` of an integer. -/
theorem convertBitcast_right_iff (hm : convertBitcast.Matches c q) :
    (convertBitcast.reply F c q).Converts c ρ q ↔ ThroughBool c ρ q := by
  obtain ⟨k1, k2, hk1, -, hp⟩ := hm
  simp only [convertBitcast, Bool.and_eq_true, Bool.or_eq_true, decide_eq_true_eq] at hp
  obtain ⟨⟨hop, rfl⟩, -⟩ := hp
  have ha : (c.insn q.op1).op = .bitcast := hk1.eq (by decide)
  have hconv := hg q.op1
  rw [ha] at hconv
  obtain ⟨-, hsrc, hsize⟩ := hconv
  have hcq := hq.converts
  have hints : IsInt q.type ∧ IsInt (c.insn q.op1).type := by
    rcases hop with (h | h) | h <;> rw [h] at hcq <;> exact ⟨hcq.1, hcq.2.1⟩
  have hreply : convertBitcast.reply F c q =
      if (c.insn (c.insn q.op1).op1).type.isInt then .restart c { q with op1 := (c.insn q.op1).op1 }
      else .next := rfl
  rw [hreply]
  split_ifs with hint
  swap
  · have hfp := hsrc.resolve_left fun h => hint h.1
    exact iff_of_true trivial fun hb => absurd hsize (hb ▸ size_bool_ne hfp)
  have hs := isInt_or_isFp hsrc hint
  have hx := node_bitcast hρ ha hints.2 hs
  have hopq : q.op = .trunc ∨ q.op = .zext ∨ q.op = .sext ∨ q.op = .bitcast := by
    rcases hop with (h | h) | h
    · exact Or.inl h
    · exact Or.inr (Or.inl h)
    · exact Or.inr (Or.inr (Or.inl h))
  have hnew : Converts q.op q.type (c.insn (c.insn q.op1).op1).type := by
    rcases hop with (h | h) | h <;> rw [h] at hcq ⊢ <;> exact ⟨hcq.1, hs, hsize ▸ hcq.2.2⟩
  have hright : (Reply.restart c { q with op1 := (c.insn q.op1).op1 }).Converts c ρ q ↔
      Agree q.type (Question.converted c ρ { q with op1 := (c.insn q.op1).op1 }) (q.converted c ρ) :=
    ⟨fun h => h.2.2, fun h => ⟨rfl, convertible_of hopq hnew, h⟩⟩
  rw [hright]
  rcases hop.imp_left (Or.symm) with (hop | hop) | hop
  case inl.inr =>
    -- the middle type is larger than the destination
    rw [hop] at hcq
    have hb := ne_bool_of_size hints.1 hcq.2.2
    refine iff_of_true ?_ fun h => absurd h hb
    rw [converted_trunc (q := { q with op1 := (c.insn q.op1).op1 }) hop, converted_trunc hop, hx,
      low_congr (toU_low hb (size_le_of_bits hcq.2.2.le))]
    exact Agree.refl _ _
  all_goals
    have hop' : q.op = .sext ∨ q.op = .zext := by simp [hop]
    have hlt : (c.insn q.op1).type.size < q.type.size := by
      rw [hop] at hcq
      exact hcq.2.2
    have hext : Question.converted c ρ { q with op1 := (c.insn q.op1).op1 } =
        extend q.op q.type (c.insn q.op1).type (ρ (c.insn q.op1).op1) := by
      rw [converted_extend (q := { q with op1 := (c.insn q.op1).op1 }) hop']
      exact (extend_of_size hsize).symm
    rw [hext, converted_extend hop', hx]
    exact agree_extend hints.2 hlt

omit hg hq in
/-- A `BITCAST` from or to a floating point type keeps the pattern. -/
theorem pattern_of_bitcast (ha : (c.insn q.op1).op = .bitcast) (hsize : q.type.size = (c.insn q.op1).type.size)
    (hfp : isFp (c.insn q.op1).type = true ∨ isFp (c.insn (c.insn q.op1).op1).type = true) :
    Agree q.type (ρ q.op1) (ρ (c.insn q.op1).op1) := by
  have h := hρ.bitcast q.op1 ha hfp
  unfold Agree at h ⊢
  rwa [bits_of_size hsize]

omit hg hρ hq in
/-- Two reinterpretations of integers. -/
theorem low_low {t t₁ : IrType} {x : ℤ} (h : t.size = t₁.size) :
    Agree t (low t x) (low t (low t₁ x)) ↔
      (t₁ = .bool → t ≠ .bool → toU 8 x = 0 ∨ toU 8 x = 1) := by
  by_cases hb : t₁ = .bool
  · subst hb
    by_cases ht : t = .bool
    · subst ht
      rw [low_bool_twice]
      exact iff_of_true (Agree.refl _ _) fun _ h => absurd rfl h
    · have h8 : bits t = 8 := bits_of_size h
      unfold Agree
      rw [toU_low ht le_rfl, toU_low ht le_rfl, h8, toU_eq_low_bool]
      exact ⟨fun h _ _ => h, fun h => h rfl ht⟩
  · refine iff_of_true ?_ fun h' => absurd h' hb
    rw [low_congr (toU_low hb (bits_of_size h).le)]
    exact Agree.refl _ _

/-- Two reinterpretations of a pattern. -/
theorem bitcastTwice_right_iff (hm : bitcastTwice.Matches c q) :
    (bitcastTwice.reply F c q).Converts c ρ q ↔ ThroughBool c ρ q := by
  obtain ⟨k1, k2, hk1, -, hp⟩ := hm
  simp only [bitcastTwice, Bool.and_eq_true, decide_eq_true_eq] at hp
  obtain ⟨⟨hop, rfl⟩, -⟩ := hp
  have ha : (c.insn q.op1).op = .bitcast := hk1.eq (by decide)
  have hconv := hg q.op1
  rw [ha] at hconv
  obtain ⟨hmid, hsrc, hsize⟩ := hconv
  have hcq := hq.converts
  rw [hop] at hcq
  obtain ⟨ht, -, hsizeq⟩ := hcq
  have hreply : bitcastTwice.reply F c q =
      if (c.insn (c.insn q.op1).op1).type = q.type then .copy (c.insn q.op1).op1
      else if (c.insn (c.insn q.op1).op1).type.isInt = q.type.isInt then
        .restart c { q with op1 := (c.insn q.op1).op1 }
      else .next := rfl
  rw [hreply]
  have hnew : Question.Convertible c { q with op1 := (c.insn q.op1).op1 } :=
    convertible_of (Or.inr (Or.inr (Or.inr hop))) (by
      dsimp only
      rw [hop]
      exact ⟨ht, hsrc, hsizeq.trans hsize⟩)
  have hfloat : isFp (c.insn q.op1).type = true ∨ isFp q.type = true → q.converted c ρ = ρ q.op1 := fun h => by
    unfold Question.converted
    rw [hop]
    exact if_pos h.symm
  have hfp : isFp (c.insn q.op1).type = true ∨ isFp (c.insn (c.insn q.op1).op1).type = true ∨
      isFp q.type = true → ThroughBool c ρ q := by
    intro h hb
    rcases h with h | h | h
    · rw [hb] at h
      cases h
    · exact absurd hsize (hb ▸ size_bool_ne h)
    · exact absurd hsizeq (fun h' => size_bool_ne h (hb ▸ h'.symm))
  by_cases hf : isFp (c.insn q.op1).type = true ∨ isFp (c.insn (c.insn q.op1).op1).type = true
  · have hpat := pattern_of_bitcast hρ ha hsizeq hf
    refine iff_of_true ?_ (hfp (hf.imp_right Or.inl))
    split_ifs with h1 h2
    · refine ⟨h1, ?_⟩
      rw [hfloat (hf.imp_right fun h => h1 ▸ h)]
      exact hpat.symm
    · refine ⟨rfl, hnew, ?_⟩
      by_cases hs : isFp (c.insn (c.insn q.op1).op1).type = true
      · have htf : isFp q.type = true := by
          refine ht.resolve_left fun hi => ?_
          rw [not_isInt_of_isFp hs, hi.1] at h2
          cases h2
        have hq' : Question.converted c ρ { q with op1 := (c.insn q.op1).op1 } =
            ρ (c.insn q.op1).op1 := by
          unfold Question.converted
          dsimp only
          rw [hop]
          exact if_pos (Or.inl htf)
        rw [hq', hfloat (Or.inr htf)]
        exact hpat.symm
      · have hsi := hsrc.resolve_right hs
        have hti := isInt_or_isFp ht (h2 ▸ hsi.1)
        have hmidf := hf.resolve_right hs
        have htb : q.type ≠ .bool := fun h => size_bool_ne hmidf (h ▸ hsizeq)
        rw [converted_bitcast (q := { q with op1 := (c.insn q.op1).op1 }) hop hti hsi, hfloat (Or.inl hmidf)]
        have hlow : Agree q.type (low q.type (ρ (c.insn q.op1).op1)) (ρ (c.insn q.op1).op1) :=
          toU_low htb le_rfl
        exact Eq.trans hlow hpat.symm
    · trivial
  · have hmidi := hmid.resolve_right fun h => hf (Or.inl h)
    have hsi := hsrc.resolve_right fun h => hf (Or.inr h)
    have hx := node_bitcast hρ ha hmidi hsi
    split_ifs with h1 h2
    · have hti : IsInt q.type := h1 ▸ hsi
      have hself : low q.type (ρ (c.insn q.op1).op1) = ρ (c.insn q.op1).op1 := by
        rw [← h1]
        exact low_self hsi (hρ.models.range _ hsi)
      have hcopy : (Reply.copy (c.insn q.op1).op1).Converts c ρ q ↔
          Agree q.type (ρ (c.insn q.op1).op1) (q.converted c ρ) := and_iff_right h1
      rw [hcopy, converted_bitcast hop hti hmidi, hx, ← hself, hself]
      have hlow := low_low (x := ρ (c.insn q.op1).op1) hsizeq
      rw [hself] at hlow
      exact hlow
    · have hti := isInt_or_isFp ht (h2 ▸ hsi.1)
      have hrestart : (Reply.restart c { q with op1 := (c.insn q.op1).op1 }).Converts c ρ q ↔
          Agree q.type (Question.converted c ρ { q with op1 := (c.insn q.op1).op1 }) (q.converted c ρ) :=
        ⟨fun h => h.2.2, fun h => ⟨rfl, hnew, h⟩⟩
      rw [hrestart, converted_bitcast (q := { q with op1 := (c.insn q.op1).op1 }) hop hti hsi,
        converted_bitcast hop hti hmidi, hx]
      exact low_low hsizeq
    · refine iff_of_true trivial (hfp (Or.inr (Or.inr (ht.resolve_left fun hi => h2 ?_))))
      rw [hsi.1, hi.1]

end Chains

/-! ## Comparisons -/

section Compare

variable {c : Ctx} {ρ : ℤ → ℤ} {q : Question} {t u : IrType} {v : Val}

/-- The constant in the type of the operand has the bits it had. -/
theorem toU_readAs (ht : IsInt t) : toU (bits t) ((readAs t v).toNat : ℤ) = toU (bits t) v.toNat := by
  have hofInt : ∀ n : ℤ, toU 64 ((BitVec.ofInt 64 n).toNat : ℤ) = toU 64 n := fun n => by
    rw [BitVec.toNat_ofInt]
    unfold toU
    omega
  have hle : bits t ≤ 64 := by cases t <;> decide
  have hsigned : ∀ {w : ℕ}, bits t ≤ w →
      toU (bits t) ((BitVec.ofInt 64 (toI w v.toNat)).toNat : ℤ) = toU (bits t) v.toNat := fun {w} hw => by
    rw [← toU_toU hle, hofInt, toU_toU hle, toU_toI hw]
  have hunsigned : ∀ {w : ℕ}, bits t ≤ w →
      toU (bits t) ((BitVec.ofInt 64 (toU w v.toNat)).toNat : ℤ) = toU (bits t) v.toNat := fun {w} hw => by
    rw [← toU_toU hle, hofInt, toU_toU hle, toU_toU hw]
  unfold readAs
  have hbits : bits t = 8 * t.size := rfl
  split_ifs
  · split
    · exact hsigned (by omega)
    · exact hsigned (by omega)
    · exact hsigned (by omega)
    · rfl
  · split
    · exact hunsigned (by omega)
    · exact hunsigned (by omega)
    · exact hunsigned (by omega)
    · rfl

/-- What `EQ` and `NE` say. -/
def equality (o : IrOp) (b : Prop) [Decidable b] : ℤ := if decide b = decide (o = .eq) then 1 else 0

theorem result_equality {o : IrOp} (ho : o = .eq ∨ o = .ne) (x y : ℤ) :
    result o .bool t u x y = equality o (x = wrap t y) := by
  unfold equality
  rcases ho with rfl | rfl
  · show (if decide (x = wrap t y) then (1 : ℤ) else 0) = _
    simp
  · show (if decide (x ≠ wrap t y) then (1 : ℤ) else 0) = _
    simp

theorem equality_congr {o : IrOp} {a b : Prop} [Decidable a] [Decidable b] (h : a ↔ b) :
    equality o a = equality o b := by
  unfold equality
  rw [decide_eq_decide.2 h]

/-- What is compared has the bits of what it was made of. -/
theorem eq_wrap_iff (ht : IsInt t) {x : ℤ} (hx : InRange t x) (h : bits u = bits t) {m n : ℤ}
    (hm : toU (bits t) m = toU (bits t) n) : wrap u x = wrap u n ↔ x = wrap t m := by
  rw [← agree_iff_wrap]
  unfold Agree
  rw [h, ← hm]
  constructor
  · intro hagree
    exact (wrap_eq_self ht hx).symm.trans (wrap_congr hagree)
  · rintro rfl
    exact wrap_emod t le_rfl m

theorem converts_withConst {o : IrOp} {r : ℤ} : (Reply.withConst c q o r v t).Converts c ρ q ↔
    Question.Convertible (c.const v t).1 { q with op := o, op1 := r, op2 := (c.const v t).2 } ∧
      Agree q.type (Question.converted (c.const v t).1 ρ
        { q with op := o, op1 := r, op2 := (c.const v t).2 }) (q.converted c ρ) :=
  and_iff_right rfl

/-- The value of a comparison. -/
theorem converted_equality (ho : q.op = .eq ∨ q.op = .ne) (ht : q.type = .bool) :
    q.converted c ρ = equality q.op (ρ q.op1 = wrap (c.insn q.op1).type (ρ q.op2)) := by
  have hres : q.converted c ρ = q.value c ρ := by
    unfold Question.converted
    rcases ho with h | h <;> rw [h]
  rw [hres]
  unfold Question.value
  rw [ht, result_equality ho]

/-- Nothing is asked of the types of a negation. -/
theorem convertible_not (h : q.op = .not) : q.Convertible c where
  converts := by
    rw [h]
    trivial
  compares h' := by
    rw [h] at h'
    rcases h' with h' | h' <;> cases h'
  sums h' := by
    rw [h] at h'
    rcases h' with h' | h' | h' | h' <;> cases h'

variable (hw : c.WellFormed) (hc : c.Typed)

include hw hc

/-- The constants of the rule. -/
theorem number_of_compared {r : ℤ} (h : isUIA (c.insn r).op = true ∨ (c.insn r).op = .cChar) :
    r < 0 ∧ (c.insn r).op.isSymConst = false ∧ (c.insn r).type ≠ .bool ∧ IsInt (c.insn r).type := by
  rcases h with h | h
  · obtain ⟨hneg, hn, hb, ht⟩ := number_of_isUIA hw hc h
    unfold Ctx.isNumber at hn
    simp only [Bool.and_eq_true, decide_eq_true_eq, Bool.not_eq_true'] at hn
    exact ⟨hneg, hn.2, hb, ht⟩
  · have hconst : (c.insn r).op.isConstOp = true := by rw [h]; rfl
    obtain ⟨hneg, hmem⟩ := mem_consts hw hconst
    have hop := hc.consts _ hmem hconst
    rw [h] at hop
    have htype : (c.insn r).type = .char := by
      generalize (c.insn r).type = t at hop
      cases t <;> first | rfl | cases hop
    exact ⟨hneg, by rw [h]; rfl, by rw [htype]; decide, by rw [htype]; decide⟩

/-- A comparison of a reinterpreted operand is one of the operand. -/
theorem cmpBitcast_right {F : FloatOps} (hg : c.Conversions) (hρ : c.Converted ρ) (hq : q.Convertible c)
    (hm : cmpBitcast.Matches c q) (hρ' : ((cmpBitcast.reply F c q).ctx c).Models ρ) :
    (cmpBitcast.reply F c q).Converts c ρ q := by
  obtain ⟨k1, k2, hk1, hk2, hp⟩ := hm
  simp only [cmpBitcast, Bool.and_eq_true, Bool.or_eq_true, decide_eq_true_eq] at hp
  obtain ⟨⟨hop, rfl⟩, hconst⟩ := hp
  have ha : (c.insn q.op1).op = .bitcast := hk1.eq (by decide)
  have hk2' : (c.insn q.op2).op = k2 := hk2.eq (by rintro rfl; rcases hconst with h | h <;> cases h)
  rw [← hk2'] at hconst
  obtain ⟨hneg, hsym, hb2, ht2⟩ := number_of_compared hw hc hconst
  obtain ⟨htype, hmid, hcompat⟩ := hq.compares hop
  have hbmid : (c.insn q.op1).type ≠ .bool := fun h => hb2 (hcompat.bool_iff.1 h)
  have hconv := hg q.op1
  rw [ha] at hconv
  obtain ⟨-, hsrc, hsize⟩ := hconv
  have hvalue : q.converted c ρ =
      equality q.op (ρ q.op1 = wrap (c.insn q.op1).type (c.insn q.op2).val.toNat) := by
    rw [converted_equality hop htype, hρ.models.number _ hneg hsym ht2]
    unfold valueOf
    rw [wrap_wrap hcompat.bits_eq.symm]
  have hreply : cmpBitcast.reply F c q =
      if (c.insn (c.insn q.op1).op1).type = .bool then
        if isNegation q.op (c.insn q.op2).val then .unary c q .not .bool (c.insn q.op1).op1
        else if isIdentity q.op (c.insn q.op2).val then .copy (c.insn q.op1).op1
        else .next
      else if (c.insn (c.insn q.op1).op1).type.isInt then
        .withConst c q q.op (c.insn q.op1).op1
          (readAs (c.insn (c.insn q.op1).op1).type (c.insn q.op2).val) (c.insn (c.insn q.op1).op1).type
      else .next := rfl
  rw [hreply] at hρ' ⊢
  by_cases hbool : (c.insn (c.insn q.op1).op1).type = .bool
  · -- the operand is 0 or 1
    have hs : IsInt (c.insn (c.insn q.op1).op1).type := by rw [hbool]; decide
    have hbit := hρ.models.bool_cases hbool
    have hmid01 : ρ q.op1 = ρ (c.insn q.op1).op1 := by
      rw [node_bitcast hρ ha hmid hs]
      unfold low
      rw [if_neg hbmid]
      rcases hbit with h | h <;> rw [h]
      · exact wrap_bit hmid false
      · exact wrap_bit hmid true
    have hwrap0 : wrap (c.insn q.op1).type ((0 : Val).toNat : ℤ) = 0 := wrap_bit hmid false
    have hwrap1 : wrap (c.insn q.op1).type ((1 : Val).toNat : ℤ) = 1 := wrap_bit hmid true
    rw [if_pos hbool] at hρ' ⊢
    split_ifs at hρ' ⊢ with h1 h2
    · refine ⟨htype.symm, convertible_not rfl, ?_⟩
      have hnot : Question.converted c ρ
          { q with op := .not, type := .bool, op1 := (c.insn q.op1).op1, op2 := 0 } =
          if ρ (c.insn q.op1).op1 = 0 then 1 else 0 := rfl
      rw [hnot, hvalue, hmid01]
      simp only [isNegation, Bool.or_eq_true, Bool.and_eq_true, decide_eq_true_eq] at h1
      unfold equality
      rcases h1 with ⟨ho, hv⟩ | ⟨ho, hv⟩
      · rw [ho, hv, hwrap1]
        rcases hbit with h | h <;> rw [h] <;> exact Agree.refl _ _
      · rw [ho, hv, hwrap0]
        rcases hbit with h | h <;> rw [h] <;> exact Agree.refl _ _
    · refine ⟨hbool.trans htype.symm, ?_⟩
      rw [hvalue, hmid01]
      simp only [isIdentity, Bool.or_eq_true, Bool.and_eq_true, decide_eq_true_eq] at h2
      unfold equality
      rcases h2 with ⟨ho, hv⟩ | ⟨ho, hv⟩
      · rw [ho, hv, hwrap0]
        rcases hbit with h | h <;> rw [h] <;> exact Agree.refl _ _
      · rw [ho, hv, hwrap1]
        rcases hbit with h | h <;> rw [h] <;> exact Agree.refl _ _
    · trivial
  rw [if_neg hbool] at hρ' ⊢
  split_ifs at hρ' ⊢ with hint
  swap
  · trivial
  have hs := isInt_or_isFp hsrc hint
  have hinsn := (grown_const c (readAs (c.insn (c.insn q.op1).op1).type (c.insn q.op2).val)
    (c.insn (c.insn q.op1).op1).type).insn (valid_of_isInt hs)
  have hnew := hρ'.new hw hc hs
  have hlow : ρ q.op1 = wrap (c.insn q.op1).type (ρ (c.insn q.op1).op1) := by
    rw [node_bitcast hρ ha hmid hs]
    exact if_neg hbmid
  rw [converts_withConst, converted_equality (q := { q with
      op1 := (c.insn q.op1).op1
      op2 := (c.const (readAs (c.insn (c.insn q.op1).op1).type (c.insn q.op2).val)
        (c.insn (c.insn q.op1).op1).type).2 }) hop htype]
  refine ⟨⟨?_, fun _ => ⟨htype, ?_, ?_⟩, fun h => ?_⟩, ?_⟩
  · rcases hop with h | h <;> simp only [h, Converts]
  · dsimp only
    rw [hinsn]
    exact hs
  · dsimp only
    rw [hinsn, (const_new hc _ _).1]
    exact Or.inl rfl
  · dsimp only at h
    rcases hop with ho | ho <;> rcases h with h | h | h | h <;> rw [ho] at h <;> cases h
  · dsimp only
    rw [hvalue, hinsn, hnew, hlow]
    unfold constValue valueOf
    rw [if_neg hbool, wrap_wrap rfl, equality_congr (eq_wrap_iff hs (hρ.models.range _ hs)
      (bits_of_size hsize) (toU_readAs hs))]
    exact Agree.refl _ _

end Compare

/-! ## Integers by way of floating point -/

section Fp2Int

variable {F : FloatOps} {c : Ctx} {ρ : ℤ → ℤ} {q : Question} {t : IrType}

theorem truncated_unitsOf (f : Format) (n : ℤ) : truncated f (unitsOf f n) = n :=
  Int.mul_tdiv_cancel n (by positivity)

theorem natAbs_lt_of_inRange (ht : IsInt t) {n : ℤ} (hn : InRange t n) : n.natAbs < 2 ^ bits t := by
  have h8 := eight_le_bits ht
  have hpow : (2 : ℤ) ^ bits t = 2 * 2 ^ (bits t - 1) := by rw [← pow_succ', Nat.sub_add_cancel (by omega)]
  have hcast : ((2 ^ bits t : ℕ) : ℤ) = 2 ^ bits t := by push_cast; rfl
  have hpos : (0 : ℤ) < 2 ^ (bits t - 1) := by positivity
  by_cases hb : t = .bool
  · subst hb
    rcases inRange_bool_cases hn with rfl | rfl <;> decide
  · unfold InRange at hn
    rw [if_neg hb] at hn
    split_ifs at hn <;> omega

/-- The integers of a smaller size than a format are data of the format. -/
theorem exists_unitsOf {u : IrType} (ht : IsInt t) (hu : isFp u = true) (h : t.size < u.size) {n : ℤ}
    (hn : InRange t n) : ∃ p, (format u).decode p = some (unitsOf (format u) n) := by
  have hbound := natAbs_lt_of_inRange ht hn
  have hfp : u = .float ∨ u = .double := by
    cases u <;> first | exact Or.inl rfl | exact Or.inr rfl | exact absurd hu (by decide)
  rcases hfp with rfl | rfl
  · have hle : bits t ≤ 24 := by
      have h4 : IrType.size .float = 4 := rfl
      unfold bits
      omega
    exact exists_decode (by decide) (by decide) n
      (hbound.trans_le (Nat.pow_le_pow_right (by norm_num) hle))
  · have hle : bits t ≤ 53 := by
      have h8 : IrType.size .double = 8 := rfl
      cases t <;> simp [bits, IrType.size] at h ⊢
    exact exists_decode (by decide) (by decide) n
      (hbound.trans_le (Nat.pow_le_pow_right (by norm_num) hle))

/-- An integer is what it was before it was a float. -/
theorem fp2intInt2fp_right (hg : c.Conversions) (hρ : c.Converted ρ)
    (hm : fp2intInt2fp.Matches c q) : (fp2intInt2fp.reply F c q).Converts c ρ q := by
  obtain ⟨k1, k2, hk1, -, hp⟩ := hm
  simp only [fp2intInt2fp, Bool.and_eq_true, decide_eq_true_eq] at hp
  obtain ⟨⟨hop, rfl⟩, -⟩ := hp
  have ha : (c.insn q.op1).op = .int2fp := hk1.eq (by decide)
  have hconv := hg q.op1
  rw [ha] at hconv
  obtain ⟨hfp, hsrc⟩ := hconv
  have hreply : fp2intInt2fp.reply F c q =
      if (c.insn (c.insn q.op1).op1).type.size ≥ (c.insn q.op1).type.size then .next
      else if (c.insn (c.insn q.op1).op1).type = q.type then .copy (c.insn q.op1).op1 else .next := rfl
  rw [hreply]
  split_ifs with hsize htype
  · trivial
  · refine ⟨htype, ?_⟩
    have hrange := hρ.models.range _ hsrc
    obtain ⟨p, hp⟩ := exists_unitsOf hsrc hfp (not_le.1 hsize) hrange
    have hvalue : q.converted c ρ = wrap q.type (ρ (c.insn q.op1).op1) := by
      unfold Question.converted
      rw [hop]
      dsimp only
      rw [hρ.int2fp q.op1 ha p hp, hp]
      exact congrArg (wrap q.type) (truncated_unitsOf _ _)
    rw [hvalue]
    exact (wrap_emod q.type le_rfl _).symm
  · trivial

end Fp2Int

/-! ## Sums with zero -/

section Zero

variable {F : FloatOps} {c : Ctx} {ρ : ℤ → ℤ} {q : Question} (hw : c.WellFormed) (hc : c.Typed)
  (hρ : c.Converted ρ) (hq : q.Convertible c)

/-- The sums and differences, with a flag or without. -/
def isSum (o : IrOp) : Bool := o = .add || o = .sub || o = .addOv || o = .subOv

theorem isSum_cases {o : IrOp} (h : isSum o = true) : o = .add ∨ o = .sub ∨ o = .addOv ∨ o = .subOv := by
  simpa [isSum, or_assoc] using h

theorem accepts_of_isSum {o : IrOp} (h : isSum o = true) {t t₁ t₂ : IrType} (ha : Accepts o t t₁ t₂) :
    Compat t t₁ ∧ Compat t t₂ := by
  rcases isSum_cases h with rfl | rfl | rfl | rfl <;> exact ha

/-- The operand in the type that is asked for. -/
theorem converts_castOr {r : ℤ} (hcompat : Compat q.type (c.insn r).type) (hint : IsInt q.type)
    (hb : q.type ≠ .bool) (h : Agree q.type (ρ r) (q.converted c ρ)) :
    (castOr c q r).Converts c ρ q := by
  have ht := hcompat.isInt hint
  unfold castOr
  split_ifs with htype
  · have hconv : Converts .bitcast q.type (c.insn r).type :=
      ⟨Or.inl hint, Or.inl ht, Nat.eq_of_mul_eq_mul_left (by norm_num) hcompat.bits_eq⟩
    refine ⟨rfl, convertible_of (Or.inr (Or.inr (Or.inr rfl))) hconv, ?_⟩
    have hlow : Agree q.type (low q.type (ρ r)) (ρ r) := toU_low hb le_rfl
    exact (converted_bitcast (q := { q with op := .bitcast, op1 := r, op2 := 0 }) rfl hint ht).symm ▸
      hlow.trans h
  · exact ⟨not_not.1 htype, h⟩

include hw hc hρ hq

/-- A constant 0 on the right. -/
theorem addZero_right (hm : addZero.Matches c q) : (addZero.reply F c q).Converts c ρ q := by
  obtain ⟨k1, k2, -, hk2, hp⟩ := hm
  have hp' : (isSum q.op = true ∧ k1 = .nop) ∧ isUIA k2 = true := by simpa [addZero, isSum] using hp
  obtain ⟨⟨hsum, -⟩, hconst⟩ := hp'
  have hk2' : (c.insn q.op2).op = k2 := hk2.eq (by rintro rfl; cases hconst)
  rw [← hk2'] at hconst
  obtain ⟨hneg, hsym, hb2, ht2⟩ := number_of_compared hw hc (Or.inl hconst)
  obtain ⟨hint, hacc⟩ := hq.sums (isSum_cases hsum)
  obtain ⟨h1, h2⟩ := accepts_of_isSum hsum hacc
  have hb : q.type ≠ .bool := fun h => hb2 (h2.bool_iff.1 h)
  have hreply : addZero.reply F c q =
      if (c.insn q.op2).val = 0 then castOr c q q.op1 else .next := rfl
  rw [hreply]
  split_ifs with h0
  · refine converts_castOr h1 hint hb ?_
    have hzero : ρ q.op2 = 0 := by
      rw [hρ.models.number _ hneg hsym ht2, h0]
      exact valueOf_zero ht2
    have hvalue : q.converted c ρ = wrap q.type (ρ q.op1) := by
      unfold Question.converted Question.value
      rcases isSum_cases hsum with h | h | h | h <;> rw [h, hzero]
      · exact congrArg (wrap q.type) (add_zero _)
      · exact congrArg (wrap q.type) (sub_zero _)
      · exact congrArg (wrap q.type) (add_zero _)
      · exact congrArg (wrap q.type) (sub_zero _)
    rw [hvalue]
    exact (wrap_emod q.type le_rfl _).symm
  · trivial

/-- A constant 0 on the left. -/
theorem zeroAdd_right (hm : zeroAdd.Matches c q) : (zeroAdd.reply F c q).Converts c ρ q := by
  obtain ⟨k1, k2, hk1, -, hp⟩ := hm
  simp only [zeroAdd, Bool.and_eq_true, decide_eq_true_eq] at hp
  obtain ⟨⟨hop, hconst⟩, -⟩ := hp
  have hk1' : (c.insn q.op1).op = k1 := hk1.eq (by rintro rfl; cases hconst)
  rw [← hk1'] at hconst
  obtain ⟨hneg, hsym, hb1, ht1⟩ := number_of_compared hw hc (Or.inl hconst)
  obtain ⟨hint, hacc⟩ := hq.sums (Or.inl hop)
  obtain ⟨h1, h2⟩ := accepts_of_isSum (by rw [hop]; rfl) hacc
  have hb : q.type ≠ .bool := fun h => hb1 (h1.bool_iff.1 h)
  have hreply : zeroAdd.reply F c q =
      if (c.insn q.op1).val = 0 then castOr c q q.op2 else .next := rfl
  rw [hreply]
  split_ifs with h0
  · refine converts_castOr h2 hint hb ?_
    have hzero : ρ q.op1 = 0 := by
      rw [hρ.models.number _ hneg hsym ht1, h0]
      exact valueOf_zero ht1
    have hvalue : q.converted c ρ = wrap q.type (ρ q.op2) := by
      unfold Question.converted Question.value
      rw [hop, hzero]
      exact congrArg (wrap q.type) (zero_add _)
    rw [hvalue]
    exact (wrap_emod q.type le_rfl _).symm
  · trivial

end Zero

/-! ## All rules -/

/-- The rules of the group and when each of them keeps the type and the value. -/
def conversions : List (Rule × (Ctx → (ℤ → ℤ) → Question → Prop)) :=
  [(truncExt, Always), (convertBitcast, ThroughBool), (bitcastTwice, ThroughBool), (convertTwice, Always),
    (sextZext, Always), (cmpBitcast, Always), (fp2intInt2fp, Always), (addZero, Always), (zeroAdd, Always)]

section All

variable {F : FloatOps} {c : Ctx} {ρ : ℤ → ℤ} {q : Question} {r : Rule}
  {P : Ctx → (ℤ → ℤ) → Question → Prop}

theorem mem_rules_of_conversions (h : (r, P) ∈ conversions) : r ∈ rules := by
  simp only [conversions, List.mem_cons, Prod.mk.injEq, List.not_mem_nil, or_false] at h
  rcases h with ⟨rfl, -⟩ | ⟨rfl, -⟩ | ⟨rfl, -⟩ | ⟨rfl, -⟩ | ⟨rfl, -⟩ | ⟨rfl, -⟩ | ⟨rfl, -⟩ | ⟨rfl, -⟩ |
    ⟨rfl, -⟩ <;>
    simp [rules, restarting, answering]

/-- The values of a graph when it has grown. -/
theorem Ctx.Converted.reply (hr : r ∈ rules) (hw : c.WellFormed)
    (hρ : ((r.reply F c q).ctx c).Converted ρ) : c.Converted ρ := by
  have hg := grown_reply (F := F) (c := c) (q := q) hr
  obtain ⟨W, hW⟩ := exists_weighed hw
  have hinsn : ∀ {s : ℤ}, isDataOp (c.insn s).op = true →
      ((r.reply F c q).ctx c).insn s = c.insn s ∧
        ((r.reply F c q).ctx c).insn (c.insn s).op1 = c.insn (c.insn s).op1 := fun {s} ho => by
    refine ⟨hg.insn ?_, hg.insn (hW.one s ho).1⟩
    by_contra hv
    rw [insn_of_not_valid hv] at ho
    cases ho
  refine ⟨hρ.models.mono hw hg, fun s ho hfp => ?_, fun s ho p hp => ?_⟩
  · obtain ⟨hs, h1⟩ := hinsn (s := s) (by rw [ho]; rfl)
    have h := hρ.bitcast s (by rwa [hs]) (by rwa [hs, h1])
    rwa [hs] at h
  · obtain ⟨hs, -⟩ := hinsn (s := s) (by rw [ho]; rfl)
    have h := hρ.int2fp s (by rwa [hs]) p (by rwa [hs])
    rwa [hs] at h

/-- What a rule of the list replies has the type and the value of the question, if and only if the condition
of the rule holds. -/
theorem convert_right_iff (hr : (r, P) ∈ conversions) (hw : c.WellFormed) (hc : c.Typed)
    (hg : c.Conversions) (hq : q.Convertible c) (hm : r.Matches c q)
    (hρ : ((r.reply F c q).ctx c).Converted ρ) : (r.reply F c q).Converts c ρ q ↔ P c ρ q := by
  have hρ' := hρ.reply (mem_rules_of_conversions hr) hw
  simp only [conversions, List.mem_cons, Prod.mk.injEq, List.not_mem_nil, or_false] at hr
  rcases hr with ⟨rfl, rfl⟩ | ⟨rfl, rfl⟩ | ⟨rfl, rfl⟩ | ⟨rfl, rfl⟩ | ⟨rfl, rfl⟩ | ⟨rfl, rfl⟩ |
    ⟨rfl, rfl⟩ | ⟨rfl, rfl⟩ | ⟨rfl, rfl⟩
  · exact iff_of_true (truncExt_right hg hρ' hq hm) trivial
  · exact convertBitcast_right_iff hg hρ' hq hm
  · exact bitcastTwice_right_iff hg hρ' hq hm
  · exact iff_of_true (convertTwice_right hg hρ' hq hm) trivial
  · exact iff_of_true (sextZext_right hg hρ' hq hm) trivial
  · exact iff_of_true (cmpBitcast_right hw hc hg hρ' hq hm hρ.models) trivial
  · exact iff_of_true (fp2intInt2fp_right hg hρ' hm) trivial
  · exact iff_of_true (addZero_right hw hc hρ' hq hm) trivial
  · exact iff_of_true (zeroAdd_right hw hc hρ' hq hm) trivial

end All

/-- A byte, read as a boolean. -/
def byteCtx : Ctx where
  consts := [⟨.cAddr, .addr, 0, 0, 0, 0⟩, ⟨.cBool, .bool, 0, 0, 0, 0⟩, ⟨.cBool, .bool, 0, 0, 0, 1⟩]
  insns := [⟨.nop, .void, 0, 0, 0, 0⟩, ⟨.start, .void, 0, 0, 0, 0⟩, ⟨.param, .u8, 1, 0, 0, 0⟩,
    ⟨.bitcast, .bool, 2, 0, 0, 0⟩]
  useLists := none

/-- The run in which the byte is 2. -/
def byteRun (r : ℤ) : ℤ :=
  match r with
  | -3 => 1
  | 2 => 2
  | 3 => 1
  | _ => 0

theorem byteCtx_wellFormed : byteCtx.WellFormed :=
  wellFormed_of_check (by decide) rfl (by decide) (by decide) ⟨rfl, rfl, rfl⟩ (by decide)

theorem byteCtx_typed : byteCtx.Typed :=
  typed_of_check (by decide) (by decide) (by decide)

instance (op : IrOp) (t t₁ : IrType) : Decidable (Converts op t t₁) := by
  unfold Converts
  split <;> infer_instance

theorem byteCtx_conversions : byteCtx.Conversions :=
  forall_of_refs (fun r h => by rw [h]; trivial) (by decide)

theorem byteCtx_converted : byteCtx.Converted byteRun where
  models := models_of_check (by decide) (by decide) (by decide)
  bitcast := forall_of_refs (fun r h ho => by rw [h] at ho; cases ho) (by decide)
  int2fp r ho := by
    have hne : (byteCtx.insn r).op ≠ .int2fp :=
      forall_of_refs (P := fun r => (byteCtx.insn r).op ≠ .int2fp) (fun r h => by rw [h]; decide)
        (by decide) r
    exact absurd ho hne

/-- The boolean as a number of 32 bits. -/
def byteQuestion : Question := ⟨.zext, .u32, 3, 0, 0⟩

theorem byteQuestion_convertible : byteQuestion.Convertible byteCtx :=
  convertible_of (Or.inr (Or.inl rfl)) (by decide)

theorem convertBitcast_matches : convertBitcast.Matches byteCtx byteQuestion :=
  ⟨.bitcast, .nop, Or.inr rfl, Or.inr rfl, rfl⟩

/-- The boolean is 1, the rule asks for the byte, which is 2. -/
theorem convert_not_right : ¬∀ (F : FloatOps) (c : Ctx) (ρ : ℤ → ℤ) (q : Question) (r : Rule)
    (P : Ctx → (ℤ → ℤ) → Question → Prop), (r, P) ∈ conversions → c.WellFormed → c.Typed →
    c.Conversions → q.Convertible c → r.Matches c q → ((r.reply F c q).ctx c).Converted ρ →
    (r.reply F c q).Converts c ρ q := by
  intro h
  have hright := h noFloats byteCtx byteRun byteQuestion convertBitcast ThroughBool (by simp [conversions])
    byteCtx_wellFormed byteCtx_typed byteCtx_conversions byteQuestion_convertible convertBitcast_matches
    byteCtx_converted
  have hagree : Agree .u32 2 1 := hright.2.2
  exact absurd hagree (by decide)

theorem convert_right_iff_byte :
    (convertBitcast.reply noFloats byteCtx byteQuestion).Converts byteCtx byteRun byteQuestion ↔
      ThroughBool byteCtx byteRun byteQuestion :=
  convert_right_iff (by simp [conversions]) byteCtx_wellFormed byteCtx_typed byteCtx_conversions
    byteQuestion_convertible convertBitcast_matches byteCtx_converted

end IrJit.Fold
