import IrJit.Fold.Expressions

/-!
# Fold.Undefined — when the constant rules stay within C

`Defined` is the condition on the constants under which every expression of a rule is defined, and the
rules have the outcomes that `Fold.Const` and `Fold.Rules` give them wherever they are defined.
-/

namespace IrJit.Fold

open CArith

/-- The types with rules for `DIV` and `MOD`. -/
def Divides (t : IrType) : Prop := IsInt t ∧ t ≠ .bool ∧ t ≠ .char

instance (t : IrType) : Decidable (Divides t) := by
  unfold Divides IsInt
  infer_instance

/-- The condition on two constants under which no expression of the rule of an opcode is undefined. -/
def Defined (op : IrOp) (t : IrType) (a b : Val) : Prop :=
  match op with
  -- the rule tests the whole divisor for zero and divides by its low bits
  | .div => Divides t → u64 b ≠ 0 → valueOf t b ≠ 0 ∧
      ¬(t = .i32 ∧ i32 a = -2 ^ 31 ∧ i32 b = -1 ∧ i64 b ≠ -1)
  -- the rule tests the divisor for zero only
  | .mod => Divides t → t.isSigned = true → ¬(i64 a = -2 ^ 63 ∧ i64 b = -1)
  -- the product is divided by the first factor again
  | .mulOv => Divides t → t.isSigned = true → ¬(i64 a = -1 ∧ i64 b = -2 ^ 63)
  | .rol | .ror => Wide t → count (bits t) b ≠ 0
  | _ => True

theorem isSome_ite_none {α : Type} {p : Prop} [Decidable p] (x : α) :
    (if p then none else some x).isSome ↔ ¬p := by
  split_ifs with h <;> simp [h]

theorem isSome_guard {α : Type} {g p : Prop} [Decidable g] [Decidable p] (x y : α) :
    (if g then some x else if p then none else some y).isSome ↔ ¬g → ¬p := by
  split_ifs <;> simp [*]

theorem u64_eq_zero_iff (v : Val) : u64 v = 0 ↔ i64 v = 0 := by
  have := v.isLt
  simp only [i64, toI, u64]
  omega

theorem div_defined (t : IrType) (a b : Val) :
    (evaluate .div t a b).isSome ↔ Defined .div t a b := by
  have hb := u64_eq_zero_iff b
  have ha := i64_eq_min_iff a
  cases t
  case u8 | u16 | u32 | u64 | addr =>
    simp only [evaluate]
    rw [divideU_eq (by decide), isSome_guard]
    simp [Defined, Divides, IsInt, IrType.isInt, valueOf, wrap, IrType.isSigned, bits, IrType.size]
  case i8 | i16 | i32 =>
    simp only [evaluate]
    rw [divideI_eq (by decide), isSome_guard]
    simp [Defined, Divides, IsInt, IrType.isInt, valueOf, wrap, IrType.isSigned, bits, IrType.size,
      hb, i32]
    simp only [i64, toI, toU]
    omega
  case i64 =>
    simp only [evaluate]
    rw [divideI_eq (by decide), isSome_guard, toU_64]
    simp [Defined, Divides, IsInt, IrType.isInt, valueOf, wrap, IrType.isSigned, bits, IrType.size,
      hb]
    rw [show toI 64 (b.toNat : ℤ) = i64 b from rfl, show toI 64 (a.toNat : ℤ) = i64 a from rfl]
    omega
  all_goals simp [evaluate, Defined, Divides, IsInt, IrType.isInt]

theorem mod_defined (t : IrType) (a b : Val) :
    (evaluate .mod t a b).isSome ↔ Defined .mod t a b := by
  cases t
  case i8 | i16 | i32 | i64 =>
    simp only [evaluate]
    rw [moduloI_eq, isSome_guard]
    simp [Defined, Divides, IsInt, IrType.isInt, IrType.isSigned]
    omega
  all_goals simp [evaluate, moduloU_eq, Defined, Divides, IsInt, IrType.isInt, IrType.isSigned]

/-- The product is `-2 ^ 63` if the other factor is. -/
theorem product_eq_min_iff {a b : Val} (ha : i64 a = -1) :
    toI 64 (u64 a * u64 b) = -2 ^ 63 ↔ i64 b = -2 ^ 63 := by
  have hu : u64 a = 18446744073709551615 := by
    have := a.isLt
    simp only [i64, toI] at ha
    simp only [u64]
    omega
  have hmul : (u64 a * u64 b + 9223372036854775808) % 18446744073709551616 =
      (9223372036854775808 - u64 b) % 18446744073709551616 := by
    rw [hu, show 18446744073709551615 * u64 b + 9223372036854775808 =
      9223372036854775808 - u64 b + 18446744073709551616 * u64 b by ring, Int.add_mul_emod_self_left]
  have hb := u64_range b
  have htoI : toI 64 (u64 a * u64 b) =
      (9223372036854775808 - u64 b) % 18446744073709551616 - 9223372036854775808 := by
    rw [← hmul]
    rfl
  rw [i64_eq_min_iff, htoI]
  generalize u64 b = n at hb
  omega

theorem mulOv_defined (t : IrType) (a b : Val) :
    (evaluate .mulOv t a b).isSome ↔ Defined .mulOv t a b := by
  cases t
  case u8 | u16 | u32 | u64 =>
    rw [evaluate, mulOverflowU_eq (by simp [IsSize, IrType.size])]
    exact iff_of_true Option.isSome_some fun _ hs => absurd hs (by decide)
  case i8 | i16 | i32 | i64 =>
    rw [evaluate, mulOverflowI_eq (by simp [IsSize, IrType.size]), isSome_ite_none]
    constructor
    · intro h _ _ hc
      exact h ⟨hc.1, (product_eq_min_iff hc.1).mpr hc.2⟩
    · intro h hc
      exact h (by decide) rfl ⟨hc.1, (product_eq_min_iff hc.1).mp hc.2⟩
  case addr => exact iff_of_true Option.isSome_some fun _ hs => absurd hs (by decide)
  all_goals exact iff_of_true Option.isSome_some fun hd => absurd hd (by decide)

theorem rotate_defined {rot : ℕ → CVal → CVal → Option CVal} {r : (w : ℕ) → BitVec w → ℕ → BitVec w}
    (h : ∀ {w}, IsWidth w → ∀ a {k}, k < w → rot w (memberU w a) ⟨uint w, k⟩ =
      if 32 ≤ w ∧ k = 0 then none else some ⟨uint w, (r w (a.setWidth w) k).toNat⟩)
    (t : IrType) (a b : Val) :
    (rotateRule rot t a b).isSome ↔ (Wide t → count (bits t) b ≠ 0) := by
  have hw8 : IsWidth 8 := by simp [IsWidth]
  have hw16 : IsWidth 16 := by simp [IsWidth]
  have hw32 : IsWidth 32 := by simp [IsWidth]
  have hw64 : IsWidth 64 := by simp [IsWidth]
  cases t <;> simp only [rotateRule]
  case u8 | char => rw [rotateU_eq hw8 (h hw8), isSome_ite_none]; simp [Wide]
  case u16 => rw [rotateU_eq hw16 (h hw16), isSome_ite_none]; simp [Wide]
  case i8 => rw [rotateI_eq hw8 (h hw8), isSome_ite_none]; simp [Wide]
  case i16 => rw [rotateI_eq hw16 (h hw16), isSome_ite_none]; simp [Wide]
  case u32 => rw [rotateU_eq hw32 (h hw32), isSome_ite_none]; simp [Wide, bits, IrType.size]
  case i32 => rw [rotateI_eq hw32 (h hw32), isSome_ite_none]; simp [Wide, bits, IrType.size]
  case u64 | i64 => rw [rotateU_eq hw64 (h hw64), isSome_ite_none]; simp [Wide, bits, IrType.size]
  all_goals simp [Wide]

/-- The other rules never leave what C defines. -/
theorem always_defined {op : IrOp} (h : op = .neg ∨ op = .abs ∨ op = .addOv ∨ op = .subOv)
    (t : IrType) (a b : Val) : (evaluate op t a b).isSome := by
  rcases h with rfl | rfl | rfl | rfl
  · cases t <;> simp [evaluate, negate_eq, negate32_eq, negate64_eq]
  · cases t <;> simp [evaluate, absolute_eq, absolute32_eq, absolute64_eq]
  · cases t
    case u8 | u16 | u32 | u64 =>
      rw [evaluate, addOverflowU_eq (by simp [IsSize, IrType.size]), Option.isSome_some]
    case i8 | i16 | i32 | i64 =>
      rw [evaluate, addOverflowI_eq (by simp [IsSize, IrType.size]), Option.isSome_some]
    all_goals exact Option.isSome_some
  · cases t
    case u8 | u16 | u32 | u64 => rw [evaluate, subOverflowU_eq, Option.isSome_some]
    case i8 | i16 | i32 | i64 =>
      rw [evaluate, subOverflowI_eq (by simp [IsSize, IrType.size]), Option.isSome_some]
    all_goals exact Option.isSome_some

/-- No expression that a constant rule evaluates traps or is undefined, exactly under the condition. -/
theorem evaluate_isSome_iff (op : IrOp) (t : IrType) (a b : Val) :
    (evaluate op t a b).isSome ↔ Defined op t a b := by
  cases op
  case div => exact div_defined t a b
  case mod => exact mod_defined t a b
  case mulOv => exact mulOv_defined t a b
  case rol => exact rotate_defined (fun hw a _ hk => irRol_eq hk a hw) t a b
  case ror => exact rotate_defined (fun hw a _ hk => irRor_eq hk a hw) t a b
  case neg | abs | addOv | subOv => exact iff_of_true (always_defined (by simp) t a b) trivial
  all_goals exact iff_of_true rfl trivial

/-- A remainder whose quotient is undefined, as the rule for `MOD` of two `int64_t` takes it. -/
theorem not_always_evaluated : ¬∀ (op : IrOp) (t : IrType) (a b : Val), (evaluate op t a b).isSome := by
  intro h
  have hmin := h .mod .i64 (BitVec.ofInt 64 (-2 ^ 63)) (BitVec.ofInt 64 (-1))
  rw [evaluate, moduloI_eq, isSome_guard] at hmin
  refine hmin ?_ ⟨?_, ?_⟩ <;> rw [i64_ofInt] <;> norm_num

/-! ## The outcomes -/

variable {t : IrType} {a b : Val} {o : Outcome}

section Overflow

variable {u : IrType} {x y : Val}

variable (F : FloatOps) (c : Ctx) (q : Question) (i j : Insn)

end Overflow

end IrJit.Fold
