import IrJit.Fold.Rules
import IrJit.Fold.Exact
import IrJit.Lib.CArith

/-!
# Fold.Expressions — the C expressions of the constant rules (`ir_fold.h`, 588–898, `ir_private.h`, 72–108)

The rules of `DIV`, `MOD`, `NEG`, `ABS`, `ADD_OV`, `SUB_OV`, `MUL_OV`, `ROL` and `ROR` once more, with every
operation in its C type.  A rule has no outcome if one of them is undefined; else it has the outcome of the
rules of `Fold.Const` and `Fold.Rules`, which work with the results only.
-/

namespace IrJit.Fold

open CArith

/-! ## The rules -/

/-- `val.u8 … val.u64`. -/
def memberU (w : ℕ) (v : Val) : CVal := ⟨uint w, toU w v.toNat⟩

/-- `val.i8 … val.i64`. -/
def memberI (w : ℕ) (v : Val) : CVal := ⟨sint w, toI w v.toNat⟩

/-- `IR_FOLD_CONST_U` and `IR_FOLD_CONST_I` of an expression. -/
def stored (e : Option CVal) : Option Outcome := e.map fun r => constU r.val

def divideU (w : ℕ) (a b : Val) : Option Outcome :=
  if u64 b = 0 then some .emit else stored (div (memberU w a) (memberU w b))

def divideI (w : ℕ) (a b : Val) : Option Outcome :=
  if i64 b = 0 ∨ (i64 b = -1 ∧ toU w a.toNat = 2 ^ (w - 1)) then some .emit
  else stored (div (memberI w a) (memberI w b))

def moduloU (a b : Val) : Option Outcome :=
  if u64 b = 0 then some .emit else stored (mod (memberU 64 a) (memberU 64 b))

def moduloI (a b : Val) : Option Outcome :=
  if i64 b = 0 then some .emit else stored (mod (memberI 64 a) (memberI 64 b))

/-- `(int8_t)(0 - val.u8)`, and the same of 16 and 32 bits. -/
def negate (w : ℕ) (a : Val) : Option Outcome :=
  stored ((sub (lit 0) (memberU w a)).map (cast (sint w)))

def negate64 (a : Val) : Option Outcome := stored (sub (lit 0) (memberU 64 a))

/-- `-val.i8` and `-val.i16`. -/
def absolute (w : ℕ) (a : Val) : Option Outcome :=
  if i64 a ≥ 0 then some (.const a) else stored (neg (memberI w a))

/-- `(int32_t)-val.u32`. -/
def absolute32 (a : Val) : Option Outcome :=
  if i64 a ≥ 0 then some (.const a) else stored ((neg (memberU 32 a)).map (cast (sint 32)))

def absolute64 (a : Val) : Option Outcome :=
  if i64 a ≥ 0 then some (.const a) else stored (neg (memberU 64 a))

/-- `((uint64_t)0xffffffffffffffff) >> (64 - ir_type_size[type] * 8)`. -/
def maxExprU (size : ℕ) : Option CVal := do
  shr ⟨uint 64, 2 ^ 64 - 1⟩ (← sub (lit 64) (lit (8 * size)))

/-- The same of `0x7fffffffffffffff`, as an `int64_t`. -/
def maxExprI (size : ℕ) : Option CVal := do
  return cast (sint 64) (← shr ⟨uint 64, 2 ^ 63 - 1⟩ (← sub (lit 64) (lit (8 * size))))

/-- `- max - 1`. -/
def minExprI (max : CVal) : Option CVal := do sub (← neg max) (lit 1)

def addOverflowU (size : ℕ) (a b : Val) : Option Outcome := do
  let max ← maxExprU size
  let limit ← sub max (memberU 64 b)
  if u64 a > limit.val then return .next
  stored (add (memberU 64 a) (memberU 64 b))

/-- The right operand of `&&` is not evaluated when the left one is false. -/
def andThen (p : Prop) [Decidable p] (e : Option CVal) (test : ℤ → Bool) : Option Bool :=
  if p then e.map fun r => test r.val else some false

def addOverflowI (size : ℕ) (a b : Val) : Option Outcome := do
  let max ← maxExprI size
  let min ← minExprI max
  let above ← andThen (i64 b > 0) (sub max (memberI 64 b)) fun limit => i64 a > limit
  if above then return .next
  let below ← andThen (i64 b < 0) (sub min (memberI 64 b)) fun limit => i64 a < limit
  if below then return .next
  stored (add (memberI 64 a) (memberI 64 b))

def subOverflowU (a b : Val) : Option Outcome :=
  if u64 b > u64 a then some .next else stored (sub (memberU 64 a) (memberU 64 b))

def subOverflowI (size : ℕ) (a b : Val) : Option Outcome := do
  let max ← maxExprI size
  let min ← minExprI max
  let below ← andThen (i64 b > 0) (add min (memberI 64 b)) fun limit => i64 a < limit
  if below then return .next
  let above ← andThen (i64 b < 0) (add max (memberI 64 b)) fun limit => i64 a > limit
  if above then return .next
  stored (sub (memberI 64 a) (memberI 64 b))

def mulOverflowU (size : ℕ) (a b : Val) : Option Outcome := do
  let max ← maxExprU size
  let res ← mul (memberU 64 a) (memberU 64 b)
  let wrong ← andThen (u64 a ≠ 0) (div res (memberU 64 a)) fun quotient => quotient ≠ u64 b
  if wrong ∨ res.val > max.val then return .next
  return constU res.val

def mulOverflowI (size : ℕ) (a b : Val) : Option Outcome := do
  let max ← maxExprI size
  let min ← minExprI max
  let res := cast (sint 64) (← mul (memberU 64 a) (memberU 64 b))
  let wrong ← andThen (i64 a ≠ 0) (div res (memberI 64 a)) fun quotient => quotient ≠ i64 b
  if wrong ∨ res.val < min.val ∨ res.val > max.val then return .next
  return constU res.val

/-- `ir_rol8 … ir_rol64`: the arguments and the result are of type `uint8_t … uint64_t`. -/
def irRol (w : ℕ) (x k : CVal) : Option CVal := do
  return cast (uint w) (or (← shl x k) (← shr x (← sub (lit w) k)))

/-- `ir_ror8 … ir_ror64`. -/
def irRor (w : ℕ) (x k : CVal) : Option CVal := do
  return cast (uint w) (or (← shr x k) (← shl x (← sub (lit w) k)))

/-- `val.u8 & 0x7`, as an argument of type `uint8_t`, and the same of the other widths. -/
def countOf (w : ℕ) (b : Val) : CVal := ⟨uint w, count w b⟩

def rotateU (rot : ℕ → CVal → CVal → Option CVal) (w : ℕ) (a b : Val) : Option Outcome :=
  stored (rot w (memberU w a) (countOf w b))

/-- The result is cast to the signed type. -/
def rotateI (rot : ℕ → CVal → CVal → Option CVal) (w : ℕ) (a b : Val) : Option Outcome :=
  stored ((rot w (memberU w a) (countOf w b)).map (cast (sint w)))

def rotateRule (rot : ℕ → CVal → CVal → Option CVal) (t : IrType) (a b : Val) : Option Outcome :=
  match t with
  | .u8 | .char => rotateU rot 8 a b
  | .u16 => rotateU rot 16 a b
  | .u32 => rotateU rot 32 a b
  | .u64 | .i64 => rotateU rot 64 a b
  | .i8 => rotateI rot 8 a b
  | .i16 => rotateI rot 16 a b
  | .i32 => rotateI rot 32 a b
  | _ => some .next

/-- The rule of an opcode for constants of type `t`; the other opcodes and types are passed on. -/
def evaluate (op : IrOp) (t : IrType) (a b : Val) : Option Outcome :=
  match op, t with
  | .div, .u8 => divideU 8 a b
  | .div, .u16 => divideU 16 a b
  | .div, .u32 => divideU 32 a b
  | .div, .u64 | .div, .addr => divideU 64 a b
  | .div, .i8 => divideI 8 a b
  | .div, .i16 => divideI 16 a b
  | .div, .i32 => divideI 32 a b
  | .div, .i64 => divideI 64 a b
  | .mod, .u8 | .mod, .u16 | .mod, .u32 | .mod, .u64 | .mod, .addr => moduloU a b
  | .mod, .i8 | .mod, .i16 | .mod, .i32 | .mod, .i64 => moduloI a b
  | .neg, .i8 => negate 8 a
  | .neg, .i16 => negate 16 a
  | .neg, .i32 => negate 32 a
  | .neg, .i64 => negate64 a
  | .abs, .i8 => absolute 8 a
  | .abs, .i16 => absolute 16 a
  | .abs, .i32 => absolute32 a
  | .abs, .i64 => absolute64 a
  | .addOv, .u8 | .addOv, .u16 | .addOv, .u32 | .addOv, .u64 => addOverflowU t.size a b
  | .addOv, .i8 | .addOv, .i16 | .addOv, .i32 | .addOv, .i64 => addOverflowI t.size a b
  | .subOv, .u8 | .subOv, .u16 | .subOv, .u32 | .subOv, .u64 => subOverflowU a b
  | .subOv, .i8 | .subOv, .i16 | .subOv, .i32 | .subOv, .i64 => subOverflowI t.size a b
  | .mulOv, .u8 | .mulOv, .u16 | .mulOv, .u32 | .mulOv, .u64 => mulOverflowU t.size a b
  | .mulOv, .i8 | .mulOv, .i16 | .mulOv, .i32 | .mulOv, .i64 => mulOverflowI t.size a b
  | .rol, _ => rotateRule irRol t a b
  | .ror, _ => rotateRule irRor t a b
  | _, _ => some .next

/-! ## Operands -/

theorem memberU_holds (w : ℕ) (v : Val) : (uint w).Holds (toU w v.toNat) := by
  simp only [CType.Holds, uint, toU, Bool.false_eq_true, if_false]
  exact ⟨Int.emod_nonneg _ (by positivity), Int.emod_lt_of_pos _ (by positivity)⟩

theorem memberI_holds {w : ℕ} (hw : 0 < w) (v : Val) : (sint w).Holds (toI w v.toNat) := by
  obtain ⟨w, rfl⟩ : ∃ k, w = k + 1 := ⟨w - 1, by omega⟩
  have hpow : (2 : ℤ) ^ (w + 1) = 2 * 2 ^ w := pow_succ' 2 w
  have hpos : (0 : ℤ) < 2 ^ w := by positivity
  simp only [CType.Holds, sint, toI, if_true, Nat.add_sub_cancel, hpow]
  have h0 := Int.emod_nonneg ((v.toNat : ℤ) + 2 ^ w) (b := 2 * 2 ^ w) (by omega)
  have h1 := Int.emod_lt_of_pos ((v.toNat : ℤ) + 2 ^ w) (b := 2 * 2 ^ w) (by omega)
  constructor <;> omega

theorem memberI_64 (v : Val) : memberI 64 v = ⟨sint 64, i64 v⟩ := rfl

theorem stored_some (t : CType) (n : ℤ) : stored (some ⟨t, n⟩) = some (constU n) := rfl

theorem constI_eq (n : ℤ) : constI n = constU n := rfl

theorem toU_64 (v : Val) : toU 64 v.toNat = u64 v := by
  have := v.isLt
  simp only [toU, u64]
  omega

theorem i64_range (v : Val) : -2 ^ 63 ≤ i64 v ∧ i64 v < 2 ^ 63 := by
  simp only [i64, toI]
  omega

theorem u64_range (v : Val) : 0 ≤ u64 v ∧ u64 v < 2 ^ 64 := by
  have := v.isLt
  simp only [u64]
  omega

theorem i64_eq_min_iff (v : Val) : i64 v = -2 ^ 63 ↔ u64 v = 2 ^ 63 := by
  have := v.isLt
  simp only [i64, toI, u64]
  omega

/-! ## Quotients and remainders -/

theorem divideU_eq {w : ℕ} (hw : 0 < w) (a b : Val) : divideU w a b =
    if u64 b = 0 then some .emit
    else if toU w b.toNat = 0 then none
    else some (constU ((toU w a.toNat).tdiv (toU w b.toNat))) := by
  unfold divideU memberU
  rw [div_uint hw (memberU_holds w a) (memberU_holds w b)]
  split_ifs <;> rfl

theorem divideI_eq {w : ℕ} (hw : 0 < w) (a b : Val) : divideI w a b =
    if i64 b = 0 ∨ (i64 b = -1 ∧ toU w a.toNat = 2 ^ (w - 1)) then some .emit
    else if toI w b.toNat = 0 ∨ (32 ≤ w ∧ toI w a.toNat = -2 ^ (w - 1) ∧ toI w b.toNat = -1) then none
    else some (constU ((toI w a.toNat).tdiv (toI w b.toNat))) := by
  unfold divideI memberI
  rw [div_sint hw (memberI_holds hw a) (memberI_holds hw b)]
  split_ifs <;> rfl

theorem moduloU_eq (a b : Val) : moduloU a b =
    some (if u64 b = 0 then .emit else constU ((u64 a).tmod (u64 b))) := by
  unfold moduloU memberU
  split_ifs with hb
  · rfl
  · have hdiv := div_uint (by decide) (memberU_holds 64 a) (memberU_holds 64 b)
    rw [if_neg (by rwa [toU_64])] at hdiv
    rw [mod_same (by decide) (memberU_holds 64 a) (memberU_holds 64 b) hdiv, toU_64, toU_64]
    rfl

theorem moduloI_eq (a b : Val) : moduloI a b =
    if i64 b = 0 then some .emit
    else if i64 a = -2 ^ 63 ∧ i64 b = -1 then none
    else some (constI ((i64 a).tmod (i64 b))) := by
  have ha := memberI_holds (by decide : 0 < 64) a
  have hb := memberI_holds (by decide : 0 < 64) b
  have hdiv := div_sint (by decide) ha hb
  unfold moduloI memberI
  by_cases h0 : i64 b = 0
  · rw [if_pos h0, if_pos h0]
  rw [if_neg h0, if_neg h0]
  by_cases hmin : i64 a = -2 ^ 63 ∧ i64 b = -1
  · rw [if_pos (Or.inr ⟨by decide, hmin⟩)] at hdiv
    rw [if_pos hmin, mod_eq_none hdiv]
    rfl
  · have hc : ¬(toI 64 b.toNat = 0 ∨ (32 ≤ 64 ∧ toI 64 a.toNat = -2 ^ (64 - 1) ∧ toI 64 b.toNat = -1)) :=
      not_or.mpr ⟨h0, fun h => hmin h.2⟩
    rw [if_neg hc] at hdiv
    rw [if_neg hmin, mod_same (by decide) ha hb hdiv, stored_some, constI_eq, i64, i64]

/-! ## Negations and absolute values -/

/-- A difference of a literal and a number that is promoted to `int`. -/
theorem negate_eq {w : ℕ} (hw : w < 32) (a : Val) :
    negate w a = some (constI (toI w (0 - toU w a.toNat))) := by
  have hx : (int).Holds (toU w a.toNat) := by
    have := (memberU_holds w a).promote
    unfold CType.promote at this
    rwa [if_pos (by exact hw)] at this
  have hcommon : CType.common int (uint w) = int := by
    unfold CType.common
    have hp : (uint w).promote = int := by
      unfold CType.promote
      exact if_pos hw
    rw [hp]
    rfl
  unfold negate sub arith memberU lit
  simp only [hcommon]
  rw [CType.conv_of_holds (by decide) hx, CType.conv_of_holds (by decide) (by decide),
    result_of_holds (by decide)]
  · rfl
  · have hu := memberU_holds w a
    have hle : (2 : ℤ) ^ w ≤ 2 ^ 31 := pow_le_pow_right₀ (by norm_num) (by omega)
    simp only [CType.Holds, uint, int, Bool.false_eq_true, if_false, if_true] at hu ⊢
    omega

theorem arith_u64 (f : ℤ → ℤ → ℤ) (a b : Val) :
    arith f (memberU 64 a) (memberU 64 b) = some ⟨uint 64, toU 64 (f (u64 a) (u64 b))⟩ := by
  unfold memberU
  rw [arith_same (by decide) (memberU_holds 64 a) (memberU_holds 64 b), toU_64, toU_64]
  rfl

theorem negate32_eq (a : Val) : negate 32 a = some (constI (toI 32 (toU 32 (0 - u32 a)))) := by
  have h : sub (lit 0) (memberU 32 a) =
      CArith.result (uint 32) ((uint 32).conv 0 - (uint 32).conv (toU 32 a.toNat)) := rfl
  unfold negate
  rw [h, CType.conv_of_holds (by decide) (memberU_holds 32 a)]
  rfl

theorem negate64_eq (a : Val) : negate64 a = some (constI (toU 64 (0 - u64 a))) := by
  have h : sub (lit 0) (memberU 64 a) =
      CArith.result (uint 64) ((uint 64).conv 0 - (uint 64).conv (toU 64 a.toNat)) := rfl
  unfold negate64
  rw [h, CType.conv_of_holds (by decide) (memberU_holds 64 a), toU_64]
  rfl

theorem absolute_eq {w : ℕ} (hw : 0 < w) (hw' : w < 32) (a : Val) : absolute w a =
    some (if i64 a ≥ 0 then .const a else constI (-toI w a.toNat)) := by
  have hx := memberI_holds hw a
  have hp : (sint w).promote = int := by
    unfold CType.promote
    exact if_pos hw'
  have hle : (2 : ℤ) ^ (w - 1) ≤ 2 ^ 30 := pow_le_pow_right₀ (by norm_num) (by omega)
  have hn : int.Holds (-toI w a.toNat) := by
    simp only [CType.Holds, sint, int, if_true] at hx ⊢
    omega
  have h : neg (memberI w a) = some ⟨int, -toI w a.toNat⟩ := by
    unfold neg memberI
    show CArith.result (sint w).promote (-CType.conv _ _) = _
    rw [CType.conv_of_holds (CType.width_promote hw) hx.promote, hp, result_of_holds (by decide) hn]
  unfold absolute
  rw [h]
  split_ifs <;> rfl

theorem absolute32_eq (a : Val) : absolute32 a =
    some (if i64 a ≥ 0 then .const a else constI (toI 32 (toU 32 (-u32 a)))) := by
  have h : neg (memberU 32 a) = CArith.result (uint 32) (-(uint 32).conv (toU 32 a.toNat)) := rfl
  unfold absolute32
  rw [h, CType.conv_of_holds (by decide) (memberU_holds 32 a)]
  split_ifs <;> rfl

theorem absolute64_eq (a : Val) : absolute64 a =
    some (if i64 a ≥ 0 then .const a else constI (toU 64 (-u64 a))) := by
  have h : neg (memberU 64 a) = CArith.result (uint 64) (-(uint 64).conv (toU 64 a.toNat)) := rfl
  unfold absolute64
  rw [h, CType.conv_of_holds (by decide) (memberU_holds 64 a), toU_64]
  split_ifs <;> rfl

/-! ## Overflow -/

/-- The sizes of the integer types. -/
def IsSize (n : ℕ) : Prop := n = 1 ∨ n = 2 ∨ n = 4 ∨ n = 8

theorem holds_i64 (x : ℤ) : (sint 64).Holds x ↔ -2 ^ 63 ≤ x ∧ x < 2 ^ 63 := by
  simp [CType.Holds, sint]

theorem holds_u64 (x : ℤ) : (uint 64).Holds x ↔ 0 ≤ x ∧ x < 2 ^ 64 := by
  simp [CType.Holds, uint]

section Overflow

variable {n : ℕ} (hn : IsSize n) (a b : Val)

include hn

theorem maxExprU_eq : maxExprU n = some ⟨uint 64, maxU n⟩ := by
  rcases hn with rfl | rfl | rfl | rfl <;> rfl

theorem maxExprI_eq : maxExprI n = some ⟨sint 64, maxI n⟩ := by
  rcases hn with rfl | rfl | rfl | rfl <;> rfl

theorem maxI_range : 127 ≤ maxI n ∧ maxI n < 2 ^ 63 := by
  have hle : 1 ≤ n ∧ n ≤ 8 := by
    rcases hn with rfl | rfl | rfl | rfl <;> omega
  have h7 : (2 : ℤ) ^ 7 ≤ 2 ^ (8 * n - 1) := pow_le_pow_right₀ (by norm_num) (by omega)
  have h63 : (2 : ℤ) ^ (8 * n - 1) ≤ 2 ^ 63 := pow_le_pow_right₀ (by norm_num) (by omega)
  unfold maxI
  omega

theorem minExprI_eq : minExprI ⟨sint 64, maxI n⟩ = some ⟨sint 64, minI n⟩ := by
  have hmax := maxI_range hn
  have hmin : minI n = -maxI n - 1 := rfl
  have hneg : neg ⟨sint 64, maxI n⟩ = some ⟨sint 64, -maxI n⟩ := by
    show CArith.result (sint 64) (-(sint 64).conv (maxI n)) = _
    rw [CType.conv_of_holds (by decide) ((holds_i64 _).mpr (by omega)),
      result_of_holds (by decide) ((holds_i64 _).mpr (by omega))]
  have hsub : sub ⟨sint 64, -maxI n⟩ (lit 1) = some ⟨sint 64, minI n⟩ := by
    show CArith.result (sint 64) ((sint 64).conv (-maxI n) - (sint 64).conv 1) = _
    rw [CType.conv_of_holds (by decide) ((holds_i64 _).mpr (by omega)),
      CType.conv_of_holds (by decide) ((holds_i64 _).mpr (by omega)), ← hmin,
      result_of_holds (by decide) ((holds_i64 _).mpr (by omega))]
  unfold minExprI
  rw [hneg, Option.bind_eq_bind, Option.bind_some, hsub]

theorem maxU_range : 0 ≤ maxU n ∧ maxU n < 2 ^ 64 := by
  have hle : n ≤ 8 := by
    rcases hn with rfl | rfl | rfl | rfl <;> omega
  have hpos : (0 : ℤ) < 2 ^ (8 * n) := by positivity
  have h64 : (2 : ℤ) ^ (8 * n) ≤ 2 ^ 64 := pow_le_pow_right₀ (by norm_num) (by omega)
  unfold maxU
  omega

end Overflow

/-- A signed 64-bit operation whose result is representable. -/
theorem arith_i64 {f : ℤ → ℤ → ℤ} {x y : ℤ} (hx : -2 ^ 63 ≤ x ∧ x < 2 ^ 63)
    (hy : -2 ^ 63 ≤ y ∧ y < 2 ^ 63) (h : -2 ^ 63 ≤ f x y ∧ f x y < 2 ^ 63) :
    arith f ⟨sint 64, x⟩ ⟨sint 64, y⟩ = some ⟨sint 64, f x y⟩ := by
  rw [← holds_i64] at hx hy h
  rw [arith_same (by decide) hx hy]
  exact result_of_holds (by decide) h

theorem sub_i64 {x : ℤ} (hx : -2 ^ 63 ≤ x ∧ x < 2 ^ 63) (b : Val)
    (h : -2 ^ 63 ≤ x - i64 b ∧ x - i64 b < 2 ^ 63) :
    sub ⟨sint 64, x⟩ (memberI 64 b) = some ⟨sint 64, x - i64 b⟩ :=
  arith_i64 hx (i64_range b) h

theorem add_i64 {x : ℤ} (hx : -2 ^ 63 ≤ x ∧ x < 2 ^ 63) (b : Val)
    (h : -2 ^ 63 ≤ x + i64 b ∧ x + i64 b < 2 ^ 63) :
    add ⟨sint 64, x⟩ (memberI 64 b) = some ⟨sint 64, x + i64 b⟩ :=
  arith_i64 hx (i64_range b) h

theorem andThen_eq {p : Prop} [Decidable p] {e : Option CVal} {t : CType} {x : ℤ}
    (h : p → e = some ⟨t, x⟩) (test : ℤ → Bool) :
    andThen p e test = some (decide p && test x) := by
  unfold andThen
  by_cases hp : p
  · simp [hp, h hp]
  · simp [hp]

theorem addOverflowU_eq {n : ℕ} (hn : IsSize n) (a b : Val) : addOverflowU n a b =
    some (if u64 a > toU 64 (maxU n - u64 b) then .next else constU (toU 64 (u64 a + u64 b))) := by
  have hmax : sub ⟨uint 64, maxU n⟩ (memberU 64 b) =
      some ⟨uint 64, toU 64 (maxU n - u64 b)⟩ := by
    unfold sub memberU
    rw [arith_same (by decide) ((holds_u64 _).mpr (maxU_range hn)) (memberU_holds 64 b), toU_64]
    rfl
  unfold addOverflowU
  rw [maxExprU_eq hn]
  simp only [Option.bind_eq_bind, Option.bind_some, hmax]
  split_ifs
  · rfl
  · unfold add
    rw [arith_u64]
    rfl

/-- The limits are compared before the sum is computed, so that nothing overflows. -/
theorem addOverflowI_eq {n : ℕ} (hn : IsSize n) (a b : Val) : addOverflowI n a b =
    some (if (i64 b > 0 ∧ i64 a > maxI n - i64 b) ∨ (i64 b < 0 ∧ i64 a < minI n - i64 b) then .next
      else constU (i64 a + i64 b)) := by
  have hmax := maxI_range hn
  have ha := i64_range a
  have hb := i64_range b
  have hmin : minI n = -maxI n - 1 := rfl
  have habove := andThen_eq (p := i64 b > 0) (fun h => sub_i64 (x := maxI n) (by omega) b (by omega))
    fun limit => i64 a > limit
  have hbelow := andThen_eq (p := i64 b < 0) (fun h => sub_i64 (x := minI n) (by omega) b (by omega))
    fun limit => i64 a < limit
  unfold addOverflowI
  rw [maxExprI_eq hn, Option.bind_eq_bind, Option.bind_some, minExprI_eq hn, Option.bind_eq_bind,
    Option.bind_some, habove, Option.bind_some, hbelow, Option.bind_some]
  simp only [Bool.and_eq_true, decide_eq_true_eq]
  by_cases h1 : i64 b > 0 ∧ i64 a > maxI n - i64 b
  · rw [if_pos h1, if_pos (Or.inl h1)]
    rfl
  by_cases h2 : i64 b < 0 ∧ i64 a < minI n - i64 b
  · rw [if_neg h1, if_pos h2, if_pos (Or.inr h2)]
    rfl
  · rw [if_neg h1, if_neg h2, if_neg (not_or.mpr ⟨h1, h2⟩)]
    rw [memberI_64 a, add_i64 ha b (by omega), stored_some]

theorem subOverflowU_eq (a b : Val) : subOverflowU a b =
    some (if u64 b > u64 a then .next else constU (toU 64 (u64 a - u64 b))) := by
  unfold subOverflowU sub
  rw [arith_u64]
  split_ifs <;> rfl

theorem subOverflowI_eq {n : ℕ} (hn : IsSize n) (a b : Val) : subOverflowI n a b =
    some (if (i64 b > 0 ∧ i64 a < minI n + i64 b) ∨ (i64 b < 0 ∧ i64 a > maxI n + i64 b) then .next
      else constU (i64 a - i64 b)) := by
  have hmax := maxI_range hn
  have ha := i64_range a
  have hb := i64_range b
  have hmin : minI n = -maxI n - 1 := rfl
  have hbelow := andThen_eq (p := i64 b > 0) (fun h => add_i64 (x := minI n) (by omega) b (by omega))
    fun limit => i64 a < limit
  have habove := andThen_eq (p := i64 b < 0) (fun h => add_i64 (x := maxI n) (by omega) b (by omega))
    fun limit => i64 a > limit
  unfold subOverflowI
  rw [maxExprI_eq hn, Option.bind_eq_bind, Option.bind_some, minExprI_eq hn, Option.bind_eq_bind,
    Option.bind_some, hbelow, Option.bind_some, habove, Option.bind_some]
  simp only [Bool.and_eq_true, decide_eq_true_eq]
  by_cases h1 : i64 b > 0 ∧ i64 a < minI n + i64 b
  · rw [if_pos h1, if_pos (Or.inl h1)]
    rfl
  by_cases h2 : i64 b < 0 ∧ i64 a > maxI n + i64 b
  · rw [if_neg h1, if_pos h2, if_pos (Or.inr h2)]
    rfl
  · rw [if_neg h1, if_neg h2, if_neg (not_or.mpr ⟨h1, h2⟩)]
    rw [memberI_64 a, sub_i64 ha b (by omega), stored_some]

theorem mulOverflowU_eq {n : ℕ} (hn : IsSize n) (a b : Val) : mulOverflowU n a b =
    some (if (u64 a ≠ 0 ∧ (toU 64 (u64 a * u64 b)).tdiv (u64 a) ≠ u64 b) ∨
        toU 64 (u64 a * u64 b) > maxU n then .next
      else constU (toU 64 (u64 a * u64 b))) := by
  have hres : (uint 64).Holds (toU 64 (u64 a * u64 b)) := by
    rw [holds_u64]
    simp only [toU]
    omega
  have hdiv : u64 a ≠ 0 → div ⟨uint 64, toU 64 (u64 a * u64 b)⟩ (memberU 64 a) =
      some ⟨uint 64, (toU 64 (u64 a * u64 b)).tdiv (u64 a)⟩ := by
    intro h0
    unfold memberU
    rw [div_uint (by decide) hres (memberU_holds 64 a), toU_64, if_neg h0]
    rfl
  have hwrong := andThen_eq hdiv fun quotient => quotient ≠ u64 b
  unfold mulOverflowU mul
  rw [maxExprU_eq hn, arith_u64, Option.bind_eq_bind, Option.bind_some, Option.bind_eq_bind,
    Option.bind_some, hwrong, Option.bind_some]
  simp only [Bool.and_eq_true, decide_eq_true_eq]
  split_ifs <;> rfl

/-- The quotient that checks the product is undefined for one pair. -/
theorem mulOverflowI_eq {n : ℕ} (hn : IsSize n) (a b : Val) : mulOverflowI n a b =
    if i64 a = -1 ∧ toI 64 (u64 a * u64 b) = -2 ^ 63 then none
    else some (if (i64 a ≠ 0 ∧ (toI 64 (u64 a * u64 b)).tdiv (i64 a) ≠ i64 b) ∨
        toI 64 (u64 a * u64 b) < minI n ∨ toI 64 (u64 a * u64 b) > maxI n then .next
      else constU (toI 64 (u64 a * u64 b))) := by
  have hcast : cast (sint 64) ⟨uint 64, toU 64 (u64 a * u64 b)⟩ =
      ⟨sint 64, toI 64 (u64 a * u64 b)⟩ := by
    have hconv : (sint 64).conv (toU 64 (u64 a * u64 b)) = toI 64 (u64 a * u64 b) := by
      simp only [CType.conv, sint, if_true, toI, toU]
      omega
    unfold CArith.cast
    rw [hconv]
  have hres : (sint 64).Holds (toI 64 (u64 a * u64 b)) := by
    rw [holds_i64]
    simp only [toI]
    omega
  have hdiv := div_sint (by decide) hres (memberI_holds (by decide) a)
  unfold mulOverflowI mul
  rw [maxExprI_eq hn, arith_u64, Option.bind_eq_bind, Option.bind_some, minExprI_eq hn,
    Option.bind_eq_bind, Option.bind_some, Option.bind_some]
  dsimp only
  rw [hcast]
  by_cases hmin : i64 a = -1 ∧ toI 64 (u64 a * u64 b) = -2 ^ 63
  · have h0 : i64 a ≠ 0 := by omega
    rw [if_pos (Or.inr ⟨by decide, hmin.2, hmin.1⟩)] at hdiv
    rw [if_pos hmin]
    unfold andThen memberI
    rw [if_pos h0, hdiv]
    rfl
  · have hsome : i64 a ≠ 0 → div ⟨sint 64, toI 64 (u64 a * u64 b)⟩ (memberI 64 a) =
        some ⟨sint 64, (toI 64 (u64 a * u64 b)).tdiv (i64 a)⟩ := by
      intro h0
      have hc : ¬(toI 64 a.toNat = 0 ∨ (32 ≤ 64 ∧ toI 64 (u64 a * u64 b) = -2 ^ (64 - 1) ∧
          toI 64 a.toNat = -1)) := not_or.mpr ⟨h0, fun h => hmin ⟨h.2.2, h.2.1⟩⟩
      rw [if_neg hc] at hdiv
      exact hdiv
    have hwrong := andThen_eq hsome fun quotient => quotient ≠ i64 b
    rw [if_neg hmin]
    rw [hwrong, Option.bind_some]
    simp only [Bool.and_eq_true, decide_eq_true_eq]
    split_ifs <;> rfl

/-! ## Rotations -/

/-- The widths of the integer types. -/
def IsWidth (w : ℕ) : Prop := w = 8 ∨ w = 16 ∨ w = 32 ∨ w = 64

section Rotations

variable {w k : ℕ} (hk : k < w) (a : Val)

theorem memberU_eq : memberU w a = ⟨uint w, ((a.setWidth w).toNat : ℕ)⟩ := by
  unfold memberU toU
  rw [BitVec.toNat_setWidth]
  push_cast
  rfl

theorem promote_uint (w : ℕ) :
    (uint w).promote.promote = (uint w).promote ∧ w ≤ (uint w).promote.width := by
  unfold CType.promote
  by_cases h : (uint w).width < 32
  · simp only [h, if_true]
    simp only [uint] at h
    exact ⟨rfl, by simp only [int]; omega⟩
  · simp only [h, if_false]
    exact ⟨trivial, le_rfl⟩

include hk

/-- The count of the other shift; it is computed in `int` or in the type of the operand. -/
theorem sub_count (hw : IsWidth w) : ∃ t, sub (lit w) ⟨uint w, k⟩ = some ⟨t, (w - k : ℕ)⟩ := by
  have key : ∀ t : CType, CType.common int (uint w) = t → t.Holds w → t.Holds k →
      t.Holds (w - k) → 0 < t.width → sub (lit w) ⟨uint w, k⟩ = some ⟨t, (w - k : ℕ)⟩ := by
    intro t ht h1 h2 h3 hpos
    unfold sub arith lit
    simp only [ht]
    rw [CType.conv_of_holds hpos h1, CType.conv_of_holds hpos h2, result_of_holds hpos h3,
      Nat.cast_sub hk.le]
  rcases hw with rfl | rfl | rfl | rfl
  · exact ⟨int, key int rfl (by decide) (by simp [CType.Holds, int]; omega)
      (by simp [CType.Holds, int]; omega) (by decide)⟩
  · exact ⟨int, key int rfl (by decide) (by simp [CType.Holds, int]; omega)
      (by simp [CType.Holds, int]; omega) (by decide)⟩
  · exact ⟨uint 32, key (uint 32) rfl (by decide) (by simp [CType.Holds, uint]; omega)
      (by simp [CType.Holds, uint]; omega) (by decide)⟩
  · exact ⟨uint 64, key (uint 64) rfl (by decide) (by simp [CType.Holds, uint]; omega)
      (by simp [CType.Holds, uint]; omega) (by decide)⟩

omit hk

/-- Both shifts of an operand, of `x` bits. -/
theorem shl_member {x : ℕ} (t : CType) (hx : x < (uint w).promote.width) :
    shl (memberU w a) ⟨t, x⟩ =
      some ⟨(uint w).promote, (uint w).promote.conv ((a.setWidth w).toNat * 2 ^ x : ℕ)⟩ := by
  rw [memberU_eq]
  unfold shl
  rw [if_pos ⟨by simp, by simpa using hx⟩]
  simp

theorem shr_member {x : ℕ} (t : CType) (hx : x < (uint w).promote.width) :
    shr (memberU w a) ⟨t, x⟩ =
      some ⟨(uint w).promote, (uint w).promote.conv ((a.setWidth w).toNat / 2 ^ x : ℕ)⟩ := by
  rw [memberU_eq]
  unfold shr
  rw [if_pos ⟨by simp, by simpa using hx⟩]
  simp

theorem shl_member_none {x : ℕ} (t : CType) (hx : (uint w).promote.width ≤ x) :
    shl (memberU w a) ⟨t, x⟩ = none := by
  rw [memberU_eq]
  unfold shl
  rw [if_neg]
  rintro ⟨-, h⟩
  simp only [Nat.cast_lt] at h
  omega

theorem shr_member_none {x : ℕ} (t : CType) (hx : (uint w).promote.width ≤ x) :
    shr (memberU w a) ⟨t, x⟩ = none := by
  rw [memberU_eq]
  unfold shr
  rw [if_neg]
  rintro ⟨-, h⟩
  simp only [Nat.cast_lt] at h
  omega

theorem ofNat_shl (x : BitVec w) (k : ℕ) : BitVec.ofNat w (x.toNat * 2 ^ k) = x <<< k := by
  apply BitVec.eq_of_toNat_eq
  rw [BitVec.toNat_ofNat, BitVec.toNat_shiftLeft, Nat.shiftLeft_eq]

theorem ofNat_shr (x : BitVec w) (k : ℕ) : BitVec.ofNat w (x.toNat / 2 ^ k) = x >>> k := by
  apply BitVec.eq_of_toNat_eq
  rw [BitVec.toNat_ofNat, BitVec.toNat_ushiftRight, Nat.shiftRight_eq_div_pow]
  exact Nat.mod_eq_of_lt (lt_of_le_of_lt (Nat.div_le_self _ _) x.isLt)

theorem width_promote_uint (hw : IsWidth w) : (uint w).promote.width = max w 32 := by
  rcases hw with rfl | rfl | rfl | rfl <;> rfl

include hk

/-- An operand of 32 or 64 bits cannot be shifted by its width. -/
theorem irRol_eq (hw : IsWidth w) : irRol w (memberU w a) ⟨uint w, k⟩ =
    if 32 ≤ w ∧ k = 0 then none else some ⟨uint w, (rol w (a.setWidth w) k).toNat⟩ := by
  obtain ⟨hp, hle⟩ := promote_uint w
  obtain ⟨t, ht⟩ := sub_count hk hw
  have hwidth := width_promote_uint hw
  unfold irRol
  rw [ht, shl_member a (uint w) (by omega), Option.bind_eq_bind, Option.bind_some, Option.bind_some]
  split_ifs with h0
  · rw [shr_member_none a t (by omega)]
    rfl
  · rw [shr_member a t (by omega), Option.bind_some, cast_or hp hle, ofNat_shl, ofNat_shr]
    rfl

theorem irRor_eq (hw : IsWidth w) : irRor w (memberU w a) ⟨uint w, k⟩ =
    if 32 ≤ w ∧ k = 0 then none else some ⟨uint w, (ror w (a.setWidth w) k).toNat⟩ := by
  obtain ⟨hp, hle⟩ := promote_uint w
  obtain ⟨t, ht⟩ := sub_count hk hw
  have hwidth := width_promote_uint hw
  unfold irRor
  rw [ht, shr_member a (uint w) (by omega), Option.bind_eq_bind, Option.bind_some, Option.bind_some]
  split_ifs with h0
  · rw [shl_member_none a t (by omega)]
    rfl
  · rw [shl_member a t (by omega), Option.bind_some, cast_or hp hle, ofNat_shl, ofNat_shr]
    rfl

end Rotations

/-- The rules of a rotation, for both signs. -/
theorem rotateU_eq {rot : ℕ → CVal → CVal → Option CVal} {r : (w : ℕ) → BitVec w → ℕ → BitVec w}
    {w : ℕ} (hw : IsWidth w)
    (h : ∀ a {k}, k < w → rot w (memberU w a) ⟨uint w, k⟩ =
      if 32 ≤ w ∧ k = 0 then none else some ⟨uint w, (r w (a.setWidth w) k).toNat⟩) (a b : Val) :
    rotateU rot w a b = if 32 ≤ w ∧ count w b = 0 then none
      else some (constU (r w (a.setWidth w) (count w b)).toNat) := by
  have hk : count w b < w := Nat.mod_lt _ (by rcases hw with rfl | rfl | rfl | rfl <;> decide)
  unfold rotateU countOf
  rw [h a hk]
  split_ifs <;> rfl

theorem rotateI_eq {rot : ℕ → CVal → CVal → Option CVal} {r : (w : ℕ) → BitVec w → ℕ → BitVec w}
    {w : ℕ} (hw : IsWidth w)
    (h : ∀ a {k}, k < w → rot w (memberU w a) ⟨uint w, k⟩ =
      if 32 ≤ w ∧ k = 0 then none else some ⟨uint w, (r w (a.setWidth w) k).toNat⟩) (a b : Val) :
    rotateI rot w a b = if 32 ≤ w ∧ count w b = 0 then none
      else some (constI (r w (a.setWidth w) (count w b)).toInt) := by
  have hpos : 0 < w := by rcases hw with rfl | rfl | rfl | rfl <;> decide
  have hk : count w b < w := Nat.mod_lt _ hpos
  have hconv : ∀ x : BitVec w, (sint w).conv x.toNat = x.toInt := by
    intro x
    obtain ⟨w, rfl⟩ : ∃ n, w = n + 1 := ⟨w - 1, by omega⟩
    have hlt := x.isLt
    rw [BitVec.toInt_eq_toNat_cond]
    simp only [CType.conv, sint, if_true, Nat.add_sub_cancel]
    push_cast
    rw [pow_succ'] at hlt ⊢
    rw [pow_succ']
    generalize hm : 2 ^ w = m at *
    have hz : (2 : ℤ) ^ w = (m : ℤ) := by rw [← hm]; push_cast; rfl
    rw [hz]
    split_ifs
    · rw [Int.emod_eq_of_lt (by omega) (by omega)]
      omega
    · rw [show (x.toNat : ℤ) + m = (x.toNat - m) + 2 * m * 1 by ring, Int.add_mul_emod_self_left,
        Int.emod_eq_of_lt (by omega) (by omega)]
      omega
  unfold rotateI countOf
  rw [h a hk]
  split_ifs
  · rfl
  · show some (constU ((sint w).conv _)) = _
    rw [hconv]
    rfl

end IrJit.Fold
