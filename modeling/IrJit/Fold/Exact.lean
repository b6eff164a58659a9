import IrJit.Fold.Const
import Mathlib.Tactic.NormNum
import Mathlib.Tactic.Ring

/-!
# Fold.Exact — when constant folding is exact and canonical

The value of a constant is the integer its type reads from the low bits, and a constant is canonical
when its 64 bits are that integer again.  `spec` is the two's complement result of an operation on
values.  The rules that compute in promoted `int` and store the result as it is leave bits above
the width of the type, so a fold is exact only under the condition `Safe`.
-/

namespace IrJit.Fold

/-- The integer types: `IR_BOOL` to `IR_I64`. -/
def IsInt (t : IrType) : Prop := t.isInt = true ∧ t ≠ .void

/-- The number of bits of a type. -/
def bits (t : IrType) : ℕ := 8 * t.size

/-- `n` modulo `2 ^ w` in the range of a type of `w` bits. -/
def wrap (t : IrType) (n : ℤ) : ℤ := if t.isSigned then toI (bits t) n else toU (bits t) n

/-- The integers a type represents. -/
def InRange (t : IrType) (n : ℤ) : Prop :=
  if t = .bool then 0 ≤ n ∧ n ≤ 1
  else if t.isSigned then -2 ^ (bits t - 1) ≤ n ∧ n < 2 ^ (bits t - 1)
  else 0 ≤ n ∧ n < 2 ^ bits t

/-- The integer that a constant of type `t` stands for. -/
def valueOf (t : IrType) (v : Val) : ℤ := wrap t v.toNat

/-- The 64 bits of the constant are its value: zero-extended or sign-extended as the type says. -/
def Canonical (t : IrType) (v : Val) : Prop :=
  InRange t (valueOf t v) ∧ v = BitVec.ofInt 64 (valueOf t v)

/-- Types that `ir_check` accepts for one another. -/
def Compat (t u : IrType) : Prop :=
  t = u ∨ (t = .addr ∧ (u = .u64 ∨ u = .i64)) ∨ (u = .addr ∧ (t = .u64 ∨ t = .i64))

/-- The types of an instruction: the tests of `ir_check` and the assertions of the rules. -/
def WellTyped (op : IrOp) (t t₁ t₂ : IrType) : Prop :=
  match op with
  | .eq | .ne | .lt | .ge | .le | .gt | .ult | .uge | .ule | .ugt => t = .bool
  | .add | .sub | .mul => Compat t t₁ ∧ Compat t t₂
  | .div | .mod | .or | .and | .xor | .min | .max => t = t₁ ∧ Compat t t₂
  | .neg | .abs | .not | .shl | .shr | .sar | .rol | .ror => t = t₁
  | .sext | .zext => IsInt t ∧ t₁.size < t.size
  | .trunc => IsInt t ∧ t.size < t₁.size
  | .bitcast => IsInt t ∧ t.size = t₁.size
  | _ => True

/-- The count of a shift of `w` bits. -/
def shift (w : ℕ) (y : ℤ) : ℕ := (y % w).toNat

/-- The value of a `w`-bit pattern in a type of `w` bits. -/
def ofBits (t : IrType) {w : ℕ} (p : BitVec w) : ℤ := wrap t p.toNat

/-- The two's complement result of an operation on values `x` and `y` of types `t₁` and `t₂`. -/
def spec (op : IrOp) (t t₁ t₂ : IrType) (x y : ℤ) : ℤ :=
  let w := bits t₁
  let pat : ℤ → BitVec w := BitVec.ofInt w
  let bool (b : Bool) : ℤ := if b then 1 else 0
  match op with
  | .eq => bool (x = y)
  | .ne => bool (x ≠ y)
  | .lt => bool (x < y)
  | .ge => bool (x ≥ y)
  | .le => bool (x ≤ y)
  | .gt => bool (x > y)
  | .ult => bool (toU w x < toU (bits t₂) y)
  | .uge => bool (toU w x ≥ toU (bits t₂) y)
  | .ule => bool (toU w x ≤ toU (bits t₂) y)
  | .ugt => bool (toU w x > toU (bits t₂) y)
  | .add => wrap t (x + y)
  | .sub => wrap t (x - y)
  | .mul => wrap t (x * y)
  | .div => wrap t (x.tdiv y)
  | .mod => wrap t (x.tmod y)
  | .neg => wrap t (-x)
  | .abs => wrap t |x|
  | .not => if t = .bool then 1 - x else wrap t (-x - 1)
  | .or => ofBits t (pat x ||| pat y)
  | .and => ofBits t (pat x &&& pat y)
  | .xor => ofBits t (pat x ^^^ pat y)
  | .shl => wrap t (x * 2 ^ shift w y)
  | .shr => wrap t (toU w x / 2 ^ shift w y)
  | .sar => wrap t (toI w x / 2 ^ shift w y)
  | .rol => ofBits t ((pat x).rotateLeft (shift w y))
  | .ror => ofBits t ((pat x).rotateRight (shift w y))
  | .min => min x y
  | .max => max x y
  | .sext => wrap t (toI w x)
  | .zext => wrap t (toU w x)
  | .trunc | .bitcast => if t = .bool then bool (toU 8 x ≠ 0) else wrap t x
  | _ => 0

/-- The constant a rule produces, if any, has the value `r` and is canonical for its type, and no
expression of the rule is undefined. -/
def Yields (t : IrType) (r : ℤ) (o : Outcome) : Prop :=
  o ≠ .undefined ∧ ∀ v, o = .const v → valueOf t v = r ∧ Canonical t v

/-- The fold of an instruction gives the result of its operation, as a canonical constant. -/
def Exact (op : IrOp) (t t₁ t₂ : IrType) (a b : Val) : Prop :=
  Yields t (spec op t t₁ t₂ (valueOf t₁ a) (valueOf t₂ b)) (foldConst op t t₁ t₂ a b)

/-- The narrow types that the rules of `ADD`, `SUB` and `MUL` compute in `int`. -/
def Narrow (t : IrType) : Prop := t = .u8 ∨ t = .u16 ∨ t = .i8 ∨ t = .i16

/-- The types whose rules rotate with a shift by the whole width when the count is zero. -/
def Wide (t : IrType) : Prop := t = .u32 ∨ t = .u64 ∨ t = .i32 ∨ t = .i64

/-- When a fold is exact, in terms of the values of the operands. -/
def Safe (op : IrOp) (t t₁ t₂ : IrType) (x y : ℤ) : Prop :=
  match op with
  -- the exact result fits the narrow type
  | .add => t₁ = t₂ → Narrow t₁ → InRange t₁ (x + y)
  | .sub => t₁ = t₂ → Narrow t₁ → InRange t₁ (x - y)
  | .mul => t₁ = t₂ → Narrow t₁ → InRange t₁ (x * y)
  -- the rule tests the divisor for zero only
  | .mod => t₁ = .i64 → t₂ = .i64 → ¬(x = -2 ^ 63 ∧ y = -1)
  | .abs => (t₁ = .i8 → x ≠ -2 ^ 7) ∧ (t₁ = .i16 → x ≠ -2 ^ 15)
  | .not => t₁ ≠ .u8 ∧ t₁ ≠ .u16 ∧ (t₁ = .char → 0 ≤ x)
  -- `IR_CHAR` is signed, but its rules are those of `IR_U8`
  | .xor => t₁ = .char → t₂ = .char → (0 ≤ x ↔ 0 ≤ y)
  | .shl =>
    t₁ = t₂ → (t₁ = .u8 ∨ t₁ = .u16 → x * 2 ^ shift (bits t₁) y < 2 ^ bits t₁) ∧
      (t₁ = .char → toU 8 x * 2 ^ shift 8 y < 2 ^ 7)
  | .shr => t₁ = .char → t₂ = .char → 0 ≤ x ∨ shift 8 y ≠ 0
  | .sar => t₁ = .char → t₂ = .char → 0 ≤ x
  | .rol =>
    t₁ = t₂ → (Wide t₁ → shift (bits t₁) y ≠ 0) ∧
      (t₁ = .char → (BitVec.ofInt 8 x).getLsbD (7 - shift 8 y) = false)
  | .ror =>
    t₁ = t₂ → (Wide t₁ → shift (bits t₁) y ≠ 0) ∧
      (t₁ = .char → (BitVec.ofInt 8 x).getLsbD ((7 + shift 8 y) % 8) = false)
  -- the sign bits of the result stay above an unsigned type of 16 or 32 bits
  | .sext => t = .u16 ∨ t = .u32 → 0 ≤ toI (bits t₁) x
  | _ => True

/-! ## Storing and reading constants -/

theorem toNat_ofInt (n : ℤ) : ((BitVec.ofInt 64 n).toNat : ℤ) = n % 18446744073709551616 := by
  rw [BitVec.toNat_ofInt]
  omega

theorem ofInt_eq_iff {m n : ℤ} :
    BitVec.ofInt 64 m = BitVec.ofInt 64 n ↔ m % 18446744073709551616 = n % 18446744073709551616 := by
  rw [← toNat_ofInt, ← toNat_ofInt, BitVec.toNat_eq]
  omega

theorem valueOf_ofInt {t : IrType} (ht : IsInt t) {n : ℤ} (h : InRange t n) :
    valueOf t (BitVec.ofInt 64 n) = n := by
  unfold valueOf
  rw [toNat_ofInt]
  obtain ⟨h1, h2⟩ := ht
  cases t <;> simp [IrType.isInt] at h1 h2 <;>
    simp [InRange, IrType.isSigned, bits, IrType.size] at h <;>
    simp [wrap, IrType.isSigned, bits, IrType.size, toU, toI] <;> omega

theorem canonical_ofInt {t : IrType} (ht : IsInt t) {n : ℤ} (h : InRange t n) :
    Canonical t (BitVec.ofInt 64 n) := by
  unfold Canonical
  rw [valueOf_ofInt ht h]
  exact ⟨h, rfl⟩

theorem canonical_eq_iff {t : IrType} {v w : Val} (hv : Canonical t v) (hw : Canonical t w) :
    v = w ↔ valueOf t v = valueOf t w := by
  constructor
  · intro h
    rw [h]
  · intro h
    rw [hv.2, hw.2, h]

/-- Storing is injective on the range of a type. -/
theorem yields_const {t : IrType} (ht : IsInt t) {r : ℤ} (hr : InRange t r) (v : Val) :
    Yields t r (.const v) ↔ v = BitVec.ofInt 64 r := by
  constructor
  · rintro ⟨-, h⟩
    obtain ⟨hv, hc⟩ := h v rfl
    rw [hc.2, hv]
  · rintro rfl
    refine ⟨by simp, fun v hv => ?_⟩
    obtain rfl := Outcome.const.inj hv
    exact ⟨valueOf_ofInt ht hr, canonical_ofInt ht hr⟩

theorem yields_emit (t : IrType) (r : ℤ) : Yields t r .emit := by simp [Yields]

theorem yields_next (t : IrType) (r : ℤ) : Yields t r .next := by simp [Yields]

theorem not_yields_undefined (t : IrType) (r : ℤ) : ¬Yields t r .undefined := by simp [Yields]

theorem yields_constU {t : IrType} (ht : IsInt t) {r : ℤ} (hr : InRange t r) (e : ℤ) :
    Yields t r (constU e) ↔ e % 18446744073709551616 = r % 18446744073709551616 := by
  rw [← ofInt_eq_iff]
  exact yields_const ht hr _

theorem yields_constI {t : IrType} (ht : IsInt t) {r : ℤ} (hr : InRange t r) (e : ℤ) :
    Yields t r (constI e) ↔ e % 18446744073709551616 = r % 18446744073709551616 :=
  yields_constU ht hr e

theorem yields_intern {t : IrType} (ht : t ≠ .bool) (r : ℤ) (o : Outcome) :
    Yields t r (o.intern t) ↔ Yields t r o := by
  cases o <;> simp [Outcome.intern, ht]

theorem intern_foldBool (t : IrType) (b : Bool) : (foldBool b).intern t = foldBool b := by
  cases b <;> simp [foldBool, Outcome.intern]

theorem yields_foldBool (b : Bool) (r : ℤ) :
    Yields .bool r (foldBool b) ↔ r = if b then 1 else 0 := by
  have hv : valueOf .bool (if b then 1 else 0) = if b then 1 else 0 := by cases b <;> decide
  have ht : IsInt .bool := by simp [IsInt, IrType.isInt]
  constructor
  · rintro ⟨-, h⟩
    rw [← (h _ rfl).1, hv]
  · rintro rfl
    have hr : InRange .bool (if b then 1 else 0) := by cases b <;> simp [InRange]
    apply (yields_const ht hr _).2
    cases b <;> rfl

@[simp] theorem u8_ofInt (x : ℤ) : u8 (BitVec.ofInt 64 x) = x % 256 := by
  unfold u8 toU
  rw [toNat_ofInt]
  omega

@[simp] theorem u16_ofInt (x : ℤ) : u16 (BitVec.ofInt 64 x) = x % 65536 := by
  unfold u16 toU
  rw [toNat_ofInt]
  omega

@[simp] theorem u32_ofInt (x : ℤ) : u32 (BitVec.ofInt 64 x) = x % 4294967296 := by
  unfold u32 toU
  rw [toNat_ofInt]
  omega

@[simp] theorem u64_ofInt (x : ℤ) : u64 (BitVec.ofInt 64 x) = x % 18446744073709551616 :=
  toNat_ofInt x

@[simp] theorem i8_ofInt (x : ℤ) : i8 (BitVec.ofInt 64 x) = (x + 128) % 256 - 128 := by
  unfold i8 toI
  rw [toNat_ofInt]
  omega

@[simp] theorem i16_ofInt (x : ℤ) : i16 (BitVec.ofInt 64 x) = (x + 32768) % 65536 - 32768 := by
  unfold i16 toI
  rw [toNat_ofInt]
  omega

@[simp] theorem i32_ofInt (x : ℤ) :
    i32 (BitVec.ofInt 64 x) = (x + 2147483648) % 4294967296 - 2147483648 := by
  unfold i32 toI
  rw [toNat_ofInt]
  omega

@[simp] theorem i64_ofInt (x : ℤ) : i64 (BitVec.ofInt 64 x) =
    (x + 9223372036854775808) % 18446744073709551616 - 9223372036854775808 := by
  unfold i64 toI
  rw [toNat_ofInt]
  omega

section Self

variable {x : ℤ}

theorem u8_self (h : InRange .u8 x) : u8 (BitVec.ofInt 64 x) = x := by
  simp [InRange, IrType.isSigned, bits, IrType.size] at h
  rw [u8_ofInt]
  omega

theorem u16_self (h : InRange .u16 x) : u16 (BitVec.ofInt 64 x) = x := by
  simp [InRange, IrType.isSigned, bits, IrType.size] at h
  rw [u16_ofInt]
  omega

theorem u32_self (h : InRange .u32 x) : u32 (BitVec.ofInt 64 x) = x := by
  simp [InRange, IrType.isSigned, bits, IrType.size] at h
  rw [u32_ofInt]
  omega

theorem i8_self (h : InRange .i8 x) : i8 (BitVec.ofInt 64 x) = x := by
  simp [InRange, IrType.isSigned, bits, IrType.size] at h
  rw [i8_ofInt]
  omega

theorem i16_self (h : InRange .i16 x) : i16 (BitVec.ofInt 64 x) = x := by
  simp [InRange, IrType.isSigned, bits, IrType.size] at h
  rw [i16_ofInt]
  omega

theorem i32_self (h : InRange .i32 x) : i32 (BitVec.ofInt 64 x) = x := by
  simp [InRange, IrType.isSigned, bits, IrType.size] at h
  rw [i32_ofInt]
  omega

theorem i64_self {t : IrType} (hs : t.isSigned = true) (h : InRange t x) :
    i64 (BitVec.ofInt 64 x) = x := by
  rw [i64_ofInt]
  cases t <;> simp [IrType.isSigned] at hs <;>
    simp [InRange, IrType.isSigned, bits, IrType.size] at h <;> omega

theorem u64_self {t : IrType} (ht : IsInt t) (hs : t.isSigned = false) (h : InRange t x) :
    u64 (BitVec.ofInt 64 x) = x := by
  rw [u64_ofInt]
  obtain ⟨h1, h2⟩ := ht
  cases t <;> simp [IrType.isSigned, IrType.isInt] at hs h1 h2 <;>
    simp [InRange, IrType.isSigned, bits, IrType.size] at h <;> omega

end Self

/-- The range of a type other than `IR_BOOL` holds every wrapped integer. -/
theorem inRange_wrap {t : IrType} (ht : IsInt t) (hb : t ≠ .bool) (n : ℤ) :
    InRange t (wrap t n) := by
  obtain ⟨h1, h2⟩ := ht
  cases t <;> simp [IrType.isInt] at h1 h2 hb <;>
    simp [InRange, wrap, IrType.isSigned, bits, IrType.size, toU, toI] <;> omega

theorem wrap_eq_self {t : IrType} (ht : IsInt t) {n : ℤ} (h : InRange t n) : wrap t n = n := by
  obtain ⟨h1, h2⟩ := ht
  cases t <;> simp [IrType.isInt] at h1 h2 <;>
    simp [InRange, IrType.isSigned, bits, IrType.size] at h <;>
    simp [wrap, IrType.isSigned, bits, IrType.size, toU, toI] <;> omega

end IrJit.Fold
