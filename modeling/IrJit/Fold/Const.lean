import IrJit.Core.Types
import IrJit.Core.Ops
import Mathlib.Data.Int.Basic
import Mathlib.Data.BitVec

/-!
# Fold.Const — the constant rules of the folding engine (`ir_fold.h`)

A constant is the 64-bit union `ir_val`; a rule reads the members `u8 … i64` of its operands,
computes in C and stores the result through `IR_FOLD_CONST_U` or `IR_FOLD_CONST_I`.  An expression
of C type `int` is its integer: the operands are small enough that none of them overflows.  Unsigned
32-bit arithmetic and the casts are written as reductions modulo `2 ^ w`; 64-bit arithmetic is
reduced when the result is stored.
-/

namespace IrJit.Fold

/-- `ir_val`, by its member `u64`. -/
abbrev Val := BitVec 64

/-- The number of `n` modulo `2 ^ w` as an unsigned integer of `w` bits. -/
def toU (w : ℕ) (n : ℤ) : ℤ := n % 2 ^ w

/-- The number of `n` modulo `2 ^ w` as a two's complement integer of `w` bits. -/
def toI (w : ℕ) (n : ℤ) : ℤ := (n + 2 ^ (w - 1)) % 2 ^ w - 2 ^ (w - 1)

/-- The members of the union. -/
def u8 (v : Val) : ℤ := toU 8 v.toNat
def u16 (v : Val) : ℤ := toU 16 v.toNat
def u32 (v : Val) : ℤ := toU 32 v.toNat
def u64 (v : Val) : ℤ := v.toNat
def i8 (v : Val) : ℤ := toI 8 v.toNat
def i16 (v : Val) : ℤ := toI 16 v.toNat
def i32 (v : Val) : ℤ := toI 32 v.toNat
def i64 (v : Val) : ℤ := toI 64 v.toNat

/-- What a rule does: it produces a constant, emits the instruction, leaves it to the next rules,
or runs into behaviour that C leaves undefined. -/
inductive Outcome
  | const (val : Val)
  | emit
  | next
  | undefined
  deriving DecidableEq

/-- `IR_FOLD_CONST_U` and `IR_FOLD_CONST_I`: both store the expression modulo `2 ^ 64`. -/
def constU (n : ℤ) : Outcome := .const (BitVec.ofInt 64 n)

@[inherit_doc constU] def constI (n : ℤ) : Outcome := .const (BitVec.ofInt 64 n)

/-- `IR_FOLD_BOOL`. -/
def foldBool (b : Bool) : Outcome := .const (if b then 1 else 0)

/-- `ir_fold_const`: `ir_const` gives every non-zero boolean the constant `IR_TRUE`. -/
def Outcome.intern (t : IrType) : Outcome → Outcome
  | .const v => if t = .bool then foldBool (v ≠ 0) else .const v
  | o => o

/-! ## Comparisons -/

/-- The rule pattern `(C_X, C_X)` for every integer type. -/
def sameInt (t₁ t₂ : IrType) : Bool := t₁ = t₂ && t₁.isInt && t₁ ≠ .void

def foldEq (t₁ t₂ : IrType) (a b : Val) : Outcome :=
  if sameInt t₁ t₂ then foldBool (u64 a = u64 b) else .next

def foldNe (t₁ t₂ : IrType) (a b : Val) : Outcome :=
  if sameInt t₁ t₂ then foldBool (u64 a ≠ u64 b) else .next

/-- `LT`, `GE`, `LE`, `GT`: the signed types compare `i64`, the others `u64`. -/
def foldOrder (rel : ℤ → ℤ → Bool) (t₁ t₂ : IrType) (a b : Val) : Outcome :=
  if sameInt t₁ t₂ then
    if t₁.isSigned then foldBool (rel (i64 a) (i64 b)) else foldBool (rel (u64 a) (u64 b))
  else .next

def foldLt := foldOrder fun a b => a < b
def foldGe := foldOrder fun a b => a ≥ b
def foldLe := foldOrder fun a b => a ≤ b
def foldGt := foldOrder fun a b => a > b

/-- `ULT`, `UGE`, `ULE`, `UGT`: every type compares `u64`. -/
def foldUnsignedOrder (rel : ℤ → ℤ → Bool) (t₁ t₂ : IrType) (a b : Val) : Outcome :=
  if sameInt t₁ t₂ then foldBool (rel (u64 a) (u64 b)) else .next

def foldUlt := foldUnsignedOrder fun a b => a < b
def foldUge := foldUnsignedOrder fun a b => a ≥ b
def foldUle := foldUnsignedOrder fun a b => a ≤ b
def foldUgt := foldUnsignedOrder fun a b => a > b

/-! ## Arithmetic -/

/-- The rules of `ADD`, `SUB` and `MUL`: the narrow types compute in `int` and store the result as
it is. -/
def foldArith (f : ℤ → ℤ → ℤ) : IrType → IrType → Val → Val → Outcome
  | .u8, .u8, a, b => constU (f (u8 a) (u8 b))
  | .u16, .u16, a, b => constU (f (u16 a) (u16 b))
  | .u32, .u32, a, b => constU (toU 32 (f (u32 a) (u32 b)))
  | .u64, .u64, a, b | .addr, .addr, a, b | .addr, .i64, a, b | .addr, .u64, a, b
  | .i64, .addr, a, b | .u64, .addr, a, b => constU (f (u64 a) (u64 b))
  | .i8, .i8, a, b => constI (f (i8 a) (i8 b))
  | .i16, .i16, a, b => constI (f (i16 a) (i16 b))
  -- "Here and below we use "unsigned math" to prevent undefined signed overflow behavior"
  | .i32, .i32, a, b => constI (toI 32 (toU 32 (f (u32 a) (u32 b))))
  | .i64, .i64, a, b => constI (f (u64 a) (u64 b))
  | _, _, _, _ => .next

def foldAdd := foldArith (· + ·)
def foldSub := foldArith (· - ·)

/-- `MUL`; the product of two `u16` is computed in `uint32_t`. -/
def foldMul : IrType → IrType → Val → Val → Outcome
  | .u16, .u16, a, b => constU (toU 32 (u16 a * u16 b))
  | t₁, t₂, a, b => foldArith (· * ·) t₁ t₂ a b

/-- `DIV`; C division truncates. -/
def foldDiv : IrType → IrType → Val → Val → Outcome
  | .u8, .u8, a, b => if u64 b = 0 then .emit else constU ((u8 a).tdiv (u8 b))
  | .u16, .u16, a, b => if u64 b = 0 then .emit else constU ((u16 a).tdiv (u16 b))
  | .u32, .u32, a, b => if u64 b = 0 then .emit else constU ((u32 a).tdiv (u32 b))
  | .u64, .u64, a, b | .addr, .addr, a, b =>
    if u64 b = 0 then .emit else constU ((u64 a).tdiv (u64 b))
  | .i8, .i8, a, b =>
    if i64 b = 0 ∨ (i64 b = -1 ∧ u8 a = 0x80) then .emit else constI ((i8 a).tdiv (i8 b))
  | .i16, .i16, a, b =>
    if i64 b = 0 ∨ (i64 b = -1 ∧ u16 a = 0x8000) then .emit else constI ((i16 a).tdiv (i16 b))
  | .i32, .i32, a, b =>
    if i64 b = 0 ∨ (i64 b = -1 ∧ u32 a = 0x80000000) then .emit
    else constI ((i32 a).tdiv (i32 b))
  | .i64, .i64, a, b =>
    if i64 b = 0 ∨ (i64 b = -1 ∧ u64 a = 0x8000000000000000) then .emit
    else constI ((i64 a).tdiv (i64 b))
  | _, _, _, _ => .next

/-- `MOD`; the remainder of `INT64_MIN` and `-1` is undefined in C. -/
def foldMod : IrType → IrType → Val → Val → Outcome
  | .u8, .u8, a, b | .u16, .u16, a, b | .u32, .u32, a, b | .u64, .u64, a, b
  | .addr, .addr, a, b => if u64 b = 0 then .emit else constU ((u64 a).tmod (u64 b))
  | .i8, .i8, a, b | .i16, .i16, a, b | .i32, .i32, a, b | .i64, .i64, a, b =>
    if i64 b = 0 then .emit
    else if i64 a = -2 ^ 63 ∧ i64 b = -1 then .undefined
    else constI ((i64 a).tmod (i64 b))
  | _, _, _, _ => .next

def foldNeg : IrType → Val → Outcome
  | .i8, a => constI (toI 8 (0 - u8 a))
  | .i16, a => constI (toI 16 (0 - u16 a))
  | .i32, a => constI (toI 32 (toU 32 (0 - u32 a)))
  | .i64, a => constI (0 - u64 a)
  | _, _ => .next

def foldAbs : IrType → Val → Outcome
  | .i8, a => if i64 a ≥ 0 then .const a else constI (-i8 a)
  | .i16, a => if i64 a ≥ 0 then .const a else constI (-i16 a)
  | .i32, a => if i64 a ≥ 0 then .const a else constI (toI 32 (toU 32 (-u32 a)))
  | .i64, a => if i64 a ≥ 0 then .const a else constI (-u64 a)
  | _, _ => .next

/-! ## Bitwise operations -/

/-- C's `~` on a promoted operand. -/
def lnot (n : ℤ) : ℤ := -n - 1

def foldNot : IrType → Val → Outcome
  | .bool, a => foldBool (u64 a = 0)
  | .u8, a | .char, a => constU (lnot (u8 a))
  | .i8, a => constI (lnot (i8 a))
  | .u16, a => constU (lnot (u16 a))
  | .i16, a => constI (lnot (i16 a))
  | .u32, a => constU (toU 32 (lnot (u32 a)))
  | .i32, a => constI (lnot (i32 a))
  | .u64, a | .i64, a => constU (lnot (u64 a))
  | _, _ => .next

/-- `val.b`. -/
def valB (v : Val) : Bool := u8 v ≠ 0

/-- `OR`, `AND`: the whole 64-bit values. -/
def foldBits (f : Val → Val → Val) (fb : Bool → Bool → Bool) :
    IrType → IrType → Val → Val → Outcome
  | .bool, .bool, a, b => foldBool (fb (valB a) (valB b))
  | .char, .char, a, b | .u8, .u8, a, b | .u16, .u16, a, b | .u32, .u32, a, b
  | .u64, .u64, a, b | .i8, .i8, a, b | .i16, .i16, a, b | .i32, .i32, a, b
  | .i64, .i64, a, b => .const (f a b)
  | _, _, _, _ => .next

def foldOr := foldBits (· ||| ·) (· || ·)
def foldAnd := foldBits (· &&& ·) (· && ·)

/-- `XOR`: the members of the operand type, promoted. -/
def foldXor : IrType → IrType → Val → Val → Outcome
  | .bool, .bool, a, b => foldBool (valB a != valB b)
  | .u8, .u8, a, b | .char, .char, a, b =>
    .const ((a.setWidth 8 ^^^ b.setWidth 8).setWidth 64)
  | .i8, .i8, a, b => .const ((a.setWidth 8).signExtend 64 ^^^ (b.setWidth 8).signExtend 64)
  | .u16, .u16, a, b => .const ((a.setWidth 16 ^^^ b.setWidth 16).setWidth 64)
  | .i16, .i16, a, b => .const ((a.setWidth 16).signExtend 64 ^^^ (b.setWidth 16).signExtend 64)
  | .u32, .u32, a, b => .const ((a.setWidth 32 ^^^ b.setWidth 32).setWidth 64)
  | .i32, .i32, a, b => .const ((a.setWidth 32).signExtend 64 ^^^ (b.setWidth 32).signExtend 64)
  | .u64, .u64, a, b | .i64, .i64, a, b => .const (a ^^^ b)
  | _, _, _, _ => .next

/-! ## Shifts and rotations -/

/-- `op2_insn->val.uN & (N - 1)`: the shift count. -/
def count (w : ℕ) (b : Val) : ℕ := b.toNat % w

def foldShl : IrType → IrType → Val → Val → Outcome
  | .u8, .u8, a, b | .char, .char, a, b => constU (u8 a * 2 ^ count 8 b)
  | .i8, .i8, a, b => constI (toI 8 (u8 a * 2 ^ count 8 b))
  | .u16, .u16, a, b => constU (u16 a * 2 ^ count 16 b)
  | .i16, .i16, a, b => constI (toI 16 (u16 a * 2 ^ count 16 b))
  | .u32, .u32, a, b => constU (toU 32 (u32 a * 2 ^ count 32 b))
  | .i32, .i32, a, b => constI (toI 32 (toU 32 (u32 a * 2 ^ count 32 b)))
  | .u64, .u64, a, b | .i64, .i64, a, b => constU (u64 a * 2 ^ count 64 b)
  | _, _, _, _ => .next

def foldShr : IrType → IrType → Val → Val → Outcome
  | .u8, .u8, a, b | .char, .char, a, b => constU (u8 a / 2 ^ count 8 b)
  | .i8, .i8, a, b => constI (toI 8 (u8 a / 2 ^ count 8 b))
  | .u16, .u16, a, b => constU (u16 a / 2 ^ count 16 b)
  | .i16, .i16, a, b => constI (toI 16 (u16 a / 2 ^ count 16 b))
  | .u32, .u32, a, b => constU (u32 a / 2 ^ count 32 b)
  | .i32, .i32, a, b => constI (toI 32 (u32 a / 2 ^ count 32 b))
  | .u64, .u64, a, b | .i64, .i64, a, b => constU (u64 a / 2 ^ count 64 b)
  | _, _, _, _ => .next

/-- `SAR`; `>>` of a negative number rounds down. -/
def foldSar : IrType → IrType → Val → Val → Outcome
  | .u8, .u8, a, b | .char, .char, a, b => constU (toU 8 (i8 a / 2 ^ count 8 b))
  | .i8, .i8, a, b => constI (i8 a / 2 ^ count 8 b)
  | .u16, .u16, a, b => constU (toU 16 (i16 a / 2 ^ count 16 b))
  | .i16, .i16, a, b => constI (i16 a / 2 ^ count 16 b)
  | .u32, .u32, a, b => constU (toU 32 (i32 a / 2 ^ count 32 b))
  | .i32, .i32, a, b => constI (i32 a / 2 ^ count 32 b)
  | .u64, .u64, a, b | .i64, .i64, a, b => constI (i64 a / 2 ^ count 64 b)
  | _, _, _, _ => .next

/-- `ir_rol8`, `ir_rol16`, `ir_rol32` and `ir_rol64`: the two shifts of a `w`-bit operand. -/
def rol (w : ℕ) (x : BitVec w) (k : ℕ) : BitVec w := x <<< k ||| x >>> (w - k)

/-- `ir_ror8`, `ir_ror16`, `ir_ror32` and `ir_ror64`. -/
def ror (w : ℕ) (x : BitVec w) (k : ℕ) : BitVec w := x >>> k ||| x <<< (w - k)

/-- `ROL`, `ROR`: the 8- and 16-bit operands are promoted to `int`, a 32- or 64-bit operand must
not be shifted by its width. -/
def foldRotate (rot : (w : ℕ) → BitVec w → ℕ → BitVec w) : IrType → IrType → Val → Val → Outcome
  | .u8, .u8, a, b | .char, .char, a, b => constU (rot 8 (a.setWidth 8) (count 8 b)).toNat
  | .i8, .i8, a, b => constI (rot 8 (a.setWidth 8) (count 8 b)).toInt
  | .u16, .u16, a, b => constU (rot 16 (a.setWidth 16) (count 16 b)).toNat
  | .i16, .i16, a, b => constI (rot 16 (a.setWidth 16) (count 16 b)).toInt
  | .u32, .u32, a, b =>
    if count 32 b = 0 then .undefined else constU (rot 32 (a.setWidth 32) (count 32 b)).toNat
  | .i32, .i32, a, b =>
    if count 32 b = 0 then .undefined else constI (rot 32 (a.setWidth 32) (count 32 b)).toInt
  | .u64, .u64, a, b | .i64, .i64, a, b =>
    if count 64 b = 0 then .undefined else .const (rot 64 a (count 64 b))
  | _, _, _, _ => .next

def foldRol := foldRotate rol
def foldRor := foldRotate ror

/-! ## Minimum, maximum and conversions -/

/-- `MIN`, `MAX`: the rules of the signed types expect an unsigned second operand, so a pair of
signed constants is left to the other rules. -/
def foldMinMax (rel : ℤ → ℤ → Bool) : IrType → IrType → Val → Val → Outcome
  | .bool, .bool, a, b | .u8, .u8, a, b | .u16, .u16, a, b | .u32, .u32, a, b
  | .u64, .u64, a, b | .addr, .addr, a, b => .const (if rel (u64 a) (u64 b) then a else b)
  | .char, .char, a, b | .i8, .u8, a, b | .i16, .u16, a, b | .i32, .u32, a, b
  | .i64, .u64, a, b => .const (if rel (i64 a) (i64 b) then a else b)
  | _, _, _, _ => .next

def foldMin := foldMinMax fun a b => a ≤ b
def foldMax := foldMinMax fun a b => a ≥ b

def foldSext : IrType → Val → Outcome
  | .i8, a | .u8, a | .bool, a | .char, a => constI (i8 a)
  | .i16, a | .u16, a => constI (i16 a)
  | .i32, a | .u32, a => constI (i32 a)
  | _, _ => .next

def foldZext : IrType → Val → Outcome
  | .i8, a | .u8, a | .bool, a | .char, a => constU (u8 a)
  | .i16, a | .u16, a => constU (u16 a)
  | .i32, a | .u32, a => constU (u32 a)
  | _, _ => .next

/-- The constant of type `t` with the low bits of `a`; the `switch` of `TRUNC`. -/
def truncTo : IrType → Val → Outcome
  | .i8, a | .char, a => constI (i8 a)
  | .i16, a => constI (i16 a)
  | .i32, a => constI (i32 a)
  | .u8, a | .bool, a => constU (u8 a)
  | .u16, a => constU (u16 a)
  | .u32, a => constU (u32 a)
  | _, _ => .next

def foldTrunc (t : IrType) : IrType → Val → Outcome
  | .i16, a | .i32, a | .i64, a | .u16, a | .u32, a | .u64, a => truncTo t a
  | _, _ => .next

/-- `BITCAST` between integer types; its own `switch`. -/
def foldBitcast (t t₁ : IrType) (a : Val) : Outcome :=
  if t₁.isInt && t₁ ≠ .void then
    match t with
    | .bool => foldBool (i8 a ≠ 0)
    | .i8 | .char => constI (i8 a)
    | .i16 => constI (i16 a)
    | .i32 => constI (i32 a)
    | .i64 => constI (i64 a)
    | .u8 => constU (u8 a)
    | .u16 => constU (u16 a)
    | .u32 => constU (u32 a)
    | .u64 | .addr => constU (u64 a)
    | _ => .next
  else .next

/-- The constant rules: opcode, result type and two constant operands with their types (a unary
rule has no second operand). -/
def foldConst (op : IrOp) (t t₁ t₂ : IrType) (a b : Val) : Outcome :=
  Outcome.intern t <|
    match op with
    | .eq => foldEq t₁ t₂ a b
    | .ne => foldNe t₁ t₂ a b
    | .lt => foldLt t₁ t₂ a b
    | .ge => foldGe t₁ t₂ a b
    | .le => foldLe t₁ t₂ a b
    | .gt => foldGt t₁ t₂ a b
    | .ult => foldUlt t₁ t₂ a b
    | .uge => foldUge t₁ t₂ a b
    | .ule => foldUle t₁ t₂ a b
    | .ugt => foldUgt t₁ t₂ a b
    | .add => foldAdd t₁ t₂ a b
    | .sub => foldSub t₁ t₂ a b
    | .mul => foldMul t₁ t₂ a b
    | .div => foldDiv t₁ t₂ a b
    | .mod => foldMod t₁ t₂ a b
    | .neg => foldNeg t₁ a
    | .abs => foldAbs t₁ a
    | .not => foldNot t₁ a
    | .or => foldOr t₁ t₂ a b
    | .and => foldAnd t₁ t₂ a b
    | .xor => foldXor t₁ t₂ a b
    | .shl => foldShl t₁ t₂ a b
    | .shr => foldShr t₁ t₂ a b
    | .sar => foldSar t₁ t₂ a b
    | .rol => foldRol t₁ t₂ a b
    | .ror => foldRor t₁ t₂ a b
    | .min => foldMin t₁ t₂ a b
    | .max => foldMax t₁ t₂ a b
    | .sext => foldSext t₁ a
    | .zext => foldZext t₁ a
    | .trunc => foldTrunc t t₁ a
    | .bitcast => foldBitcast t t₁ a
    | _ => .next

end IrJit.Fold
