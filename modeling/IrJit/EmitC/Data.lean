import IrJit.EmitC.CExpr
import Mathlib.Logic.Function.Basic

/-!
# EmitC.Data — the statements of the data instructions (`ir_emit_c.c`, 129–584)

Every instruction prints one assignment to its variable, declared with the C type of the instruction;
the overflow instructions print two.  An operand is a constant, printed by `ir_print_const`, or the
variable of a value.
-/

namespace IrJit.EmitC

open Fold

/-- An operand: a constant of a type, or the variable `d_N` of a value. -/
inductive Arg
  | const (t : IrType) (n : ℤ)
  | var (t : IrType) (r : ℕ)
  deriving DecidableEq

def Arg.type : Arg → IrType
  | .const t _ | .var t _ => t

def Arg.value (env : Name → ℤ) : Arg → ℤ
  | .const _ n => n
  | .var _ r => env (.d r)

/-! ## Constants -/

/-- A decimal constant has the first of the types `int` and `long` that can hold it; a larger one has
no type. -/
def decimal (n : ℤ) : CExpr :=
  if n < 2 ^ 31 then .lit .i32 n else if n < 2 ^ 63 then .lit .i64 n else .bad

/-- A hexadecimal constant may also be unsigned. -/
def hexadecimal (n : ℤ) : CExpr :=
  if n < 2 ^ 31 then .lit .i32 n
  else if n < 2 ^ 32 then .lit .u32 n
  else if n < 2 ^ 63 then .lit .i64 n
  else .lit .u64 n

/-- `ir_print_const`.  A character constant is an `int`; a negative character is printed as the number
of its `unsigned char`. -/
def printConst (t : IrType) (n : ℤ) : CExpr :=
  match t with
  | .addr => if n ≠ 0 then hexadecimal n else decimal 0
  | .char => if n < 0 then decimal (n + 256) else .lit .i32 n
  | .i8 | .i16 | .i32 | .i64 => if n < 0 then .neg (decimal (-n)) else decimal n
  | _ => decimal n

/-- `ir_emit_ref`. -/
def emitArg : Arg → CExpr
  | .const t n => printConst t n
  | .var t r => .var t (.d r)

/-- The text of the operand starts with a minus sign. -/
def Arg.startsWithMinus : Arg → Bool
  | .const t n => (t = .i8 || t = .i16 || t = .i32 || t = .i64) && decide (n < 0)
  | .var _ _ => false

/-- `-` before an operand; two minus signs are the token `--`. -/
def emitMinus (a : Arg) : CExpr := if a.startsWithMinus then .bad else .neg (emitArg a)

/-! ## Casts -/

def signedOf : ℕ → IrType
  | 1 => .i8
  | 2 => .i16
  | 4 => .i32
  | _ => .i64

def unsignedOf : ℕ → IrType
  | 1 => .u8
  | 2 => .u16
  | 4 => .u32
  | _ => .u64

/-- `ir_emit_signed_cast`. -/
def signedCast (t : IrType) (e : CExpr) : CExpr :=
  if t.isSigned then e else .cast (signedOf t.size) e

/-- `ir_emit_unsigned_cast`. -/
def unsignedCast (t : IrType) (e : CExpr) : CExpr :=
  if t.isSigned then .cast (unsignedOf t.size) e else e

/-! ## Instructions -/

/-- A data instruction: `c` is the third operand of a `COND`, `overflow` the variable of the
`OVERFLOW` of an overflow instruction; an operand the opcode does not have is not looked at. -/
structure DataInsn where
  op : IrOp
  type : IrType
  dst : ℕ
  a : Arg
  b : Arg
  c : Arg
  overflow : ℕ

/-- A statement: an assignment to a variable of type `t`, or
`x = __builtin_…_overflow(a, b, &out)` with parameters of type `u`. -/
inductive CStmt
  | assign (x : Name) (t : IrType) (e : CExpr)
  | overflow (x : Name) (t : IrType) (op : BinOp) (u : IrType) (a b : CExpr) (out : Name)

/-- `ir_emit_rol_ror`. -/
def emitRolRor (op1 op2 : BinOp) (t : IrType) (e f : CExpr) : CExpr :=
  .bin .or (.bin op1 (unsignedCast t e) (unsignedCast t f))
    (.bin op2 (unsignedCast t e) (.bin .sub (.lit .i32 (bits t)) (unsignedCast t f)))

/-- `ir_emit_count`. -/
def emitCount (f : Builtin) (t : IrType) (e : CExpr) : CExpr :=
  .builtin f (if t.size = 8 then .u64 else .u32) e

/-- `ir_emit_abs`. -/
def emitAbs (a : Arg) : CExpr :=
  if a.type.isSigned then .cond (.bin .lt (emitArg a) (.lit .i32 0)) (emitMinus a) (emitArg a)
  else emitArg a

/-- `ir_emit_overflow_math`.  The builtins of the 4- and 8-byte types write to `overflow_N`, an `int`,
and both assignments go to the variable of the instruction. -/
def emitOverflowMath (I : DataInsn) (op : BinOp) : List CStmt :=
  let e := emitArg I.a
  let f := emitArg I.b
  let d := Name.d I.dst
  if I.type.size = 4 ∨ I.type.size = 8 then
    let u := if I.type.isSigned then signedOf I.type.size else unsignedOf I.type.size
    [.overflow d I.type op u e f (.overflow I.overflow),
      .assign d I.type (.var .i32 (.overflow I.overflow))]
  else
    let w := if I.type.isSigned then IrType.i32 else IrType.u32
    [.assign d I.type (.bin op e f),
      .assign (.d I.overflow) .bool
        (.bin .ne (.cast w (.var I.type d)) (.bin op (.cast w e) (.cast w f)))]

/-- The expression of a data instruction. -/
def emitExpr (I : DataInsn) : CExpr :=
  let e := emitArg I.a
  let f := emitArg I.b
  let t := I.a.type
  match I.op with
  | .eq => .bin .eq e f
  | .ne => .bin .ne e f
  | .lt => .bin .lt e f
  | .ge => .bin .ge e f
  | .le => .bin .le e f
  | .gt => .bin .gt e f
  | .ult => .bin .lt (unsignedCast t e) (unsignedCast t f)
  | .uge => .bin .ge (unsignedCast t e) (unsignedCast t f)
  | .ule => .bin .le (unsignedCast t e) (unsignedCast t f)
  | .ugt => .bin .gt (unsignedCast t e) (unsignedCast t f)
  | .add => .bin .add e f
  | .sub => .bin .sub e f
  | .mul => .bin .mul e f
  | .div => .bin .div e f
  | .mod => .bin .mod e f
  | .neg => emitMinus I.a
  | .not => if I.type = .bool then .lnot e else .compl e
  | .or => .bin (if I.type = .bool then .lor else .or) e f
  | .and => .bin (if I.type = .bool then .land else .and) e f
  | .xor => .bin .xor e f
  | .min => .cond (.bin .lt e f) e f
  | .max => .cond (.bin .gt e f) e f
  | .cond => .cond e f (emitArg I.c)
  | .abs => emitAbs I.a
  | .shl => .bin .shl e f
  | .shr => .bin .shr (unsignedCast t e) (unsignedCast t f)
  | .sar => .bin .shr (signedCast t e) (signedCast t f)
  | .rol => emitRolRor .shl .shr t e f
  | .ror => emitRolRor .shr .shl t e f
  | .ctpop => emitCount .popcount I.type e
  | .ctlz => emitCount .clz I.type e
  | .cttz => emitCount .ctz I.type e
  | .sext => .cast (signedOf I.type.size) (.cast (signedOf t.size) e)
  | .zext | .trunc => .cast (unsignedOf I.type.size) (.cast (unsignedOf t.size) e)
  | _ => .bad

/-- The statements of a data instruction. -/
def emitData (I : DataInsn) : List CStmt :=
  match I.op with
  | .addOv => emitOverflowMath I .add
  | .subOv => emitOverflowMath I .sub
  | .mulOv => emitOverflowMath I .mul
  | _ => [.assign (.d I.dst) I.type (emitExpr I)]

/-! ## Execution -/

def exact (op : BinOp) (x y : ℤ) : ℤ :=
  match op with
  | .add => x + y
  | .sub => x - y
  | _ => x * y

/-- An overflow builtin writes a value of its parameter type through a pointer to an `int`: with an
8-byte type the behaviour is undefined. -/
def exec (env : Name → ℤ) : CStmt → Option (Name → ℤ)
  | .assign x t e => (eval env e).map fun v => Function.update env x (convert t v.2)
  | .overflow x t op u a b out =>
    if u.size = 8 then none
    else
      (eval env a).bind fun v => (eval env b).map fun w =>
        let n := exact op (convert u v.2) (convert u w.2)
        Function.update (Function.update env out (convert .i32 n)) x
          (convert t (if wrap u n = n then 0 else 1))

def execAll (env : Name → ℤ) : List CStmt → Option (Name → ℤ)
  | [] => some env
  | s :: l => (exec env s).bind fun env' => execAll env' l

end IrJit.EmitC
