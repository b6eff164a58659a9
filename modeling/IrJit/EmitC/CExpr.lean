import IrJit.Fold.Exact

/-!
# EmitC.CExpr — the C expressions the back end prints

C types are named by the IR type that declares them: `int8_t` is `i8`, `int` is `i32`, `long` is
`i64`, `uintptr_t` is `addr`.  An expression is evaluated with the integer promotions and the usual
arithmetic conversions to a type and a value; it has no value where C leaves the behaviour undefined
or the text is not an expression.  A shift of a negative number to the right rounds down.
-/

namespace IrJit.EmitC

open Fold

/-- The integer promotions. -/
def promote : IrType → IrType
  | .u32 => .u32
  | .u64 | .addr => .u64
  | .i64 => .i64
  | _ => .i32

/-- The usual arithmetic conversions. -/
def common (t u : IrType) : IrType :=
  let p := promote t
  let q := promote u
  if p.size < q.size then q
  else if q.size < p.size then p
  else if p.isSigned then q else p

/-- Conversion to a type. -/
def convert (t : IrType) (n : ℤ) : ℤ :=
  if t = .bool then if n ≠ 0 then 1 else 0 else wrap t n

/-- The variables of the text: `d_N` and the `overflow_N` of an overflow builtin. -/
inductive Name
  | d (r : ℕ)
  | overflow (r : ℕ)
  deriving DecidableEq

inductive BinOp
  | add | sub | mul | div | mod | or | and | xor | shl | shr | eq | ne | lt | ge | le | gt | lor
  | land
  deriving DecidableEq

/-- `__builtin_popcount`, `__builtin_clz` and `__builtin_ctz`. -/
inductive Builtin
  | popcount | clz | ctz
  deriving DecidableEq

/-- Expressions.  `bad` is text that is no expression. -/
inductive CExpr
  | bad
  | lit (t : IrType) (n : ℤ)
  | var (t : IrType) (x : Name)
  | cast (t : IrType) (e : CExpr)
  | neg (e : CExpr)
  | compl (e : CExpr)
  | lnot (e : CExpr)
  | bin (op : BinOp) (a b : CExpr)
  | cond (c a b : CExpr)
  | builtin (f : Builtin) (t : IrType) (e : CExpr)

/-- The number of ones of a pattern. -/
def popcount {w : ℕ} (p : BitVec w) : ℕ := (List.range w).countP p.getLsbD

/-- The number of zeros above the highest one. -/
def leadingZeros {w : ℕ} (p : BitVec w) : ℕ := ((List.range w).takeWhile fun i => !p.getMsbD i).length

/-- The number of zeros below the lowest one. -/
def trailingZeros {w : ℕ} (p : BitVec w) : ℕ := ((List.range w).takeWhile fun i => !p.getLsbD i).length

/-- A result of type `t`: unsigned arithmetic wraps, signed arithmetic must not overflow. -/
def arith (t : IrType) (n : ℤ) : Option (IrType × ℤ) :=
  if t.isSigned then
    if -2 ^ (bits t - 1) ≤ n ∧ n < 2 ^ (bits t - 1) then some (t, n) else none
  else some (t, wrap t n)

def truth (b : Bool) : Option (IrType × ℤ) := some (.i32, if b then 1 else 0)

/-- Operations on two values. -/
def binary (op : BinOp) (a b : IrType × ℤ) : Option (IrType × ℤ) :=
  let t := common a.1 b.1
  let x := convert t a.2
  let y := convert t b.2
  let pat : ℤ → BitVec (bits t) := BitVec.ofInt (bits t)
  match op with
  | .add => arith t (x + y)
  | .sub => arith t (x - y)
  | .mul => arith t (x * y)
  | .div => if y = 0 then none else arith t (x.tdiv y)
  -- the remainder is undefined where the quotient is
  | .mod => if y = 0 then none else (arith t (x.tdiv y)).bind fun _ => some (t, x.tmod y)
  | .or => some (t, ofBits t (pat x ||| pat y))
  | .and => some (t, ofBits t (pat x &&& pat y))
  | .xor => some (t, ofBits t (pat x ^^^ pat y))
  | .shl =>
    let t := promote a.1
    if 0 ≤ b.2 ∧ b.2 < bits t ∧ (t.isSigned = true → 0 ≤ a.2) then
      arith t (convert t a.2 * 2 ^ b.2.toNat)
    else none
  | .shr =>
    let t := promote a.1
    if 0 ≤ b.2 ∧ b.2 < bits t then some (t, convert t a.2 / 2 ^ b.2.toNat) else none
  | .eq => truth (x = y)
  | .ne => truth (x ≠ y)
  | .lt => truth (x < y)
  | .ge => truth (x ≥ y)
  | .le => truth (x ≤ y)
  | .gt => truth (x > y)
  | .lor => truth (a.2 ≠ 0 || b.2 ≠ 0)
  | .land => truth (a.2 ≠ 0 && b.2 ≠ 0)

/-- `clz` and `ctz` of zero are undefined; the parameter has the type `t`. -/
def callBuiltin (f : Builtin) (t : IrType) (n : ℤ) : Option (IrType × ℤ) :=
  let p := BitVec.ofInt (bits t) n
  match f with
  | .popcount => some (.i32, popcount p)
  | .clz => if p = 0 then none else some (.i32, leadingZeros p)
  | .ctz => if p = 0 then none else some (.i32, trailingZeros p)

/-- The type of an expression; it does not depend on the values. -/
def typeOf : CExpr → Option IrType
  | .bad => none
  | .lit t _ | .var t _ | .cast t _ => some t
  | .neg e | .compl e => (typeOf e).map promote
  | .lnot e => (typeOf e).map fun _ => .i32
  | .bin op a b =>
    (typeOf a).bind fun t => (typeOf b).map fun u =>
      match op with
      | .shl | .shr => promote t
      | .eq | .ne | .lt | .ge | .le | .gt | .lor | .land => .i32
      | _ => common t u
  | .cond _ a b => (typeOf a).bind fun t => (typeOf b).map fun u => common t u
  | .builtin _ _ _ => some .i32

def eval (env : Name → ℤ) : CExpr → Option (IrType × ℤ)
  | .bad => none
  | .lit t n => some (t, n)
  | .var t x => some (t, env x)
  | .cast t e => (eval env e).map fun v => (t, convert t v.2)
  | .neg e => (eval env e).bind fun v => arith (promote v.1) (-convert (promote v.1) v.2)
  | .compl e =>
    (eval env e).map fun v => (promote v.1, wrap (promote v.1) (-convert (promote v.1) v.2 - 1))
  | .lnot e => (eval env e).bind fun v => truth (v.2 = 0)
  | .bin op a b => (eval env a).bind fun v => (eval env b).bind fun w => binary op v w
  -- only the chosen operand is evaluated, but the type comes from both
  | .cond c a b =>
    (typeOf (.cond c a b)).bind fun t =>
      (eval env c).bind fun v =>
        if v.2 ≠ 0 then (eval env a).map fun w => (t, convert t w.2)
        else (eval env b).map fun w => (t, convert t w.2)
  | .builtin f t e => (eval env e).bind fun v => callBuiltin f t v.2

end IrJit.EmitC
