import IrJit.Fold.Const
import Mathlib.Data.List.Basic

/-!
# Fold.Engine — contexts, questions and rules of the folding engine (`ir.c`, 570–572 and 904–1084)

A question is an instruction that is not there yet: opcode, type and operands.  A rule has the
patterns of its `IR_FOLD` lines and a body; the body answers the question, passes it on or asks
another one.  The operands of a body are the question and the instructions `op1_insn` and `op2_insn`.
-/

namespace IrJit.Fold

/-- `IR_NULL`, `IR_FALSE` and `IR_TRUE`.  An `ir_ref` is an instruction if it is positive, a constant
if it is negative and nothing if it is zero. -/
def irNull : ℤ := -1
def irFalse : ℤ := -2
def irTrue : ℤ := -3

/-- `ir_insn`: a constant has `val`, an instruction has operands. -/
structure Insn where
  op : IrOp
  type : IrType
  op1 : ℤ := 0
  op2 : ℤ := 0
  op3 : ℤ := 0
  val : Val := 0
  deriving DecidableEq

instance : Inhabited Insn := ⟨{ op := .nop, type := .void }⟩

/-- The constants -1, -2, …, the instructions 0, 1, … (the first is the `NOP` of `IR_UNUSED`) and the
lengths of the use lists, if they are built. -/
structure Ctx where
  consts : List Insn
  insns : List Insn
  useLists : Option (ℤ → ℕ)

/-- `ctx->ir_base[r]`. -/
def Ctx.insn (c : Ctx) (r : ℤ) : Insn :=
  if r < 0 then c.consts.getD (-r - 1).toNat default else c.insns.getD r.toNat default

/-- `ctx->use_lists && ctx->use_lists[r].count != 1`. -/
def Ctx.shared (c : Ctx) (r : ℤ) : Bool :=
  match c.useLists with
  | none => false
  | some n => n r ≠ 1

/-- The opcode of the constants of a type. -/
def constOp : IrType → IrOp
  | .void => .nop
  | .bool => .cBool
  | .u8 => .cU8
  | .u16 => .cU16
  | .u32 => .cU32
  | .u64 => .cU64
  | .addr => .cAddr
  | .char => .cChar
  | .i8 => .cI8
  | .i16 => .cI16
  | .i32 => .cI32
  | .i64 => .cI64
  | .double => .cDouble
  | .float => .cFloat

/-- `ir_const`. -/
def Ctx.const (c : Ctx) (v : Val) (t : IrType) : Ctx × ℤ :=
  if t = .bool then (c, if v ≠ 0 then irTrue else irFalse)
  else if t = .addr ∧ v = 0 then (c, irNull)
  else
    match c.consts.findIdx? fun i => i.op = constOp t && i.type = t && i.val = v with
    | some k => (c, -(k + 1))
    | none =>
      ({ c with consts := c.consts ++ [{ op := constOp t, type := t, val := v }] },
        -(c.consts.length + 1))

/-- `ir_emit1`. -/
def Ctx.emit1 (c : Ctx) (op : IrOp) (t : IrType) (r : ℤ) : Ctx × ℤ :=
  ({ c with insns := c.insns ++ [{ op := op, type := t, op1 := r }] }, c.insns.length)

/-- `_ir_fold_cast`. -/
def Ctx.cast (c : Ctx) (r : ℤ) (t : IrType) : Ctx × ℤ :=
  if (c.insn r).type = t then (c, r)
  else if r < 0 ∧ ¬(c.insn r).op.isSymConst then c.const (c.insn r).val t
  else c.emit1 .bitcast t r

/-- `opt`, `op1`, `op2` and `op3`. -/
structure Question where
  op : IrOp
  type : IrType
  op1 : ℤ
  op2 : ℤ
  op3 : ℤ
  deriving DecidableEq

/-- What a rule does: `IR_FOLD_CONST_*`, `IR_FOLD_COPY`, `IR_FOLD_EMIT` (with a number of inputs in
`opt`), `IR_FOLD_NEXT` and `IR_FOLD_RESTART`; or it computes something that C leaves undefined. -/
inductive Reply
  | const (v : Val)
  | copy (r : ℤ)
  | emit (inputs : ℕ)
  | next
  | restart (c : Ctx) (q : Question)
  | undefined

/-- `IR_FOLD_BOOL`. -/
def Reply.bool (b : Bool) : Reply := .copy (if b then irTrue else irFalse)

/-- The answer of a constant rule. -/
def Reply.ofOutcome : Outcome → Reply
  | .const v => .const v
  | .emit => .emit 0
  | .next => .next
  | .undefined => .undefined

/-- The floating point operations of the rules, on the union `ir_val`.  `stale` is what the variable
`val` holds before a rule stores a `float` in its low half. -/
structure FloatOps where
  isNaN : IrType → Val → Bool
  isZero : IrType → Val → Bool
  compare : IrOp → IrType → Val → Val → Bool
  arith : IrOp → IrType → Val → Val → Val
  /-- The opcode of the conversion, the type it goes to and the type it comes from. -/
  convert : IrOp → IrType → IrType → Val → Val
  /-- `d == (double)(float)d`. -/
  fitsFloat : Val → Bool
  stale : Val

/-- The `IR_FOLD` lines of a rule, as a test on a key with `nop` for `_`, and its body. -/
structure Rule where
  pattern : IrOp → IrOp → IrOp → Bool
  body : FloatOps → Ctx → Question → Insn → Insn → Reply

/-! ## Classes of constants -/

/-- `C_U8 .. C_U64`. -/
def isU (o : IrOp) : Bool := o = .cU8 || o = .cU16 || o = .cU32 || o = .cU64

/-- `C_I8 .. C_I64`. -/
def isI (o : IrOp) : Bool := o = .cI8 || o = .cI16 || o = .cI32 || o = .cI64

/-- `C_U8 .. C_U64`, `C_I8 .. C_I64`. -/
def isUI (o : IrOp) : Bool := isU o || isI o

/-- The same with `C_ADDR`. -/
def isUIA (o : IrOp) : Bool := isU o || isI o || o = .cAddr

/-- `C_U8 .. C_U64`, `C_ADDR`. -/
def isUA (o : IrOp) : Bool := isU o || o = .cAddr

/-- `C_FLOAT`, `C_DOUBLE`. -/
def isF (o : IrOp) : Bool := o = .cFloat || o = .cDouble

/-- `EQ .. UGT`. -/
def isCmp (o : IrOp) : Bool :=
  o = .eq || o = .ne || o = .lt || o = .ge || o = .le || o = .gt || o = .ult || o = .uge ||
    o = .ule || o = .ugt

/-! ## Arithmetic on opcodes -/

/-- `opt ^ 1`. -/
def xorOne : IrOp → IrOp
  | .eq => .ne
  | .ne => .eq
  | .lt => .ge
  | .ge => .lt
  | .le => .gt
  | .gt => .le
  | .ult => .uge
  | .uge => .ult
  | .ule => .ugt
  | .ugt => .ule
  | .ordered => .unordered
  | .unordered => .ordered
  | .add => .sub
  | .sub => .add
  | o => o

/-- `opt ^ 3` of an ordering comparison. -/
def xorThree : IrOp → IrOp
  | .lt => .gt
  | .gt => .lt
  | .le => .ge
  | .ge => .le
  | .ult => .ugt
  | .ugt => .ult
  | .ule => .uge
  | .uge => .ule
  | o => o

/-- `opt + 4`: a comparison as one of unsigned operands. -/
def plusFour : IrOp → IrOp
  | .lt => .ult
  | .ge => .uge
  | .le => .ule
  | .gt => .ugt
  | o => o

/-- `opt + 3`: a shift as a rotation. -/
def plusThree : IrOp → IrOp
  | .shl => .rol
  | .shr => .ror
  | o => o

/-- `opt + 1` of `ADD` and `SUB`. -/
def succ : IrOp → IrOp
  | .add => .sub
  | .sub => .mul
  | o => o

/-! ## Questions asked again -/

namespace Reply

variable (c : Ctx) (q : Question)

/-- `op1` and `op2` change, the opcode stays. -/
def again (r s : ℤ) : Reply := .restart c { q with op1 := r, op2 := s }

/-- A unary operation, `op2 = IR_UNUSED`. -/
def unary (op : IrOp) (t : IrType) (r : ℤ) : Reply :=
  .restart c { q with op := op, type := t, op1 := r, op2 := 0 }

/-- `op2` becomes a constant. -/
def withConst (op : IrOp) (r : ℤ) (v : Val) (t : IrType) : Reply :=
  let (c', k) := c.const v t
  .restart c' { q with op := op, op1 := r, op2 := k }

/-- `op1` becomes a constant. -/
def constWith (op : IrOp) (v : Val) (t : IrType) (r : ℤ) : Reply :=
  let (c', k) := c.const v t
  .restart c' { q with op := op, op1 := k, op2 := r }

end Reply

/-- `swap_ops`: the lower reference becomes `op2`. -/
def swapOps (c : Ctx) (q : Question) : Reply :=
  if q.op1 < q.op2 then .again c q q.op2 q.op1 else .next

/-- The operand is a constant that is no symbol. -/
def Ctx.isNumber (c : Ctx) (r : ℤ) : Bool := r < 0 && !(c.insn r).op.isSymConst

/-- `IR_IS_POWER_OF_TWO`. -/
def isPowerOfTwo (v : Val) : Bool := v ≠ 0 && v &&& (v - 1) = 0

/-- `IR_LOG2` of a power of two. -/
def log2 (v : Val) : Val := BitVec.ofNat 64 v.toNat.log2

end IrJit.Fold
