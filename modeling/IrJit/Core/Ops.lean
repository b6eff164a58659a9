import Mathlib.Data.Nat.Basic

/-!
# Core.Ops — the opcodes of the IR (`ir.h`, `IR_OPS`)

The order of the constructors is the order of the enumeration `ir_op`.  `IrOp.cls` is the first
letter of the flags of an opcode in `IR_OPS`; the tests of the flags that the passes make are
stated on it.
-/

namespace IrJit

/-- `ir_op`. -/
inductive IrOp
  | nop | cBool | cU8 | cU16 | cU32 | cU64 | cAddr | cChar | cI8 | cI16 | cI32 | cI64 | cDouble
  | cFloat | eq | ne | lt | ge | le | gt | ult | uge | ule | ugt | ordered | unordered | add | sub
  | mul | div | mod | neg | abs | sext | zext | trunc | bitcast | int2fp | fp2int | fp2fp | proto
  | addOv | subOv | mulOv | overflow | not | or | and | xor | shl | shr | sar | rol | ror | bswap
  | ctpop | ctlz | cttz | min | max | cond | vaddr | frameAddr | phi | copy | pi | argval | param
  | var | funcAddr | func | sym | label | str | call | tailcall | alloca | afree | blockBegin
  | blockEnd | vload | vloadV | vstore | vstoreV | rload | rstore | load | loadV | store | storeV
  | tls | trap | vaStart | vaEnd | vaCopy | vaArg | guard | guardNot | snapshot | start | entry
  | beginOp | ifTrue | ifFalse | caseVal | caseRange | caseDefault | merge | loopBegin | endOp
  | loopEnd | ifOp | switch | igoto | ijmp | ret | unreachable | asm | asmOut | asmGoto | exitcall
  deriving DecidableEq, Repr

/-- The class letter of `IR_OPS`: `v`, `d`/`r`, `p`, `c`, `S`, `E`, `T`, `l`, `s`, `x`, `a`. -/
inductive OpClass
  | void | data | pinned | control | bbStart | bbEnd | terminator | load | store | call | alloc
  deriving DecidableEq, Repr

namespace IrOp

def cls : IrOp → OpClass
  | nop => .void
  | phi | pi | param | var => .pinned
  | call | tailcall | trap | vaStart | vaEnd | vaCopy | vaArg | snapshot | asm | asmOut
  | exitcall => .call
  | alloca | afree | blockBegin | blockEnd => .alloc
  | vload | vloadV | rload | load | loadV | tls => .load
  | vstore | vstoreV | rstore | store | storeV => .store
  | guard | guardNot => .control
  | start | entry | beginOp | ifTrue | ifFalse | caseVal | caseRange | caseDefault | merge
  | loopBegin => .bbStart
  | endOp | loopEnd | ifOp | switch | igoto | asmGoto => .bbEnd
  | ijmp | ret | unreachable => .terminator
  | _ => .data

/-- `IR_OP_FLAG_CONTROL`. -/
def isControl (op : IrOp) : Bool :=
  match op.cls with
  | .void | .data | .pinned => false
  | _ => true

/-- `flags & (IR_OP_FLAG_CONTROL|IR_OP_FLAG_MEM|IR_OP_FLAG_PINNED)`: the first operand is a control
input. -/
def hasControlInput (op : IrOp) : Bool :=
  match op.cls with
  | .void | .data => false
  | _ => true

/-- `IR_OP_FLAG_DATA`. -/
def isData (op : IrOp) : Bool :=
  match op.cls with
  | .data | .pinned => true
  | _ => false

/-- `IR_OP_FLAG_MEM`: loads, stores, calls and allocations. -/
def isMem (op : IrOp) : Bool :=
  match op.cls with
  | .load | .store | .call | .alloc => true
  | _ => false

/-- `IR_OP_FLAG_BB_START`. -/
def isBbStart (op : IrOp) : Bool := op.cls = .bbStart

theorem isControl_of_isBbStart {op : IrOp} (h : op.isBbStart = true) : op.isControl = true := by
  have hcls : op.cls = .bbStart := by simpa [isBbStart] using h
  simp [isControl, hcls]

theorem isControl_eq_false {op : IrOp} (h : op.isData = true) : op.isControl = false := by
  unfold isData at h
  unfold isControl
  split at h <;> simp_all

theorem isControl_of_isMem {op : IrOp} (h : op.isMem = true) : op.isControl = true := by
  unfold isMem at h
  unfold isControl
  split at h <;> simp_all

theorem hasControlInput_of_isControl {op : IrOp} (h : op.isControl = true) :
    op.hasControlInput = true := by
  unfold isControl at h
  unfold hasControlInput
  split at h <;> simp_all

/-- `IR_IS_BB_MERGE`. -/
def isMerge (op : IrOp) : Bool := op = .merge || op = .loopBegin

theorem isBbStart_of_isMerge {op : IrOp} (h : op.isMerge = true) : op.isBbStart = true := by
  simp only [isMerge, Bool.or_eq_true, decide_eq_true_eq] at h
  rcases h with rfl | rfl <;> rfl

/-- `IR_IS_CONST_OP`: `IR_C_BOOL .. IR_C_FLOAT`. -/
def isConstOp (op : IrOp) : Bool := 0 < op.ctorIdx && op.ctorIdx ≤ IrOp.cFloat.ctorIdx

/-- `IR_IS_SYM_CONST`. -/
def isSymConst (op : IrOp) : Bool :=
  op = .str || op = .sym || op = .func || op = .label

/-- `IR_IS_FOLDABLE_OP`: every opcode up to `IR_COPY`. -/
def isFoldable (op : IrOp) : Bool := op.ctorIdx ≤ IrOp.copy.ctorIdx

/-- `IR_OP_HAS_VAR_INPUTS`. -/
def hasVarInputs : IrOp → Bool
  | phi | call | tailcall | snapshot | merge | loopBegin | asm => true
  | _ => false

/-- `IR_INPUT_EDGES_COUNT`: the number of operands that are edges, `0` with variable inputs. -/
def inputEdges : IrOp → ℕ
  | nop | cBool | cU8 | cU16 | cU32 | cU64 | cAddr | cChar | cI8 | cI16 | cI32 | cI64 | cDouble
  | cFloat | frameAddr | funcAddr | func | sym | label | str | start | phi | call | tailcall
  | snapshot | merge | loopBegin | asm => 0
  | neg | abs | sext | zext | trunc | bitcast | int2fp | fp2int | fp2fp | proto | overflow | not
  | bswap | ctpop | ctlz | cttz | vaddr | copy | argval | param | var | trap | asmOut | blockBegin
  | rload | tls | entry | beginOp | ifTrue | ifFalse | caseDefault | endOp | loopEnd | asmGoto
  | unreachable => 1
  | div | mod | cond | vaCopy | vstore | vstoreV | store | storeV | guard | guardNot
  | caseRange => 3
  | _ => 2

end IrOp

end IrJit
