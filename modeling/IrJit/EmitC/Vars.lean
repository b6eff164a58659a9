import IrJit.Core.Types
import IrJit.Core.Ops
import Mathlib.Logic.Function.Basic
import Mathlib.Data.List.Basic

/-!
# EmitC.Vars — variables in the text of the C back end (`ir_emit_c.c`)

`ir_emit_func` prints one C statement for an instruction.  A `VLOAD` prints nothing: its uses print
the name of the variable.  A value whose only use is a `VSTORE` is assigned to the variable where it
is defined, and that `VSTORE` prints nothing.  This file says which statement an instruction prints,
and executes a sequence of instructions twice: as the IR means it, and as the text does.

Every value has its own C variable `d_N`; the copies of a `PHI` are one parallel assignment.
-/

namespace IrJit.EmitC

/-- An operand: a constant reference or an instruction. -/
inductive Opnd
  | const (k : ℕ)
  | ref (r : ℕ)
  deriving DecidableEq

/-- `ir_insn`: the control operand, the variable (`op2` of `VLOAD` and `VSTORE`) and the data
operands. -/
structure Insn where
  op : IrOp
  type : IrType
  ctrl : Option ℕ
  var : ℕ
  args : List Opnd

/-- The instructions up to `insns_count`.  `stray k` is what `use_lists[-k].count` reads for the
constant `k`: the table has no entry for constants. -/
structure Func where
  size : ℕ
  insn : ℕ → Insn
  constType : ℕ → IrType
  stray : ℕ → ℕ

def isVload (op : IrOp) : Bool := op = .vload || op = .vloadV

def isVstore (op : IrOp) : Bool := op = .vstore || op = .vstoreV

def Opnd.toRef? : Opnd → Option ℕ
  | .const _ => none
  | .ref r => some r

/-- The instructions an instruction refers to, one for each operand. -/
def Insn.refs (insn : Insn) : List ℕ := insn.ctrl.toList ++ insn.args.filterMap Opnd.toRef?

variable (F : Func)

/-- `use_lists[r]` with its edges: an instruction stands once for each operand that is `r`. -/
def useList (r : ℕ) : List ℕ :=
  (List.range F.size).flatMap fun u => List.replicate ((F.insn u).refs.count r) u

/-- `use_lists[ref].count`. -/
def useCount : Opnd → ℕ
  | .const k => F.stray k
  | .ref r => (useList F r).length

/-- The left-hand side of a statement. -/
inductive Target
  | d (r : ℕ)
  | var (x : ℕ)
  deriving DecidableEq

/-- `ir_emit_def_ref`. -/
def emitDefRef (i : ℕ) : Target :=
  match useList F i with
  | [u] => if isVstore (F.insn u).op then .var (F.insn u).var else .d i
  | _ => .d i

/-- The statement of an instruction.  `raw` assigns `d_N` whatever the uses are: the declaration of a
`PARAM`, and a `BITCAST` from or to a floating point type, which prints its own name. -/
inductive Form
  | skip | assign | raw | vload | vstore | load | store | call | read
  deriving DecidableEq

def opndType : Opnd → IrType
  | .const k => F.constType k
  | .ref r => (F.insn r).type

/-- The `switch` of `ir_emit_func`.  An `OVERFLOW` is printed with its arithmetic instruction and
counts as executed right after it. -/
def form (i : ℕ) : Form :=
  match (F.insn i).op with
  | .param => .raw
  | .vload | .vloadV => .vload
  | .vstore | .vstoreV => .vstore
  | .load | .loadV => .load
  | .store | .storeV => .store
  | .call | .tailcall | .vaStart | .vaEnd | .vaCopy | .vaArg => .call
  | .ret | .ifOp | .switch | .igoto | .ijmp | .guard | .guardNot => .read
  | .bitcast | .proto =>
    if (F.insn i).type.isInt && ((F.insn i).args.map (opndType F)).all IrType.isInt then .assign
    else .raw
  | .eq | .ne | .lt | .ge | .le | .gt | .ult | .uge | .ule | .ugt | .ordered | .unordered | .add
  | .sub | .mul | .div | .mod | .neg | .not | .or | .and | .xor | .min | .max | .cond | .abs | .shl
  | .shr | .sar | .rol | .ror | .bswap | .ctpop | .ctlz | .cttz | .sext | .zext | .trunc | .int2fp
  | .fp2int | .fp2fp | .addOv | .subOv | .mulOv | .overflow | .copy | .alloca | .vaddr
  | .frameAddr => .assign
  | _ => .skip

/-- The statement of a `LOAD`, a `VA_ARG`, or a `CALL` whose result has a virtual register, starts
with `ir_emit_def_ref`. -/
def printsDef (i : ℕ) : Bool :=
  match (F.insn i).op with
  | .load | .loadV | .vaArg => true
  | .call => (F.insn i).type ≠ .void && decide (1 < useCount F (.ref i))
  | _ => false

/-- An argument of a call that is an `ARGVAL` stands for the operand of the `ARGVAL`. -/
def argOf (a : Opnd) : Opnd :=
  match a with
  | .const k => .const k
  | .ref r => if (F.insn r).op = .argval then (F.insn r).args.headD (.ref r) else .ref r

/-- The operands whose values the statement of `i` uses. -/
def operands (i : ℕ) : List Opnd :=
  match form F i with
  | .call => (F.insn i).args.map (argOf F)
  | _ => (F.insn i).args

/-! ## Meaning -/

/-- What the operations compute: a data instruction from its operands, a memory instruction or a
call from its operands and the variables whose address is taken.  The second result of `eff` is what
it writes to them. -/
structure Meaning (V : Type) where
  const : ℕ → V
  compute : ℕ → List V → V
  eff : ℕ → List V → (ℕ → V) → V × (ℕ → Option V)
  escaped : ℕ → Bool
  reads_escaped : ∀ i l m m', (∀ x, escaped x = true → m x = m' x) → eff i l m = eff i l m'
  writes_escaped : ∀ i l m x, escaped x = false → (eff i l m).2 x = none

variable {V : Type} (M : Meaning V)

/-- The values of the instructions (`d_N` in the text) and of the variables. -/
structure State (V : Type) where
  reg : ℕ → V
  var : ℕ → V

/-- One instruction, or the copies to the `PHI`s of the block that is entered. -/
inductive Event
  | insn (i : ℕ)
  | moves (copies : List (ℕ × Opnd))

def State.setReg (s : State V) (r : ℕ) (v : V) : State V :=
  { s with reg := Function.update s.reg r v }

def State.setVar (s : State V) (x : ℕ) (v : V) : State V :=
  { s with var := Function.update s.var x v }

/-- The variables after a memory instruction. -/
def State.write (s : State V) (w : ℕ → Option V) : State V :=
  { s with var := fun x => (w x).getD (s.var x) }

/-- A parallel assignment to values. -/
def State.copy (s : State V) (read : Opnd → V) (copies : List (ℕ × Opnd)) : State V :=
  { s with reg := fun r => ((copies.lookup r).map read).getD (s.reg r) }

/-- The value of an operand in the IR. -/
def irRead (s : State V) : Opnd → V
  | .const k => M.const k
  | .ref r => s.reg r

/-- `ir_emit_ref`. -/
def emitRef (s : State V) : Opnd → V
  | .const k => M.const k
  | .ref r => if isVload (F.insn r).op then s.var (F.insn r).var else s.reg r

/-- An operand printed as `d_N`: the address of a `LOAD` or `STORE`, and the source of a copy. -/
def emitReg (s : State V) : Opnd → V
  | .const k => M.const k
  | .ref r => s.reg r

/-- One event as the IR means it. -/
def irStep (s : State V) : Event → State V
  | .moves copies => s.copy (irRead M s) copies
  | .insn i =>
    let l := (operands F i).map (irRead M s)
    match form F i with
    | .skip | .read => s
    | .assign | .raw => s.setReg i (M.compute i l)
    | .vload => s.setReg i (s.var (F.insn i).var)
    | .vstore =>
      match l with
      | [v] => s.setVar (F.insn i).var v
      | _ => s
    | .load | .store | .call =>
      let out := M.eff i l s.var
      (s.write out.2).setReg i out.1

def State.assign (s : State V) (v : V) : Target → State V
  | .d r => s.setReg r v
  | .var x => s.setVar x v

/-- The operands of the statement of `i` as it prints them. -/
def printed (s : State V) (i : ℕ) : List V :=
  match form F i, operands F i with
  | .load, a :: l | .store, a :: l => emitReg M s a :: l.map (emitRef F M s)
  | _, l => l.map (emitRef F M s)

/-- One event as the text executes it. -/
def cStep (s : State V) : Event → State V
  | .moves copies => s.copy (emitReg M s) copies
  | .insn i =>
    let l := printed F M s i
    match form F i with
    | .skip | .read | .vload => s
    | .raw => s.setReg i (M.compute i l)
    | .assign => s.assign (M.compute i l) (emitDefRef F i)
    | .vstore =>
      match operands F i with
      | [a] => if useCount F a ≠ 1 then s.setVar (F.insn i).var (emitRef F M s a) else s
      | _ => s
    | .load | .store | .call =>
      let out := M.eff i l s.var
      if printsDef F i then (s.write out.2).assign out.1 (emitDefRef F i) else s.write out.2

end IrJit.EmitC
