import IrJit.Dessa.Machine
import IrJit.Lib.FirstBit

/-!
# Dessa.RegCopy — `ir_parallel_copy` (`ir_emit.c`)

The copies between registers that pass the arguments of a call, on x86-64.  The C fields `from` and `to` are
`src` and `dst` here.

* `loc`, `pred` and `types` come from `alloca`: what they hold at first is arbitrary.
* The type of a move is looked up by its source, `types` keeps the one of the last copy.
* The loops run at most once for each copy, and carry a fuel.
-/

namespace IrJit.Dessa.Regs

/-- `ir_copy`. -/
structure RegCopy where
  type : IrType
  src : ℕ
  dst : ℕ
  deriving DecidableEq, Repr

/-! ## Instructions -/

/-- `ir_emit_mov`, `ir_emit_mov_ext`, `ir_emit_swap` and `ir_emit_fp_mov`. -/
inductive CopyInstr
  | mov (type : IrType) (dst src : ℕ)
  | movExt (type : IrType) (dst src : ℕ)
  | xchg (type : IrType) (r1 r2 : ℕ)
  | fpMov (type : IrType) (dst src : ℕ)
  deriving DecidableEq, Repr

abbrev Regs := ℕ → Word

/-- `movsx` and `movzx` to 32 bits, which clear the upper half. -/
def extend32 (type : IrType) (v : Word) : Word :=
  let n := if type.size = 2 then 16 else 8
  if type.isSigned then ((v.setWidth n).signExtend 32).setWidth 64 else (v.setWidth n).setWidth 64

/-- What `ir_emit_mov_ext` writes. -/
def movExtVal (type : IrType) (old v : Word) : Word :=
  if type.size > 2 then writeGp type.size old v else extend32 type v

def CopyInstr.exec (σ : Regs) : CopyInstr → Option Regs
  | mov t d r =>
    if isGpReg d && isGpReg r then some (Function.update σ d (writeGp t.size (σ d) (σ r))) else none
  | movExt t d r =>
    if isGpReg d && isGpReg r then some (Function.update σ d (movExtVal t (σ d) (σ r))) else none
  | xchg t a b =>
    if isGpReg a && isGpReg b then
      some (Function.update (Function.update σ a (writeGp t.size (σ a) (σ b))) b (writeGp t.size (σ b) (σ a)))
    else none
  | fpMov _ d r => if isFpReg d && isFpReg r then some (Function.update σ d (σ r)) else none

def execCopies : List CopyInstr → Regs → Option Regs
  | [], σ => some σ
  | i :: is, σ => (i.exec σ).bind (execCopies is)

def emitCopy (type : IrType) (dst src : ℕ) : CopyInstr := if type.isInt then .mov type dst src else .fpMov type dst src

def emitCopyExt (type : IrType) (dst src : ℕ) : CopyInstr :=
  if type.isInt then .movExt type dst src else .fpMov type dst src

/-! ## The tables -/

/-- The arrays and sets of the first loop. -/
structure CopyTables where
  loc : ℕ → ℕ
  pred : ℕ → ℕ
  types : ℕ → IrType
  todo : Finset ℕ
  srcs : Finset ℕ

def CopyTables.add (t : CopyTables) (c : RegCopy) : CopyTables where
  loc := Function.update t.loc c.src c.src
  pred := Function.update t.pred c.dst c.src
  types := Function.update t.types c.src c.type
  todo := insert c.dst t.todo
  srcs := insert c.src t.srcs

/-- The first loop, over arrays that hold anything. -/
def copyTables (loc pred : ℕ → ℕ) (types : ℕ → IrType) (copies : List RegCopy) : CopyTables :=
  copies.foldl CopyTables.add ⟨loc, pred, types, ∅, ∅⟩

/-! ## The loops -/

/-- What the loops change. -/
structure CopyState where
  todo : Finset ℕ
  loc : ℕ → ℕ
  code : List CopyInstr

section Loops

variable (pred : ℕ → ℕ) (types : ℕ → IrType)

/-- The move into `dst`, and whether its source can be overwritten now. -/
def CopyState.moveInto (st : CopyState) (dst : ℕ) : CopyState × Bool :=
  let src := pred dst
  let r := st.loc src
  let todo := st.todo.erase dst
  ({ todo := todo
     loc := Function.update st.loc src dst
     code := st.code ++ [emitCopyExt (types src) dst r] }, decide (src = r ∧ src ∈ todo))

/-- The "windmill blades". -/
def resolveBlades : ℕ → Finset ℕ → CopyState → Option CopyState
  | 0, _, _ => none
  | fuel + 1, ready, st =>
    match firstBit ready with
    | none => some st
    | some dst =>
      let (st', freed) := st.moveInto pred types dst
      resolveBlades fuel (if freed then insert (pred dst) (ready.erase dst) else ready.erase dst) st'

/-- The inner loop over a cycle. -/
def copyCycle : ℕ → ℕ → CopyState → Option CopyState
  | 0, _, _ => none
  | fuel + 1, dst, st =>
    let (st', freed) := st.moveInto pred types dst
    if freed then copyCycle fuel (pred dst) st' else some st'

/-- A register of the cycle is put aside. -/
def CopyState.saveTo (st : CopyState) (dst tmp : ℕ) (save : CopyInstr) : CopyState where
  todo := st.todo.erase dst
  loc := Function.update st.loc dst tmp
  code := st.code ++ [save]

/-- A cycle of two is swapped, at the larger of its types. -/
def CopyState.swap (st : CopyState) (dst src : ℕ) : CopyState where
  todo := (st.todo.erase dst).erase src
  loc := Function.update (Function.update st.loc dst src) src dst
  code := st.code ++
    [.xchg (if (types dst).size > (types src).size then types dst else types src) dst src]

/-- The "windmill axles". -/
def resolveAxles (tmpReg tmpFpReg : Option ℕ) : ℕ → CopyState → Option CopyState
  | 0, _ => none
  | fuel + 1, st =>
    match firstBit st.todo with
    | none => some st
    | some dst =>
      let src := pred dst
      if (types src).isInt then
        if pred src = dst then resolveAxles tmpReg tmpFpReg fuel (st.swap types dst src)
        else do
          let tmp ← tmpReg
          let st' ← copyCycle pred types fuel dst (st.saveTo dst tmp (.mov (types src) tmp dst))
          resolveAxles tmpReg tmpFpReg fuel st'
      else do
        let tmp ← tmpFpReg
        let st' ← copyCycle pred types fuel dst (st.saveTo dst tmp (.fpMov (types src) tmp dst))
        resolveAxles tmpReg tmpFpReg fuel st'

end Loops

/-- `ir_parallel_copy`; `none` stands for a temporary that is missing. -/
def parallelCopy (loc pred : ℕ → ℕ) (types : ℕ → IrType) (copies : List RegCopy) (tmpReg tmpFpReg : Option ℕ) :
    Option (List CopyInstr) :=
  match copies with
  | [c] => some [emitCopy c.type c.dst c.src]
  | _ => do
    let t := copyTables loc pred types copies
    let ready := t.todo \ t.srcs
    if ready = t.todo then some (copies.map fun c => emitCopy c.type c.dst c.src)
    else do
      let fuel := copies.length + 1
      let st ← resolveBlades t.pred t.types fuel ready ⟨t.todo, t.loc, []⟩
      let st ← resolveAxles t.pred t.types tmpReg tmpFpReg fuel st
      some st.code

end IrJit.Dessa.Regs
