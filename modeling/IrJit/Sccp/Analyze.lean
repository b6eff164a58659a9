import Mathlib
import IrJit.Core.Ops
import IrJit.Core.Types

/-!
# Sccp.Analyze — sparse conditional constant propagation (`ir_sccp.c`, `ir_sccp_analyze`)

The lattice of `ir_sccp_val`, the state of the analysis and its steps, function by function.

* `Graph` is the IR graph with use lists: a reference is negative for a constant, positive for an
  instruction, `0` for a missing operand.  The operands of an instruction are one list, so the tail slots of a
  long instruction are no references of their own.  `Graph.inputs` are the operands that are edges,
  `Graph.dataIns` those that are evaluated: control inputs, the merge of a PHI and the guard of a DIV or MOD
  are left out.
* The rings of copies (`next`, `prev`) are lists: `ring A` holds the members of the class of `A`, in
  order, without `A`.
* The work queue is a bit set; `ir_bitqueue_pop` takes the lowest bit.
* `ir_folding` is a parameter.  It answers a `Query`: the opcode, the operands, and for each operand
  the constant that the lattice puts in its place.
* `iter_worklist`, which the analysis only fills, is left out.
-/

namespace IrJit.Sccp

/-- A constant instruction: opcode, type and bits. -/
structure Const where
  op : IrOp
  type : IrType
  val : BitVec 64
  deriving DecidableEq, Repr

namespace Const

/-- `IR_IS_CONST_OP(op) || IR_IS_SYM_CONST(op)`. -/
def isPlain (c : Const) : Bool := c.op.isConstOp || c.op.isSymConst

/-- The bits of a double or float that is not `0.0` or `-0.0`. -/
def fpNonZero (width : ℕ) (v : BitVec 64) : Bool := v.toNat % 2 ^ (width - 1) ≠ 0

/-- The truth of a value of a type. -/
def valIsTrue (type : IrType) (v : BitVec 64) : Bool :=
  match type with
  | .bool => v.toNat % 2 ^ 8 ≠ 0
  | .double => fpNonZero 64 v
  | .float => fpNonZero 32 v
  | _ => v ≠ 0

/-- `ir_const_is_true`. -/
def isTrue (c : Const) : Bool := if c.op.isSymConst then true else valIsTrue c.type c.val

/-- The comparison of `ir_sccp_in_range`. -/
def valInRange (type : IrType) (v lo hi : BitVec 64) : Bool :=
  if type.isSigned then lo.sle v && v.sle hi else lo.ule v && v.ule hi

end Const

/-- `opt`: opcode and type. -/
structure Opt where
  op : IrOp
  type : IrType
  deriving DecidableEq, Repr

structure Insn where
  op : IrOp
  type : IrType
  /-- `op1, op2, op3`, or the `inputs_count` operands of an instruction with variable inputs -/
  ops : List ℤ
  deriving DecidableEq, Repr

def Insn.opt (insn : Insn) : Opt := ⟨insn.op, insn.type⟩

/-- The number of data operands of a foldable opcode: the guard of DIV and MOD is skipped. -/
def dataCount (op : IrOp) : ℕ :=
  if op = .div || op = .mod then op.inputEdges - 1 else op.inputEdges

structure Graph where
  insnsCount : ℕ
  insn : ℕ → Insn
  useLists : ℕ → List ℕ
  /-- `ir_base[ref]` of a constant -/
  const : ℤ → Const
  /-- `ctx->flags2 & IR_MEM2SSA_VARS` -/
  mem2ssaVars : Bool

namespace Graph

variable (G : Graph)

def opOf (x : ℕ) : IrOp := (G.insn x).op

/-- Operand `j` (from 1) of `x`. -/
def operand (x j : ℕ) : ℤ := (G.insn x).ops.getD (j - 1) 0

/-- The operands that are edges. -/
def inputs (x : ℕ) : List ℤ :=
  if (G.opOf x).hasVarInputs then (G.insn x).ops else (G.insn x).ops.take (G.opOf x).inputEdges

/-- The operands whose values an instruction reads. -/
def dataIns (x : ℕ) : List ℤ :=
  if (G.opOf x).isMerge then []
  else if (G.opOf x).hasControlInput then (G.inputs x).drop 1
  else (G.inputs x).take (dataCount (G.opOf x))

def isPhi (x : ℕ) : Bool := G.opOf x = .phi

def isMerge (x : ℕ) : Bool := (G.opOf x).isMerge

/-- Data that is computed from its operands wherever it is needed: not a PHI. -/
def isFloating (x : ℕ) : Bool := (G.opOf x).isData && !G.isPhi x

/-- What `ir_sccp_fold` is called for. -/
def isFoldable (x : ℕ) : Bool := (G.opOf x).isFoldable && (G.opOf x).isData && !G.isPhi x

/-- A node that may be a constant or a copy in the lattice. -/
def hasValue (x : ℕ) : Bool := G.isFoldable x || G.isPhi x

/-- The inputs of the merge of PHI `x`, each with the operand of the PHI for it. -/
def phiEdges (x : ℕ) : List (ℤ × ℤ) :=
  (G.insn (G.operand x 1).toNat).ops.zip ((G.insn x).ops.drop 1)

/-- `ir_is_dead_load_ex`: a load or an allocation of which only the control successor is a use. -/
def isDeadLoad (x : ℕ) : Bool :=
  ((G.opOf x).cls = .load || G.opOf x = .alloca || G.opOf x = .blockBegin) &&
    (G.useLists x).length = 1

end Graph

/-- The values of `ir_sccp_val`: `op` with `copy`, `single_output`, `unfeasible_inputs` or `val`. -/
inductive Lat
  | top
  | const (c : Const)
  | copy (x : ℕ)
  | bottom
  | out (use : ℕ)
  | merge (unfeasible : ℕ)
  deriving DecidableEq, Repr

structure State where
  values : ℕ → Lat
  visited : ℕ → Bool
  ring : ℕ → List ℕ
  queue : ℕ → Bool

/-- What `ir_folding` is asked: `cᵢ` is the constant of operand `i`, when the lattice has one. -/
structure Query where
  opt : Opt
  op1 : ℤ
  op2 : ℤ
  op3 : ℤ
  c1 : Option Const
  c2 : Option Const
  c3 : Option Const
  deriving DecidableEq

/-- The answers of `ir_folding`; `emit` is also `IR_FOLD_DO_CSE`. -/
inductive FoldAns
  | emit
  | restart (opt : Opt) (op1 op2 op3 : ℤ)
  | copy (ref : ℤ)
  | const (c : Const)
  deriving DecidableEq, Repr

abbrev Folding := Query → FoldAns

/-! ### Identities -/

/-- One step from a copy to what it copies. -/
def follow (V : ℕ → Lat) (x : ℕ) : ℕ :=
  match V x with
  | .copy y => y
  | _ => x

variable (G : Graph)

/-- `ir_sccp_identity`; a chain of copies has no cycle, so it is shorter than the graph. -/
def identity (V : ℕ → Lat) (x : ℕ) : ℕ := (follow V)^[G.insnsCount] x

/-- `ir_sccp_identity` of an operand. -/
def identityRef (V : ℕ → Lat) (a : ℤ) : ℤ := if 0 < a then identity G V a.toNat else a

namespace State

variable (st : State)

/-- `ir_bitqueue_add` for each of the list. -/
def enqueue (l : List ℕ) : State := { st with queue := fun j => st.queue j || decide (j ∈ l) }

/-- `ir_sccp_add_uses`. -/
def addUses (x : ℕ) : State := st.enqueue ((G.useLists x).filter fun use => st.values use ≠ .bottom)

/-- `ir_sccp_add_input`: backward propagation, once. -/
def addInput (x : ℕ) : State :=
  if st.visited x then st
  else { st.enqueue [x] with visited := Function.update st.visited x true }

/-- `_values[x] = v`. -/
def setValue (x : ℕ) (v : Lat) : State := { st with values := Function.update st.values x v }

/-- `ir_sccp_add_identity`. -/
def addIdentity (src dst : ℕ) : State :=
  let rep := identity G st.values src
  { st.setValue dst (.copy src) with
    ring := Function.update st.ring rep (st.ring rep ++ [dst]) }

/-- The members that `ir_sccp_split_partition` meets when it walks the ring from `x` to `x`. -/
def walk (x : ℕ) : List ℕ :=
  let rep := identity G st.values x
  let l := st.ring rep
  (l.dropWhile (· ≠ x)).drop 1 ++ rep :: l.takeWhile (· ≠ x)

/-- `ir_sccp_split_partition`: `x` leaves its class and takes the copies of `x` along. -/
def splitPartition (x : ℕ) : State :=
  let rep := identity G st.values x
  let walk := st.walk G x
  let st₁ := st.setValue x .bottom
  let moved := fun m => identity G st₁.values m = x
  let st₂ := walk.foldl
    (fun s m => (if s.values m ≠ .bottom then s.enqueue [m] else s).addUses G m) st₁
  { st₂ with
    ring := Function.update (Function.update st.ring rep
      ((st.ring rep).filter fun m => m ≠ x ∧ ¬ moved m)) x (walk.filter fun m => moved m) }

/-- `ir_sccp_make_bottom_ex`. -/
def makeBottomEx (x : ℕ) : State :=
  match st.values x with
  | .copy _ => st.splitPartition G x
  | _ => st.setValue x .bottom

/-- `ir_sccp_meet_const`. -/
def meetConst (x : ℕ) (c : Const) : State × Bool :=
  if st.values x = .top then (st.setValue x (.const c), true)
  else if st.values x = .const c then (st, false)
  else (st.makeBottomEx G x, true)

/-- `ir_sccp_meet_copy`. -/
def meetCopy (x val : ℕ) : State × Bool :=
  match st.values x with
  | .copy _ =>
    if identity G st.values x = identity G st.values val then (st, false)
    else (st.splitPartition G x, true)
  | _ => (st.addIdentity G val x, true)

end State

/-! ### Folding -/

/-- The constant that stands for an operand of `ir_folding`. -/
def constOf (V : ℕ → Lat) (a : ℤ) : Option Const :=
  if 0 < a then
    match V a.toNat with
    | .const c => if c.op.isConstOp then some c else none
    | _ => none
  else none

/-- The question for an opcode and operands; `view` gives the constants. -/
def query (view : ℤ → Option Const) (opt : Opt) (a b c : ℤ) : Query :=
  ⟨opt, a, b, c, view a, view b, view c⟩

/-- The loop of `ir_sccp_fold` around `IR_FOLD_DO_RESTART`. -/
def foldLoop (F : Folding) (view : ℤ → Option Const) : ℕ → Opt → ℤ → ℤ → ℤ → Option FoldAns
  | 0, _, _, _, _ => none
  | fuel + 1, opt, a, b, c =>
    match F (query view opt a b c) with
    | .restart opt' a' b' c' => foldLoop F view fuel opt' a' b' c'
    | ans => some ans

/-- The loop with the operands of `x`. -/
def foldInsn (F : Folding) (view : ℤ → Option Const) (V : ℕ → Lat) (fuel x : ℕ) : Option FoldAns :=
  foldLoop F view fuel (G.insn x).opt (identityRef G V (G.operand x 1))
    (identityRef G V (G.operand x 2)) (identityRef G V (G.operand x 3))

/-- What `ir_sccp_fold` does with an answer. -/
def State.meetAns (st : State) (x : ℕ) : FoldAns → State × Bool
  | .const c => st.meetConst G x c
  | .copy ref =>
    if ref < 0 then st.meetConst G x (G.const ref)
    else
      match st.values ref.toNat with
      | .const c => if c.isPlain then st.meetConst G x c else st.meetCopy G x ref.toNat
      | _ => st.meetCopy G x ref.toNat
  | _ => (st.makeBottomEx G x, true)

/-- `ir_sccp_fold`. -/
def State.fold (F : Folding) (fuel : ℕ) (st : State) (x : ℕ) : Option (State × Bool) :=
  (foldInsn G F (constOf st.values) st.values fuel x).map (st.meetAns G x)

/-! ### PHI -/

/-- The first value that `ir_sccp_analyze_phi` meets: `new_const`, or `new_copy` with its identity. -/
inductive PhiVal
  | const (c : Const)
  | copy (new ident : ℕ)

/-- A constant that keeps the first value. -/
def PhiVal.sameConst : PhiVal → Const → Bool
  | .const c', c => c = c'
  | .copy _ _, _ => false

/-- A copy of `x` that keeps the first value; `ident` is the identity of the PHI. -/
def PhiVal.sameCopy (ident : ℕ) : PhiVal → ℕ → Bool
  | .const _, x => x = ident
  | .copy _ ident', x => x = ident || x = ident'

/-- The first loop of `ir_sccp_analyze_phi`, over the operands of feasible inputs. -/
def phiFirst (i ident : ℕ) : List ℤ → State → State × Option (PhiVal × List ℤ)
  | [], st => (st, none)
  | a :: rest, st =>
    if a < 0 then (st, some (.const (G.const a), rest))
    else if a.toNat = i then phiFirst i ident rest st
    else
      match st.values a.toNat with
      | .top => phiFirst i ident rest (st.addInput a.toNat)
      | .copy y =>
        if identity G st.values y = ident then phiFirst i ident rest st
        else (st, some (.copy y (identity G st.values y), rest))
      | .bottom =>
        if a.toNat = ident then phiFirst i ident rest st
        else (st, some (.copy a.toNat a.toNat, rest))
      | .const c => (st, some (.const c, rest))
      | _ => (st, none)

/-- The second loop: `false` is `goto make_bottom`. -/
def phiNext (i ident : ℕ) (found : PhiVal) : List ℤ → State → State × Bool
  | [], st => (st, true)
  | a :: rest, st =>
    if a < 0 then if found.sameConst (G.const a) then phiNext i ident found rest st else (st, false)
    else if a.toNat = i then phiNext i ident found rest st
    else
      match st.values a.toNat with
      | .top => phiNext i ident found rest (st.addInput a.toNat)
      | .copy y =>
        if found.sameCopy ident (identity G st.values y) then phiNext i ident found rest st else (st, false)
      | .bottom => if found.sameCopy ident a.toNat then phiNext i ident found rest st else (st, false)
      | .const c => if found.sameConst c then phiNext i ident found rest st else (st, false)
      | _ => (st, false)

/-- The operands of PHI `i` for the inputs of its merge that are reachable. -/
def feasibleIns (V : ℕ → Lat) (i : ℕ) : List ℤ :=
  ((G.phiEdges i).filter fun e => V e.1.toNat ≠ .top).map Prod.snd

/-- `ir_sccp_analyze_phi`. -/
def State.analyzePhi (st : State) (i : ℕ) : State × Bool :=
  if st.values (G.operand i 1).toNat = .top then (st, false)
  else
    let ident := identity G st.values i
    match phiFirst G i ident (feasibleIns G st.values i) st with
    | (st₁, none) => (st₁, false)
    | (st₁, some (found, rest)) =>
      match phiNext G i ident found rest st₁ with
      | (st₂, false) => (st₂.makeBottomEx G i, true)
      | (st₂, true) =>
        match found with
        | .const c => st₂.meetConst G i c
        | .copy new _ => st₂.meetCopy G i new

/-! ### The steps -/

/-- `ir_sccp_add_input` for those of the operands that are TOP. -/
def State.addInputs (st : State) (l : List ℤ) : State :=
  l.foldl (fun s a => if 0 < a ∧ s.values a.toNat = .top then s.addInput a.toNat else s) st

/-- `has_top`: an operand is TOP. -/
def State.hasTop (st : State) (i : ℕ) : Bool :=
  (G.dataIns i).any fun a => 0 < a ∧ st.values a.toNat = .top

/-- `may_benefit`: an operand may be replaced, or the instruction has a value or is a COPY. -/
def State.mayBenefit (st : State) (i : ℕ) : Bool :=
  st.values i ≠ .top || G.opOf i = .copy ||
    (G.dataIns i).any fun a => 0 < a ∧ st.values a.toNat ≠ .bottom

/-- A foldable instruction. -/
def State.analyzeData (F : Folding) (fuel : ℕ) (st : State) (i : ℕ) : Option (State × Bool) :=
  let st₁ := st.addInputs (G.dataIns i)
  if st.hasTop G i then some (st₁, false)
  else if st.mayBenefit G i then st₁.fold G F fuel i
  else some (st₁.makeBottomEx G i, true)

/-- The number of unreachable inputs of a merge. -/
def unfeasible (V : ℕ → Lat) (i : ℕ) : ℕ := (G.inputs i).countP fun a => V a.toNat = .top

/-- The PHIs of a merge are processed at once after MEM2SSA, other uses are queued. -/
def State.analyzePhis (st : State) : List ℕ → State
  | [] => st
  | use :: rest =>
    if st.values use = .bottom then analyzePhis st rest
    else if G.isPhi use then
      let st₁ := { st with queue := Function.update st.queue use false }
      if G.useLists use = [] then analyzePhis st₁ rest
      else
        match st₁.analyzePhi G use with
        | (st₂, true) => analyzePhis (st₂.addUses G use) rest
        | (st₂, false) => analyzePhis st₂ rest
    else analyzePhis (st.enqueue [use]) rest

/-- MERGE and LOOP_BEGIN. -/
def State.analyzeMerge (st : State) (i : ℕ) : State :=
  let n := unfeasible G st.values i
  let v := if n = 0 then Lat.bottom else .merge n
  if n ≠ 0 ∧ st.values i = v then st
  else
    let st₁ := st.setValue i v
    if G.mem2ssaVars then st₁.analyzePhis G (G.useLists i) else st₁.addUses G i

/-- The constant of a condition, `IR_IS_CONST`. -/
def condConst (V : ℕ → Lat) (a : ℤ) : Option Const :=
  if a < 0 then some (G.const a)
  else
    match V a.toNat with
    | .const c => if c.op.isConstOp then some c else none
    | _ => none

/-- The output of an IF with a constant condition. -/
def ifOutput (i : ℕ) (c : Const) : ℕ :=
  let use := (G.useLists i).getD 0 0
  if decide (G.opOf use = .ifTrue) ≠ c.isTrue then (G.useLists i).getD 1 0 else use

/-- A case that holds the value `v`. -/
def caseMatches (type : IrType) (v : BitVec 64) (use : ℕ) : Bool :=
  match G.opOf use with
  | .caseVal => v = (G.const (G.operand use 2)).val
  | .caseRange =>
    Const.valInRange type v (G.const (G.operand use 2)).val (G.const (G.operand use 3)).val
  | _ => false

/-- The output of a SWITCH with a constant condition: the first case that holds it, else the
default. -/
def switchOutput (i : ℕ) (c : Const) : Option ℕ :=
  match (G.useLists i).find? (caseMatches G c.type c.val) with
  | some use => some use
  | none => (G.useLists i).reverse.find? fun use => G.opOf use = .caseDefault

/-- IF. -/
def State.analyzeIf (st : State) (i : ℕ) : State :=
  let cond := G.operand i 2
  if 0 ≤ cond ∧ st.values cond.toNat = .top then st.addInput cond.toNat
  else
    match condConst G st.values cond with
    | some c =>
      let use := ifOutput G i c
      if st.values i = .top then (st.setValue i (.out use)).enqueue [use]
      else if st.values i = .out use then st
      else (st.setValue i .bottom).addUses G i
    | none => (st.setValue i .bottom).addUses G i

/-- SWITCH. -/
def State.analyzeSwitch (st : State) (i : ℕ) : State :=
  let cond := G.operand i 2
  if 0 ≤ cond ∧ st.values cond.toNat = .top then st.addInput cond.toNat
  else
    match (condConst G st.values cond).bind (switchOutput G i) with
    | some use =>
      match st.values i with
      | .top => (st.setValue i (.out use)).enqueue [use]
      | .out _ => st
      | _ => (st.setValue i .bottom).addUses G i
    | none => (st.setValue i .bottom).addUses G i

/-- One round of the loop of `ir_sccp_analyze` for `i`. -/
def State.analyzeInsn (F : Folding) (fuel : ℕ) (st : State) (i : ℕ) : Option State :=
  let op := G.opOf i
  let finish := fun (r : State × Bool) => if r.2 then r.1.addUses G i else r.1
  if op.isData then
    if G.useLists i = [] then some st
    else if G.isPhi i then some (finish (st.analyzePhi G i))
    else if op.isFoldable then (st.analyzeData G F fuel i).map finish
    else some (((st.makeBottomEx G i).addInputs (G.inputs i)).addUses G i)
  else if op.isBbStart then
    if op.isMerge then some (st.analyzeMerge G i)
    else some ((st.setValue i .bottom).addUses G i)
  else if st.values (G.operand i 1).toNat = .top then some st
  else if op = .ifOp then some (st.analyzeIf G i)
  else if op = .switch then some (st.analyzeSwitch G i)
  else if G.isDeadLoad i then some ((st.setValue i .bottom).addUses G i)
  else some (((st.addInputs (G.dataIns i)).setValue i .bottom).addUses G i)

/-- `ir_bitqueue_pop`. -/
def State.pop (st : State) : Option ℕ := (List.range G.insnsCount).find? st.queue

/-- One round: pop an instruction and process it. -/
def State.round (F : Folding) (fuel : ℕ) (st : State) (i : ℕ) : Option State :=
  { st with queue := Function.update st.queue i false }.analyzeInsn G F fuel i

/-- `ir_sccp_analyze` from a state. -/
def analyzeFrom (F : Folding) (fuel : ℕ) : ℕ → State → Option State
  | 0, _ => none
  | rounds + 1, st =>
    match st.pop G with
    | none => some st
    | some i => (st.round G F fuel i).bind (analyzeFrom F fuel rounds)

/-- The state in which `ir_sccp_analyze` starts. -/
def State.init : State where
  values := fun _ => .top
  visited := fun _ => false
  ring := fun _ => []
  queue := fun j => j = 1

/-- `ir_sccp_analyze`. -/
def analyze (F : Folding) (fuel rounds : ℕ) : Option State := analyzeFrom G F fuel rounds .init

end IrJit.Sccp
