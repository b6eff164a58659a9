import Mathlib.Data.Finset.Sort
import IrJit.Core.Types
import IrJit.Lib.FirstBit

/-!
# Dessa.Moves — `ir_compute_dessa_moves` and `ir_gen_dessa_moves` (`ir_ra.c`)

The PHIs of a block as copies between virtual registers.  A reference is an integer: negative for a
constant, `0` for the temporary.  An instruction without a virtual register (`vregs` is 0) is an address.

* The tables `loc`, `pred`, `src`, `dst` come from `malloc`: what they hold at first is arbitrary.
* The bit sets are finite sets.  The loops carry a fuel, `none` stands for a loop that has not ended.
-/

namespace IrJit.Dessa

/-- The flags of a block that `ir_compute_dessa_moves` changes. -/
structure MoveFlags where
  empty : Bool
  dessaMoves : Bool
  dessaTmpInt : Bool
  dessaTmpFp : Bool
  deriving DecidableEq, Repr

/-- What the two functions read of `ir_ctx`. -/
structure PhiCtx where
  blocksCount : ℕ
  /-- the predecessors of a block, in their order -/
  predecessors : ℕ → List ℕ
  /-- `cfg_edges[bb->successors]` -/
  successor : ℕ → ℕ
  /-- the use list of the first instruction of a block -/
  uses : ℕ → List ℤ
  isPhi : ℤ → Bool
  type : ℤ → IrType
  /-- `ir_insn_op` -/
  op : ℤ → ℕ → ℤ
  vregs : ℤ → ℕ
  vregsCount : ℕ

/-- A call of `emit_copy`. -/
structure EmitCopy where
  type : IrType
  src : ℤ
  dst : ℤ
  deriving DecidableEq, Repr

namespace PhiCtx

variable (c : PhiCtx)

/-! ### `ir_compute_dessa_moves` -/

/-- The block `pred` gets a move of a PHI of the given type. -/
def markMoves (flags : ℕ → MoveFlags) (pred : ℕ) (type : IrType) : ℕ → MoveFlags :=
  Function.update flags pred { flags pred with
    empty := false
    dessaMoves := true
    dessaTmpInt := (flags pred).dessaTmpInt || type.isInt
    dessaTmpFp := (flags pred).dessaTmpFp || !type.isInt }

/-- The inputs `2..k` of the instruction `use`. -/
def markInputs (b : ℕ) (flags : ℕ → MoveFlags) (use : ℤ) : ℕ → MoveFlags :=
  (List.range' 2 (c.predecessors b).length).foldl (fun flags j =>
    let input := c.op use j
    if input < 0 ∨ c.vregs input ≠ c.vregs use then
      markMoves flags ((c.predecessors b).getD (j - 2) 0) (c.type use)
    else flags) flags

def markBlock (flags : ℕ → MoveFlags) (b : ℕ) : ℕ → MoveFlags :=
  if 1 < (c.predecessors b).length ∧ 1 < (c.uses b).length then
    (c.uses b).foldl (fun flags use => if c.isPhi use then c.markInputs b flags use else flags) flags
  else flags

/-- `ir_compute_dessa_moves`. -/
def computeDessaMoves (flags : ℕ → MoveFlags) : ℕ → MoveFlags :=
  (List.range' 1 c.blocksCount).foldl c.markBlock flags

/-! ### `ir_gen_dessa_moves` -/

/-- `ir_phi_input_number`: the input 1 is the MERGE itself. -/
def phiInputNumber (succ b : ℕ) : ℕ := (c.predecessors succ).idxOf b + 2

/-- `IR_IS_CONST_REF(input) || !ctx->vregs[input]`. -/
def constOrAddress (input : ℤ) : Bool := input < 0 || c.vregs input = 0

/-- The four tables. -/
structure Tables where
  loc : ℕ → ℕ
  pred : ℕ → ℕ
  src : ℕ → ℤ
  dst : ℕ → ℤ

/-- The PHI needs a copy between two virtual registers. -/
def isRegisterMove (k : ℕ) (ref : ℤ) : Bool :=
  c.isPhi ref && !c.constOrAddress (c.op ref k) && c.vregs (c.op ref k) != c.vregs ref

/-- One use in the first loop: the virtual registers that take part, and `todo`. -/
def collectCopy (k : ℕ) (p : Tables × Finset ℕ) (ref : ℤ) : Tables × Finset ℕ :=
  if c.isRegisterMove k ref then
    let input := c.op ref k
    let s := c.vregs input
    let d := c.vregs ref
    ({ loc := Function.update p.1.loc d 0
       pred := Function.update p.1.pred s 0
       src := Function.update p.1.src s input
       dst := Function.update p.1.dst d ref }, insert d p.2)
  else p

def collectCopies (k : ℕ) (uses : List ℤ) (t : Tables) : Tables × Finset ℕ :=
  uses.foldl (c.collectCopy k) (t, ∅)

/-- A destination and its source are linked. -/
def linkCopy (k : ℕ) (t : Tables) (d : ℕ) : Tables :=
  let s := c.vregs (c.op (t.dst d) k)
  { t with loc := Function.update t.loc s s, pred := Function.update t.pred d s }

/-- The loop over `todo`. -/
def linkCopies (k : ℕ) (todo : Finset ℕ) (t : Tables) : Tables :=
  (todo.sort (· ≤ ·)).foldl (c.linkCopy k) t

/-- What changes while the copies are emitted. -/
structure MoveState where
  loc : ℕ → ℕ
  src : ℕ → ℤ
  todo : Finset ℕ
  ready : Finset ℕ
  calls : List EmitCopy

/-- `while ((b = ir_bitset_pop_first(ready, len)) >= 0)`. -/
def emitReady (pred : ℕ → ℕ) (dst : ℕ → ℤ) : ℕ → MoveState → Option MoveState
  | 0, _ => none
  | fuel + 1, st =>
    match firstBit st.ready with
    | none => some st
    | some b =>
      let ready := st.ready.erase b
      let a := pred b
      let place := st.loc a
      emitReady pred dst fuel
        { loc := Function.update st.loc a b
          src := Function.update st.src b (dst b)
          todo := st.todo.erase b
          ready := if a = place ∧ pred a ≠ 0 then insert a ready else ready
          calls := st.calls ++ [⟨c.type (dst b), st.src place, dst b⟩] }

/-- The endless loop around it: the first register that waits is put into the temporary. -/
def emitMoves (pred : ℕ → ℕ) (dst : ℕ → ℤ) : ℕ → MoveState → Option MoveState
  | 0, _ => none
  | fuel + 1, st => do
    let st ← c.emitReady pred dst (c.vregsCount + 1) st
    match firstBit st.todo with
    | none => some st
    | some b =>
      emitMoves pred dst fuel
        { st with
          loc := Function.update st.loc b 0
          todo := st.todo.erase b
          ready := insert b st.ready
          calls := st.calls ++ [⟨c.type (st.src b), st.src b, 0⟩] }

/-- The copies between virtual registers. -/
def registerMoves (k : ℕ) (uses : List ℤ) (t : Tables) : Option (List EmitCopy) :=
  let (t, todo) := c.collectCopies k uses t
  if todo = ∅ then some []
  else
    let t := { t with src := Function.update t.src 0 0, dst := Function.update t.dst 0 0 }
    let t := c.linkCopies k todo t
    (c.emitMoves t.pred t.dst (c.vregsCount + 1)
      ⟨t.loc, t.src, todo, todo.filter (fun i => t.loc i = 0), []⟩).map (·.calls)

/-- The last loop: the constants and the addresses. -/
def constMoves (k : ℕ) (uses : List ℤ) : List EmitCopy :=
  (uses.filter (fun ref => c.isPhi ref && c.constOrAddress (c.op ref k))).map
    (fun ref => ⟨c.type ref, c.op ref k, ref⟩)

/-- `ir_gen_dessa_moves`: the calls of `emit_copy`, in order. -/
def genDessaMoves (flags : ℕ → MoveFlags) (t : Tables) (b : ℕ) : Option (List EmitCopy) :=
  if (flags b).dessaMoves then do
    let succ := c.successor b
    let k := c.phiInputNumber succ b
    let moves ← c.registerMoves k (c.uses succ) t
    some (moves ++ c.constMoves k (c.uses succ))
  else some []

/-! ### What the copies do -/

variable {V : Type} (constVal : ℤ → V)

/-- The place of a reference: the temporary has the number 0. -/
def place (ref : ℤ) : ℕ := if ref = 0 then 0 else c.vregs ref

/-- The value of a reference: of a constant, of an address, or of its register. -/
def value (σ : ℕ → V) (ref : ℤ) : V :=
  if ref ≠ 0 ∧ c.constOrAddress ref = true then constVal ref else σ (c.place ref)

def execCopy (σ : ℕ → V) (copy : EmitCopy) : ℕ → V :=
  Function.update σ (c.place copy.dst) (c.value constVal σ copy.src)

/-- The calls, one after the other. -/
def execCopies (copies : List EmitCopy) (σ : ℕ → V) : ℕ → V := copies.foldl (c.execCopy constVal) σ

end PhiCtx

end IrJit.Dessa
