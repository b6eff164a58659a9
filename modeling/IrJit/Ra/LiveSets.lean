import Mathlib
import IrJit.Core.Ops
import IrJit.Lib.Worklist

/-!
# Ra.LiveSets — the scheduled function, and `ir_compute_live_sets` (`ir_ra.c`)

`Prog` is the part of `ir_ctx` that `ir_compute_live_sets` and `ir_compute_live_ranges` read: instructions,
use lists, blocks, virtual registers, the rules of the instruction selector and the constraints of
the target (`ir_get_target_constraints`, a parameter).

* A reference is a number; a constant or a missing operand is not positive.
* `Block.body` lists the instructions that `prev_ref` links, in order, without the block start.

For each virtual register the uses are collected into a queue of blocks, and the predecessors are
marked up to the block of the definition.  The registers that are live at the end of a block form
a list, whose head doubles as the mark of the register being processed.

The linked lists in `live_lists` are lists here, `live_outs[b]` is the list itself.
-/

namespace IrJit.Ra

/-- The bits of `ctx->rules[ref]` that the allocator tests. -/
structure Rule where
  fused : Bool
  skipped : Bool
  simple : Bool
  deriving DecidableEq, Repr

structure Insn where
  op : IrOp
  /-- the operands `1 .. inputs_count` -/
  ops : List ℤ

/-- What is read of `ir_target_constraints`, with the result flags of
`ir_get_target_constraints`. -/
structure Constraints where
  defReg : Option ℕ
  /-- `IR_DEF_REUSES_OP1_REG` -/
  reusesOp1 : Bool
  /-- `IR_DEF_CONFLICTS_WITH_INPUT_REGS` -/
  conflicts : Bool
  /-- `IR_EXTEND_INPUTS_TO_NEXT` -/
  extendNext : Bool
  /-- `hints[0 .. hints_count)` -/
  hints : List (Option ℕ)

structure Block where
  start : ℕ
  last : ℕ
  body : List ℕ
  preds : List ℕ
  /-- `IR_BB_ENTRY`, with the number of the entry -/
  entry : Option ℕ

structure Prog where
  insnsCount : ℕ
  insn : ℕ → Insn
  useLists : ℕ → List ℕ
  cfgMap : ℕ → ℕ
  vregs : ℕ → ℕ
  rules : Option (ℕ → Rule)
  blocksCount : ℕ
  block : ℕ → Block
  constraints : ℕ → Constraints

/-! ### Live positions -/

/-- `IR_START_LIVE_POS_FROM_REF`, also `IR_LOAD_LIVE_POS_FROM_REF`. -/
def loadPos (ref : ℕ) : ℕ := 4 * ref

/-- `IR_USE_LIVE_POS_FROM_REF`. -/
def usePos (ref : ℕ) : ℕ := 4 * ref + 1

/-- `IR_DEF_LIVE_POS_FROM_REF`. -/
def defPos (ref : ℕ) : ℕ := 4 * ref + 2

/-- `IR_SAVE_LIVE_POS_FROM_REF`. -/
def savePos (ref : ℕ) : ℕ := 4 * ref + 3

/-- `IR_END_LIVE_POS_FROM_REF`. -/
def endPos (ref : ℕ) : ℕ := 4 * ref + 4

/-- A read of a virtual register: where it happens, and up to where it keeps the register live. -/
structure Read where
  vreg : ℕ
  pos : ℕ
  upto : ℕ
  deriving DecidableEq, Repr

namespace Prog

variable (P : Prog)

def isPhi (ref : ℕ) : Bool := (P.insn ref).op = .phi

/-- `ctx->rules && (ctx->rules[ref] & IR_FUSED)`. -/
def isFused (ref : ℕ) : Bool := P.rules.any fun r => (r ref).fused

/-- `ctx->rules && (ctx->rules[ref] & (IR_FUSED|IR_SKIPPED))`: no code is generated at `ref`. -/
def isSkipped (ref : ℕ) : Bool := P.rules.any fun r => (r ref).fused || (r ref).skipped

/-- `(ctx->rules[ref] & (IR_FUSED|IR_SKIPPED)) == IR_FUSED`. -/
def isExpanded (ref : ℕ) : Bool := P.rules.any fun r => (r ref).fused && !(r ref).skipped

/-- The constraints of an instruction; there are none without rules. -/
def constraintsOf (ref : ℕ) : Constraints :=
  if P.rules.isSome then P.constraints ref else ⟨none, false, false, false, []⟩

/-- The constraints of a fused instruction: a simple one has no hints. -/
def fusedHints (ref : ℕ) : List (Option ℕ) :=
  if P.rules.any fun r => (r ref).simple then [] else (P.constraints ref).hints

/-- The operands with their numbers, the control input left out. -/
def dataOps (ref : ℕ) : List (ℤ × ℕ) :=
  ((P.insn ref).ops.zipIdx 1).drop (if (P.insn ref).op.hasControlInput then 1 else 0)

/-! ### Reads -/

/-- `(j < constraints.hints_count) ? constraints.hints[j] : IR_REG_NONE`. -/
def hint (hints : List (Option ℕ)) (j : ℕ) : Option ℕ := hints.getD j none

/-- The registers read by the operands of `input`, which is fused into `ref`. -/
def fusionOut (ref input : ℕ) : List Read :=
  (P.dataOps input).filterMap fun (child, j) =>
    if 0 < child ∧ P.vregs child.toNat ≠ 0 then
      let pos := if hint (P.fusedHints input) j = none then usePos ref else loadPos ref
      some ⟨P.vregs child.toNat, pos, pos⟩
    else none

/-- The operands of `input` that are fused themselves. -/
def fusionSucc (input : ℕ) : List ℕ :=
  (P.dataOps input).filterMap fun (child, _) =>
    if 0 < child ∧ P.vregs child.toNat = 0 ∧ P.isFused child.toNat then some child.toNat else none

/-- `ir_add_fusion_ranges`: the reads of the tree of instructions fused into `ref` through
`input`.  The C stack holds four references. -/
def fusionReads (ref input : ℕ) : List Read :=
  (drain P.fusionSucc (P.fusionOut ref) (4 ^ input) [input]).getD []

/-- The position at which operand `j` of `ref` is read. -/
def operandPos (ref j : ℕ) (input : ℤ) : ℕ :=
  let c := P.constraintsOf ref
  if (hint c.hints j).isSome then loadPos ref
  else if c.reusesOp1 then
    if j = 1 then if c.conflicts then usePos ref else loadPos ref
    else if some input = (P.insn ref).ops.head? then loadPos ref
    else usePos ref
  else usePos ref

/-- The reads of operand `j` of `ref`. -/
def operandReads (ref : ℕ) : ℤ × ℕ → List Read
  | (input, j) =>
    if 0 < input then
      let v := P.vregs input.toNat
      let pos := P.operandPos ref j input
      if v ≠ 0 then [⟨v, pos, pos⟩]
      else if P.isExpanded input.toNat then P.fusionReads ref input.toNat
      else []
    else []

/-- `ir_next_control`. -/
def nextControl (ref : ℕ) : ℕ :=
  ((P.useLists ref).find? fun use =>
    (P.insn use).op.isControl && decide ((P.insn use).ops.head? = some (ref : ℤ))).getD 0

/-- `IR_EXTEND_INPUTS_TO_NEXT`: the inputs of a SNAPSHOT stay live up to the next instruction. -/
def snapshotReads (ref : ℕ) : List Read :=
  (P.dataOps ref).filterMap fun (input, _) =>
    if 0 < input then some ⟨P.vregs input.toNat, usePos ref, usePos (P.nextControl ref)⟩ else none

/-- All reads of an instruction that is emitted, in the order of `ir_compute_live_ranges`. -/
def reads (ref : ℕ) : List Read :=
  if P.vregs ref = 0 ∧ (P.constraintsOf ref).extendNext then P.snapshotReads ref
  else (P.dataOps ref).flatMap (P.operandReads ref)

end Prog

/-! ## Live sets -/

/-- `live_outs` with `live_lists`: the lists of the blocks and those of the entries. -/
structure LiveSets where
  outs : ℕ → List ℕ
  entryIns : ℕ → List ℕ

namespace LiveSets

/-- `ir_live_out_top`. -/
def liveOutTop (st : LiveSets) (b : ℕ) : Option ℕ := (st.outs b).head?

/-- `ir_live_out_push`. -/
def liveOutPush (st : LiveSets) (b v : ℕ) : LiveSets :=
  { st with outs := Function.update st.outs b (v :: st.outs b) }

def liveInPush (st : LiveSets) (entry v : ℕ) : LiveSets :=
  { st with entryIns := Function.update st.entryIns entry (v :: st.entryIns entry) }

end LiveSets

namespace Prog

variable (P : Prog)

/-- The data inputs of a PHI with the corresponding inputs of its MERGE. -/
def phiInputs (phi : ℕ) : List (ℤ × ℤ) :=
  match (P.insn phi).ops with
  | [] => []
  | merge :: inputs => inputs.zip (P.insn merge.toNat).ops

/-- The users of a fused instruction that are fused again. -/
def fusedUsers (use : ℕ) : List ℕ := (P.useLists use).filter P.isFused

/-- The blocks of its other users. -/
def userBlocks (use : ℕ) : List ℕ :=
  ((P.useLists use).filter fun u => !P.isFused u).map P.cfgMap

def maxUses : ℕ := (Finset.range P.insnsCount).sup fun r => (P.useLists r).length

/-- The loop over `fuse_queue`: the blocks of the instructions that `use` is fused into. -/
def fusedUseBlocks (use : ℕ) : List ℕ :=
  (drain P.fusedUsers P.userBlocks ((P.maxUses + 1) ^ (P.insnsCount - use)) [use]).getD []

end Prog

section

variable (P : Prog) (i : ℕ)

/-- `v` becomes live at the end of `b`, unless it was already. -/
def visitPred (acc : LiveSets × List ℕ) (b : ℕ) : LiveSets × List ℕ :=
  if acc.1.liveOutTop b = some (P.vregs i) then acc
  else (acc.1.liveOutPush b (P.vregs i), if b = P.cfgMap i then acc.2 else b :: acc.2)

/-- `v` is used in block `b`. -/
def visitUse (acc : LiveSets × List ℕ) (b : ℕ) : LiveSets × List ℕ :=
  if P.cfgMap i ≠ b ∧ acc.1.liveOutTop b ≠ some (P.vregs i) then (acc.1, b :: acc.2) else acc

/-- One element of the use list of `i`. -/
def collectUse (acc : LiveSets × List ℕ) (use : ℕ) : LiveSets × List ℕ :=
  if P.isPhi use then
    (P.phiInputs use).foldl
      (fun acc (input, src) => if input = i then visitPred P i acc (P.cfgMap src.toNat) else acc) acc
  else if P.isFused use then (P.fusedUseBlocks use).foldl (visitUse P i) acc
  else visitUse P i acc (P.cfgMap use)

/-- `UP_AND_MARK`: the loop over `block_queue`. -/
def upAndMark : ℕ → List ℕ → LiveSets → Option LiveSets
  | _, [], st => some st
  | 0, _ :: _, _ => none
  | fuel + 1, b :: queue, st =>
    match (P.block b).entry with
    | some n => upAndMark fuel queue (st.liveInPush n (P.vregs i))
    | none =>
      let (st, queue) := (P.block b).preds.foldl (visitPred P i) (st, queue)
      upAndMark fuel queue st

/-- One iteration of the outer loop: the virtual register of `i`, if it has one. -/
def liveSetsOf (st : LiveSets) : Option LiveSets :=
  if P.vregs i = 0 then some st
  else
    let (st, queue) := (P.useLists i).foldl (collectUse P i) (st, [])
    upAndMark P i (queue.length + P.blocksCount + 1) queue st

end

/-- `ir_compute_live_sets`. -/
def computeLiveSets (P : Prog) : Option LiveSets :=
  (List.range' 1 (P.insnsCount - 1)).reverse.foldlM (fun st i => liveSetsOf P i st)
    ⟨fun _ => [], fun _ => []⟩

/-! ### Liveness -/

namespace Prog

variable (P : Prog) (i : ℕ)

/-- The references among the operands of an instruction, the control input left out. -/
def DataRef (u x : ℕ) : Prop := ∃ j, ((x : ℤ), j) ∈ P.dataOps u

/-- A data operand that is fused. -/
def FusedRef (u x : ℕ) : Prop := P.DataRef u x ∧ P.isFused x = true

/-- Instruction `u` reads the value of `i`, itself or through what is fused into it. -/
def UsedBy (u : ℕ) : Prop := ∃ g, Relation.ReflTransGen P.FusedRef u g ∧ P.DataRef g i

/-- An instruction of block `c`, neither a PHI nor fused, reads the value of `i`. -/
def UsedIn (c : ℕ) : Prop :=
  ∃ u ∈ (P.block c).body, P.isPhi u = false ∧ P.isFused u = false ∧ P.UsedBy i u

/-- A PHI takes the value of `i` from block `c`. -/
def UsedAtEnd (c : ℕ) : Prop :=
  ∃ b, ∃ phi ∈ (P.block b).body, P.isPhi phi = true ∧ ∃ src : ℤ, ((i : ℤ), src) ∈ P.phiInputs phi ∧
    P.cfgMap src.toNat = c

/-- An edge of the flow graph that leads neither to the block of the definition nor to an ENTRY. -/
def Step (b c : ℕ) : Prop := b ∈ (P.block c).preds ∧ c ≠ P.cfgMap i ∧ (P.block c).entry = none

/-- From the end of `b` a use in some block is reached: `used` are the blocks with uses. -/
def LiveOutBy (used : ℕ → Prop) (b : ℕ) : Prop :=
  (∃ c, Relation.ReflTransGen (P.Step i) b c ∧ P.UsedAtEnd i c) ∨
    ∃ c, Relation.TransGen (P.Step i) b c ∧ used c

/-- **Live at the end of a block**: some path from there reaches a use without passing the
definition or an ENTRY. -/
def LiveOut (b : ℕ) : Prop := P.LiveOutBy i (P.UsedIn i) b

/-- What the use lists give: the control successor of a node counts as a use, and the users of a
fused control successor. -/
def ListedUse (c : ℕ) : Prop :=
  ∃ u ∈ P.useLists i, P.isPhi u = false ∧
    ((P.isFused u = false ∧ P.cfgMap u = c) ∨
      (P.isFused u = true ∧ ∃ f, Below P.fusedUsers u f ∧ c ∈ P.userBlocks f))

end Prog

end IrJit.Ra
