import IrJit.Cfg.Schedule
import IrJit.Lib.FallThrough

/-!
# Cfg.Layout — the blocks in the order of their code (`ir_emit_code`, `ir_emit_func`)

The blocks are marked as empty by `ir_match`, or by the C back end, and emitted in the order of `cfg_schedule`.
A jump to the next block is omitted.  Three predicates say which blocks do not count: the targets of jumps and
the emission pass over empty blocks that are no `ENTRY`, `ir_next_block` passes over empty `ENTRY` blocks, too.
-/

namespace IrJit.Cfg

open FallThrough

/-- The native code generator and the C back end. -/
inductive Backend
  | x86 | c
  deriving DecidableEq

namespace Blocks

variable (c : Blocks)

/-! ## The marks -/

/-- The test of `ir_match`: nothing but the start and the end, `onlyEnd b` says `prev_ref[bb->end] == bb->start`. -/
def matchEmpty (onlyEnd : ℕ → Bool) (b : ℕ) : Bool :=
  (c.graph.successors b).length == 1 && (c.endOp b == .endOp || c.endOp b == .loopEnd)
    && onlyEnd b && c.successor b != b && (!c.graph.isEntry b || c.mergeEmptyEntries)

/-- The test of `ir_emit_func`. -/
def cEmpty (onlyEnd dessaMoves : ℕ → Bool) (b : ℕ) : Bool :=
  onlyEnd b && (c.graph.successors b).length == 1 && (c.endOp b == .endOp || c.endOp b == .loopEnd)
    && !(c.isStart b || c.graph.isEntry b || dessaMoves b)

/-- The blocks marked.  The register allocator takes the mark off a block that gets `IR_BB_DESSA_MOVES`. -/
def mark (backend : Backend) (onlyEnd dessaMoves : ℕ → Bool) : Blocks :=
  { c with
    isEmpty := match backend with
      | .x86 => fun b => c.matchEmpty onlyEnd b && !dessaMoves b
      | .c => c.cEmpty onlyEnd dessaMoves }

/-! ## Targets and next blocks -/

/-- `(bb->flags & (IR_BB_START|IR_BB_EMPTY)) == IR_BB_EMPTY`. -/
def passedOver (b : ℕ) : Bool := c.isEmpty b && !c.isStart b

/-- The first block on a list that is not passed over, `0` at its end. -/
def firstKept : List ℕ → ℕ
  | [] => 0
  | b :: rest => if c.passedOver b then firstKept rest else b

/-- The first block from `b` on that is not passed over, when `left` blocks are left. -/
def firstNumbered : ℕ → ℕ → ℕ
  | 0, _ => 0
  | left + 1, b => if c.passedOver b then firstNumbered left (b + 1) else b

/-- `ir_next_block`.  `schedule` is `cfg_schedule` from its element `1` on, without the `0` at its end. -/
def nextBlock (schedule : Option (List ℕ)) (b : ℕ) : ℕ :=
  match schedule with
  | some schedule => c.firstKept (schedule.drop b)
  | none => c.firstNumbered (c.blocksCount - b) (b + 1)

/-- The successors of an `IF`: the true one and the false one. -/
def ifSuccessors (b : ℕ) : ℕ × ℕ :=
  let first := (c.graph.successors b).getD 0 0
  let second := (c.graph.successors b).getD 1 0
  if c.startOp first = .ifTrue then (first, second) else (second, first)

/-- `ir_get_true_false_blocks`. -/
def trueFalseBlocks (fuel b : ℕ) : Option (ℕ × ℕ) := do
  let trueBlock ← c.skipEmptyBlocks fuel (c.ifSuccessors b).1
  let falseBlock ← c.skipEmptyBlocks fuel (c.ifSuccessors b).2
  some (trueBlock, falseBlock)

/-- The successor of an `END`; an `ENTRY` after it is no way to leave the block. -/
def endSuccessor (backend : Backend) (b : ℕ) : ℕ :=
  match backend, c.graph.successors b with
  | .x86, [s, s'] => if c.graph.isEntry s then s' else s
  | _, _ => c.successor b

/-! ## The code -/

/-- The jump at an `END` or `LOOP_END`. -/
def emitEnd (backend : Backend) (fuel b next : ℕ) : Option (List (Item ℕ)) := do
  let target ← c.skipEmptyBlocks fuel (c.endSuccessor backend b)
  some (if target ≠ next then [.jmp target] else [])

/-- The jumps at an `IF` (`ir_emit_jcc`, `ir_emit_if` and the like). -/
def emitIf (fuel b next : ℕ) : Option (List (Item ℕ)) := do
  let (trueBlock, falseBlock) ← c.trueFalseBlocks fuel b
  some <|
    -- swap to avoid unconditional JMP
    if trueBlock = next then [.jcc (c.ifSuccessors b).2 falseBlock]
    else if falseBlock = next then [.jcc (c.ifSuccessors b).1 trueBlock]
    else [.jcc (c.ifSuccessors b).1 trueBlock, .jmp falseBlock]

/-- The jumps of a `SWITCH`, and the ways through label addresses. -/
def emitTable (target : ℕ → Option ℕ) : List ℕ → Option (List (Item ℕ))
  | [] => some []
  | y :: ys => do
    let t ← target y
    let rest ← emitTable target ys
    some (.jcc y t :: rest)

/-- The end of a block.  The C back end takes the address of the label block itself, `&&bb`. -/
def emitBranch (backend : Backend) (fuel b next : ℕ) : Option (List (Item ℕ)) :=
  match c.endOp b with
  | .endOp | .loopEnd => c.emitEnd backend fuel b next
  | .ifOp => c.emitIf fuel b next
  | .switch => emitTable (c.skipEmptyBlocks fuel) (c.graph.successors b)
  | .igoto | .ijmp =>
    match backend with
    | .x86 => emitTable (c.skipEmptyBlocks fuel) (c.graph.successors b)
    | .c => emitTable some (c.graph.successors b)
  | _ => some []

/-- Does the block get a label?  In C it needs none when it is entered from the block before it alone. -/
def labelled (backend : Backend) (prev b : ℕ) : Bool :=
  match backend with
  | .x86 => true
  | .c =>
    decide ((c.graph.predecessors b).length > 1)
    || ((c.graph.predecessors b).length == 1 && (c.graph.predecessors b).headD 0 != prev)
    || c.startOp b == .caseVal || c.startOp b == .caseRange || c.startOp b == .caseDefault
    || (c.startOp b == .beginOp && c.startOp2 b != 0)

section Emission

/- `entryCode` says for which `ENTRY` blocks the prologue, with `endbr64`, is not empty. -/
variable (backend : Backend) (entryCode : ℕ → Bool) (schedule : Option (List ℕ)) (fuel : ℕ)

/-- What a block starts with. -/
def blockStart (prev b : ℕ) : List (Item ℕ) :=
  (if c.labelled backend prev b then [.label b] else [])
    ++ (if c.graph.isEntry b && entryCode b then [.entry b] else [])

/-- The loop over the blocks, from the position `p` on; `prev` is the block emitted before. -/
def emitBlocks : ℕ → ℕ → List ℕ → Option (List (Item ℕ))
  | _, _, [] => some []
  | p, prev, b :: rest =>
    if c.emptyBlock b then emitBlocks (p + 1) prev rest
    else do
      let branch ← c.emitBranch backend fuel b (c.nextBlock schedule p)
      let code ← emitBlocks (p + 1) b rest
      some (c.blockStart backend entryCode prev b ++ .body b :: (branch ++ code))

/-- The blocks in the order of their code. -/
def order : List ℕ := schedule.getD (List.range' 1 c.blocksCount)

/-- The code of a function. -/
def emitCode : Option (List (Item ℕ)) := c.emitBlocks backend entryCode schedule fuel 1 0 (c.order schedule)

end Emission

/-! ## Following the edges -/

/-- The ways out of a block. -/
def exits (backend : Backend) (b : ℕ) : List ℕ :=
  match c.endOp b with
  | .endOp | .loopEnd => [c.endSuccessor backend b]
  | .ifOp => [(c.ifSuccessors b).1, (c.ifSuccessors b).2]
  | .switch | .igoto | .ijmp => c.graph.successors b
  | _ => []

/-- `t` is the first non-empty block from `y` on. -/
def FirstNonEmpty (y t : ℕ) : Prop :=
  ∃ k, c.successor^[k] y = t ∧ c.emptyBlock t = false ∧ ∀ j < k, c.emptyBlock (c.successor^[j] y) = true

/-- There is code, and on every way out of every block that is emitted control comes to the first non-empty
block of this way. -/
def FollowsEdges (backend : Backend) (entryCode : ℕ → Bool) (schedule : Option (List ℕ)) : Prop :=
  ∃ fuel code, c.emitCode backend entryCode schedule fuel = some code ∧
    ∀ b, 1 ≤ b → b ≤ c.blocksCount → c.emptyBlock b = false → ∀ y ∈ c.exits backend b,
      ∃ t, c.FirstNonEmpty y t ∧ leavesTo c.isEmpty code y t (afterBody b code) = true

end Blocks

end IrJit.Cfg
