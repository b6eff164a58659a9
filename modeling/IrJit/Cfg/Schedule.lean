import IrJit.Cfg.Dominators
import IrJit.Core.Ops

/-!
# Cfg.Schedule — what the passes over the scheduled blocks read of the control flow graph

* `Blocks`: the blocks with their flags, first and last instructions.
* `skipEmptyBlocks`: `_ir_skip_empty_blocks`.
-/

namespace IrJit.Cfg

/-- What the block scheduling reads of the control flow graph. -/
structure Blocks where
  graph : Graph
  /-- The flags `IR_BB_START`, `IR_BB_EMPTY`, `IR_BB_LOOP_HEADER` and `IR_BB_PREV_EMPTY_ENTRY`. -/
  isStart : ℕ → Bool
  isEmpty : ℕ → Bool
  isLoopHeader : ℕ → Bool
  prevEmptyEntry : ℕ → Bool
  loopDepth : ℕ → ℕ
  /-- The opcodes of the first and the last instruction, and the operands of the first. -/
  startOp : ℕ → IrOp
  startOp2 : ℕ → ℤ
  startOp3 : ℕ → ℤ
  endOp : ℕ → IrOp
  entries : List ℕ
  /-- `IR_MERGE_EMPTY_ENTRIES` and `IR_IRREDUCIBLE_CFG`. -/
  mergeEmptyEntries : Bool
  irreducibleCfg : Bool
  /-- The blocks on the "stop" list that end with `UNREACHABLE`, not after a `TAILCALL`. -/
  unreachableStops : List ℕ
  /-- `IR_DEBUG_BB_SCHEDULE_GRAPH`. -/
  debugGraph : Bool

namespace Blocks

variable (c : Blocks)

abbrev blocksCount : ℕ := c.graph.blocksCount

/-- `ctx->cfg_edges[bb->successors]`. -/
def successor (b : ℕ) : ℕ := (c.graph.successors b).headD 0

/-- `(bb->flags & (IR_BB_START|IR_BB_ENTRY|IR_BB_EMPTY)) == IR_BB_EMPTY`. -/
def emptyBlock (b : ℕ) : Bool := c.isEmpty b && !c.isStart b && !c.graph.isEntry b

/-- `_ir_skip_empty_blocks`. -/
def skipEmptyBlocks : ℕ → ℕ → Option ℕ
  | 0, _ => none
  | fuel + 1, b => if c.emptyBlock b then skipEmptyBlocks fuel (c.successor b) else some b

/-- The empty blocks from `b` on come to an end. -/
def Ends (c : Blocks) (b : ℕ) : Prop := ∃ k, c.emptyBlock (c.successor^[k] b) = false

variable {c : Blocks} {b : ℕ} {fuel : ℕ}

theorem skipEmptyBlocks_isSome {k : ℕ} (h : c.emptyBlock (c.successor^[k] b) = false) (hfuel : k < fuel) :
    ∃ t, c.skipEmptyBlocks fuel b = some t := by
  induction fuel generalizing b k with
  | zero => omega
  | succ fuel ih =>
    rw [skipEmptyBlocks]
    by_cases he : c.emptyBlock b = true
    · rw [if_pos he]
      rcases k with _ | k
      · rw [show c.successor^[0] b = b from rfl, he] at h
        simp at h
      · exact ih h (by omega)
    · rw [if_neg he]
      exact ⟨b, rfl⟩

end Blocks

end IrJit.Cfg
