import IrJit.Lib.Ascend
import IrJit.Lib.HashChain
import IrJit.Lib.ParentTree

/-!
# Cfg.Dominators — `ir_build_dominators_tree` and its iterative fallback

Blocks are numbered from `1`; block `1` is the START block.  `predecessors` and `successors` are the
two runs of `cfg_edges` that belong to a block, in their order.  The C loops that walk up the tree take
fuel here, `none` says that it ran out; `none` also stands for the jump to `slow_case`, taken only when
a block comes before all of its predecessors.
-/

namespace IrJit.Cfg

open ParentTree

/-- The blocks and edges that `ir_build_cfg` leaves behind. -/
structure Graph where
  blocksCount : ℕ
  predecessors : ℕ → List ℕ
  successors : ℕ → List ℕ
  /-- The flag `IR_BB_ENTRY`. -/
  isEntry : ℕ → Bool
  pred_range : ∀ b p, p ∈ predecessors b → (1 ≤ p ∧ p ≤ blocksCount) ∧ 1 ≤ b ∧ b ≤ blocksCount
  mem_successors : ∀ p b, b ∈ successors p ↔ p ∈ predecessors b
  /-- `ENTRY` has one control input. -/
  entry_pred : ∀ b, isEntry b = true → (predecessors b).length ≤ 1

/-- The dominator fields of the blocks, with the flag `IR_NO_LOOPS`. -/
structure DomTree where
  idom : ℕ → ℕ
  domDepth : ℕ → ℕ
  domChild : ℕ → ℕ
  domNextChild : ℕ → ℕ
  noLoops : Bool

section SinglePass

/-- What the single pass keeps; the last back edge pushed stands first in the worklist. -/
structure Pass where
  idom : ℕ → ℕ
  domDepth : ℕ → ℕ
  worklist : List ℕ

/-- The first predecessor before `b`, with the ones after it.  The back edges in front of it are
pushed. -/
def skipBackEdges (b : ℕ) : List ℕ → List ℕ → Option (ℕ × List ℕ × List ℕ)
  | [], _ => none
  | p :: ps, worklist =>
    if p < b then some (p, ps, worklist) else skipBackEdges b ps (p :: worklist)

/-- The loop over the remaining predecessors: those before `b` are intersected, the back edges
pushed. -/
def intersectForward (fuel b : ℕ) (idom : ℕ → ℕ) : List ℕ → ℕ → List ℕ → Option (ℕ × List ℕ)
  | [], d, worklist => some (d, worklist)
  | p :: ps, d, worklist =>
    if p < b then
      (intersect idom fuel d p).bind fun d => intersectForward fuel b idom ps d worklist
    else intersectForward fuel b idom ps d (p :: worklist)

/-- The single pass at block `b`. -/
def passBlock (fuel : ℕ) (c : Graph) (b : ℕ) (s : Pass) : Option Pass := do
  let (d, ps, worklist) ← skipBackEdges b (c.predecessors b) s.worklist
  let (d, worklist) ← intersectForward fuel b s.idom ps d worklist
  some
    { idom := Function.update s.idom b d
      domDepth := Function.update s.domDepth b (s.domDepth d + 1)
      worklist }

/-- The single pass over all blocks in their order. -/
def singlePass (fuel : ℕ) (c : Graph) : Option Pass :=
  ascend (passBlock fuel c) (c.blocksCount - 1) 2
    { idom := Function.update (fun _ => 0) 1 1, domDepth := fun _ => 0, worklist := [] }

/-- The block that a back edge from `b` leads to, when its successors tell: a fake edge to an `ENTRY`
does not count. -/
def loopTarget (c : Graph) (b : ℕ) : Option ℕ :=
  match c.successors b with
  | [s] => some s
  | [s, t] => if c.isEntry s then some t else if c.isEntry t then some s else none
  | _ => none

/-- `while (bb->dom_depth > dom_depth) bb = &blocks[bb->dom_parent];` -/
def climb (s : Pass) (depth : ℕ) : ℕ → ℕ → Option ℕ
  | 0, _ => none
  | fuel + 1, b =>
    if s.domDepth b > depth then climb s depth fuel (s.idom b) else some b

/-- Do all the back edges lead to loop headers? -/
def complete (fuel : ℕ) (c : Graph) (s : Pass) : List ℕ → Option Bool
  | [] => some true
  | b :: worklist =>
    match loopTarget c b with
    | none => some false
    | some succ =>
      (climb s (s.domDepth succ) fuel b).bind fun a =>
        if a ≠ succ then some false else complete fuel c s worklist

end SinglePass

section Iterative

/-- The first predecessor with a known dominator, and the ones after it. -/
def skipUnknown (idom : ℕ → ℕ) : List ℕ → Option (ℕ × List ℕ)
  | [] => none
  | p :: ps => if idom p = 0 then skipUnknown idom ps else some (p, ps)

/-- The loop over the remaining predecessors. -/
def intersectKnown (fuel : ℕ) (idom : ℕ → ℕ) : List ℕ → ℕ → Option ℕ
  | [], d => some d
  | p :: ps, d =>
    if idom p > 0 then (intersect idom fuel d p).bind (intersectKnown fuel idom ps)
    else intersectKnown fuel idom ps d

/-- One round at block `b`; the flag is `changed`. -/
def roundBlock (fuel : ℕ) (c : Graph) (b : ℕ) (s : (ℕ → ℕ) × Bool) : Option ((ℕ → ℕ) × Bool) :=
  match skipUnknown s.1 (c.predecessors b) with
  | none => some s
  | some (d, ps) =>
    (intersectKnown fuel s.1 ps d).bind fun d =>
      if s.1 b ≠ d then some (Function.update s.1 b d, true) else some s

/-- One round over all blocks. -/
def round (fuel : ℕ) (c : Graph) (idom : ℕ → ℕ) : Option ((ℕ → ℕ) × Bool) :=
  ascend (roundBlock fuel c) (c.blocksCount - 1) 2 (idom, false)

/-- Rounds until one changes nothing. -/
def rounds (fuel : ℕ) (c : Graph) : ℕ → (ℕ → ℕ) → Option (ℕ → ℕ)
  | 0, _ => none
  | k + 1, idom =>
    (round fuel c idom).bind fun s => if s.2 then rounds fuel c k s.1 else some s.1

/-- The depths, each from the depth of the immediate dominator. -/
def depths (n : ℕ) (idom : ℕ → ℕ) : ℕ → ℕ :=
  (List.range' 2 (n - 1)).foldl (fun depth b => Function.update depth b (depth (idom b) + 1))
    fun _ => 0

end Iterative

/-- The children lists, linked from the last block down: `(dom_child, dom_next_child)`. -/
def linkChildren (n : ℕ) (idom : ℕ → ℕ) : (ℕ → ℕ) × (ℕ → ℕ) :=
  (List.range' 2 (n - 1)).foldr
    (fun b s => (Function.update s.1 (idom b) b, Function.update s.2 b (s.1 (idom b))))
    (fun _ => 0, fun _ => 0)

/-- The tree once `idom` and `dom_depth` are final. -/
def finish (c : Graph) (idom depth : ℕ → ℕ) (noLoops : Bool) : DomTree :=
  { idom
    domDepth := depth
    domChild := (linkChildren c.blocksCount idom).1
    domNextChild := (linkChildren c.blocksCount idom).2
    noLoops }

/-- `ir_build_dominators_tree_iterative`, started from the table of the single pass. -/
def buildDominatorsTreeIterative (fuel : ℕ) (c : Graph) (idom : ℕ → ℕ) (noLoops : Bool) :
    Option DomTree := do
  let idom ← rounds fuel c fuel (Function.update idom 1 1)
  let idom := Function.update idom 1 0
  some (finish c idom (depths c.blocksCount idom) noLoops)

/-- `ir_build_dominators_tree`. -/
def buildDominatorsTree (fuel : ℕ) (c : Graph) : Option DomTree := do
  let s ← singlePass fuel c
  let s := { s with idom := Function.update s.idom 1 0 }
  let noLoops := s.worklist.isEmpty
  if ← complete fuel c s s.worklist then some (finish c s.idom s.domDepth noLoops)
  else buildDominatorsTreeIterative fuel c s.idom noLoops

end IrJit.Cfg
