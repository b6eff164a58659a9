import IrJit.Cfg.Dominators
import IrJit.Lib.DepthFirst

/-!
# Cfg.Loops — `ir_find_loops`

A depth-first search gives every block the times at which it is entered and left; the blocks are sorted by
a breadth-first walk over the dominator tree and taken from the last one to the first.  The loops of C that
may run on for long take fuel, `none` says that it ran out.
-/

namespace IrJit.Cfg

open DepthFirst

/-! ## Times and order -/

/-- `ENTRY_TIME`, `EXIT_TIME` and the next time. -/
structure Clock where
  entry : ℕ → ℕ
  exit : ℕ → ℕ
  time : ℕ

/-- The search over the successors. -/
def dfsTimes (succ : ℕ → List ℕ) : ℕ → Search ℕ → Clock → Option Clock
  | 0, _, _ => none
  | fuel + 1, ⟨stack, visited, order⟩, k =>
    match stack with
    | [] => some k
    | (b, y :: ys) :: rest =>
      if y ∈ visited then dfsTimes succ fuel ⟨(b, ys) :: rest, visited, order⟩ k
      else
        dfsTimes succ fuel ⟨(y, succ y) :: (b, ys) :: rest, y :: visited, order⟩
          { k with entry := Function.update k.entry y k.time, time := k.time + 1 }
    | (b, []) :: rest =>
      dfsTimes succ fuel ⟨rest, visited, b :: order⟩
        { k with exit := Function.update k.exit b k.time, time := k.time + 1 }

/-- The times of a search from block 1. -/
def times (fuel : ℕ) (c : Graph) : Option Clock :=
  dfsTimes c.successors fuel (start c.successors 1)
    { entry := Function.update (fun _ => 0) 1 1, exit := fun _ => 0, time := 2 }

/-- `for (child = dom_child; child > 0; child = dom_next_child)` -/
def domChildren (next : ℕ → ℕ) : ℕ → ℕ → Option (List ℕ)
  | 0, _ => none
  | fuel + 1, child =>
    if child = 0 then some [] else (domChildren next fuel (next child)).map (child :: ·)

/-- The children of the blocks of a level. -/
def nextLevel (fuel : ℕ) (t : DomTree) : List ℕ → Option (List ℕ)
  | [] => some []
  | b :: level =>
    (domChildren t.domNextChild fuel (t.domChild b)).bind fun l =>
      (nextLevel fuel t level).map (l ++ ·)

/-- `sorted_blocks`, level after level. -/
def sortBlocks (fuel : ℕ) (t : DomTree) : ℕ → List ℕ → Option (List ℕ)
  | 0, _ => none
  | k + 1, level =>
    if level = [] then some []
    else (nextLevel fuel t level).bind fun l => (sortBlocks fuel t k l).map (level ++ ·)

/-- `ir_dominates`. -/
def dominates (t : DomTree) (b₁ : ℕ) : ℕ → ℕ → Option Bool
  | 0, _ => none
  | fuel + 1, b₂ =>
    if t.domDepth b₂ > t.domDepth b₁ then dominates t b₁ fuel (t.idom b₂) else some (decide (b₁ = b₂))

/-! ## Members -/

/-- A worklist: the top of the list comes first. -/
structure Work where
  list : List ℕ
  visited : List ℕ

/-- `ir_worklist_push`. -/
def Work.push (w : Work) (b : ℕ) : Work :=
  if b ∈ w.visited then w else ⟨b :: w.list, b :: w.visited⟩

/-- `do { pred = blocks[pred].loop_header; } while (blocks[pred].loop_header > 0);` -/
def outermost (header : ℕ → ℕ) : ℕ → ℕ → Option ℕ
  | 0, _ => none
  | fuel + 1, p => if header (header p) > 0 then outermost header fuel (header p) else some (header p)

/-- The predecessors of a member `b`. -/
def pushPredecessors (fuel : ℕ) (header : ℕ → ℕ) (b : ℕ) : List ℕ → Work → Option Work
  | [], w => some w
  | p :: ps, w =>
    if p ∈ w.visited then pushPredecessors fuel header b ps w
    else if header p ≠ 0 then
      if header p = b then pushPredecessors fuel header b ps w
      else (outermost header fuel p).bind fun q => pushPredecessors fuel header b ps (w.push q)
    else pushPredecessors fuel header b ps ⟨p :: w.list, p :: w.visited⟩

/-- The members of the reducible loop of `hdr`. -/
def collect (fuel : ℕ) (c : Graph) (hdr : ℕ) : ℕ → (ℕ → ℕ) → Work → Option (ℕ → ℕ)
  | 0, _, _ => none
  | k + 1, header, ⟨list, visited⟩ =>
    match list with
    | [] => some header
    | b :: list =>
      if b = hdr then collect fuel c hdr k header ⟨list, visited⟩
      else
        let header := if header b = 0 then Function.update header b hdr else header
        (pushPredecessors fuel header b (c.predecessors b) ⟨list, visited⟩).bind
          (collect fuel c hdr k header)

/-- Is the edge from `p` to `b` a back edge of the search? -/
def Clock.back (k : Clock) (p b : ℕ) : Bool := k.entry p ≥ k.entry b && k.exit p ≤ k.exit b

/-- What the predecessors of a block say. -/
inductive Edges
  | loop (w : Work)
  | irreducible

/-- The loop over the predecessors: the sources of the back edges, unless one of them is not dominated. -/
def backEdges (fuel : ℕ) (t : DomTree) (k : Clock) (b : ℕ) : List ℕ → Work → Option Edges
  | [], w => some (.loop w)
  | p :: ps, w =>
    if k.back p b then
      (dominates t b fuel p).bind fun d =>
        if d then backEdges fuel t k b ps ((if w.list = [] then ⟨[], []⟩ else w).push p)
        else some .irreducible
    else backEdges fuel t k b ps w

/-! ## The loops -/

/-- The fields `loop_header` and `loop_depth`, the flags of the blocks and `IR_CFG_HAS_LOOPS`. -/
structure Loops where
  loopHeader : ℕ → ℕ
  loopDepth : ℕ → ℕ
  isHeader : ℕ → Bool
  irreducible : ℕ → Bool
  withEntry : ℕ → Bool
  hasLoops : Bool

/-- The block becomes a header. -/
def Loops.mark (s : Loops) (hdr : ℕ) : Loops :=
  { s with isHeader := Function.update s.isHeader hdr true, loopDepth := Function.update s.loopDepth hdr 1 }

/-- The insertion sort by `ENTRY_TIME`, the last one first. -/
def insertByTime (k : Clock) (b : ℕ) : List ℕ → List ℕ
  | [] => [b]
  | a :: l => if k.entry a > k.entry b then a :: insertByTime k b l else b :: a :: l

/-- `ENTRY_TIME(p) > ENTRY_TIME(hdr) && EXIT_TIME(p) < EXIT_TIME(hdr)` -/
def Clock.below (k : Clock) (p hdr : ℕ) : Bool := k.entry p > k.entry hdr && k.exit p < k.exit hdr

/-- The predecessors of a member `b` of an irreducible loop; the flag says that the loop is entered at `b`. -/
def pushDescendants (fuel : ℕ) (c : Graph) (k : Clock) (hdr : ℕ) (header : ℕ → ℕ) (b : ℕ) :
    List ℕ → Work × Bool → Option (Work × Bool)
  | [], s => some s
  | p :: ps, (w, entered) =>
    if p ∈ w.visited then pushDescendants fuel c k hdr header b ps (w, entered)
    else if header p ≠ 0 ∧ header p = b then pushDescendants fuel c k hdr header b ps (w, entered)
    else
      (if header p ≠ 0 then outermost header fuel p else some p).bind fun q =>
        if k.below q hdr then pushDescendants fuel c k hdr header b ps (w.push q, entered)
        else pushDescendants fuel c k hdr header b ps
          (w, entered || decide ((c.predecessors b).length > 1))

/-- The members of the irreducible loop of `hdr`. -/
def collectIrreducible (fuel : ℕ) (c : Graph) (k : Clock) (hdr : ℕ) : ℕ → Loops → Work → Option Loops
  | 0, _, _ => none
  | f + 1, s, ⟨list, visited⟩ =>
    match list with
    | [] => some s
    | b :: list =>
      let s := if s.loopHeader b = 0 then { s with loopHeader := Function.update s.loopHeader b hdr } else s
      (pushDescendants fuel c k hdr s.loopHeader b (c.predecessors b) (⟨list, visited⟩, false)).bind fun r =>
        collectIrreducible fuel c k hdr f
          (if r.2 then { s with irreducible := Function.update s.irreducible b true } else s) r.1

/-- `ir_collect_irreducible_loops` for the headers in their order. -/
def collectIrreducibleLoops (fuel : ℕ) (c : Graph) (k : Clock) : List ℕ → Loops → Option Loops
  | [], s => some s
  | hdr :: l, s =>
    if s.loopDepth hdr = 0 then
      let closing := (c.predecessors hdr).filter fun p => k.below p hdr
      (collectIrreducible fuel c k hdr fuel (s.mark hdr) (closing.foldl Work.push ⟨[], [hdr]⟩)).bind
        (collectIrreducibleLoops fuel c k l)
    else collectIrreducibleLoops fuel c k l s

/-- What the walk over the blocks keeps: `irreducible_depth` and the delayed headers, besides the loops. -/
structure Discovery where
  loops : Loops
  depth : ℕ
  delayed : List ℕ

/-- The delayed loops are collected before the blocks of a smaller depth. -/
def settle (fuel : ℕ) (c : Graph) (t : DomTree) (k : Clock) (b : ℕ) (s : Discovery) : Option Discovery :=
  if t.domDepth b < s.depth then
    (collectIrreducibleLoops fuel c k (s.delayed.foldr (insertByTime k) []) s.loops).map fun loops =>
      { loops, depth := 0, delayed := [] }
  else some s

/-- The walk at block `b`. -/
def discoverBlock (fuel : ℕ) (c : Graph) (t : DomTree) (k : Clock) (b : ℕ) (s : Discovery) :
    Option Discovery :=
  (settle fuel c t k b s).bind fun s =>
    if (c.predecessors b).length > 1 then
      (backEdges fuel t k b (c.predecessors b) ⟨[], []⟩).bind fun e =>
        match e with
        | .irreducible =>
          some { loops :=
                  { s.loops with irreducible := Function.update s.loops.irreducible b true, hasLoops := true }
                 depth := t.domDepth b
                 delayed := s.delayed ++ [b] }
        | .loop w =>
          if w.list = [] then some s
          else
            (collect fuel c b fuel s.loops.loopHeader ⟨w.list, b :: w.visited⟩).map fun header =>
              { s with loops := { (s.loops.mark b) with loopHeader := header, hasLoops := true } }
    else some s

/-- The walk over the blocks, the last of the list first. -/
def discover (fuel : ℕ) (c : Graph) (t : DomTree) (k : Clock) : List ℕ → Discovery → Option Discovery
  | [], s => some s
  | b :: l, s => (discover fuel c t k l s).bind (discoverBlock fuel c t k b)

/-- Nothing is known about loops. -/
def Loops.empty : Loops := ⟨fun _ => 0, fun _ => 0, fun _ => false, fun _ => false, fun _ => false, false⟩

/-! ## Depths and flags -/

/-- `while (1)`: the flag for the loops around `loop`; `bb` is read from the header of `loop` in every round. -/
def flagEnclosing (header depth : ℕ → ℕ) (loop : ℕ) : ℕ → ℕ → (ℕ → Bool) → Option (ℕ → Bool)
  | 0, _, _ => none
  | fuel + 1, bb, flags =>
    if flags bb then some flags
    else if depth bb = 1 then some (Function.update flags bb true)
    else flagEnclosing header depth loop fuel (header loop) (Function.update flags bb true)

/-- The last loop at block `b`. -/
def propagateBlock (fuel : ℕ) (c : Graph) (b : ℕ) (s : Loops) : Option Loops :=
  if s.loopHeader b > 0 then
    let loop := s.loopHeader b
    let depth := s.loopDepth loop + if s.isHeader b then 1 else 0
    let s := { s with loopDepth := Function.update s.loopDepth b depth }
    if c.isEntry b || s.withEntry b then
      let flags := Function.update s.withEntry loop true
      if depth > 1 then
        (flagEnclosing s.loopHeader s.loopDepth loop fuel (s.loopHeader loop) flags).map fun flags =>
          { s with withEntry := flags }
      else some { s with withEntry := flags }
    else some s
  else some s

/-- The last loop of `ir_find_loops`. -/
def propagate (fuel : ℕ) (c : Graph) : List ℕ → Loops → Option Loops
  | [], s => some s
  | b :: l, s => (propagateBlock fuel c b s).bind (propagate fuel c l)

/-- `ir_find_loops`. -/
def findLoops (fuel : ℕ) (c : Graph) (t : DomTree) : Option Loops :=
  if t.noLoops then some Loops.empty
  else do
    let k ← times fuel c
    let sorted ← sortBlocks fuel t fuel [1]
    let s ← discover fuel c t k sorted ⟨Loops.empty, 0, []⟩
    if s.loops.hasLoops then propagate fuel c sorted s.loops else some s.loops

end IrJit.Cfg
