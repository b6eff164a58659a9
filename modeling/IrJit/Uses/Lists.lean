import IrJit.Core.Ops
import IrJit.Lib.Slice
import Mathlib.Data.Int.Basic

/-!
# Uses.Lists — def-use lists (`ir.c`)

The uses of every instruction form a run of the shared array `use_edges`: those of `d` are the
`count` cells from `refs` on.  A cell that was freed holds `IR_UNUSED = 0`, and the list that ends
right before it may grow into it; a list that cannot grow in place is copied to the end.

The operands of the instructions are one array of words: operand `j` of instruction `i` is word
`4 * i + j`, so the operands of a wide instruction run into the slots after its head.
-/

namespace IrJit.Uses

/-- `ir_use_list`. -/
structure UseList where
  refs : ℕ
  count : ℕ

/-- The instructions of a context, as far as the use lists look at them. -/
structure Insns where
  op : ℕ → IrOp
  inputsCount : ℕ → ℕ
  word : ℕ → ℤ
  insnsCount : ℕ

/-- The instructions and the use lists of a context. -/
structure Ctx where
  insns : Insns
  useLists : ℕ → UseList
  useEdges : ℕ → ℕ
  useEdgesCount : ℕ

/-- `ir_insn_inputs_to_len`. -/
def inputsToLen (inputs : ℕ) : ℕ := 1 + inputs / 4

/-- The slots that a walk over the instructions visits: from `i` on, each instruction is followed
by the one `ir_insn_inputs_to_len` slots later. -/
def headsFrom (inputs : ℕ → ℕ) (count : ℕ) : ℕ → ℕ → List ℕ
  | 0, _ => []
  | fuel + 1, i =>
    if i < count then i :: headsFrom inputs count fuel (i + inputsToLen (inputs i)) else []

namespace Insns

/-- `ir_insn_op`. -/
def insnOp (I : Insns) (insn j : ℕ) : ℤ := I.word (4 * insn + j)

/-- `ir_insn_set_op`. -/
def insnSetOp (I : Insns) (insn j : ℕ) (val : ℤ) : Insns :=
  { I with word := Function.update I.word (4 * insn + j) val }

/-- `ir_insn_find_op`: the first operand that is `val`, `0` when none is. -/
def insnFindOp (I : Insns) (insn : ℕ) (val : ℤ) : ℕ :=
  ((List.range' 1 (I.inputsCount insn)).find? fun j => I.insnOp insn j = val).getD 0

/-- The instructions: the slots of a walk from reference `1`. -/
def heads (I : Insns) : List ℕ := headsFrom I.inputsCount I.insnsCount I.insnsCount 1

/-- The input edges of an instruction. -/
def inputs (I : Insns) (insn : ℕ) : List ℤ := slice I.word (4 * insn + 1) (I.inputsCount insn)

end Insns

namespace Ctx

def setEdge (ctx : Ctx) (i ref : ℕ) : Ctx :=
  { ctx with useEdges := Function.update ctx.useEdges i ref }

def setList (ctx : Ctx) (d : ℕ) (l : UseList) : Ctx :=
  { ctx with useLists := Function.update ctx.useLists d l }

/-- The uses of `d`. -/
def uses (ctx : Ctx) (d : ℕ) : List ℕ :=
  slice ctx.useEdges (ctx.useLists d).refs (ctx.useLists d).count

end Ctx

/-! ## Construction -/

/-- The number of input edges that `ir_build_def_use_lists` gives an instruction. -/
def builtInputs (I : Insns) (i : ℕ) : ℕ :=
  if (I.op i).hasVarInputs then I.inputsCount i else (I.op i).inputEdges

/-- The slots that the walk of `ir_build_def_use_lists` visits. -/
def builtHeads (I : Insns) : List ℕ := headsFrom (builtInputs I) I.insnsCount I.insnsCount 1

/-- The instructions after `ir_build_def_use_lists`: each has the `inputs_count` of its edges. -/
def builtInsns (I : Insns) : Insns :=
  { I with inputsCount := fun i => if i ∈ builtHeads I then builtInputs I i else I.inputsCount i }

/-- The state of the first loop of `ir_build_def_use_lists`.  `refs d` is `0` (no use), a use
(the only one), or `-(k + 1)` for the list in `linkedLists` whose first cell pair is `k, k + 1`. -/
structure Building where
  refs : ℕ → ℤ
  count : ℕ → ℕ
  linkedLists : ℕ → ℤ
  top : ℕ
  edgesCount : ℕ

/-- One operand of instruction `i`. -/
def Building.addEdge (b : Building) (i : ℕ) (operand : ℤ) : Building :=
  if operand > 0 then
    let d := operand.toNat
    let b := { b with edgesCount := b.edgesCount + 1 }
    if b.refs d = 0 then
      { b with
        refs := Function.update b.refs d i
        count := Function.update b.count d 1 }
    else
      { b with
        linkedLists :=
          Function.update (Function.update b.linkedLists b.top i) (b.top + 1) (b.refs d)
        refs := Function.update b.refs d (-(b.top + 1 : ℕ))
        top := b.top + 2
        count := Function.update b.count d (b.count d + 1) }
  else b

/-- One instruction. -/
def Building.addInsn (I : Insns) (b : Building) (i : ℕ) : Building :=
  (slice I.word (4 * i + 1) (builtInputs I i)).foldl (fun b operand => b.addEdge i operand) b

/-- The inner loop of the second pass, "transform linked list to plain array"; `edgesCount` cells
are still free below. -/
def flattenList (linked : ℕ → ℤ) : ℕ → ℤ → (ℕ → ℕ) → ℕ → Option ((ℕ → ℕ) × ℕ)
  | 0, _, _, _ => none
  | fuel + 1, n, edges, edgesCount =>
    if n < 0 then
      let k := (-n).toNat
      flattenList linked fuel (linked k)
        (Function.update edges (edgesCount - 1) (linked (k - 1)).toNat) (edgesCount - 1)
    else some (Function.update edges (edgesCount - 1) n.toNat, edgesCount - 1)

/-- The second pass, over the lists from `d` down to `1`. -/
def flattenFrom (linked : ℕ → ℤ) (count : ℕ → ℕ) :
    ℕ → (ℕ → ℤ) → (ℕ → ℕ) → ℕ → Option ((ℕ → ℤ) × (ℕ → ℕ))
  | 0, refs, edges, _ => some (refs, edges)
  | d + 1, refs, edges, edgesCount =>
    if refs (d + 1) ≠ 0 then do
      let (edges, edgesCount) ← flattenList linked (count (d + 1)) (refs (d + 1)) edges edgesCount
      flattenFrom linked count d (Function.update refs (d + 1) edgesCount) edges edgesCount
    else flattenFrom linked count d refs edges edgesCount

/-- `ir_build_def_use_lists`; `linked₀` and `edges₀` are what the new arrays hold before they are
written. -/
def buildDefUseLists (I : Insns) (linked₀ : ℕ → ℤ) (edges₀ : ℕ → ℕ) : Option Ctx := do
  let b := (builtHeads I).foldl (Building.addInsn I)
    { refs := fun _ => 0, count := fun _ => 0, linkedLists := linked₀, top := 0, edgesCount := 0 }
  let (refs, edges) ←
    flattenFrom b.linkedLists b.count (I.insnsCount - 1) b.refs edges₀ b.edgesCount
  return {
    insns := builtInsns I
    useLists := fun d => ⟨(refs d).toNat, b.count d⟩
    useEdges := edges
    useEdgesCount := b.edgesCount }

/-! ## Changing one list -/

/-- The loop of `ir_use_list_remove_all`: the cells and the final values of `p` and `q`. -/
def removeAllLoop (ref : ℕ) : ℕ → (ℕ → ℕ) → ℕ → ℕ → (ℕ → ℕ) × ℕ × ℕ
  | 0, edges, p, q => (edges, p, q)
  | n + 1, edges, p, q =>
    let use := edges p
    if use ≠ ref then
      removeAllLoop ref n (if p ≠ q then Function.update edges q use else edges) (p + 1) (q + 1)
    else removeAllLoop ref n edges (p + 1) q

/-- `n` cells from `q` on become `IR_UNUSED`. -/
def fillUnused : ℕ → (ℕ → ℕ) → ℕ → ℕ → ℕ
  | 0, edges, _ => edges
  | n + 1, edges, q => fillUnused n (Function.update edges q 0) (q + 1)

/-- `ir_use_list_remove_all`. -/
def useListRemoveAll (ctx : Ctx) (d ref : ℕ) : Ctx :=
  let l := ctx.useLists d
  let (edges, p, q) := removeAllLoop ref l.count ctx.useEdges l.refs l.refs
  if p ≠ q then
    { ctx with
      useLists := Function.update ctx.useLists d { l with count := l.count - (p - q) }
      useEdges := fillUnused (p - q) edges q }
  else { ctx with useEdges := edges }

/-- The inner loop of `ir_use_list_remove_one`: the `n` cells after `p` move down by one. -/
def shiftDown : ℕ → (ℕ → ℕ) → ℕ → ℕ → ℕ
  | 0, edges, p => Function.update edges p 0
  | n + 1, edges, p => shiftDown n (Function.update edges p (edges (p + 1))) (p + 1)

/-- The search loop of `ir_use_list_remove_one`; `none` when `ref` is not found. -/
def removeOneLoop (ref : ℕ) : ℕ → (ℕ → ℕ) → ℕ → Option (ℕ → ℕ)
  | 0, _, _ => none
  | n + 1, edges, p =>
    if edges p = ref then some (shiftDown n edges p) else removeOneLoop ref n edges (p + 1)

/-- `ir_use_list_remove_one`. -/
def useListRemoveOne (ctx : Ctx) (d ref : ℕ) : Ctx :=
  let l := ctx.useLists d
  match removeOneLoop ref l.count ctx.useEdges l.refs with
  | some edges =>
    { ctx with
      useLists := Function.update ctx.useLists d { l with count := l.count - 1 }
      useEdges := edges }
  | none => ctx

/-- The loop of `ir_use_list_replace_one`. -/
def replaceOneLoop (use newUse : ℕ) : ℕ → (ℕ → ℕ) → ℕ → ℕ → ℕ
  | 0, edges, _ => edges
  | n + 1, edges, p =>
    if edges p = use then Function.update edges p newUse
    else replaceOneLoop use newUse n edges (p + 1)

/-- `ir_use_list_replace_one`. -/
def useListReplaceOne (ctx : Ctx) (d use newUse : ℕ) : Ctx :=
  let l := ctx.useLists d
  { ctx with useEdges := replaceOneLoop use newUse l.count ctx.useEdges l.refs }

/-- The loop of `ir_use_list_replace_all`. -/
def replaceAllLoop (use newUse : ℕ) : ℕ → (ℕ → ℕ) → ℕ → ℕ → ℕ
  | 0, edges, _ => edges
  | n + 1, edges, p =>
    replaceAllLoop use newUse n (if edges p = use then Function.update edges p newUse else edges)
      (p + 1)

/-- `ir_use_list_replace_all`. -/
def useListReplaceAll (ctx : Ctx) (d use newUse : ℕ) : Ctx :=
  let l := ctx.useLists d
  { ctx with useEdges := replaceAllLoop use newUse l.count ctx.useEdges l.refs }

/-- `IR_ALIGNED_SIZE`. -/
def alignedSize (size alignment : ℕ) : ℕ := (size + (alignment - 1)) / alignment * alignment

/-- `memcpy` of `n` cells from `src` to `dst`. -/
def copyEdges (edges : ℕ → ℕ) (dst src n : ℕ) : ℕ → ℕ := fun i =>
  if dst ≤ i ∧ i < dst + n then edges (src + (i - dst)) else edges i

/-- `ir_use_list_add`; the result tells the caller that the array or the list may have moved. -/
def useListAdd (ctx : Ctx) (d ref : ℕ) : Bool × Ctx :=
  let l := ctx.useLists d
  let n := l.refs + l.count
  if n < ctx.useEdgesCount ∧ ctx.useEdges n = 0 then
    (false, (ctx.setEdge n ref).setList d { l with count := l.count + 1 })
  else
    let oldSize := alignedSize (ctx.useEdgesCount * 4) 4096
    let newSize := alignedSize ((ctx.useEdgesCount + l.count + 1) * 4) 4096
    if n = ctx.useEdgesCount then
      -- the last list grows at the end, with or without a reallocation
      (decide (oldSize < newSize),
        { (ctx.setEdge n ref).setList d { l with count := l.count + 1 } with
          useEdgesCount := ctx.useEdgesCount + 1 })
    else
      let edges := copyEdges ctx.useEdges ctx.useEdgesCount l.refs l.count
      (true,
        { ctx with
          useEdges := Function.update edges (ctx.useEdgesCount + l.count) ref
          useLists := Function.update ctx.useLists d ⟨ctx.useEdgesCount, l.count + 1⟩
          useEdgesCount := ctx.useEdgesCount + (l.count + 1) })

/-! ## Replacing references -/

/-- `CLEAR_USES`. -/
def clearUses (ctx : Ctx) (ref : ℕ) : Ctx :=
  ctx.setList ref { ctx.useLists ref with count := 0 }

/-- The loop of `ir_replace` for a constant or `IR_UNUSED`; `none` when an assertion fails. -/
def replaceConstLoop (edges : ℕ → ℕ) (ref : ℕ) (newRef : ℤ) : ℕ → Insns → ℕ → Option Insns
  | 0, I, _ => some I
  | n + 1, I, p =>
    let use := edges p
    let j := I.insnFindOp use ref
    if j > 0 then replaceConstLoop edges ref newRef n (I.insnSetOp use j newRef) (p + 1) else none

/-- The loop of `ir_replace` for another instruction.  The bounds are read again after
`ir_use_list_add` has moved something; `none` when an assertion fails or the fuel runs out. -/
def replaceLoop (ref newRef : ℕ) : ℕ → Ctx → ℕ → ℕ → ℕ → Option Ctx
  | 0, ctx, i, n, _ => if i < n then none else some ctx
  | fuel + 1, ctx, i, n, p =>
    if i < n then
      let use := ctx.useEdges p
      let j := ctx.insns.insnFindOp use ref
      if j > 0 then
        let ctx := { ctx with insns := ctx.insns.insnSetOp use j newRef }
        match useListAdd ctx newRef use with
        | (true, ctx) =>
          let l := ctx.useLists ref
          replaceLoop ref newRef fuel ctx (i + 1) l.count (l.refs + i + 1)
        | (false, ctx) => replaceLoop ref newRef fuel ctx (i + 1) n (p + 1)
      else none
    else some ctx

/-- `ir_replace`. -/
def replace (ctx : Ctx) (ref : ℕ) (newRef : ℤ) : Option Ctx :=
  let l := ctx.useLists ref
  if newRef ≤ 0 then
    (replaceConstLoop ctx.useEdges ref newRef l.count ctx.insns l.refs).map fun I =>
      { ctx with insns := I }
  else replaceLoop ref newRef.toNat l.count ctx 0 l.count l.refs

/-- `ir_update_op`. -/
def updateOp (ctx : Ctx) (ref idx : ℕ) (newVal : ℤ) : Ctx :=
  let oldVal := ctx.insns.insnOp ref idx
  let ctx := if newVal > 0 then (useListAdd ctx newVal.toNat ref).2 else ctx
  let ctx := { ctx with insns := ctx.insns.insnSetOp ref idx newVal }
  if oldVal > 0 then useListRemoveOne ctx oldVal.toNat ref else ctx

end IrJit.Uses
