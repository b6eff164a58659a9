import Mathlib.Data.BitVec
import IrJit.Core.Types
import IrJit.Sroa.Layout
import IrJit.Uses.Edit

/-!
# Sroa.Split — scalar replacement of aggregates (`ir_mem2ssa.c`)

`ir_mem2ssa_may_split_alloca` looks at every use of an `ALLOCA`: loads and stores through it, and additions
of constants that only loads and stores use.  `ir_mem2ssa_split_alloca` makes one `ALLOCA` for every accessed
part; the first part keeps the old node.
-/

namespace IrJit.Sroa

open Uses (Insns)

/-- The instructions with their use lists, the types of references, and the constants (`val.u64`); constants
are the references `-1, …, -(constsCount - 1)`. -/
structure Ctx where
  uses : Uses.Ctx
  type : ℤ → IrType
  val : ℤ → BitVec 64
  constsCount : ℕ

namespace Ctx

variable (ctx : Ctx)

/-- `ir_const_size_t`: the constant is looked up or made. -/
def constSizeT (n : ℕ) : ℤ × Ctx :=
  match (List.range' 1 (ctx.constsCount - 1)).find? fun i : ℕ =>
      ctx.type (-(i : ℤ)) = .u64 ∧ ctx.val (-(i : ℤ)) = BitVec.ofNat 64 n with
  | some i => (-(i : ℤ), ctx)
  | none =>
    let c : ℤ := -(ctx.constsCount : ℤ)
    (c, { ctx with
      type := Function.update ctx.type c .u64
      val := Function.update ctx.val c (BitVec.ofNat 64 n)
      constsCount := ctx.constsCount + 1 })

abbrev insns : Insns := ctx.uses.insns

def setOp (insn j : ℕ) (val : ℤ) : Ctx :=
  { ctx with uses := { ctx.uses with insns := ctx.uses.insns.insnSetOp insn j val } }

def op (insn : ℕ) : IrOp := ctx.uses.insns.op insn

def insnOp (insn j : ℕ) : ℤ := ctx.uses.insns.insnOp insn j

/-- The number of bytes that a load or a store accesses. -/
def accessSize (use : ℕ) : ℕ :=
  if ctx.op use = .load then (ctx.type use).size else (ctx.type (ctx.insnOp use 3)).size

/-- The check of one load or store through `var`, which is the object at `offset`. -/
def addAccess (L : Layout) (var use offset : ℕ) : Option Layout :=
  if ctx.op use = .load then
    if ctx.insnOp use 2 ≠ var then none else addSplitVar L offset (ctx.accessSize use)
  else if ctx.op use = .store then
    if ctx.insnOp use 2 ≠ var ∨ ctx.insnOp use 3 = var then none
    else addSplitVar L offset (ctx.accessSize use)
  else none

/-- `ir_mem2ssa_may_promote`, over the uses of `var`. -/
def mayPromote (var offset : ℕ) : Layout → List ℕ → Option Layout
  | L, [] => some L
  | L, use :: rest => do
    let L ← ctx.addAccess L var use offset
    mayPromote var offset L rest

/-- Is the use an addition of an integer constant below the size of the object? -/
def isOffset (var use size : ℕ) : Bool :=
  ctx.op use = .add && ctx.insnOp use 1 = var && ctx.insnOp use 2 < 0
    && (ctx.type (ctx.insnOp use 2)).isInt && (ctx.val (ctx.insnOp use 2)).toNat < size

/-- The loop of `ir_mem2ssa_may_split_alloca`; `next` is skipped once. -/
def maySplitLoop (var : ℕ) : ℕ → Layout → List ℕ → Option Layout
  | _, L, [] => some L
  | next, L, use :: rest =>
    if use = next then maySplitLoop var 0 L rest
    else if ctx.op use = .load ∨ ctx.op use = .store then do
      let L ← ctx.addAccess L var use 0
      maySplitLoop var next L rest
    else if ctx.isOffset var use L.size then do
      let L ← ctx.mayPromote use (ctx.val (ctx.insnOp use 2)).toNat L (ctx.uses.uses use)
      maySplitLoop var next L rest
    else none

/-- `ir_mem2ssa_may_split_alloca` for an object of `size` bytes, of which `sizes` holds anything; `none` for
`IR_CANNOT_CONVERT`. -/
def maySplitAlloca (size : ℕ) (sizes : ℕ → ℕ) (var next : ℕ) : Option Layout := do
  let L ← ctx.maySplitLoop var next ⟨size, 0, sizes⟩ (ctx.uses.uses var)
  if L.count > 0 then some L else none

/-- `while (!layout->sizes[i]) i++`. -/
def nextEntry (sizes : ℕ → ℕ) : ℕ → ℕ → Option ℕ
  | 0, _ => none
  | fuel + 1, i => if sizes i = 0 then nextEntry sizes fuel (i + 1) else some i

/-- The loop that makes the new `ALLOCA` nodes: `n` is left, `j` is the next index, which is stored in one
byte, and `prev` is the end of the control chain. -/
def newAllocas (size : ℕ) : ℕ → Ctx → (ℕ → ℕ) → ℕ → ℕ → ℕ → Option (Ctx × (ℕ → ℕ) × ℕ)
  | 0, ctx, sizes, _, _, prev => some (ctx, sizes, prev)
  | n + 1, ctx, sizes, i, j, prev => do
    let i ← nextEntry sizes (size + 1) (i + 1)
    let (c, ctx) := ctx.constSizeT (sizes i)
    let ref := ctx.uses.insns.insnsCount
    let uses := { ctx.uses with insns := ctx.uses.insns.emit2 .alloca prev c }
    let ctx := { ctx with
      uses := (Uses.useListAdd uses prev ref).2
      type := Function.update ctx.type ref .addr }
    newAllocas size n ctx (Function.update sizes i (j % 256)) i (j + 1) ref

/-- The first half of `ir_mem2ssa_split_alloca`: the sizes become the indexes of the nodes, `0` for the old
one. -/
def allocateParts (L : Layout) (var : ℕ) : Option (Ctx × (ℕ → ℕ)) := do
  let i ← nextEntry L.sizes (L.size + 1) 0
  let (c, ctx) := ctx.constSizeT (L.sizes i)
  let ctx := ctx.setOp var 2 c
  let sizes := Function.update L.sizes i 0
  if L.count > 1 then do
    let prev := (ctx.insnOp var 1).toNat
    let ctx := { ctx with uses := Uses.useListRemoveOne ctx.uses prev var }
    let (ctx, sizes, prev) ← newAllocas L.size (L.count - 1) ctx sizes i 1 prev
    let ctx := { ctx with uses := (Uses.useListAdd ctx.uses prev var).2 }
    some (ctx.setOp var 1 prev, sizes)
  else some (ctx, sizes)

/-- The loop over the uses of `var`.  `i` is the cell that is read and `j` the one that is written; the list
grows while the uses of an addition at the place of the old node are added to it. -/
def compactUses (var firstNew : ℕ) (sizes : ℕ → ℕ) : ℕ → Ctx → ℕ → ℕ → ℕ → Option (Ctx × ℕ)
  | 0, _, _, _, _ => none
  | fuel + 1, ctx, next, i, j =>
    let list := ctx.uses.useLists var
    if i < list.count then
      let use := ctx.uses.useEdges (list.refs + i)
      let kept := if i ≠ j then { ctx with uses := ctx.uses.setEdge (list.refs + j) use } else ctx
      if use = next then compactUses var firstNew sizes fuel kept 0 (i + 1) (j + 1)
      else if ctx.op use = .load ∨ ctx.op use = .store then
        compactUses var firstNew sizes fuel kept next (i + 1) (j + 1)
      else do
        let offset := (ctx.val (ctx.insnOp use 2)).toNat
        let ref := if sizes offset = 0 then var else firstNew + sizes offset - 1
        let uses ← Uses.replace ctx.uses use ref
        let uses := Uses.clearUses { uses with insns := uses.insns.makeNop use } use
        compactUses var firstNew sizes fuel { ctx with uses } next (i + 1) j
    else some (ctx, j)

/-- The tail of the list is cleaned and cut off. -/
def cutUses (var j : ℕ) : Ctx :=
  let list := ctx.uses.useLists var
  { ctx with
    uses := { ctx.uses with
      useLists := Function.update ctx.uses.useLists var { list with count := j }
      useEdges := Uses.fillUnused (list.count - j) ctx.uses.useEdges (list.refs + j) } }

/-- `ir_mem2ssa_split_alloca`. -/
def splitAlloca (fuel : ℕ) (L : Layout) (var next : ℕ) : Option Ctx := do
  let firstNew := ctx.uses.insns.insnsCount
  let (ctx, sizes) ← ctx.allocateParts L var
  let (ctx, j) ← compactUses var firstNew sizes fuel ctx next 0 0
  some (ctx.cutUses var j)

end Ctx

end IrJit.Sroa
