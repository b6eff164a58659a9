import IrJit.Fold.Const
import Mathlib.Logic.Function.Basic

/-!
# IfConv.Phi — a PHI of an empty diamond becomes MIN, MAX, ABS or COND (`ir_optimize_phi`)

The constants of `ir_base` are the negative references and keep their 64 bits apart.  A use list is
the list of its uses; the run of `use_edges` behind it is the subject of `Uses`.
-/

namespace IrJit.IfConv

open Fold

/-- `ir_insn`. -/
structure Insn where
  op : IrOp
  type : IrType
  inputsCount : ℕ
  op1 : ℤ
  op2 : ℤ
  op3 : ℤ
  /-- The operands from the fourth on. -/
  more : List ℤ

/-- The instructions and the use lists of a context. -/
structure Ctx where
  insn : ℤ → Insn
  val : ℤ → Val
  uses : ℤ → List ℤ
  iterWorklist : ℤ → Bool

/-- `IR_IS_CONST_REF`. -/
def isConstRef (ref : ℤ) : Bool := ref < 0

/-- The input edges of an instruction. -/
def Insn.operands (insn : Insn) : List ℤ :=
  ([insn.op1, insn.op2, insn.op3] ++ insn.more).take insn.inputsCount

/-- `MAKE_NOP`. -/
def Insn.makeNop (insn : Insn) : Insn :=
  { insn with op := .nop, type := .void, inputsCount := 0, op1 := 0, op2 := 0, op3 := 0 }

namespace Ctx

def modify (ctx : Ctx) (ref : ℤ) (f : Insn → Insn) : Ctx :=
  { ctx with insn := Function.update ctx.insn ref (f (ctx.insn ref)) }

def setUses (ctx : Ctx) (ref : ℤ) (l : List ℤ) : Ctx :=
  { ctx with uses := Function.update ctx.uses ref l }

/-- `ir_use_list_remove_one`. -/
def useListRemoveOne (ctx : Ctx) (ref use : ℤ) : Ctx :=
  ctx.setUses ref ((ctx.uses ref).erase use)

/-- `ir_use_list_replace_one`. -/
def useListReplaceOne (ctx : Ctx) (ref use newUse : ℤ) : Ctx :=
  ctx.setUses ref ((ctx.uses ref).replace use newUse)

/-- `ir_bitqueue_add`. -/
def bitqueueAdd (ctx : Ctx) (ref : ℤ) : Ctx :=
  { ctx with iterWorklist := Function.update ctx.iterWorklist ref true }

/-- `MAKE_NOP` and `CLEAR_USES`. -/
def remove (ctx : Ctx) (ref : ℤ) : Ctx := (ctx.modify ref Insn.makeNop).setUses ref []

/-- `ir_remove_unused_vars`. -/
def removeUnusedVars (ctx : Ctx) (start «end» : ℤ) : Ctx :=
  (ctx.uses start).foldl
    (fun ctx use => if use ≠ «end» then ctx.modify use Insn.makeNop else ctx) ctx

end Ctx

/-! ## The tests -/

/-- `ir_is_zero`. -/
def Ctx.isZero (ctx : Ctx) (ref : ℤ) : Bool :=
  isConstRef ref && !(ctx.insn ref).op.isSymConst && u32 (ctx.val ref) = 0

/-- `ir_fix_min_max_const`: the comparison with `ref` for its second operand, if it can be. -/
def Ctx.fixMinMaxConst (ctx : Ctx) (cond : Insn) (ref : ℤ) : Option Insn :=
  let fits (bound : Val) : Bool :=
    !(ctx.insn cond.op2).op.isSymConst && !(ctx.insn ref).op.isSymConst
      && ctx.val cond.op2 = bound && (ctx.insn cond.op2).type = (ctx.insn ref).type
  match cond.op with
  | .ule | .le => if fits (ctx.val ref - 1) then some { cond with op2 := ref } else none
  | .uge | .ge => if fits (ctx.val ref + 1) then some { cond with op2 := ref } else none
  | _ => none

/-- `is_cmp` for a PHI of this type. -/
def isCmp (type : IrType) (op : IrOp) : Bool :=
  if ¬type.isInt then
    op = .lt || op = .le || op = .gt || op = .ge || op = .ult || op = .ule || op = .ugt || op = .uge
  else if type.isSigned then op = .lt || op = .le || op = .gt || op = .ge
  else op = .ult || op = .ule || op = .ugt || op = .uge

/-- `is_less` for a PHI of this type. -/
def isLess (type : IrType) (op : IrOp) : Bool :=
  if ¬type.isInt then op = .lt || op = .le || op = .ult || op = .ule
  else if type.isSigned then op = .lt || op = .le
  else op = .ult || op = .ule

/-- The PHI operand `bound` is the second operand of the comparison, or a constant that the
comparison is rewritten to. -/
def Ctx.boundMatch (ctx : Ctx) (insn cond : Insn) (bound : ℤ) : Option Insn :=
  if bound = cond.op2 then some cond
  else if isConstRef cond.op2 && isConstRef bound && insn.type.isInt then
    ctx.fixMinMaxConst cond bound
  else none

/-- The comparison after the test for MIN and MAX, which rewrites it in place; `none` when the test
fails. -/
def Ctx.minMaxMatch (ctx : Ctx) (insn cond : Insn) : Option Insn :=
  if isCmp insn.type cond.op then
    (if insn.op2 = cond.op1 then ctx.boundMatch insn cond insn.op3 else none).or
      (if insn.op3 = cond.op1 then ctx.boundMatch insn cond insn.op2 else none)
  else none

/-- The comparison is of `x` with a zero on the right, and sends the smaller `x` through the first
input of the merge when `negFirst`. -/
def Ctx.zeroRight (ctx : Ctx) (insn cond start1 : Insn) (x : ℤ) (negFirst : Bool) : Bool :=
  cond.op1 = x && ctx.isZero cond.op2
    && isLess insn.type cond.op = decide ((start1.op = .ifTrue) = negFirst)

/-- The comparison is of `x` with a zero on the left. -/
def Ctx.zeroLeft (ctx : Ctx) (insn cond start1 : Insn) (x : ℤ) (negFirst : Bool) : Bool :=
  cond.op2 = x && ctx.isZero cond.op1
    && isLess insn.type cond.op ≠ decide ((start1.op = .ifTrue) = negFirst)

/-- One half of the test for ABS: `neg` is `NEG(x)` without other uses, and the comparison of `x`
with a zero selects it when `x` is the smaller one. -/
def Ctx.absHalf (ctx : Ctx) (insn cond start1 : Insn) (neg x : ℤ) (negFirst : Bool) : Bool :=
  (ctx.insn neg).op = .neg && (ctx.uses neg).length = 1 && (ctx.insn neg).op1 = x
    && (ctx.zeroRight insn cond start1 x negFirst || ctx.zeroLeft insn cond start1 x negFirst)

/-- The test for ABS. -/
def Ctx.absMatch (ctx : Ctx) (insn cond start1 : Insn) : Bool :=
  isCmp insn.type cond.op
    && (ctx.absHalf insn cond start1 insn.op2 insn.op3 true
      || ctx.absHalf insn cond start1 insn.op3 insn.op2 false)

/-- The test for COND. -/
def Ctx.condMatch (ctx : Ctx) (insn cond : Insn) (root : ℤ) : Bool :=
  insn.op2 ≤ root && insn.op3 ≤ root && cond.op ≠ .overflow && cond.op ≠ .rload
    && !((IrOp.eq.ctorIdx ≤ cond.op.ctorIdx && cond.op.ctorIdx ≤ IrOp.unordered.ctorIdx)
      && ((!isConstRef cond.op1 && (ctx.insn cond.op1).op = .rload)
        || (!isConstRef cond.op2 && (ctx.insn cond.op2).op = .rload)))

/-- The references of the diamond. -/
structure Diamond where
  end1 : ℤ
  end2 : ℤ
  start1 : ℤ
  start2 : ℤ
  root : ℤ
  cond : ℤ

/-- The first tests of `ir_optimize_phi`: the arms of the merge are empty and belong to one IF. -/
def Ctx.matchDiamond (ctx : Ctx) (merge : ℤ) : Option Diamond :=
  let end1 := (ctx.insn merge).op1
  let end2 := (ctx.insn merge).op2
  let start1 := (ctx.insn end1).op1
  let start2 := (ctx.insn end2).op1
  let root := (ctx.insn start1).op1
  if (ctx.insn end1).op = .endOp ∧ (ctx.insn end2).op = .endOp ∧ root = (ctx.insn start2).op1
      ∧ (ctx.insn root).op = .ifOp ∧ ¬isConstRef (ctx.insn root).op2 then
    some ⟨end1, end2, start1, start2, root, (ctx.insn root).op2⟩
  else none

/-! ## The rewritings -/

namespace Ctx

/-- `next_ref`: the use of the merge that is not the PHI. -/
def nextRef (ctx : Ctx) (merge ref : ℤ) : ℤ :=
  let next := (ctx.uses merge).getD 0 0
  if next = ref then (ctx.uses merge).getD 1 0 else next

/-- The variables of the arms go. -/
def clearArms (ctx : Ctx) (d : Diamond) : Ctx :=
  let ctx := if (ctx.uses d.start1).length ≠ 1 then ctx.removeUnusedVars d.start1 d.end1 else ctx
  if (ctx.uses d.start2).length ≠ 1 then ctx.removeUnusedVars d.start2 d.end2 else ctx

/-- `next->op1 = root->op1`, with its use list. -/
def link (ctx : Ctx) (d : Diamond) (next : ℤ) : Ctx :=
  let prev := (ctx.insn d.root).op1
  (ctx.modify next fun insn => { insn with op1 := prev }).useListReplaceOne prev d.root next

/-- The comparison loses the IF, and goes when the IF was its only use; `ops` are its operands. -/
def dropCond (ctx : Ctx) (d : Diamond) (ops : List ℤ) : Ctx :=
  if (ctx.uses d.cond).length = 1 then
    (ops.foldl (fun ctx op => if isConstRef op then ctx else ctx.useListRemoveOne op d.cond)
      ctx).remove d.cond
  else ctx.useListRemoveOne d.cond d.root

/-- The control instructions of the diamond go. -/
def removeDiamond (ctx : Ctx) (d : Diamond) (merge : ℤ) : Ctx :=
  [d.root, d.start1, d.start2, d.end1, d.end2, merge].foldl remove ctx

/-- The block that `next` has joined may be merged into its predecessor. -/
def revisit (ctx : Ctx) (next : ℤ) : Ctx :=
  let prev := (ctx.insn next).op1
  if (ctx.insn prev).op = .beginOp ∨ (ctx.insn prev).op = .merge then ctx.bitqueueAdd prev else ctx

end Ctx

/-- The MIN or MAX that the PHI becomes. -/
def minMaxInsn (cond start1 insn : Insn) : Insn :=
  let left := if isLess insn.type cond.op then cond.op1 else cond.op2
  let taken := if start1.op = .ifTrue then insn.op2 else insn.op3
  { insn with
    op := if left = taken then .min else .max
    inputsCount := 2
    op1 := if insn.op2 > insn.op3 then insn.op2 else insn.op3
    op2 := if insn.op2 > insn.op3 then insn.op3 else insn.op2
    op3 := 0 }

/-- The ABS that the PHI becomes, and the negation that goes. -/
def absInsn (ctx : Ctx) (insn : Insn) : Insn × ℤ :=
  let second := (ctx.insn insn.op2).op = .neg
  ({ insn with
    op := .abs
    inputsCount := 1
    op1 := if second then insn.op3 else insn.op2
    op2 := 0
    op3 := 0 }, if second then insn.op2 else insn.op3)

/-- The COND that the PHI becomes. -/
def condInsn (cond : ℤ) (start1 insn : Insn) : Insn :=
  { insn with
    op := .cond
    inputsCount := 3
    op1 := cond
    op2 := if start1.op = .ifFalse then insn.op3 else insn.op2
    op3 := if start1.op = .ifFalse then insn.op2 else insn.op3 }

namespace Ctx

/-- The branch for MIN and MAX; the comparison has been rewritten already. -/
def toMinMax (ctx : Ctx) (d : Diamond) (merge ref : ℤ) : Ctx :=
  let next := ctx.nextRef merge ref
  let ctx := ctx.clearArms d
  let ctx := ctx.modify ref (minMaxInsn (ctx.insn d.cond) (ctx.insn d.start1))
  let ctx := ctx.link d next
  let ctx := ctx.dropCond d [(ctx.insn ref).op1, (ctx.insn ref).op2]
  (ctx.removeDiamond d merge).revisit next

/-- The branch for ABS. -/
def toAbs (ctx : Ctx) (d : Diamond) (merge ref : ℤ) : Ctx :=
  let next := ctx.nextRef merge ref
  let ctx := ctx.clearArms d
  let neg := (absInsn ctx (ctx.insn ref)).2
  let ctx := ctx.modify ref fun insn => (absInsn ctx insn).1
  let ctx := ctx.link d next
  let ctx := ctx.useListRemoveOne (ctx.insn ref).op1 neg
  let ctx := ctx.dropCond d [(ctx.insn ref).op1]
  ((ctx.removeDiamond d merge).remove neg).revisit next

/-- The branch for COND. -/
def toCond (ctx : Ctx) (d : Diamond) (merge ref : ℤ) : Ctx :=
  let next := ctx.nextRef merge ref
  let ctx := ctx.clearArms d
  let ctx := ctx.modify ref (condInsn d.cond (ctx.insn d.start1))
  let prev := (ctx.insn d.root).op1
  let ctx := ctx.modify next fun insn => { insn with op1 := prev }
  let ctx := ctx.useListReplaceOne d.cond d.root ref
  let ctx := ctx.useListReplaceOne (ctx.insn d.root).op1 d.root next
  let ctx := ctx.useListRemoveOne (ctx.insn d.root).op2 d.root
  ((ctx.removeDiamond d merge).bitqueueAdd ref).revisit next

/-- `ir_optimize_phi`: whether the PHI was replaced, and the context. -/
def optimizePhi (ctx : Ctx) (merge ref : ℤ) : Bool × Ctx :=
  match ctx.matchDiamond merge with
  | none => (false, ctx)
  | some d =>
    let insn := ctx.insn ref
    let cond := ctx.insn d.cond
    match ctx.minMaxMatch insn cond with
    | some cond => (true, (ctx.modify d.cond fun _ => cond).toMinMax d merge ref)
    | none =>
      if ctx.absMatch insn cond (ctx.insn d.start1) then (true, ctx.toAbs d merge ref)
      else if ctx.condMatch insn cond d.root then (true, ctx.toCond d merge ref)
      else (false, ctx)

end Ctx

end IrJit.IfConv
