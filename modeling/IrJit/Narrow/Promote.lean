import IrJit.Consts.Table
import IrJit.IfConv.Phi

/-!
# Narrow.Promote — an expression under a TRUNC is computed in the narrow type (`ir_promote_i2i`)

`ir_may_promote_trunc` walks the operands of the TRUNC as far as they are used once, down to
extensions, truncations and constants; `ir_promote_i2i` walks the same way, gives every instruction
the narrow type and leaves out the extensions of values that have it already.
-/

namespace IrJit.IfConv

/-- `ir_insn_op`, `ir_get_op`. -/
def Insn.getOp (insn : Insn) : ℕ → ℤ
  | 0 => 0
  | 1 => insn.op1
  | 2 => insn.op2
  | 3 => insn.op3
  | j + 4 => insn.more.getD j 0

/-- `ir_insn_set_op`, `ir_set_op`. -/
def Insn.setOp (insn : Insn) (j : ℕ) (val : ℤ) : Insn :=
  match j with
  | 0 => insn
  | 1 => { insn with op1 := val }
  | 2 => { insn with op2 := val }
  | 3 => { insn with op3 := val }
  | j + 4 => { insn with more := insn.more.set j val }

end IrJit.IfConv

namespace IrJit.Narrow

open Fold (Val i16 i32 i8 u16 u32 u8)
open IfConv (Insn isConstRef)

/-- The instructions, the constants and the use lists of a context. -/
structure Ctx where
  insn : ℤ → Insn
  val : ℤ → Val
  constsCount : ℕ
  uses : ℤ → List ℤ

namespace Ctx

def modify (ctx : Ctx) (ref : ℤ) (f : Insn → Insn) : Ctx :=
  { ctx with insn := Function.update ctx.insn ref (f (ctx.insn ref)) }

@[simp] theorem modify_self (ctx : Ctx) (ref : ℤ) (f : Insn → Insn) :
    (ctx.modify ref f).insn ref = f (ctx.insn ref) := Function.update_self _ _ _

theorem modify_of_ne (ctx : Ctx) {ref n : ℤ} (f : Insn → Insn) (h : n ≠ ref) :
    (ctx.modify ref f).insn n = ctx.insn n := Function.update_of_ne h _ _

def setUses (ctx : Ctx) (ref : ℤ) (l : List ℤ) : Ctx :=
  { ctx with uses := Function.update ctx.uses ref l }

/-- `ir_use_list_remove_all`. -/
def useListRemoveAll (ctx : Ctx) (ref use : ℤ) : Ctx :=
  ctx.setUses ref ((ctx.uses ref).filter (· ≠ use))

/-- `ir_use_list_remove_one`. -/
def useListRemoveOne (ctx : Ctx) (ref use : ℤ) : Ctx :=
  ctx.setUses ref ((ctx.uses ref).erase use)

/-- `ir_use_list_replace_one`. -/
def useListReplaceOne (ctx : Ctx) (ref use newUse : ℤ) : Ctx :=
  ctx.setUses ref ((ctx.uses ref).replace use newUse)

/-- `ir_use_list_add`, `n` times. -/
def useListAdd (ctx : Ctx) (ref use : ℤ) (n : ℕ) : Ctx :=
  ctx.setUses ref (ctx.uses ref ++ List.replicate n use)

end Ctx

/-! ## Constants -/

/-- The opcode of the constants of a type. -/
def constOp : IrType → IrOp
  | .void => .nop
  | .bool => .cBool
  | .u8 => .cU8
  | .u16 => .cU16
  | .u32 => .cU32
  | .u64 => .cU64
  | .addr => .cAddr
  | .char => .cChar
  | .i8 => .cI8
  | .i16 => .cI16
  | .i32 => .cI32
  | .i64 => .cI64
  | .double => .cDouble
  | .float => .cFloat

/-- A fresh constant. -/
def constInsn (type : IrType) : Insn := ⟨constOp type, type, 0, 0, 0, 0, []⟩

/-- `ir_const`; the hash table is a search of the constants. -/
def Ctx.const (ctx : Ctx) (val : Val) (type : IrType) : ℤ × Ctx :=
  if type = .bool then (if val ≠ 0 then Consts.irTrue else Consts.irFalse, ctx)
  else if type = .addr ∧ val = 0 then (Consts.irNull, ctx)
  else
    let found := (List.range ctx.constsCount).find? fun n : ℕ =>
      (ctx.insn (-(n : ℤ))).op = constOp type && (ctx.insn (-(n : ℤ))).type = type && ctx.val (-(n : ℤ)) = val
    match found with
    | some n => (-(n : ℤ), ctx)
    | none =>
      (-ctx.constsCount,
        { ctx with
          insn := Function.update ctx.insn (-ctx.constsCount) (constInsn type)
          val := Function.update ctx.val (-ctx.constsCount) val
          constsCount := ctx.constsCount + 1 })

/-- The 64 bits of the constant in the narrow type. -/
def narrowVal (type : IrType) (val : Val) : Val :=
  match type with
  | .i8 | .char => BitVec.ofInt 64 (i8 val)
  | .u8 => BitVec.ofInt 64 (u8 val)
  | .i16 => BitVec.ofInt 64 (i16 val)
  | .u16 => BitVec.ofInt 64 (u16 val)
  | .i32 => BitVec.ofInt 64 (i32 val)
  | .u32 => BitVec.ofInt 64 (u32 val)
  | .bool => if u8 val ≠ 0 then 1 else 0
  | _ => 0

/-! ## The test -/

/-- `ZEXT`, `SEXT` and `TRUNC`. -/
def isExt (op : IrOp) : Bool := op = .zext || op = .sext || op = .trunc

/-- `NEG`, `ABS` and `NOT`. -/
def isUnary (op : IrOp) : Bool := op = .neg || op = .abs || op = .not

/-- The operators of two operands that are computed in the narrow type. -/
def isBinary (op : IrOp) : Bool :=
  op = .add || op = .sub || op = .mul || op = .min || op = .max || op = .or || op = .and || op = .xor
    || op = .shl

/-- A loop that stops at the first failure. -/
def allTrue (f : ℤ → Option Bool) : List ℤ → Option Bool
  | [] => some true
  | ref :: rest => do
    if ← f ref then allTrue f rest else some false

namespace Ctx

variable (ctx : Ctx) (type : IrType)

/-- `ir_may_promote_trunc`. -/
def mayPromoteTrunc : ℕ → ℤ → Option Bool
  | 0, _ => none
  | fuel + 1, ref =>
    let insn := ctx.insn ref
    let once := (ctx.uses ref).length = 1
    if isConstRef ref then some (!insn.op.isSymConst)
    else if isExt insn.op then some ((ctx.insn insn.op1).type = type || once)
    else if isUnary insn.op then
      if once then mayPromoteTrunc fuel insn.op1 else some false
    else if isBinary insn.op then
      if once then allTrue (mayPromoteTrunc fuel) [insn.op1, insn.op2] else some false
    else if insn.op = .cond then
      if once then allTrue (mayPromoteTrunc fuel) [insn.op2, insn.op3] else some false
    else if insn.op = .phi then
      -- the PHI may be an input of its own
      if 1 < ((ctx.uses ref).filter (· ≠ ref)).length ∧ ¬once then some false
      else allTrue (mayPromoteTrunc fuel) ((insn.operands.drop 1).filter (· ≠ ref))
    else some false

/-! ## The rewriting -/

/-- The opcode of an extension or truncation of a value of type `src` that is not narrow. -/
def extOp (src : IrType) (op : IrOp) : IrOp :=
  if src.size = type.size then .bitcast
  else if src.size > type.size then .trunc
  else if op ≠ .sext ∧ op ≠ .zext then (if type.isSigned then .sext else .zext)
  else op

/-- The case of `ZEXT`, `SEXT` and `TRUNC`.  A constant operand has no use list. -/
def promoteExt (ref use : ℤ) : Option (ℤ × Ctx) :=
  let insn := ctx.insn ref
  let src := (ctx.insn insn.op1).type
  if src ≠ type then
    some (ref, ctx.modify ref fun insn => { insn with op := extOp type src insn.op, type := type })
  else if isConstRef insn.op1 then none
  else
    let count := (ctx.uses ref).length
    let removed := ctx.useListRemoveAll ref use
    if (removed.uses ref).length = 0 then
      some (insn.op1, ((removed.useListReplaceOne insn.op1 ref use).useListAdd insn.op1 use (count - 1)).modify
        ref Insn.makeNop)
    else
      let removed' := removed.useListAdd insn.op1 use 1
      some (insn.op1, removed'.useListAdd insn.op1 use (count - (removed.uses ref).length - 1))

/-- The promotion of two operands, which may be one. -/
def promotePair (f : ℤ → Ctx → Option (ℤ × Ctx)) (op1 op2 : ℤ) (ctx : Ctx) : Option (ℤ × ℤ × Ctx) :=
  if op1 = op2 then do
    let (op, ctx) ← f op1 ctx
    some (op, op, ctx)
  else do
    let (op1, ctx) ← f op1 ctx
    let (op2, ctx) ← f op2 ctx
    some (op1, op2, ctx)

/-- The loop over the inputs of a PHI from `count` on, when `n` inputs are left. -/
def promoteInputs (f : ℤ → Ctx → Option (ℤ × Ctx)) (ref : ℤ) : ℕ → ℕ → Ctx → Option Ctx
  | 0, _, ctx => some ctx
  | n + 1, count, ctx =>
    let input := (ctx.insn ref).getOp count
    if input ≠ ref then do
      let (op, ctx) ← f input ctx
      promoteInputs f ref n (count + 1) (ctx.modify ref (·.setOp count op))
    else promoteInputs f ref n (count + 1) ctx

/-- The orders that a COND of the narrow type becomes MIN or MAX with. -/
def isOrder (op : IrOp) : Bool :=
  if type.isSigned then op = .lt || op = .le || op = .gt || op = .ge
  else op = .ult || op = .ule || op = .ugt || op = .uge

/-- Of these, the ones for less. -/
def isLess (op : IrOp) : Bool := op = .lt || op = .le || op = .ult || op = .ule

/-- A COND of the narrow type that its condition makes a MIN or MAX. -/
def fuseCond (ref : ℤ) : Ctx :=
  let insn := ctx.insn ref
  let cond := ctx.insn insn.op1
  let fuse (op : IrOp) : Ctx :=
    (ctx.useListRemoveOne insn.op1 ref).modify ref fun insn =>
      { insn with op := op, op1 := insn.op2, op2 := insn.op3, op3 := 0 }
  if isOrder type cond.op then
    if cond.op1 = insn.op2 ∧ cond.op2 = insn.op3 then fuse (if isLess cond.op then .min else .max)
    else if cond.op1 = insn.op3 ∧ cond.op2 = insn.op1 then
      fuse (if isLess cond.op then .max else .min)
    else ctx
  else ctx

/-- `ir_promote_i2i`. -/
def promoteI2I : ℕ → ℤ → ℤ → Ctx → Option (ℤ × Ctx)
  | 0, _, _, _ => none
  | fuel + 1, ref, use, ctx =>
    let insn := ctx.insn ref
    if isConstRef ref then some (ctx.const (narrowVal type (ctx.val ref)) type)
    else if isExt insn.op then ctx.promoteExt type ref use
    else if isUnary insn.op then do
      let (op, ctx) ← promoteI2I fuel insn.op1 ref ctx
      some (ref, ctx.modify ref fun insn => { insn with op1 := op, type := type })
    else if isBinary insn.op then do
      let (op1, op2, ctx) ← promotePair (promoteI2I fuel · ref) insn.op1 insn.op2 ctx
      some (ref, ctx.modify ref fun insn => { insn with op1 := op1, op2 := op2, type := type })
    else if insn.op = .cond then do
      let (op2, op3, ctx) ← promotePair (promoteI2I fuel · ref) insn.op2 insn.op3 ctx
      let ctx := ctx.modify ref fun insn => { insn with op2 := op2, op3 := op3, type := type }
      some (ref, ctx.fuseCond type ref)
    else if insn.op = .phi then do
      let ctx ← promoteInputs (promoteI2I fuel · ref) ref (insn.inputsCount - 1) 2 ctx
      some (ref, ctx.modify ref fun insn => { insn with type := type })
    else some (ref, ctx)

/-! ## The TRUNC -/

/-- The loop of `ir_iter_replace`: every use gets `newRef` for one `ref`. -/
def replaceUses (ref newRef : ℤ) : List ℤ → Ctx → Ctx
  | [], ctx => ctx
  | use :: rest, ctx =>
    let ctx := ctx.modify use fun insn => insn.setOp (insn.operands.idxOf ref + 1) newRef
    replaceUses ref newRef rest (if 0 < newRef then ctx.useListAdd newRef use 1 else ctx)

/-- `ir_iter_replace_insn`, with `CLEAR_USES`. -/
def iterReplaceInsn (ref newRef : ℤ) : Ctx :=
  let inputs := (ctx.insn ref).operands.filter (0 < ·)
  let ctx := ctx.modify ref fun insn =>
    (List.range insn.inputsCount).foldl (fun insn j => insn.setOp (j + 1) 0)
      { insn with op := .nop, type := .void }
  let ctx := inputs.foldl (fun ctx input => ctx.useListRemoveOne input ref) ctx
  (replaceUses ref newRef (ctx.uses ref) ctx).setUses ref []

/-- The case of `IR_TRUNC` in `ir_iter_opt`, when the operand can be narrowed. -/
def optTrunc (fuel : ℕ) (i : ℤ) : Option (Bool × Ctx) := do
  let type := (ctx.insn i).type
  if ← ctx.mayPromoteTrunc type fuel (ctx.insn i).op1 then
    let (ref, ctx) ← promoteI2I type fuel (ctx.insn i).op1 i ctx
    some (true, (ctx.modify i fun insn => { insn with op1 := ref }).iterReplaceInsn i ref)
  else some (false, ctx)

end Ctx

end IrJit.Narrow
