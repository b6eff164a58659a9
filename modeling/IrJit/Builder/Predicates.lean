import Mathlib.Logic.Function.Basic
import IrJit.Mem.Insns

/-!
# Builder.Predicates — conditions that are known from the control chain (`ir.c`, 2643–2732 and 3255–3293)

`ir_IF`, `ir_GUARD` and `ir_GUARD_NOT` walk back over `op1` from `ctx->control`, down to the condition, for a
guard or a branch with that condition.  Folding is enabled.
-/

namespace IrJit.Predicates

open Mem (Insn Ctx)

/-- `IR_NULL`. -/
def irNull : ℤ := -1

/-- `IR_FALSE`. -/
def irFalse : ℤ := -2

/-- `IR_TRUE`. -/
def irTrue : ℤ := -3

/-! ## Conditions -/

section Conditions

variable (C : Ctx)

/-- A value of type `type` is not zero: `val.b`, `val.d != 0.0`, `val.f != 0.0` or `val.i64 != 0`. -/
def nonZero (type : IrType) (x : BitVec 64) : Bool :=
  match type with
  | .bool => x.setWidth 8 ≠ 0
  | .double => x.setWidth 63 ≠ 0
  | .float => x.setWidth 31 ≠ 0
  | _ => x ≠ 0

/-- `ir_const_is_true`. -/
def constIsTrue (insn : Insn) : Bool := if insn.op.isSymConst then true else nonZero insn.type insn.val

/-- `ir_ref_is_true`. -/
def refIsTrue (ref : ℤ) : Bool :=
  if ref = irTrue then true else if ref = irFalse then false else constIsTrue (C.base ref)

/-- Is `ref` the address of something on the frame? -/
def isFrameAddr (ref : ℤ) : Bool := (C.base ref).op = .alloca || (C.base ref).op = .vaddr

/-- `_ir_fold_condition`. -/
def foldCondition (ref : ℤ) : ℤ :=
  let insn := C.base ref
  if insn.op = .ne ∧ insn.op2 < 0 then
    if (C.base insn.op2).type.isInt ∧ (C.base insn.op2).val = 0 then
      if isFrameAddr C insn.op1 then irTrue else insn.op1
    else ref
  else if insn.op = .eq ∧ insn.op2 = irTrue then insn.op1
  else if insn.op = .eq ∧ insn.op2 = irNull then
    if isFrameAddr C insn.op1 then irFalse else ref
  else ref

/-- The body of the walk at `insn`: the result, or nothing if it goes on; `prev` is the instruction that
comes after `insn` on the chain. -/
def verdict (condition : ℤ) (insn : Insn) (prev : Option Insn) : Option ℤ :=
  if insn.op = .guardNot then if insn.op2 = condition then some irFalse else none
  else if insn.op = .guard then if insn.op2 = condition then some irTrue else none
  else if insn.op = .ifOp then
    if insn.op2 = condition then
      if prev.any (·.op = .ifTrue) then some irTrue
      else if prev.any (·.op = .ifFalse) then some irFalse
      else none
    else none
  else if insn.op = .start ∨ insn.op = .merge ∨ insn.op = .loopBegin then some condition
  else none

/-- `ir_check_dominating_predicates_i`. -/
def checkDominatingPredicates (condition limit : ℤ) : ℕ → ℕ → Option Insn → ℤ
  | 0, _, _ => condition
  | fuel + 1, ref, prev =>
    if (ref : ℤ) ≤ limit then condition
    else
      match verdict condition (C.base ref) prev with
      | some r => r
      | none => checkDominatingPredicates condition limit fuel (C.base ref).op1.toNat (some (C.base ref))

/-- The instructions that the walk looks at. -/
def walked (condition limit : ℤ) : ℕ → ℕ → Option Insn → List ℕ
  | 0, _, _ => []
  | fuel + 1, ref, prev =>
    if (ref : ℤ) ≤ limit then []
    else
      match verdict condition (C.base ref) prev with
      | some _ => [ref]
      | none => ref :: walked condition limit fuel (C.base ref).op1.toNat (some (C.base ref))

/-- The walk from `ctx->control`; a step goes to a smaller reference. -/
def dominated (condition : ℤ) : ℤ :=
  checkDominatingPredicates C condition condition (C.control + 1) C.control none

/-- `ir_check_dominating_predicates` at `ctx->control`. -/
def dominatedFrom (condition : ℤ) : ℤ :=
  checkDominatingPredicates C condition (if condition < C.control then condition else 1) (C.control + 1) C.control
    none

/-- What the walk from `ctx->control` looks at. -/
def lookedAt (condition : ℤ) : List ℕ := walked C condition condition (C.control + 1) C.control none

/-- The condition of the `IF` that `_ir_IF` emits. -/
def ifCondition (condition : ℤ) : ℤ :=
  let condition := foldCondition C condition
  if condition < 0 then if refIsTrue C condition then irTrue else irFalse
  else dominated C condition

/-- The condition of the `GUARD` that `_ir_GUARD` emits, if it does. -/
def guardCondition (condition : ℤ) : Option ℤ :=
  if condition < 0 then if refIsTrue C condition then none else some irFalse
  else if dominated C condition = irTrue then none else some (dominated C condition)

/-- The condition of the `GUARD_NOT` that `_ir_GUARD_NOT` emits, if it does. -/
def guardNotCondition (condition : ℤ) : Option ℤ :=
  if condition < 0 then if refIsTrue C condition then some irTrue else none
  else if dominated C condition = irFalse then none else some (dominated C condition)

end Conditions

/-! ## The builder -/

section Calls

variable (C : Ctx)

/-- An instruction with up to three operands. -/
def node (op : IrOp) (type : IrType) (op1 op2 op3 : ℤ) : Insn := ⟨op, type, op1, op2, op3, 0, 0⟩

/-- `ir_emit`, and `ir_emit_N` with `extra` more places for operands. -/
def emit (extra : ℕ) (insn : Insn) : Ctx :=
  { C with
    base := fun r =>
      if r = C.insnsCount then insn
      else if (C.insnsCount : ℤ) < r ∧ r ≤ C.insnsCount + extra then node .nop .void 0 0 0
      else C.base r
    insnsCount := C.insnsCount + 1 + extra }

/-- The start of a block. -/
def block (op : IrOp) (op1 op2 op3 : ℤ) (extra : ℕ) : Ctx :=
  { emit C extra (node op .void op1 op2 op3) with control := C.insnsCount }

/-- A control instruction within a block: a guard, a call, a load, a store, … -/
def effect (op : IrOp) (type : IrType) (op2 op3 : ℤ) (extra : ℕ) : Ctx :=
  { emit C extra (node op type C.control op2 op3) with control := C.insnsCount }

/-- The end of a block: `END`, `LOOP_END`, `IF`, `SWITCH`, `IGOTO`. -/
def endBlock (op : IrOp) (op2 op3 : ℤ) : Ctx :=
  { emit C 0 (node op .void C.control op2 op3) with control := 0 }

/-- `RETURN`, `UNREACHABLE`, `IJMP`: linked with the ones before through `op1` of `START`. -/
def terminate (op : IrOp) (op2 : ℤ) : Ctx :=
  let D := emit C 0 (node op .void C.control op2 (C.base 1).op1)
  { D with base := Function.update D.base 1 { D.base 1 with op1 := C.insnsCount }, control := 0 }

/-- `_ir_START`. -/
def irStart : Ctx := block C .start 0 0 0 0

/-- `_ir_ENTRY`. -/
def irEntry (src num : ℤ) : Ctx := block C .entry src num 0 0

/-- `_ir_BEGIN`. -/
def irBegin (src : ℕ) : Ctx :=
  if src ≠ 0 ∧ src + 1 = C.insnsCount ∧ (C.base src).op = .endOp then
    -- "merge with the last END"
    { C with control := (C.base src).op1.toNat, insnsCount := C.insnsCount - 1 }
  else block C .beginOp src 0 0 0

/-- `_ir_IF`. -/
def irIf (condition : ℤ) : Ctx := endBlock C .ifOp (ifCondition C condition) 0

/-- `_ir_GUARD`; `snapshot` is what `ctx->snapshot_create` does. -/
def irGuard (snapshot : Ctx → Ctx) (condition addr : ℤ) : Ctx :=
  match guardCondition C condition with
  | none => C
  | some r => effect (snapshot C) .guard .void r addr 0

/-- `_ir_GUARD_NOT`. -/
def irGuardNot (snapshot : Ctx → Ctx) (condition addr : ℤ) : Ctx :=
  match guardNotCondition C condition with
  | none => C
  | some r => effect (snapshot C) .guardNot .void r addr 0

/-- The control instructions within a block that are no guards. -/
def isEffect (op : IrOp) : Bool :=
  match op.cls with
  | .call | .load | .store | .alloc => true
  | _ => false

/-- A dead store leaves the chain: `next` follows it, or it is `ctx->control`. -/
def dropStore (ref : ℕ) (next : Option ℕ) : Ctx :=
  match next with
  | none =>
    { C with
      base := Function.update C.base ref (node .nop .void 0 0 0)
      control := (C.base ref).op1.toNat }
  | some n =>
    { C with
      base := Function.update (Function.update C.base n { C.base n with op1 := (C.base ref).op1 }) ref
        (node .nop .void 0 0 0) }

/-- Blocks whose `op1` is set later, and `START`, whose `op1` is the list of the ends of the function. -/
def isJoin (op : IrOp) : Bool := op = .start || op = .merge || op = .loopBegin

/-- Does the instruction follow the one that its `op1` names? -/
def follows (op : IrOp) : Bool := op.isControl && !isJoin op

/-- Does the instruction test its `op2`? -/
def tests (op : IrOp) : Bool := op = .guard || op = .guardNot || op = .ifOp

/-- A reference to an instruction. -/
def IsRef (ref : ℕ) : Prop := 0 < ref ∧ ref < C.insnsCount

end Calls

/-- The contexts that the builder makes, as its assertions allow. -/
inductive Built : Ctx → Prop
  | start {C : Ctx} : C.insnsCount = 1 → (C.base 0).op = .nop →
    (∀ r < 0, (C.base r).op.isConstOp = true ∨ (C.base r).op.isSymConst = true) → Built (irStart C)
  | data {C : Ctx} {extra : ℕ} {insn : Insn} : Built C → insn.op.isControl = false → insn.op1 < C.insnsCount →
    Built (emit C extra insn)
  | effect {C : Ctx} {op : IrOp} {type : IrType} {op2 op3 : ℤ} {extra : ℕ} : Built C → C.control ≠ 0 →
    isEffect op = true → Built (effect C op type op2 op3 extra)
  | guard {C : Ctx} {snapshot : Ctx → Ctx} {condition addr : ℤ} : Built C → C.control ≠ 0 →
    Built (snapshot C) → (snapshot C).control ≠ 0 → condition < (snapshot C).insnsCount →
    Built (irGuard C snapshot condition addr)
  | guardNot {C : Ctx} {snapshot : Ctx → Ctx} {condition addr : ℤ} : Built C → C.control ≠ 0 →
    Built (snapshot C) → (snapshot C).control ≠ 0 → condition < (snapshot C).insnsCount →
    Built (irGuardNot C snapshot condition addr)
  | ifOp {C : Ctx} {condition : ℤ} : Built C → C.control ≠ 0 → condition < C.insnsCount → Built (irIf C condition)
  | endBlock {C : Ctx} {op : IrOp} {op2 op3 : ℤ} : Built C → C.control ≠ 0 → op.cls = .bbEnd → op ≠ .ifOp →
    Built (endBlock C op op2 op3)
  | terminate {C : Ctx} {op : IrOp} {op2 : ℤ} : Built C → C.control ≠ 0 → op.cls = .terminator →
    Built (terminate C op op2)
  | begin {C : Ctx} {src : ℕ} : Built C →
    (src = 0 ∨ IsRef C src ∧ (C.base src).op.cls = .bbEnd ∧ (C.base src).op ≠ .ifOp) → Built (irBegin C src)
  | entry {C : Ctx} {src : ℕ} {num : ℤ} : Built C → IsRef C src →
    ((C.base src).op.cls = .terminator ∨ (C.base src).op = .endOp ∨ (C.base src).op = .loopEnd) →
    Built (irEntry C src num)
  | ifProj {C : Ctx} {op : IrOp} {ifRef : ℕ} {prb : ℤ} : Built C → IsRef C ifRef →
    (C.base ifRef).op = .ifOp → (op = .ifTrue ∨ op = .ifFalse) → Built (block C op ifRef prb 0 0)
  | caseProj {C : Ctx} {op : IrOp} {switchRef : ℕ} {op2 op3 : ℤ} : Built C → IsRef C switchRef →
    (C.base switchRef).op = .switch → (op = .caseVal ∨ op = .caseRange ∨ op = .caseDefault) →
    Built (block C op switchRef op2 op3 0)
  | join {C : Ctx} {op : IrOp} {op1 op2 op3 : ℤ} {extra : ℕ} : Built C → (op = .merge ∨ op = .loopBegin) →
    Built (block C op op1 op2 op3 extra)
  | setOps {C : Ctx} {ref : ℕ} {op2 op3 : ℤ} : Built C → IsRef C ref → tests (C.base ref).op = false →
    Built { C with base := Function.update C.base ref { C.base ref with op2 := op2, op3 := op3 } }
  | setJoin {C : Ctx} {ref : ℕ} {op1 : ℤ} : Built C → IsRef C ref →
    ((C.base ref).op = .merge ∨ (C.base ref).op = .loopBegin) →
    Built { C with base := Function.update C.base ref { C.base ref with op1 := op1 } }
  | dropLast {C : Ctx} {ref : ℕ} : Built C → IsRef C ref → (C.base ref).op.cls = .store → C.control = ref →
    Built (dropStore C ref none)
  | dropBefore {C : Ctx} {ref n : ℕ} : Built C → IsRef C ref → (C.base ref).op.cls = .store →
    C.control ≠ ref → IsRef C n → follows (C.base n).op = true → (C.base n).op1 = ref → Built (dropStore C ref (some n))

end IrJit.Predicates
