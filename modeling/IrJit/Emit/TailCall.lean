import Mathlib.Logic.Function.Basic
import Mathlib.Algebra.Order.Ring.Int
import IrJit.X86.Arguments

/-!
# Emit.TailCall — `ir_match_tailcalls` (`ir_emit.c`), on x86-64

A CALL that is followed by a RETURN of its result, or of nothing, becomes a jump.  References of constants are
negative.

* `builtinRule` is what `ir_match_builtin_call` answers for a function.
* The rules of the operand `op2` of the call, which say how the address of the callee is loaded, are left out.
* The list of terminators runs through `op3`; the loop carries a fuel.
-/

namespace IrJit.Emit

open X86

inductive Op
  | start | param | vaddr | alloca | argval | load | store | vload | vstore | call | ret | func | funcAddr | proto
  /-- an instruction that computes a value from its operands -/
  | data
  /-- a constant, a declaration of a variable, a control instruction -/
  | other
  deriving DecidableEq, Repr

/-- `inputs` are the operands from the third on of a CALL, and all operands of a computation.  `proto` is the
prototype of a function or of a PROTO, 0 without one. -/
structure Insn where
  op : Op
  type : IrType
  op1 : ℤ
  op2 : ℤ
  op3 : ℤ
  inputs : List ℤ
  proto : ℕ

structure Ctx where
  irBase : ℤ → Insn
  /-- `flags & IR_CALL_CONV_MASK` -/
  conv : ℕ
  /-- the same of a prototype -/
  protoConv : ℕ → ℕ
  callConvDefault : CallConvDsc
  builtinRule : ℤ → Option ℕ
  /-- the use list of START -/
  startUses : List ℤ
  /-- size and alignment, by the number of the parameter -/
  valueParams : Option (ℤ → ℕ × ℕ)

inductive Rule
  | builtin (rule : ℕ)
  | tailcall
  /-- `IR_SKIPPED | IR_NOP` -/
  | skipped
  deriving DecidableEq, Repr

abbrev Rules := ℤ → Option Rule

namespace Ctx

variable (c : Ctx)

def isConstRef (ref : ℤ) : Bool := ref < 0

/-- `ir_get_call_conv_dsc`. -/
def getCallConvDsc (flags : ℕ) : CallConvDsc :=
  match flags with
  | 3 => preserveNoneDsc
  | 8 => sysvDsc
  | 9 => msDsc
  | _ => c.callConvDefault

/-- What `ir_call_used_stack` reads of an argument. -/
def arg (ref : ℤ) : Arg where
  type := (c.irBase ref).type
  argval :=
    if (c.irBase ref).op = .argval ∧ (c.irBase ref).type = .addr then
      some ((c.irBase ref).op2.toNat, (c.irBase ref).op3.toNat)
    else none
  isConst := isConstRef ref
  reg := none
  spilled := false
  addr := by
    split_ifs with h
    · exact fun _ => h.2
    · simp

/-- The structure that a PARAM stands for, passed by value. -/
def valueParam (ref : ℤ) : Option (ℕ × ℕ) :=
  match c.valueParams with
  | none => none
  | some value =>
    if (value ((c.irBase ref).op3 - 1)).2 ≠ 0 then some (value ((c.irBase ref).op3 - 1)) else none

/-- One round of `ir_calc_args_stack`. -/
def argsStackStep (cc : CallConvDsc) (s : Counters) (use : ℤ) : Counters :=
  if (c.irBase use).op = .param then
    if (c.irBase use).type.isInt then
      match c.valueParam use with
      | some (size, align) => s.pushStruct size align
      | none =>
        let s' := if s.intParam < cc.intParamRegs.length then s else s.push 8
        s'.nextInt cc
    else
      let s' := if s.fpParam < cc.fpParamRegs.length then s else s.push 8
      s'.nextFp cc
  else s

/-- `ir_calc_args_stack`. -/
def calcArgsStack : ℕ := (c.startUses.foldl (c.argsStackStep (c.getCallConvDsc c.conv)) ⟨0, 0, 0⟩).stackOffset

/-- `ir_may_be_local_addr`. -/
def mayBeLocalAddr (ref : ℤ) : Bool := (c.irBase ref).op ≠ .param

/-- The loop over the arguments finds one that may be the address of a local variable. -/
def passesLocalAddr (insn : Insn) : Bool :=
  insn.inputs.any fun input =>
    !isConstRef input && (c.irBase input).type = .addr && c.mayBeLocalAddr input

/-- The bytes of arguments on the stack. -/
def paramsStackSize (insn : Insn) (proto : ℕ) : ℕ :=
  let cc := c.getCallConvDsc (c.protoConv proto)
  let size := callUsedStack cc (insn.inputs.map c.arg)
  if cc.shadowStoreSize ≠ 0 ∧ size = cc.shadowStoreSize then 0 else size

/-- The reference of the prototype, 0 without one. -/
def protoRef (insn : Insn) : ℕ :=
  if isConstRef insn.op2 then
    if (c.irBase insn.op2).op = .func ∨ (c.irBase insn.op2).op = .funcAddr then (c.irBase insn.op2).proto else 0
  else if (c.irBase insn.op2).op = .proto then (c.irBase insn.op2).proto
  else 0

/-- The rule of a builtin that is called. -/
def builtinCall (insn : Insn) : Option ℕ :=
  if isConstRef insn.op2 ∧ (c.irBase insn.op2).op = .func ∧ (c.irBase insn.op2).proto ≠ 0 then c.builtinRule insn.op2
  else none

/-- `ir_try_tailcall`. -/
def tryTailcall (rules : Rules) (ref : ℤ) : Bool × Rules :=
  let insn := c.irBase ref
  match c.builtinCall insn with
  | some rule => (false, Function.update rules ref (some (.builtin rule)))
  | none =>
    let proto := c.protoRef insn
    if proto = 0 ∨ c.protoConv proto ≠ c.conv ∨ c.paramsStackSize insn proto ≠ 0 ∨ c.passesLocalAddr insn then
      (false, rules)
    else (true, Function.update rules ref (some .tailcall))

/-- A RETURN of the CALL before it. -/
def returnsCall (insn : Insn) : Bool :=
  insn.op = .ret && (insn.op1 = insn.op2 || insn.op2 = 0) && (c.irBase insn.op1).op = .call

/-- The loop over the terminators. -/
def matchTailcallsFrom : ℕ → ℤ → Rules → Option Rules
  | 0, _, _ => none
  | fuel + 1, ref, rules =>
    if ref = 0 then some rules
    else
      let insn := c.irBase ref
      if c.returnsCall insn then
        if c.calcArgsStack ≠ 0 then some rules
        else
          match c.tryTailcall rules insn.op1 with
          | (true, rules') => matchTailcallsFrom fuel insn.op3 (Function.update rules' ref (some .skipped))
          | (false, rules') => matchTailcallsFrom fuel insn.op3 rules'
      else matchTailcallsFrom fuel insn.op3 rules

/-- `ir_match_tailcalls`. -/
def matchTailcalls (fuel : ℕ) : Option Rules := c.matchTailcallsFrom fuel (c.irBase 1).op1 fun _ => none

end Ctx

end IrJit.Emit
