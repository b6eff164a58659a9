import Mathlib.Data.BitVec
import Mathlib.Data.Int.Basic
import IrJit.Core.Ops
import IrJit.Core.Types

/-!
# Mem.Insns — the context that the alias walks read, and alias analysis (`ir.c`)

References are integers: instructions are positive, constants negative.  `control` is the last control
instruction; the field `op1` of a control instruction is the one before it.
-/

namespace IrJit.Mem

/-- `ir_insn`, for instructions and constants. -/
structure Insn where
  op : IrOp
  type : IrType
  op1 : ℤ
  op2 : ℤ
  op3 : ℤ
  /-- `val.addr` of a constant. -/
  val : BitVec 64
  /-- `proto` of a function constant. -/
  proto : ℤ

/-- The parts of `ir_ctx` that construction uses; `pureProto` tells of a prototype string whether it has
`IR_CONST_FUNC` or `IR_PURE_FUNC`. -/
structure Ctx where
  base : ℤ → Insn
  insnsCount : ℕ
  control : ℕ
  pureProto : ℤ → Bool

namespace Ctx

variable (C : Ctx)

/-- Is `ref` a constant with a value of its own? -/
def isNumConst (ref : ℤ) : Bool := ref < 0 && !(C.base ref).op.isSymConst

section Decompose

/-- Are the operands of an address `ADD` swapped before it is taken apart? -/
def swapsAdd (op1 op2 : ℤ) : Bool :=
  ((C.base op2).type = .addr && (C.base op1).type ≠ .addr)
    || (C.base op2).op = .sym || (C.base op2).op = .alloca || (C.base op2).op = .vaddr

/-- The first loop of `ir_decompose_addr`: `(addr, idx, off)`, and whether it was left by `goto exit`. -/
def decomposeBase : ℕ → ℤ → ℤ → BitVec 64 → (ℤ × ℤ × BitVec 64) × Bool
  | 0, addr, idx, off => ((addr, idx, off), true)
  | fuel + 1, addr, idx, off =>
    let insn := C.base addr
    if insn.op = .add then
      let (op1, op2) :=
        if C.swapsAdd insn.op1 insn.op2 then (insn.op2, insn.op1) else (insn.op1, insn.op2)
      if C.isNumConst op2 then decomposeBase fuel op1 idx (off + (C.base op2).val)
      else if idx = 0 then decomposeBase fuel op1 op2 off
      else ((addr, idx, off), true)
    else if insn.op = .sub ∧ C.isNumConst insn.op2 then
      decomposeBase fuel insn.op1 idx (off - (C.base insn.op2).val)
    else ((addr, idx, off), false)

/-- The second loop of `ir_decompose_addr`, over the index: `(idx, off)`. -/
def decomposeIndex : ℕ → ℤ → BitVec 64 → ℤ × BitVec 64
  | 0, idx, off => (idx, off)
  | fuel + 1, idx, off =>
    let insn := C.base idx
    if insn.op = .add ∧ C.isNumConst insn.op2 then
      decomposeIndex fuel insn.op1 (off + (C.base insn.op2).val)
    else if insn.op = .sub ∧ C.isNumConst insn.op2 then
      decomposeIndex fuel insn.op1 (off - (C.base insn.op2).val)
    else (idx, off)

/-- `ir_decompose_addr`: base, index and offset.  Operands come before their instruction, so
`insnsCount` rounds are enough. -/
def decomposeAddr (addr : ℤ) : ℤ × ℤ × BitVec 64 :=
  let ((base, idx, off), exit) := C.decomposeBase C.insnsCount addr 0 0
  if idx ≠ 0 ∧ exit = false then
    let (idx, off) := C.decomposeIndex C.insnsCount idx off
    (base, idx, off)
  else (base, idx, off)

/-- `ir_get_base_addr`; the result is a reference. -/
def getBaseAddr : ℕ → ℤ → ℤ
  | 0, ref => ref
  | fuel + 1, ref =>
    let insn := C.base ref
    if insn.op = .add then
      let op2 := (C.base insn.op2).op
      if op2 = .sym ∨ op2 = .alloca ∨ op2 = .vaddr then insn.op2
      else if (C.base insn.op2).type = .addr ∧ (C.base insn.op1).type ≠ .addr then
        getBaseAddr fuel insn.op2
      else getBaseAddr fuel insn.op1
    else if insn.op = .sub then getBaseAddr fuel insn.op1
    else ref

end Decompose

/-- `ir_alias`. -/
inductive Alias
  | may | no | must
  deriving DecidableEq

/-- Do the two kinds of base address lie in different areas of memory? -/
def differentAreas (op1 op2 : IrOp) : Bool :=
  (op1 = .alloca && (op2 = .alloca || op2 = .vaddr || op2 = .sym || op2 = .param))
    || (op1 = .vaddr && (op2 = .alloca || op2 = .vaddr || op2 = .sym || op2 = .param))
    || (op1 = .sym && (op2 = .alloca || op2 = .vaddr || op2 = .sym))
    || (op1 = .param && (op2 = .alloca || op2 = .vaddr))

/-- `ir_check_aliasing`. -/
def checkAliasing (addr1 addr2 : ℤ) (type1 type2 : IrType) : Alias :=
  let (base1, index1, offset1) := C.decomposeAddr addr1
  let (base2, index2, offset2) := C.decomposeAddr addr2
  if base1 = base2 then
    if index1 ≠ index2 then .may
    else if offset1 = offset2 then .must
    else if offset1.toInt < offset2.toInt then
      if offset1.toInt + type1.size ≤ offset2.toInt then .no else .must
    else if offset2.toInt + type2.size ≤ offset1.toInt then .no else .must
  else
    let insn1 := C.getBaseAddr C.insnsCount base1
    let insn2 := C.getBaseAddr C.insnsCount base2
    if insn1 = insn2 ∨ (C.base insn1).type ≠ .addr ∨ (C.base insn2).type ≠ .addr then .may
    else if differentAreas (C.base insn1).op (C.base insn2).op then .no
    else .may

/-- Does the prototype of the called function say that it writes no memory? -/
def isPureCall (insn : Insn) : Bool :=
  let func := C.base insn.op2
  let proto :=
    if func.op = .func ∨ func.op = .funcAddr then func.proto
    else if func.op = .proto then func.op2
    else 0
  proto ≠ 0 && C.pureProto proto

end Ctx

end IrJit.Mem
