import IrJit.Dessa.ParallelCopy
import IrJit.Fold.Engine
import IrJit.X86.Machine

/-!
# X86.Pwr2 — multiplication, division and remainder by a power of two (`ir_x86.dasc`)

The rules `IR_MUL_PWR2`, `IR_DIV_PWR2`, `IR_MOD_PWR2`, `IR_SDIV_PWR2` and `IR_SMOD_PWR2` of
`ir_match_insn`, the in-memory forms of the first three, and the instructions that
`ir_emit_mul_div_mod_pwr2`, `ir_emit_sdiv_pwr2`, `ir_emit_smod_pwr2` and
`ir_emit_mem_mul_div_mod_pwr2` emit on x86-64 in a release build.

The width `w` of a type is `8 * ir_type_size[type]`.  Where the first operand has no register it is in
its spill slot: the matcher gives none of the rules to a constant operand.
-/

namespace IrJit.X86

open Dessa (isSigned32)

inductive PwrRule
  | mul | div | mod | sdiv | smod
  deriving DecidableEq, Repr

/-- `ir_match_insn` for `IR_MUL`, `IR_DIV` and `IR_MOD` by a constant that is no symbol: `none` stands
for a rule of another kind. -/
def matchPwr2 (op : IrOp) (type : IrType) (c : Word) : Option PwrRule :=
  match op with
  | .mul =>
    if c = 0 ∨ c = 1 then none
    -- `IR_LEA_SI` and `IR_LEA_SIB`
    else if 4 ≤ type.size ∧ (c = 2 ∨ c = 4 ∨ c = 8) then none
    else if 4 ≤ type.size ∧ (c = 3 ∨ c = 5 ∨ c = 9) then none
    else if Fold.isPowerOfTwo c then some .mul else none
  | .div =>
    if c = 1 then none
    else if Fold.isPowerOfTwo c then some (if type.isSigned then .sdiv else .div) else none
  | .mod => if Fold.isPowerOfTwo c then some (if type.isSigned then .smod else .mod) else none
  | _ => none

/-- `ir_match_insn` for a store of the result over its own operand. -/
def PwrRule.hasMemForm : PwrRule → Bool
  | mul | div | mod => true
  | sdiv | smod => false

/-- `IR_LOG2`. -/
def log2 (c : Word) : ℕ := (Fold.log2 c).toNat

/-- The test of `ir_get_target_constraints` for a register that holds the mask or the offset. -/
def needsOp2 (type : IrType) (c : Word) : Bool := type.size == 8 && !isSigned32 (c - 1)

/-- The registers and spill slots of an instruction, as the allocator has chosen them. -/
structure PwrRegs where
  defReg : ℕ
  /-- the spill slot of the result, when it is stored -/
  defSlot : Option ℕ
  op1Reg : Option ℕ
  op1Spilled : Bool
  op1Slot : ℕ
  op2Reg : Option ℕ
  tmpReg : ℕ

/-- `ir_emit_load_imm_int`. -/
def emitLoadImmInt (w reg : ℕ) (val : Word) : Instr :=
  if val = 0 then .alu .xor w reg reg
  else if w = 64 then
    if val.toNat ≤ 0xffffffff then .movImm 32 reg val
    else if isSigned32 val then .movSx reg (val.setWidth 32)
    else .movImm 64 reg val
  else .movImm w reg val

namespace PwrRegs

variable (r : PwrRegs) (w : ℕ)

/-- The reload of a spilled operand. -/
def loadOp1 : List Instr :=
  match r.op1Reg with
  | some x => if r.op1Spilled then [.load w x r.op1Slot] else []
  | none => []

/-- The operand in the register of the result. -/
def moveOp1 : List Instr :=
  match r.op1Reg with
  | some x => if r.defReg ≠ x then [.mov w r.defReg x] else []
  | none => [.load w r.defReg r.op1Slot]

def storeDef : List Instr :=
  match r.defSlot with
  | some m => [.store w m r.defReg]
  | none => []

/-- `and` with the mask, from a register when it does not fit an immediate. -/
def andMask (mask : Word) : List Instr :=
  match r.op2Reg with
  | some y =>
    if w = 64 then [emitLoadImmInt w y mask, .alu .and w r.defReg y]
    else [.aluImm .and w r.defReg (mask.setWidth 32)]
  | none => [.aluImm .and w r.defReg (mask.setWidth 32)]

/-- `ir_emit_mul_div_mod_pwr2`. -/
def emitMulDivModPwr2 (op : IrOp) (c : Word) : List Instr :=
  r.loadOp1 w ++ r.moveOp1 w ++
  (match op with
    | .mul =>
      let shift := log2 c
      if shift = 1 then [.alu .add w r.defReg r.defReg] else [.shift .shl w r.defReg shift]
    | .div => [.shift .shr w r.defReg (log2 c)]
    | _ => r.andMask w (c - 1)) ++
  r.storeDef w

/-- `lea` of the operand and the offset. -/
def leaOffset (op1Reg : ℕ) (offset : Word) : List Instr :=
  if w = 64 then
    match r.op2Reg with
    | some y => [emitLoadImmInt w y offset, .leaIndex 64 r.defReg op1Reg y]
    | none => [.leaDisp 64 r.defReg op1Reg (offset.setWidth 32)]
  else [.leaDisp 32 r.defReg op1Reg (offset.setWidth 32)]

/-- `ir_emit_sdiv_pwr2`: the first operand is in a register. -/
def emitSdivPwr2 (c : Word) : List Instr :=
  let shift := log2 c
  let offset := c - 1
  let op1Reg := r.op1Reg.getD 0
  r.loadOp1 w ++
  (if shift = 1 then
    let wide := if w = 64 then 64 else 32
    [.mov wide r.defReg op1Reg, .shift .shr w r.defReg (w - 1), .alu .add wide r.defReg op1Reg]
  else
    r.leaOffset w op1Reg offset ++
    -- `ASM_REG_REG_OP2`: there is no conditional move of a byte
    [.test w op1Reg op1Reg, .cmovns (if w = 8 then 16 else w) r.defReg op1Reg]) ++
  [.shift .sar w r.defReg shift] ++ r.storeDef w

/-- `ir_emit_smod_pwr2`. -/
def emitSmodPwr2 (c : Word) : List Instr :=
  let shift := log2 c
  r.loadOp1 w ++ r.moveOp1 w ++
  (if r.op1Reg = some r.tmpReg then [] else [.mov w r.tmpReg r.defReg]) ++
  (if shift = 1 then [.shift .shr w r.tmpReg (w - 1)]
    else [.shift .sar w r.tmpReg (w - 1), .shift .shr w r.tmpReg (w - shift)]) ++
  [.alu .add w r.defReg r.tmpReg] ++ r.andMask w (c - 1) ++ [.alu .sub w r.defReg r.tmpReg] ++ r.storeDef w

end PwrRegs

/-- `ir_emit_mem_mul_div_mod_pwr2`. -/
def emitMemMulDivModPwr2 (op : IrOp) (w m : ℕ) (c : Word) : List Instr :=
  match op with
  | .mul => [.shiftMem .shl w m (log2 c)]
  | .div => [.shiftMem .shr w m (log2 c)]
  | _ => [.aluMem .and w m ((c - 1).setWidth 32)]

/-- Where the operation works: on registers, or on the memory cell of a store. -/
inductive PwrForm
  | regs (r : PwrRegs)
  | mem (m : ℕ)

/-- The code of a rule. -/
def emitPwr2 (op : IrOp) (rule : PwrRule) (w : ℕ) (c : Word) : PwrForm → List Instr
  | .mem m => emitMemMulDivModPwr2 op w m c
  | .regs r =>
    match rule with
    | .sdiv => r.emitSdivPwr2 w c
    | .smod => r.emitSmodPwr2 w c
    | _ => r.emitMulDivModPwr2 w op c

/-- The value of the first operand. -/
def PwrForm.operand (s : State) (w : ℕ) : PwrForm → BitVec w
  | mem m => s.load w m
  | regs r =>
    match r.op1Reg with
    | some x => if r.op1Spilled then s.load w r.op1Slot else s.get w x
    | none => s.load w r.op1Slot

/-- The place of the result holds `y`: the cell, or the register and, if there is one, its spill slot. -/
def PwrForm.Yields (s : State) (w : ℕ) (y : BitVec w) : PwrForm → Prop
  | mem m => s.load w m = y
  | regs r => s.get w r.defReg = y ∧ ∀ m, r.defSlot = some m → s.load w m = y

/-- The meaning of the operation at the type: C's truncating division for signed types. -/
def pwrValue (op : IrOp) (signed : Bool) {w : ℕ} (x c : BitVec w) : BitVec w :=
  match op with
  | .mul => x * c
  | .div => if signed then x.sdiv c else x / c
  | _ => if signed then x.srem c else x % c

end IrJit.X86
