import IrJit.Core.Ops
import IrJit.Core.Types
import IrJit.X86.Machine

/-!
# X86.BitCount — leading zeros, trailing zeros and set bits (`ir_x86.dasc`)

The rules `IR_BIT_COUNT` and `IR_CTPOP` of `ir_match_insn` with their constraints, and the instructions that
`ir_emit_bit_count` and `ir_emit_ctpop` emit on x86-64.  Where an `IR_ASSERT` fails there is no code.
-/

namespace IrJit.X86

inductive BitRule
  | bitCount | ctpop
  deriving DecidableEq, Repr

/-- `ir_match_insn` for `IR_CTLZ`, `IR_CTTZ` and `IR_CTPOP`; `bmi1` is the flag `IR_X86_BMI1`. -/
def matchBitCount (op : IrOp) (bmi1 : Bool) : Option BitRule :=
  match op with
  | .ctlz | .cttz => some .bitCount
  | .ctpop => some (if bmi1 then .bitCount else .ctpop)
  | _ => none

/-- `IR_OP1_MUST_BE_IN_REG` of `ir_get_target_constraints`. -/
def BitRule.op1MustBeInReg (rule : BitRule) (type : IrType) : Bool :=
  match rule with
  | bitCount => type.size == 1
  | ctpop => false

/-- Where the operand is: in a register, to be reloaded into one, in its spill slot, or a load that
`ir_match_fuse_load` has fused. -/
inductive Place
  | reg (x : ℕ)
  | reload (x m : ℕ)
  | slot (m : ℕ)
  | fused (m : ℕ)
  deriving DecidableEq, Repr

/-- The operand, at `w` bits. -/
def Place.value (s : State) (w : ℕ) : Place → BitVec w
  | reg x => s.get w x
  | reload _ m => s.load w m
  | slot m => s.load w m
  | fused m => s.load w m

/-- The registers of the result and of the temporaries, and the spill slot of a result that is stored. -/
structure BitRegs where
  defReg : ℕ
  defSlot : Option ℕ
  tmpReg : ℕ
  constReg : ℕ

namespace BitRegs

variable (r : BitRegs) (w : ℕ)

def storeDef : List Instr :=
  match r.defSlot with
  | some m => [.store w m r.defReg]
  | none => []

/-! ## `ir_emit_bit_count` -/

/-- The cases of 2, 4 and 8 bytes.  The number of the highest bit is turned with `last`, one less than the
width. -/
def countBits (op : IrOp) (bmi1 : Bool) (last : BitVec 32) (src : Operand) : List Instr :=
  match op with
  | .ctlz =>
    if bmi1 then [.bits .lzcnt w r.defReg src]
    else [.bits .bsr w r.defReg src, .aluImm .xor 16 r.defReg last]
  | .cttz => if bmi1 then [.bits .tzcnt w r.defReg src] else [.bits .bsf w r.defReg src]
  | _ => [.bits .popcnt w r.defReg src]

/-- The case of one byte: the zero-extended operand is counted at 32 bits. -/
def countByte (op : IrOp) (bmi1 : Bool) (x : ℕ) : List Instr :=
  .movzx 8 x x ::
  (match op with
    | .ctlz =>
      if bmi1 then [.bits .lzcnt 32 r.defReg (.reg x), .aluImm .sub 32 r.defReg 24]
      else [.bits .bsr 32 r.defReg (.reg x), .aluImm .xor 16 r.defReg 7]
    | _ => r.countBits 32 op bmi1 31 (.reg x))

def countReg (op : IrOp) (type : IrType) (bmi1 : Bool) (x : ℕ) : Option (List Instr) :=
  match type.size with
  | 1 => some (r.countByte op bmi1 x)
  | 2 => some (r.countBits 16 op bmi1 15 (.reg x))
  | 4 => some (r.countBits 32 op bmi1 31 (.reg x))
  | 8 => some (r.countBits 64 op bmi1 63 (.reg x))
  | _ => none

/-- There is no case of one byte. -/
def countMem (op : IrOp) (type : IrType) (bmi1 : Bool) (m : ℕ) : Option (List Instr) :=
  match type.size with
  | 2 => some (r.countBits 16 op bmi1 15 (.mem m))
  | 4 => some (r.countBits 32 op bmi1 31 (.mem m))
  | 8 => some (r.countBits 64 op bmi1 63 (.mem m))
  | _ => none

/-- `ir_emit_bit_count`. -/
def emitBitCount (op : IrOp) (type : IrType) (bmi1 : Bool) (place : Place) : Option (List Instr) := do
  let w := 8 * type.size
  let code ← match place with
    | .reg x => r.countReg op type bmi1 x
    | .reload x m => (r.countReg op type bmi1 x).map (.load w x m :: ·)
    | .slot m => r.countMem op type bmi1 m
    | .fused m => r.countMem op type bmi1 m
  some (code ++ r.storeDef w)

/-! ## `ir_emit_ctpop` -/

/-- The three folds at 32 bits. -/
def foldBits (m1 m2 m3 : BitVec 32) : List Instr :=
  let d := r.defReg
  let t := r.tmpReg
  [.mov 32 t d, .shift .shr 32 d 1, .aluImm .and 32 d m1, .alu .sub 32 t d,
   .mov 32 d t, .aluImm .and 32 d m2, .shift .shr 32 t 2, .aluImm .and 32 t m2, .alu .add 32 t d,
   .mov 32 d t, .shift .shr 32 d 4, .alu .add 32 d t, .aluImm .and 32 d m3]

/-- The case of 8 bytes: the masks are loaded into a register. -/
def foldBits64 : List Instr :=
  let d := r.defReg
  let t := r.tmpReg
  let k := r.constReg
  [.mov 64 t d, .shift .shr 64 d 1, .movImm 64 k 0x5555555555555555, .alu .and 64 d k, .alu .sub 64 t d,
   .mov 64 d t, .movImm 64 k 0x3333333333333333, .alu .and 64 d k, .shift .shr 64 t 2, .alu .and 64 t k,
   .alu .add 64 t d,
   .mov 64 d t, .shift .shr 64 d 4, .alu .add 64 d t, .movImm 64 k 0x0f0f0f0f0f0f0f0f, .alu .and 64 d k,
   .movImm 64 k 0x0101010101010101, .alu .imul 64 d k, .shift .shr 64 d 56]

/-- The count of the bits of `def_reg`. -/
def sumBits (type : IrType) : Option (List Instr) :=
  let d := r.defReg
  let t := r.tmpReg
  match type.size with
  | 1 => some (r.foldBits 0x55 0x33 0x0f)
  | 2 => some (r.foldBits 0x5555 0x3333 0x0f0f
      ++ [.mov 32 t d, .shift .shr 32 t 8, .aluImm .and 32 d 0x0f, .alu .add 32 d t])
  | 4 => some (r.foldBits 0x55555555 0x33333333 0x0f0f0f0f
      ++ [.aluImm .imul 32 d 0x01010101, .shift .shr 32 d 24])
  | 8 => some r.foldBits64
  | _ => none

/-- The operand in `def_reg`, zero-extended. -/
def moveZx (type : IrType) (x : ℕ) : Option (List Instr) :=
  match type.size with
  | 1 => some [.movzx 8 r.defReg x]
  | 2 => some [.movzx 16 r.defReg x]
  | 4 => some [.mov 32 r.defReg x]
  | 8 => some [.mov 64 r.defReg x]
  | _ => none

/-- `ir_emit_ctpop`.  `ir_emit_load` asserts that an operand without a virtual register is a local address; a
fused load has none. -/
def emitCtpop (type : IrType) (place : Place) : Option (List Instr) := do
  let w := 8 * type.size
  let operand ← match place with
    | .reg x => r.moveZx type x
    | .reload x m => (r.moveZx type x).map (.load w x m :: ·)
    | .slot m =>
      some (.load w r.defReg m ::
        (if type.size = 1 then [.movzx 8 r.defReg r.defReg]
        else if type.size = 2 then [.movzx 16 r.defReg r.defReg] else []))
    | .fused _ => none
  let count ← r.sumBits type
  some (operand ++ count ++ r.storeDef w)

/-- The code of an instruction. -/
def emit (op : IrOp) (type : IrType) (bmi1 : Bool) (place : Place) : Option (List Instr) :=
  match matchBitCount op bmi1 with
  | some .bitCount => r.emitBitCount op type bmi1 place
  | some .ctpop => r.emitCtpop type place
  | none => none

end BitRegs

end IrJit.X86
