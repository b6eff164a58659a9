import Mathlib.Data.BitVec
import IrJit.Core.Types

/-!
# X86.Switch — `ir_emit_switch` (`ir_x86.dasc`), on x86-64

The operand is in the register `op2`, whose bytes above the type are arbitrary; `tmp` is the temporary.  A block
stands for its label.  Constants are kept as `val.i64`.

* A compare sequence runs through the successors; the local label `1` ends the code of a case.
* The jump table has `max - min + 1` entries of eight bytes.  It is addressed by an absolute displacement when the
  code buffer is in the low or high 2 GB, and through `lea` otherwise.
* An immediate or a displacement is the low half of the C expression, sign-extended by the instruction.
-/

namespace IrJit.X86.Switch

abbrev Word := BitVec 64

/-! ## The instruction -/

/-- The instruction that starts a successor of the SWITCH. -/
inductive CaseInsn
  | caseVal (val : Word)
  | caseRange (val val2 : Word)
  | caseDefault
  deriving DecidableEq, Repr

def CaseInsn.isVal : CaseInsn → Bool
  | caseVal _ => true
  | _ => false

def CaseInsn.isRange : CaseInsn → Bool
  | caseRange _ _ => true
  | _ => false

structure Successor where
  insn : CaseInsn
  block : ℕ
  deriving DecidableEq, Repr

/-- A SWITCH: the type of `op2`, and the successors in the order of `cfg_edges`. -/
structure SwitchInsn where
  type : IrType
  successors : List Successor

structure CodeBuffer where
  start : Word
  stop : Word

/-- Where the code and its table go. -/
structure Site where
  codeBuffer : Option CodeBuffer
  table : Word

/-- `IR_IS_SIGNED_32BIT`. -/
def isSigned32Bit (v : Word) : Bool := (-2147483648 : ℤ) ≤ v.toInt && v.toInt ≤ 2147483647

/-- `IR_IS_32BIT`. -/
def is32Bit (type : IrType) (v : Word) : Bool :=
  if type.isSigned then isSigned32Bit v else v.toNat ≤ 0xffffffff

/-- The extension of the low bytes of a register. -/
def extend (type : IrType) (v : Word) : Word :=
  if type.isSigned then (v.setWidth (8 * type.size)).signExtend 64 else (v.setWidth (8 * type.size)).setWidth 64

/-- `<` on `val.i64` or `val.u64`. -/
def valLt (type : IrType) (a b : Word) : Bool := if type.isSigned then a.slt b else a.ult b

def irMin (type : IrType) (a b : Word) : Word := if valLt type a b then a else b

def irMax (type : IrType) (a b : Word) : Word := if valLt type b a then a else b

/-! ## Instructions -/

inductive JumpCond
  | e | l | b | le | be | a
  deriving DecidableEq, Repr

inductive SwReg
  | op2 | tmp
  deriving DecidableEq, Repr

inductive Instr
  /-- `movsx`, `movzx`, `movsxd` or `mov` of the operand to itself -/
  | movExt (type : IrType)
  | lea (disp : BitVec 32)
  | mov64 (v : Word)
  | addOp2
  | test (w : ℕ)
  | cmpImm (r : SwReg) (w : ℕ) (imm : BitVec 32)
  | cmpTmp (w : ℕ)
  | jcc (c : JumpCond) (block : ℕ)
  /-- to the label `1` -/
  | jccNext (c : JumpCond)
  | next
  | jmp (block : ℕ)
  | leaTable
  /-- `jmp aword [r*8+>1]` -/
  | jmpTable (r : SwReg)
  /-- `jmp aword [tmp+op2*8+disp]` -/
  | jmpIndexed (disp : BitVec 32)
  deriving DecidableEq, Repr

/-- The flags of a comparison. -/
structure Flags where
  eq : Bool
  slt : Bool
  ult : Bool

structure SwState where
  op2 : Word
  tmp : Word
  flags : Flags

def cmpFlags {w : ℕ} (a b : BitVec w) : Flags := ⟨a == b, a.slt b, a.ult b⟩

def JumpCond.holds (f : Flags) : JumpCond → Bool
  | e => f.eq
  | l => f.slt
  | b => f.ult
  | le => f.slt || f.eq
  | be => f.ult || f.eq
  | a => !(f.ult || f.eq)

def SwState.get (s : SwState) : SwReg → Word
  | .op2 => s.op2
  | .tmp => s.tmp

/-- How the code is left. -/
inductive Jump
  | block (b : ℕ)
  /-- to the address that is read at this one -/
  | mem (addr : Word)
  | fallThrough
  deriving DecidableEq, Repr

/-- Executes code; with `skip`, from its first label `1` on. -/
def exec (table : Word) : Bool → List Instr → SwState → Jump
  | _, [], _ => .fallThrough
  | true, i :: is, s => exec table (i ≠ .next) is s
  | false, i :: is, s =>
    match i with
    | .movExt type => exec table false is { s with op2 := extend type s.op2 }
    | .lea disp => exec table false is { s with tmp := s.op2 + disp.signExtend 64 }
    | .mov64 v => exec table false is { s with tmp := v }
    | .addOp2 => exec table false is { s with tmp := s.tmp + s.op2 }
    | .test w => exec table false is { s with flags := cmpFlags (s.op2.setWidth w) 0 }
    | .cmpImm r w imm =>
      exec table false is { s with flags := cmpFlags ((s.get r).setWidth w) ((imm.signExtend 64).setWidth w) }
    | .cmpTmp w => exec table false is { s with flags := cmpFlags (s.op2.setWidth w) (s.tmp.setWidth w) }
    | .jcc c block => if c.holds s.flags then .block block else exec table false is s
    | .jccNext c => exec table (c.holds s.flags) is s
    | .next => exec table false is s
    | .jmp block => .block block
    | .leaTable => exec table false is { s with tmp := table }
    | .jmpTable r => .mem (s.get r * 8 + (table.setWidth 32).signExtend 64)
    | .jmpIndexed disp => .mem (s.tmp + s.op2 * 8 + disp.signExtend 64)

/-! ## The code -/

/-- The code buffer is within 32 bits. -/
def Site.lowBuffer (site : Site) : Bool :=
  match site.codeBuffer with
  | none => false
  | some b => isSigned32Bit b.start && isSigned32Bit b.stop

namespace SwitchInsn

variable (sw : SwitchInsn)

/-- The bounds of a successor, as the first loop folds them. -/
def stepMin (m : Word) (s : Successor) : Word :=
  match s.insn with
  | .caseVal v => irMin sw.type m v
  | .caseRange v _ => irMin sw.type m v
  | .caseDefault => m

def stepMax (m : Word) (s : Successor) : Word :=
  match s.insn with
  | .caseVal v => irMax sw.type m v
  | .caseRange _ v2 => irMax sw.type m v2
  | .caseDefault => m

def min : Word :=
  sw.successors.foldl sw.stepMin (if sw.type.isSigned then 0x7fffffffffffffff else 0xffffffffffffffff)

def max : Word := sw.successors.foldl sw.stepMax (if sw.type.isSigned then 0x8000000000000000 else 0)

def defaultBlock : Option ℕ :=
  sw.successors.foldl (fun d s => if s.insn = .caseDefault then some s.block else d) none

def hasCaseRange : Bool := sw.successors.any fun s => s.insn.isRange

/-- `count`, an `int`. -/
def count : BitVec 32 := BitVec.ofNat 32 (sw.successors.countP fun s => s.insn.isVal)

/-- A jump table is built. -/
def useTable : Bool :=
  !sw.hasCaseRange && (2 : ℤ) < sw.count.toInt && (sw.max - sw.min).toInt < (sw.count * 8).toInt

/-! ### The table -/

/-- The index of a case in `labels`. -/
def index (v : Word) : ℤ := (v - sw.min).toInt

def setLabel (labels : List (Option ℕ)) (s : Successor) : List (Option ℕ) :=
  match s.insn with
  | .caseVal v => if 0 ≤ sw.index v then labels.set (sw.index v).toNat (some s.block) else labels
  | _ => labels

/-- The table: `none` is the entry 0. -/
def labels : List (Option ℕ) :=
  sw.successors.foldl sw.setLabel (List.replicate ((sw.max - sw.min).toInt + 1).toNat sw.defaultBlock)

def emitExt : List Instr := if sw.type.size = 8 then [] else [.movExt sw.type]

/-- Out of the table to the default block. -/
def emitBound (r : SwReg) (bound : Word) : List Instr :=
  match sw.defaultBlock with
  | none => []
  | some d => [.cmpImm r 64 (bound.setWidth 32), .jcc .a d]

def emitTable (site : Site) : List Instr :=
  sw.emitExt ++
    if sw.min ≠ 0 then
      (if isSigned32Bit (-sw.min) then [.lea ((-sw.min).setWidth 32)] else [.mov64 (-sw.min), .addOp2]) ++
        sw.emitBound .tmp (sw.max - sw.min) ++
        (if site.lowBuffer then [.jmpTable .tmp] else [.leaTable, .jmpIndexed ((-sw.min * 8).setWidth 32)])
    else
      sw.emitBound .op2 sw.max ++ if site.lowBuffer then [.jmpTable .op2] else [.leaTable, .jmpIndexed 0]

/-! ### The sequence -/

def emitCompare (v : Word) : List Instr :=
  if is32Bit sw.type v then [.cmpImm .op2 (8 * sw.type.size) (v.setWidth 32)]
  else [.mov64 v, .cmpTmp (8 * sw.type.size)]

def emitCase (s : Successor) : List Instr :=
  match s.insn with
  | .caseVal v =>
    (if v = 0 then [.test (8 * sw.type.size)] else sw.emitCompare v) ++ [.jcc .e s.block, .next]
  | .caseRange v v2 =>
    sw.emitCompare v ++ [.jccNext (if sw.type.isSigned then .l else .b)] ++
      (sw.emitCompare v2 ++ [.jcc (if sw.type.isSigned then .le else .be) s.block, .next])
  | .caseDefault => []

def emitDefault : List Instr :=
  match sw.defaultBlock with
  | none => []
  | some d => [.jmp d]

def emitSequence : List Instr := sw.successors.flatMap sw.emitCase ++ sw.emitDefault

/-- `ir_emit_switch`. -/
def emitSwitch (site : Site) : List Instr := if sw.useTable then sw.emitTable site else sw.emitSequence

end SwitchInsn

end IrJit.X86.Switch
