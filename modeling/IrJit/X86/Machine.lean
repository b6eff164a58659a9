import Mathlib.Data.BitVec
import Mathlib.Logic.Function.Basic

/-!
# X86.Machine — the integer instructions that the lowering sequences use

A state has the 64-bit general registers, memory cells of eight bytes (spill slots, fused loads and the
cell of a store), and the sign flag.  An instruction carries its operand width `w` in bits.

* A write of 32 bits clears the upper half of the register, a write of 8 or 16 bits keeps the rest.
* A 32-bit immediate is sign-extended to 64 bits.  A shift count is taken modulo 32, modulo 64 for
  64-bit operands; it may exceed a narrow operand.
* `bsf` and `bsr` leave the destination alone when the source is zero.
-/

namespace IrJit.X86

abbrev Word := BitVec 64

structure State where
  reg : ℕ → Word
  cell : ℕ → Word
  sf : Bool

/-- A register after a write of `w` bits. -/
def writeReg (w : ℕ) (old : Word) (v : BitVec w) : Word :=
  if w = 32 then v.setWidth 64 else ((old >>> w) <<< w) ||| v.setWidth 64

/-- A memory cell after a write of its `w` low bits. -/
def writeCell (w : ℕ) (old : Word) (v : BitVec w) : Word := ((old >>> w) <<< w) ||| v.setWidth 64

theorem setWidth_writeCell {w : ℕ} (h : w ≤ 64) (old : Word) (v : BitVec w) :
    (writeCell w old v).setWidth w = v := by
  ext i hi
  have hi64 : i < 64 := by omega
  simp [writeCell, hi64, hi]

theorem setWidth_writeReg {w : ℕ} (h : w ≤ 64) (old : Word) (v : BitVec w) :
    (writeReg w old v).setWidth w = v := by
  unfold writeReg
  split_ifs
  · rw [BitVec.setWidth_setWidth_of_le _ h, BitVec.setWidth_eq]
  · exact setWidth_writeCell h old v

/-- A narrower read sees the low bits of what was written. -/
theorem setWidth_writeReg_of_le {w w' : ℕ} (hw : w' ≤ w) (h : w ≤ 64) (old : Word) (v : BitVec w) :
    (writeReg w old v).setWidth w' = v.setWidth w' := by
  rw [← setWidth_writeReg h old v, BitVec.setWidth_setWidth_of_le _ hw]
  rw [setWidth_writeReg h]

namespace State

/-- The `w` low bits of a register. -/
def get (s : State) (w r : ℕ) : BitVec w := (s.reg r).setWidth w

/-- The `w` low bits of a memory cell. -/
def load (s : State) (w m : ℕ) : BitVec w := (s.cell m).setWidth w

def put (s : State) (w r : ℕ) (v : BitVec w) : State :=
  { s with reg := Function.update s.reg r (writeReg w (s.reg r) v) }

def store (s : State) (w m : ℕ) (v : BitVec w) : State :=
  { s with cell := Function.update s.cell m (writeCell w (s.cell m) v) }

/-- The sign flag of a result. -/
def flag (s : State) (b : Bool) : State := { s with sf := b }

variable {s : State} {w w' r r' m m' : ℕ}

theorem get_put (h : w ≤ 64) (v : BitVec w) : (s.put w r v).get w r = v := by
  unfold get put
  dsimp only
  rw [Function.update_self, setWidth_writeReg h]

theorem get_put_of_le (hw : w' ≤ w) (h : w ≤ 64) (v : BitVec w) : (s.put w r v).get w' r = v.setWidth w' := by
  unfold get put
  dsimp only
  rw [Function.update_self, setWidth_writeReg_of_le hw h]

theorem get_put_of_ne (hr : r' ≠ r) (v : BitVec w) : (s.put w r v).get w' r' = s.get w' r' := by
  unfold get put
  dsimp only
  rw [Function.update_of_ne hr]

theorem get_of_le (hw : w' ≤ w) : (s.get w r).setWidth w' = s.get w' r := by
  unfold get
  rw [BitVec.setWidth_setWidth_of_le _ hw]

theorem load_store (h : w ≤ 64) (v : BitVec w) : (s.store w m v).load w m = v := by
  unfold load store
  dsimp only
  rw [Function.update_self, setWidth_writeCell h]

@[simp] theorem get_store (v : BitVec w) : (s.store w m v).get w' r = s.get w' r := rfl

@[simp] theorem load_put (v : BitVec w) : (s.put w r v).load w' m = s.load w' m := rfl

@[simp] theorem get_flag (b : Bool) : (s.flag b).get w r = s.get w r := rfl

@[simp] theorem load_flag (b : Bool) : (s.flag b).load w m = s.load w m := rfl

@[simp] theorem sf_flag (b : Bool) : (s.flag b).sf = b := rfl

@[simp] theorem sf_put (v : BitVec w) : (s.put w r v).sf = s.sf := rfl

end State

/-! ### Instructions -/

/-- Two-operand instructions. -/
inductive AluOp
  | add | sub | and | or | xor | imul
  deriving DecidableEq, Repr

def AluOp.eval {w : ℕ} (x y : BitVec w) : AluOp → BitVec w
  | add => x + y
  | sub => x - y
  | and => x &&& y
  | or => x ||| y
  | xor => x ^^^ y
  | imul => x * y

inductive ShiftOp
  | shl | shr | sar
  deriving DecidableEq, Repr

/-- The count is masked to 5 bits, to 6 for 64-bit operands. -/
def shiftCount (w n : ℕ) : ℕ := n % (if w = 64 then 64 else 32)

def ShiftOp.eval {w : ℕ} (x : BitVec w) (n : ℕ) : ShiftOp → BitVec w
  | shl => x <<< shiftCount w n
  | shr => x >>> shiftCount w n
  | sar => x.sshiftRight (shiftCount w n)

/-- Bit counting.  `bsf` and `bsr` give the number of a bit. -/
inductive BitOp
  | lzcnt | tzcnt | bsr | bsf | popcnt
  deriving DecidableEq, Repr

/-- The number of set bits. -/
def popcount {w : ℕ} (x : BitVec w) : ℕ := (List.range w).countP fun i => x.getLsbD i

/-- The number of zeros below the lowest set bit, `w` without one. -/
def trailingZeros {w : ℕ} (x : BitVec w) : ℕ := ((List.range w).find? fun i => x.getLsbD i).getD w

/-- The number of zeros above the highest set bit, `w` without one. -/
def leadingZeros {w : ℕ} (x : BitVec w) : ℕ := ((List.range w).find? fun i => x.getMsbD i).getD w

def BitOp.eval {w : ℕ} (old x : BitVec w) : BitOp → BitVec w
  | lzcnt => BitVec.ofNat w (leadingZeros x)
  | tzcnt => BitVec.ofNat w (trailingZeros x)
  | bsr => if x = 0 then old else BitVec.ofNat w (w - 1 - leadingZeros x)
  | bsf => if x = 0 then old else BitVec.ofNat w (trailingZeros x)
  | popcnt => BitVec.ofNat w (popcount x)

/-- A register or a memory operand. -/
inductive Operand
  | reg (r : ℕ)
  | mem (m : ℕ)
  deriving DecidableEq, Repr

inductive Instr
  | mov (w dst src : ℕ)
  /-- `movzx Rd(dst), Rb(src)` or `Rw(src)` -/
  | movzx (w dst src : ℕ)
  | movImm (w dst : ℕ) (imm : Word)
  /-- `mov Rq(dst), imm32` -/
  | movSx (dst : ℕ) (imm : BitVec 32)
  | load (w dst m : ℕ)
  | store (w m src : ℕ)
  | alu (op : AluOp) (w dst src : ℕ)
  | aluImm (op : AluOp) (w dst : ℕ) (imm : BitVec 32)
  | aluMem (op : AluOp) (w m : ℕ) (imm : BitVec 32)
  | shift (op : ShiftOp) (w dst n : ℕ)
  | shiftMem (op : ShiftOp) (w m n : ℕ)
  /-- `lea dst, [base+index]` -/
  | leaIndex (w dst base index : ℕ)
  /-- `lea dst, [base+disp]` -/
  | leaDisp (w dst base : ℕ) (disp : BitVec 32)
  | test (w r1 r2 : ℕ)
  | cmovns (w dst src : ℕ)
  | bits (op : BitOp) (w dst : ℕ) (src : Operand)
  deriving DecidableEq, Repr

/-- An immediate of 32 bits at the width of the operation. -/
def immAt (w : ℕ) (imm : BitVec 32) : BitVec w := (imm.signExtend 64).setWidth w

def Operand.read (s : State) (w : ℕ) : Operand → BitVec w
  | reg r => s.get w r
  | mem m => s.load w m

def Instr.exec (s : State) : Instr → State
  | mov w d a => s.put w d (s.get w a)
  | movzx w d a => s.put 32 d ((s.get w a).setWidth 32)
  | movImm w d imm => s.put w d (imm.setWidth w)
  | movSx d imm => s.put 64 d (imm.signExtend 64)
  | load w d m => s.put w d (s.load w m)
  | store w m a => s.store w m (s.get w a)
  | alu op w d a => let v := op.eval (s.get w d) (s.get w a); (s.put w d v).flag v.msb
  | aluImm op w d imm => let v := op.eval (s.get w d) (immAt w imm); (s.put w d v).flag v.msb
  | aluMem op w m imm => let v := op.eval (s.load w m) (immAt w imm); (s.store w m v).flag v.msb
  | shift op w d n => let v := op.eval (s.get w d) n; (s.put w d v).flag v.msb
  | shiftMem op w m n => let v := op.eval (s.load w m) n; (s.store w m v).flag v.msb
  | leaIndex w d a b => s.put w d (s.get w a + s.get w b)
  | leaDisp w d a disp => s.put w d (s.get w a + immAt w disp)
  | test w a b => s.flag (s.get w a &&& s.get w b).msb
  | cmovns w d a => s.put w d (if s.sf then s.get w d else s.get w a)
  | bits op w d src => s.put w d (op.eval (s.get w d) (src.read s w))

/-- The instructions one after the other. -/
def exec (code : List Instr) (s : State) : State := code.foldl Instr.exec s

@[simp] theorem exec_nil (s : State) : exec [] s = s := rfl

@[simp] theorem exec_cons (i : Instr) (code : List Instr) (s : State) :
    exec (i :: code) s = exec code (i.exec s) := rfl

@[simp] theorem exec_append (code code' : List Instr) (s : State) :
    exec (code ++ code') s = exec code' (exec code s) := List.foldl_append

/-- An immediate is the value it was cut from, unless a 64-bit operation extends another sign. -/
theorem immAt_setWidth {w : ℕ} (v : Word) (h : w ≤ 32 ∨ (v.setWidth 32).signExtend 64 = v) :
    immAt w (v.setWidth 32) = v.setWidth w := by
  unfold immAt
  rcases h with h | h
  · ext i hi
    have hi32 : i < 32 := by omega
    have hi64 : i < 64 := by omega
    rw [BitVec.getElem_setWidth, BitVec.getElem_setWidth, BitVec.getLsbD_signExtend]
    simp [hi32, hi64]
  · rw [h]

end IrJit.X86
