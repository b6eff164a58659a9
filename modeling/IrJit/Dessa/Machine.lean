import Mathlib.Algebra.Order.Ring.Int
import Mathlib.Data.Finset.Max
import IrJit.Core.Types

/-!
# Dessa.Machine — the x86-64 moves emitted by SSA deconstruction

The instructions that `ir_emit_dessa_move` and `ir_dessa_resolve_cycle` hand to the assembler,
with their effect on the registers and on the spill slots.  A register or slot is eight bytes.

* `mov`/`xchg` on a general register of 1 or 2 bytes leaves the upper bytes alone, of 4 bytes
  clears them (`writeGp`); `movss`/`movsd` from memory clear the upper part, the register form
  `movap` copies all of it; a store changes only the bytes of its type.
* An instruction whose registers are of the wrong class has no encoding: `Instr.exec` fails.
* The spill slots are numbered, and disjoint from one another and from `[rsp-16]`, the temporary
  slot of `ir_dessa_resolve_cycle`.
-/

namespace IrJit.Dessa

abbrev Word := BitVec 64

/-- `IR_REG_NUM` on x86-64: 16 general registers, then 16 SSE registers. -/
def regNum : ℕ := 32

def isGpReg (r : ℕ) : Bool := r < 16

def isFpReg (r : ℕ) : Bool := 16 ≤ r && r < regNum

/-- A memory operand: a spill slot of `mem_slots`, or the temporary slot `[rsp-16]`. -/
inductive Mem
  | slot (i : ℕ)
  | tmpSpill
  deriving DecidableEq, Repr

/-- What the moves read of `ir_ctx`: the constants (a symbolic one is an address) and the
addresses of the local variables. -/
structure Ctx where
  constsCount : ℕ
  constVal : ℤ → Word
  isSymConst : ℤ → Bool
  localAddr : ℤ → Word

inductive Instr
  | mov (type : IrType) (dst src : ℕ)
  | xchg (type : IrType) (r1 r2 : ℕ)
  | fpMov (type : IrType) (dst src : ℕ)
  | loadMem (type : IrType) (dst : ℕ) (mem : Mem)
  | loadMemFp (type : IrType) (dst : ℕ) (mem : Mem)
  | storeMem (type : IrType) (mem : Mem) (src : ℕ)
  | storeMemFp (type : IrType) (mem : Mem) (src : ℕ)
  | storeMemImm (type : IrType) (mem : Mem) (imm : BitVec 32)
  | loadImm (type : IrType) (dst : ℕ) (ref : ℤ)
  | loadImmFp (type : IrType) (dst : ℕ) (ref : ℤ)
  | leaLocal (dst : ℕ) (ref : ℤ)
  deriving DecidableEq, Repr

structure State where
  reg : ℕ → Word
  mem : Mem → Word

/-! ### Partial writes -/

/-- The low `n` bytes of `new`, the other bytes of `old`. -/
def mergeLow (n : ℕ) (old new : Word) : Word :=
  (new.setWidth (8 * n)).setWidth 64 ||| ((old >>> (8 * n)) <<< (8 * n))

/-- Writing `n` bytes to a general register. -/
def writeGp (n : ℕ) (old new : Word) : Word :=
  if n = 4 then (new.setWidth 32).setWidth 64 else mergeLow n old new

/-- `x` and `y` have the same `n` low bytes. -/
def Agree (n : ℕ) (x y : Word) : Prop := x.setWidth (8 * n) = y.setWidth (8 * n)

theorem Agree.refl (n : ℕ) (x : Word) : Agree n x x := rfl

theorem Agree.trans {n : ℕ} {x y z : Word} (h : Agree n x y) (h' : Agree n y z) : Agree n x z :=
  Eq.trans h h'

theorem Agree.mono {n m : ℕ} {x y : Word} (h : Agree m x y) (hn : n ≤ m) : Agree n x y := by
  have h2 := congrArg (BitVec.setWidth (8 * n)) h
  rwa [BitVec.setWidth_setWidth_of_le _ (by omega), BitVec.setWidth_setWidth_of_le _ (by omega)] at h2

theorem agree_mergeLow (n : ℕ) (old new : Word) : Agree n (mergeLow n old new) new := by
  unfold Agree mergeLow
  ext i hi
  simp only [BitVec.getElem_setWidth, BitVec.getLsbD_or, BitVec.getLsbD_setWidth,
    BitVec.getLsbD_shiftLeft]
  by_cases h64 : i < 64
  · simp [hi, h64]
  · simp [h64, BitVec.getLsbD_of_ge new i (by omega)]

theorem agree_writeGp (n : ℕ) (old new : Word) : Agree n (writeGp n old new) new := by
  unfold writeGp
  split_ifs with h
  · subst h
    unfold Agree
    simp
  · exact agree_mergeLow n old new

/-! ### Execution -/

namespace State

def setReg (s : State) (r : ℕ) (v : Word) : State := { s with reg := Function.update s.reg r v }

def setMem (s : State) (m : Mem) (v : Word) : State := { s with mem := Function.update s.mem m v }

/-- The contents of a location: registers below `IR_REG_NUM`, spill slots from there on. -/
def get (s : State) (l : ℕ) : Word := if l < regNum then s.reg l else s.mem (.slot (l - regNum))

end State

/-- The effect of one instruction. -/
def Instr.exec (ctx : Ctx) (s : State) : Instr → Option State
  | mov t d r =>
    if isGpReg d && isGpReg r then some (s.setReg d (writeGp t.size (s.reg d) (s.reg r))) else none
  | xchg t a b =>
    if isGpReg a && isGpReg b then
      some ((s.setReg a (writeGp t.size (s.reg a) (s.reg b))).setReg b
        (writeGp t.size (s.reg b) (s.reg a)))
    else none
  | fpMov _ d r => if isFpReg d && isFpReg r then some (s.setReg d (s.reg r)) else none
  | loadMem t d m =>
    if isGpReg d then some (s.setReg d (writeGp t.size (s.reg d) (s.mem m))) else none
  | loadMemFp t d m =>
    if isFpReg d then some (s.setReg d (mergeLow t.size 0 (s.mem m))) else none
  | storeMem t m r =>
    if isGpReg r then some (s.setMem m (mergeLow t.size (s.mem m) (s.reg r))) else none
  | storeMemFp t m r =>
    if isFpReg r then some (s.setMem m (mergeLow t.size (s.mem m) (s.reg r))) else none
  | storeMemImm t m imm => some (s.setMem m (mergeLow t.size (s.mem m) (imm.signExtend 64)))
  | loadImm t d ref =>
    if isGpReg d then some (s.setReg d (writeGp t.size (s.reg d) (ctx.constVal ref))) else none
  | loadImmFp t d ref =>
    if isFpReg d then some (s.setReg d (mergeLow t.size 0 (ctx.constVal ref))) else none
  | leaLocal d ref => if isGpReg d then some (s.setReg d (ctx.localAddr ref)) else none

/-- The effect of a sequence of instructions. -/
def exec (ctx : Ctx) : List Instr → State → Option State
  | [], s => some s
  | i :: is, s => (i.exec ctx s).bind (exec ctx is)

theorem exec_append (ctx : Ctx) (c c' : List Instr) (s : State) :
    exec ctx (c ++ c') s = (exec ctx c s).bind (exec ctx c') := by
  induction c generalizing s with
  | nil => rfl
  | cons i is ih =>
    simp only [List.cons_append, exec]
    cases i.exec ctx s with
    | none => rfl
    | some s' => exact ih s'

namespace State

@[simp] theorem get_setReg_self (s : State) {r : ℕ} (v : Word) (hr : r < regNum) :
    (s.setReg r v).get r = v := by
  simp [get, setReg, hr]

theorem get_setReg_of_ne (s : State) {r l : ℕ} (v : Word) (h : l ≠ r) :
    (s.setReg r v).get l = s.get l := by
  unfold get setReg
  split_ifs <;> simp [h]

theorem get_setMem_slot (s : State) {l : ℕ} (v : Word) (hl : ¬ l < regNum) :
    (s.setMem (.slot (l - regNum)) v).get l = v := by
  simp [get, setMem, hl]

theorem get_setMem_slot_of_ne (s : State) {d l : ℕ} (v : Word) (hd : ¬ d < regNum) (h : l ≠ d) :
    (s.setMem (.slot (d - regNum)) v).get l = s.get l := by
  unfold get setMem
  split_ifs with hl
  · rfl
  · have hne : Mem.slot (l - regNum) ≠ Mem.slot (d - regNum) := by
      intro he
      injection he with he
      omega
    simp [hne]

@[simp] theorem get_setMem_tmpSpill (s : State) (l : ℕ) (v : Word) :
    (s.setMem .tmpSpill v).get l = s.get l := by
  unfold get setMem
  split_ifs <;> simp

@[simp] theorem mem_setReg (s : State) (r : ℕ) (v : Word) (m : Mem) : (s.setReg r v).mem m = s.mem m :=
  rfl

@[simp] theorem tmpSpill_setMem_slot (s : State) (i : ℕ) (v : Word) :
    (s.setMem (.slot i) v).mem .tmpSpill = s.mem .tmpSpill := by
  simp [setMem]

@[simp] theorem mem_setMem_self (s : State) (m : Mem) (v : Word) : (s.setMem m v).mem m = v := by
  simp [setMem]

theorem get_reg (s : State) {l : ℕ} (h : l < regNum) : s.get l = s.reg l := if_pos h

theorem get_mem (s : State) {l : ℕ} (h : ¬ l < regNum) : s.get l = s.mem (.slot (l - regNum)) :=
  if_neg h

end State

end IrJit.Dessa
