import Mathlib.Logic.Relation
import IrJit.Lib.Bytes
import IrJit.Mem.Walks

/-!
# Mem.Exec — executions along a control chain

An execution that reaches `ctx->control` has come through the control chain.  It is given by the values
of the references (each is defined once on the chain), the addresses of the local variables, and the
memory after every control instruction.
-/

namespace IrJit.Mem

open Memory

/-- The values of references and the addresses of local variables. -/
structure Env where
  val : ℤ → BitVec 64
  varAddr : ℤ → BitVec 64

/-- What a control instruction may do to memory. -/
inductive Effect
  | nothing | read | write | anything
  deriving DecidableEq

/-- The effect of an opcode.  Before a merge, the start or an `ENTRY` an execution may have been
elsewhere. -/
def opEffect : IrOp → Effect
  | .load | .loadV | .vload | .vloadV => .read
  | .store | .storeV | .vstore | .vstoreV => .write
  | .vaStart | .vaCopy | .vaArg | .asm | .entry | .merge | .loopBegin | .start => .anything
  | _ => .nothing

/-- Does the opcode name a local variable, not an address? -/
def accessesVar (op : IrOp) : Bool := op = .vload || op = .vloadV || op = .vstore || op = .vstoreV

namespace Ctx

variable (C : Ctx) (E : Env)

/-- The effect of an instruction: calls depend on the prototype, and a `BEGIN` with a label may be
reached by a computed goto. -/
def effect (insn : Insn) : Effect :=
  if insn.op = .call then if C.isPureCall insn then .nothing else .anything
  else if insn.op = .beginOp ∧ insn.op2 ≠ 0 then .anything
  else opEffect insn.op

/-- The address that a load or a store accesses. -/
def loc (insn : Insn) : BitVec 64 := if accessesVar insn.op then E.varAddr insn.op2 else E.val insn.op2

/-- The number of bytes that a store writes. -/
def storeSize (insn : Insn) : ℕ := (C.base insn.op3).type.size

/-- One control instruction takes memory `m` to `m'`. -/
def Step (ref : ℕ) (m m' : Memory) : Prop :=
  match C.effect (C.base ref) with
  | .nothing => m' = m
  | .read => m' = m ∧ Holds m (loc E (C.base ref)) (C.base ref).type.size (E.val ref)
  | .write =>
    m' = m.write (loc E (C.base ref)) (C.storeSize (C.base ref)) (E.val (C.base ref).op3)
  | .anything => True

/-- The control instruction before `ref`. -/
def prev (ref : ℕ) : ℕ := (C.base ref).op1.toNat

/-- The control chain: `ctx->control` and what comes before it. -/
def OnChain (ref : ℕ) : Prop :=
  Relation.ReflTransGen (fun a b => 1 < a ∧ b = C.prev a) C.control ref

/-- An execution along the chain; `mem ref` is the memory after `ref`. -/
structure Run (mem : ℕ → Memory) : Prop where
  step : ∀ ref, C.OnChain ref → C.Step E ref (mem (C.prev ref)) (mem ref)
  /-- `VADDR` is the address of its variable. -/
  vaddr : ∀ a < (C.insnsCount : ℤ), (C.base a).op = .vaddr → E.val a = E.varAddr (C.base a).op1

/-- The order of construction: `START` comes first, and control instructions come after the one they
follow. -/
structure Ordered : Prop where
  prev_lt : ∀ ref, C.OnChain ref → 1 < ref → C.prev ref < ref
  start : ∀ ref, C.OnChain ref → (C.base ref).op = .start → ref = 1

/-- `ir_check_aliasing` only says `IR_NO_ALIAS` of the access and of those on the chain that share no byte
with it. -/
def AliasRight (addr : ℤ) (type : IrType) : Prop :=
  ∀ n, C.OnChain n →
    ((C.base n).op = .store →
      C.checkAliasing addr (C.base n).op2 type (C.base (C.base n).op3).type = .no →
      Separate (E.val addr) type.size (E.val (C.base n).op2) (C.storeSize (C.base n))) ∧
    ((C.base n).op = .load → C.checkAliasing addr (C.base n).op2 type (C.base n).type = .no →
      Separate (E.val addr) type.size (E.val (C.base n).op2) (C.base n).type.size)

/-- Accesses to different local variables share no byte. -/
def VarsApart (var : ℤ) (size : ℕ) : Prop :=
  ∀ n, C.OnChain n → (C.base n).op2 ≠ var →
    ((C.base n).op = .vstore →
      Separate (E.varAddr var) size (E.varAddr (C.base n).op2) (C.storeSize (C.base n))) ∧
    ((C.base n).op = .vload → Separate (E.varAddr var) size (E.varAddr (C.base n).op2) (C.base n).type.size)

/-- The instruction reads or writes none of the `k` bytes at `a`. -/
def Clear (a : BitVec 64) (k : ℕ) (insn : Insn) : Prop :=
  (opEffect insn.op = .read ∧ Separate a k (loc E insn) insn.type.size) ∨
  (opEffect insn.op = .write ∧ Separate a k (loc E insn) (C.storeSize insn))

/-- A walk that does not look at the opcodes `overlooked` and ends at the instructions `decides` still comes
to no access of the bytes that it should have looked at: after each one comes an instruction at which the
walk ends, or it is an access elsewhere. -/
def Looks (overlooked : IrOp → Bool) (decides : Insn → Prop) (a : BitVec 64) (k : ℕ) (limit : ℤ) : Prop :=
  ∀ n, C.OnChain n → limit < n → overlooked (C.base n).op = true →
    C.Clear E a k (C.base n) ∨ ∃ m, C.OnChain m ∧ n < m ∧ decides (C.base m)

/-- A walk has come past every instruction above `ref`. -/
def Passed (decides : Insn → Prop) (ref : ℕ) : Prop :=
  ∀ m, C.OnChain m → ref < m → ¬ decides (C.base m)

end Ctx

section Step

variable {C : Ctx} {E : Env} {mem : ℕ → Memory} {ref : ℕ} {m m' : Memory}

theorem Ctx.OnChain.prev (h : C.OnChain ref) (h1 : 1 < ref) : C.OnChain (C.prev ref) :=
  h.tail ⟨h1, rfl⟩

theorem Ctx.onChain_control (C : Ctx) : C.OnChain C.control := Relation.ReflTransGen.refl

/-- Control instructions only go down the chain. -/
theorem Ctx.OnChain.le_of_reaches (ho : C.Ordered) {a b : ℕ} (ha : C.OnChain a)
    (hab : Relation.ReflTransGen (fun a b => 1 < a ∧ b = C.prev a) a b) : b ≤ a := by
  induction hab with
  | refl => exact le_refl _
  | tail hac hcb ih =>
    obtain ⟨hc1, rfl⟩ := hcb
    have hc := ho.prev_lt _ (ha.trans hac) hc1
    omega

theorem Ctx.OnChain.le_control (ho : C.Ordered) (h : C.OnChain ref) : ref ≤ C.control :=
  (Ctx.onChain_control C).le_of_reaches ho h

/-- What comes before `ref` on the chain is its `op1` or comes before that. -/
theorem Ctx.OnChain.le_prev (ho : C.Ordered) {n : ℕ} (h : C.OnChain ref) (hn : C.OnChain n)
    (h1 : 1 < ref) (hlt : n < ref) : n ≤ C.prev ref := by
  have hunique : Relator.RightUnique (fun a b => 1 < a ∧ b = C.prev a) :=
    fun a b c hb hc => hb.2.trans hc.2.symm
  rcases Relation.ReflTransGen.total_of_right_unique hunique h hn with hto | hto
  · rcases hto.cases_head with rfl | ⟨c, ⟨_, rfl⟩, hc⟩
    · omega
    · exact (h.prev h1).le_of_reaches ho hc
  · have := hn.le_of_reaches ho hto
    omega

theorem Ctx.effect_of_op {insn : Insn} (hcall : insn.op ≠ .call) (hbegin : insn.op ≠ .beginOp) :
    C.effect insn = opEffect insn.op := by
  unfold Ctx.effect
  rw [if_neg hcall, if_neg (by tauto)]

theorem Ctx.effect_of_access {insn : Insn} (he : opEffect insn.op = .read ∨ opEffect insn.op = .write) :
    C.effect insn = opEffect insn.op := by
  refine Ctx.effect_of_op ?_ ?_ <;>
  · intro e
    rw [e] at he
    simp [opEffect] at he

/-- A load leaves memory alone and has read its value. -/
theorem Ctx.step_read (he : opEffect (C.base ref).op = .read) : C.Step E ref m m' ↔
    m' = m ∧ Memory.Holds m (Ctx.loc E (C.base ref)) (C.base ref).type.size (E.val ref) := by
  unfold Ctx.Step
  rw [Ctx.effect_of_access (Or.inl he), he]

/-- A store writes its value. -/
theorem Ctx.step_write (he : opEffect (C.base ref).op = .write) : C.Step E ref m m' ↔
    m' = m.write (Ctx.loc E (C.base ref)) (C.storeSize (C.base ref)) (E.val (C.base ref).op3) := by
  unfold Ctx.Step
  rw [Ctx.effect_of_access (Or.inr he), he]

theorem Ctx.Step.read (h : C.Step E ref m m') (he : opEffect (C.base ref).op = .read) :
    m' = m ∧ Memory.Holds m (Ctx.loc E (C.base ref)) (C.base ref).type.size (E.val ref) :=
  (Ctx.step_read he).mp h

theorem Ctx.Step.write (h : C.Step E ref m m') (he : opEffect (C.base ref).op = .write) :
    m' = m.write (Ctx.loc E (C.base ref)) (C.storeSize (C.base ref)) (E.val (C.base ref).op3) :=
  (Ctx.step_write he).mp h

theorem Ctx.Step.nothing (h : C.Step E ref m m') (he : C.effect (C.base ref) = .nothing) : m' = m := by
  unfold Ctx.Step at h
  rw [he] at h
  exact h

/-- An instruction that touches none of the bytes keeps them. -/
theorem Ctx.Step.keeps {a : BitVec 64} {k : ℕ} (h : C.Step E ref m m')
    (hclear : C.effect (C.base ref) = .nothing ∨ C.Clear E a k (C.base ref)) :
    ∀ x, Memory.Within a k x → m' x = m x := by
  intro x hx
  rcases hclear with he | ⟨he, _⟩ | ⟨he, hapart⟩
  · rw [h.nothing he]
  · rw [(h.read he).1]
  · rw [h.write he]
    exact Memory.write_of_not_within (hapart x hx)

end Step

section Walk

variable {C : Ctx} {E : Env} {decides : Insn → Prop} {ref : ℕ}

theorem Ctx.passed_control (ho : C.Ordered) (decides : Insn → Prop) : C.Passed decides C.control := by
  intro m hm hlt
  have := hm.le_control ho
  omega

theorem Ctx.Passed.prev (ho : C.Ordered) (h : C.Passed decides ref) (hchain : C.OnChain ref)
    (href : 1 < ref) (hnot : ¬ decides (C.base ref)) : C.Passed decides (C.prev ref) := by
  intro m hm hlt
  rcases Nat.lt_trichotomy m ref with hmr | rfl | hmr
  · have := hchain.le_prev ho hm href hmr
    omega
  · exact hnot
  · exact h m hm hmr

theorem Ctx.Looks.clear {overlooked : IrOp → Bool} {a : BitVec 64} {k : ℕ} {limit : ℤ}
    (h : C.Looks E overlooked decides a k limit) (hpassed : C.Passed decides ref) (hchain : C.OnChain ref)
    (hlimit : limit < ref) : overlooked (C.base ref).op = false ∨ C.Clear E a k (C.base ref) := by
  by_cases hover : overlooked (C.base ref).op = true
  · rcases h ref hchain hlimit hover with hclear | ⟨m, hm, hlt, hdec⟩
    · exact Or.inr hclear
    · exact absurd hdec (hpassed m hm hlt)
  · exact Or.inl (by simpa using hover)

end Walk

end IrJit.Mem
