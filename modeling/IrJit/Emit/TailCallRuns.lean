import Mathlib.Data.Set.Insert
import Mathlib.Logic.Relation
import IrJit.Emit.TailCall

/-!
# Emit.TailCallRuns — what the callee of a tail call can reach

An execution is followed by what its values were computed from: the value of an instruction stands for the set of
local variables whose address went into it.  `holds l` are the locals with an address in the memory of the local
`l`, `world` those with an address in other memory or in the hands of a function called before.  Any instruction
may come next, so every order of blocks is covered.
-/

namespace IrJit.Emit

open X86

/-! ### The rules -/

/-- What `ir_try_tailcall` and the loop check of a CALL. -/
structure Accepted (c : Ctx) (rules : Rules) (call : ℤ) : Prop where
  argsStack : c.calcArgsStack = 0
  isCall : (c.irBase call).op = .call
  args : c.passesLocalAddr (c.irBase call) = false
  /-- the RETURN behind it, which gives the result of the call or none, has no code -/
  ret : ∃ ref, (c.irBase ref).op = .ret ∧ (c.irBase ref).op1 = call ∧
    ((c.irBase ref).op2 = call ∨ (c.irBase ref).op2 = 0) ∧ rules ref = some .skipped

variable {c : Ctx} {rules rules' : Rules} {ref call : ℤ}

theorem tryTailcall_true (h : c.tryTailcall rules ref = (true, rules')) :
    c.passesLocalAddr (c.irBase ref) = false ∧ rules' = Function.update rules ref (some .tailcall) := by
  unfold Ctx.tryTailcall at h
  dsimp only at h
  split at h
  · cases h
  · split at h
    · cases h
    rename_i hno
    push Not at hno
    exact ⟨by simpa using hno.2.2.2, (Prod.mk.inj h).2.symm⟩

theorem tryTailcall_false (h : c.tryTailcall rules ref = (false, rules')) :
    rules' = rules ∨ ∃ rule, rules' = Function.update rules ref (some (.builtin rule)) := by
  unfold Ctx.tryTailcall at h
  dsimp only at h
  split at h
  · exact Or.inr ⟨_, (Prod.mk.inj h).2.symm⟩
  · split at h
    · exact Or.inl (Prod.mk.inj h).2.symm
    · cases h

theorem returnsCall_iff : c.returnsCall (c.irBase ref) = true ↔ (c.irBase ref).op = .ret ∧
    ((c.irBase ref).op1 = (c.irBase ref).op2 ∨ (c.irBase ref).op2 = 0) ∧
    (c.irBase (c.irBase ref).op1).op = .call := by
  unfold Ctx.returnsCall
  simp [and_assoc]

/-- A rule given to another CALL leaves an accepted one alone. -/
theorem Accepted.update_call (A : Accepted c rules call) (hcall : (c.irBase ref).op = .call) (r : Option Rule) :
    Accepted c (Function.update rules ref r) call := by
  obtain ⟨ret, h1, h2, h3, h4⟩ := A.ret
  refine ⟨A.argsStack, A.isCall, A.args, ret, h1, h2, h3, ?_⟩
  have hne : ret ≠ ref := by
    rintro rfl
    rw [h1] at hcall
    cases hcall
  rw [Function.update_of_ne hne, h4]

theorem Accepted.update_skipped (A : Accepted c rules call) :
    Accepted c (Function.update rules ref (some .skipped)) call := by
  obtain ⟨ret, h1, h2, h3, h4⟩ := A.ret
  refine ⟨A.argsStack, A.isCall, A.args, ret, h1, h2, h3, ?_⟩
  by_cases hr : ret = ref
  · rw [hr, Function.update_self]
  · rw [Function.update_of_ne hr, h4]

/-- The loop: one terminator, then the others. -/
theorem matchTailcallsFrom_spec (fuel : ℕ) : ∀ (ref : ℤ) (rules rules' : Rules),
    (∀ call, rules call = some .tailcall → Accepted c rules call) →
    c.matchTailcallsFrom fuel ref rules = some rules' →
    ∀ call, rules' call = some .tailcall → Accepted c rules' call := by
  induction fuel with
  | zero =>
    intro ref rules rules' _ h
    cases h
  | succ fuel ih =>
    intro ref rules rules' I h
    rw [Ctx.matchTailcallsFrom] at h
    by_cases h0 : ref = 0
    · rw [if_pos h0] at h
      cases h
      exact I
    · rw [if_neg h0] at h
      dsimp only at h
      by_cases hret : c.returnsCall (c.irBase ref) = true
      · rw [if_pos hret] at h
        by_cases hstack : c.calcArgsStack = 0
        swap
        · rw [if_pos hstack] at h
          cases h
          exact I
        rw [if_neg (not_not.mpr hstack)] at h
        obtain ⟨hop, hval, hcall⟩ := returnsCall_iff.mp hret
        cases htry : c.tryTailcall rules (c.irBase ref).op1 with
        | mk b rules₁ =>
          rw [htry] at h
          cases b with
          | true =>
            obtain ⟨hargs, rfl⟩ := tryTailcall_true htry
            refine ih _ _ rules' ?_ h
            intro call hc
            have hne : call ≠ ref := by
              rintro rfl
              rw [Function.update_self] at hc
              cases hc
            rw [Function.update_of_ne hne] at hc
            by_cases heq : call = (c.irBase ref).op1
            · subst heq
              exact ⟨hstack, hcall, hargs, ref, hop, rfl, hval.imp Eq.symm id, Function.update_self _ _ _⟩
            · rw [Function.update_of_ne heq] at hc
              exact ((I call hc).update_call hcall _).update_skipped
          | false =>
            refine ih _ _ rules' ?_ h
            intro call hc
            rcases tryTailcall_false htry with rfl | ⟨rule, rfl⟩
            · exact I call hc
            · by_cases heq : call = (c.irBase ref).op1
              · rw [heq, Function.update_self] at hc
                cases hc
              · rw [Function.update_of_ne heq] at hc
                exact (I call hc).update_call hcall _
      · rw [if_neg hret] at h
        exact ih _ _ rules' I h

/-- **A CALL that becomes a tail call.** -/
theorem matchTailcalls_spec {fuel : ℕ} (h : c.matchTailcalls fuel = some rules) (hcall : rules call = some .tailcall) :
    Accepted c rules call :=
  matchTailcallsFrom_spec fuel _ _ rules (fun _ h => by cases h) h call hcall

/-! ### Parameters passed by value -/

theorem stackOffset_argsStackStep (cc : CallConvDsc) (s : Counters) (use : ℤ) :
    s.stackOffset ≤ (c.argsStackStep cc s use).stackOffset := by
  unfold Ctx.argsStackStep
  by_cases hop : (c.irBase use).op = .param
  · rw [if_pos hop]
    by_cases hint : (c.irBase use).type.isInt = true
    · rw [if_pos hint]
      cases c.valueParam use with
      | some value =>
        have h1 := le_alignedSize s.stackOffset (max 8 value.2)
        have h2 := le_alignedSize (s.structOffset value.2 + value.1) 8
        unfold Counters.structOffset at h2
        dsimp only [Counters.pushStruct, Counters.structOffset]
        omega
      | none =>
        by_cases h : s.intParam < cc.intParamRegs.length <;> simp [Counters.nextInt, Counters.push, h]
    · rw [if_neg hint]
      by_cases h : s.fpParam < cc.fpParamRegs.length <;> simp [Counters.nextFp, Counters.push, h]
  · rw [if_neg hop]

theorem stackOffset_foldl (cc : CallConvDsc) (l : List ℤ) (s : Counters) :
    s.stackOffset ≤ (l.foldl (c.argsStackStep cc) s).stackOffset := by
  induction l generalizing s with
  | nil => exact le_refl _
  | cons use l ih => exact (stackOffset_argsStackStep cc s use).trans (ih _)

/-- A structure with bytes takes space. -/
theorem stackOffset_pos {cc : CallConvDsc} {s : Counters} {use : ℤ} (hop : (c.irBase use).op = .param)
    (hint : (c.irBase use).type.isInt = true) {size align : ℕ} (hv : c.valueParam use = some (size, align))
    (hsize : 0 < size) : 0 < (c.argsStackStep cc s use).stackOffset := by
  unfold Ctx.argsStackStep
  rw [if_pos hop, if_pos hint, hv]
  have h2 := le_alignedSize (s.structOffset align + size) 8
  unfold Counters.pushStruct
  dsimp only
  omega

/-- A function that has tail calls has no structure among its parameters. -/
theorem size_eq_zero (h : c.calcArgsStack = 0) {use : ℤ} (hu : use ∈ c.startUses) (hop : (c.irBase use).op = .param)
    (hint : (c.irBase use).type.isInt = true) {size align : ℕ} (hv : c.valueParam use = some (size, align)) :
    size = 0 := by
  by_contra hne
  obtain ⟨l, l', hl⟩ := List.append_of_mem hu
  unfold Ctx.calcArgsStack at h
  rw [hl, List.foldl_append, List.foldl_cons] at h
  have h1 : 0 < (c.argsStackStep (c.getCallConvDsc c.conv)
      (l.foldl (c.argsStackStep (c.getCallConvDsc c.conv)) ⟨0, 0, 0⟩) use).stackOffset :=
    stackOffset_pos hop hint hv (Nat.pos_of_ne_zero hne)
  have h2 := stackOffset_foldl (c := c) (c.getCallConvDsc c.conv) l'
    (c.argsStackStep (c.getCallConvDsc c.conv) (l.foldl (c.argsStackStep (c.getCallConvDsc c.conv)) ⟨0, 0, 0⟩) use)
  omega

/-! ### Executions -/

/-- What the values, the locals and the rest of the world hold of the addresses of locals. -/
structure State where
  val : ℤ → Set ℤ
  holds : ℤ → Set ℤ
  world : Set ℤ

/-- At the entry nobody knows an address of the frame. -/
def State.start : State := ⟨fun _ => ∅, fun _ => ∅, ∅⟩

/-- The value of an operand.  A constant is no address of a local. -/
def State.get (s : State) (ref : ℤ) : Set ℤ := {l | Ctx.isConstRef ref = false ∧ l ∈ s.val ref}

/-- The locals that go into some operands. -/
def State.carried (s : State) (refs : List ℤ) : Set ℤ := {l | ∃ ref ∈ refs, l ∈ s.get ref}

/-- What a function reaches that is given some addresses. -/
inductive Reaches (s : State) (given : Set ℤ) : ℤ → Prop
  | given {l : ℤ} : l ∈ given → Reaches s given l
  | world {l : ℤ} : l ∈ s.world → Reaches s given l
  | holds {l m : ℤ} : Reaches s given l → m ∈ s.holds l → Reaches s given m

/-- The locals: the variables, the ALLOCAs, and the structures passed by value that have bytes. -/
def IsStructParam (c : Ctx) (ref : ℤ) : Prop :=
  (c.irBase ref).type.isInt = true ∧ ∃ size align, c.valueParam ref = some (size, align) ∧ 0 < size

/-- Addresses are written to the memory of a local. -/
def State.addTo (s : State) (l : ℤ) (v : Set ℤ) : State :=
  { s with holds := Function.update s.holds l (s.holds l ∪ v) }

def State.setVal (s : State) (ref : ℤ) (v : Set ℤ) : State := { s with val := Function.update s.val ref v }

/-- One instruction is executed.  An access through an address computed from that of a local is an access to it. -/
inductive Step (c : Ctx) (s : State) : ℤ → State → Prop
  | param {ref : ℤ} {v : Set ℤ} : (c.irBase ref).op = .param → v ⊆ {l | l = ref ∧ IsStructParam c ref} →
      Step c s ref (s.setVal ref v)
  | vaddr {ref : ℤ} : (c.irBase ref).op = .vaddr → Step c s ref (s.setVal ref {(c.irBase ref).op1})
  | alloca {ref : ℤ} : (c.irBase ref).op = .alloca → Step c s ref (s.setVal ref {ref})
  | data {ref : ℤ} {v : Set ℤ} : (c.irBase ref).op = .data → v ⊆ s.carried (c.irBase ref).inputs →
      Step c s ref (s.setVal ref v)
  | loadLocal {ref l : ℤ} {v : Set ℤ} : (c.irBase ref).op = .load → l ∈ s.get (c.irBase ref).op2 → v ⊆ s.holds l →
      Step c s ref (s.setVal ref v)
  | loadWorld {ref : ℤ} {v : Set ℤ} : (c.irBase ref).op = .load → s.get (c.irBase ref).op2 = ∅ → v ⊆ s.world →
      Step c s ref (s.setVal ref v)
  | vload {ref : ℤ} {v : Set ℤ} : (c.irBase ref).op = .vload → v ⊆ s.holds (c.irBase ref).op2 →
      Step c s ref (s.setVal ref v)
  | storeLocal {ref l : ℤ} : (c.irBase ref).op = .store → l ∈ s.get (c.irBase ref).op2 →
      Step c s ref (s.addTo l (s.get (c.irBase ref).op3))
  | storeWorld {ref : ℤ} : (c.irBase ref).op = .store → s.get (c.irBase ref).op2 = ∅ →
      Step c s ref { s with world := s.world ∪ s.get (c.irBase ref).op3 }
  | vstore {ref : ℤ} : (c.irBase ref).op = .vstore →
      Step c s ref (s.addTo (c.irBase ref).op2 (s.get (c.irBase ref).op3))
  /-- The callee may write what it reaches to where it reaches, keep it, and return it. -/
  | call {ref : ℤ} {v : Set ℤ} : (c.irBase ref).op = .call →
      v ⊆ {l | Reaches s (s.carried (c.irBase ref).inputs) l} →
      Step c s ref
        { val := Function.update s.val ref v
          holds := fun l => s.holds l ∪ {m | Reaches s (s.carried (c.irBase ref).inputs) l ∧
            Reaches s (s.carried (c.irBase ref).inputs) m}
          world := {l | Reaches s (s.carried (c.irBase ref).inputs) l} }
  | other {ref : ℤ} : Step c s ref s

/-- The instruction keeps the addresses of locals in the frame: it neither stores one elsewhere nor passes one to a
function that returns. -/
def Confined (c : Ctx) (s : State) (ref : ℤ) : Prop :=
  ((c.irBase ref).op = .store → s.get (c.irBase ref).op2 = ∅ → s.get (c.irBase ref).op3 = ∅) ∧
    ((c.irBase ref).op = .call → s.carried (c.irBase ref).inputs = ∅)

/-- The states of all executions. -/
def Run (c : Ctx) : State → Prop := Relation.ReflTransGen (fun s s' => ∃ ref, Step c s ref s') State.start

/-- The states of the executions whose instructions keep the addresses of locals. -/
def ConfinedRun (c : Ctx) : State → Prop :=
  Relation.ReflTransGen (fun s s' => ∃ ref, Confined c s ref ∧ Step c s ref s') State.start

theorem ConfinedRun.run {s : State} (h : ConfinedRun c s) : Run c s := by
  induction h with
  | refl => exact Relation.ReflTransGen.refl
  | tail _ hstep ih =>
    obtain ⟨ref, -, hstep⟩ := hstep
    exact ih.tail ⟨ref, hstep⟩

/-- The use list of START has every PARAM. -/
def ParamsListed (c : Ctx) : Prop := ∀ ref, (c.irBase ref).op = .param → ref ∈ c.startUses

/-- A PARAM is written by its own step only. -/
theorem Step.param_val {s s' : State} (h : Step c s ref s') {p : ℤ} (hp : (c.irBase p).op = .param) :
    s'.val p = s.val p ∨ s'.val p ⊆ {l | l = p ∧ IsStructParam c p} := by
  -- all other instructions write the value of an instruction that is no PARAM
  have hother : ∀ v : Set ℤ, (c.irBase ref).op ≠ .param → (s.setVal ref v).val p = s.val p := by
    intro v hne
    refine Function.update_of_ne ?_ _ _
    rintro rfl
    exact hne hp
  cases h with
  | param hop hv =>
    by_cases h : p = ref
    · subst h
      right
      change Function.update s.val p _ p ⊆ _
      rw [Function.update_self]
      exact hv
    · exact Or.inl (Function.update_of_ne h _ _)
  | vaddr hop => exact Or.inl (hother _ (by rw [hop]; decide))
  | alloca hop => exact Or.inl (hother _ (by rw [hop]; decide))
  | data hop _ => exact Or.inl (hother _ (by rw [hop]; decide))
  | loadLocal hop _ _ => exact Or.inl (hother _ (by rw [hop]; decide))
  | loadWorld hop _ _ => exact Or.inl (hother _ (by rw [hop]; decide))
  | vload hop _ => exact Or.inl (hother _ (by rw [hop]; decide))
  | storeLocal _ _ => exact Or.inl rfl
  | storeWorld _ _ => exact Or.inl rfl
  | vstore _ => exact Or.inl rfl
  | call hop _ => exact Or.inl (hother _ (by rw [hop]; decide))
  | other => exact Or.inl rfl

/-- **No PARAM is the address of a local**, in a function that has tail calls. -/
theorem Run.param {s : State} (hrun : Run c s) (hlist : ParamsListed c) (hstack : c.calcArgsStack = 0) {p : ℤ}
    (hp : (c.irBase p).op = .param) : s.val p = ∅ := by
  induction hrun with
  | refl => rfl
  | tail _ hstep ih =>
    obtain ⟨ref, hstep⟩ := hstep
    rcases hstep.param_val hp with h | h
    · rw [h, ih]
    · refine Set.subset_empty_iff.mp fun l hl => ?_
      obtain ⟨-, hint, size, align, hv, hpos⟩ := h hl
      have := size_eq_zero hstack (hlist p hp) hp hint hv
      omega

/-- The world learns nothing from a confined instruction. -/
theorem Step.world_eq_empty {s s' : State} (h : Step c s ref s') (hc : Confined c s ref) (hw : s.world = ∅) :
    s'.world = ∅ := by
  cases h with
  | storeWorld hop hp =>
    change s.world ∪ _ = ∅
    rw [hw, hc.1 hop hp, Set.union_empty]
  | call hop _ =>
    have hnone : ∀ l, ¬ Reaches s (s.carried (c.irBase ref).inputs) l := by
      rw [hc.2 hop]
      intro l hl
      induction hl with
      | given h => exact h
      | world h => rw [hw] at h; exact h
      | holds _ _ ih => exact ih
    exact Set.eq_empty_iff_forall_notMem.mpr hnone
  | _ => exact hw

theorem ConfinedRun.world_eq_empty {s : State} (h : ConfinedRun c s) : s.world = ∅ := by
  induction h with
  | refl => rfl
  | tail _ hstep ih =>
    obtain ⟨ref, hc, hstep⟩ := hstep
    exact hstep.world_eq_empty hc ih

/-- **What the callee of a tail call reaches**, in any execution: nothing, if and only if nothing is in the world or in
the arguments that were not inspected. -/
theorem reaches_iff {s : State} (hrun : Run c s) (hlist : ParamsListed c) (A : Accepted c rules call) :
    (∀ l, ¬ Reaches s (s.carried (c.irBase call).inputs) l) ↔
      s.world = ∅ ∧ ∀ arg ∈ (c.irBase call).inputs, (c.irBase arg).type ≠ .addr → s.get arg = ∅ := by
  constructor
  · intro h
    refine ⟨Set.eq_empty_iff_forall_notMem.mpr fun l hl => h l (.world hl), fun arg harg _ => ?_⟩
    exact Set.eq_empty_iff_forall_notMem.mpr fun l hl => h l (.given ⟨arg, harg, hl⟩)
  · rintro ⟨hworld, hargs⟩
    have hgiven : ∀ arg ∈ (c.irBase call).inputs, s.get arg = ∅ := by
      intro arg harg
      by_cases htype : (c.irBase arg).type = .addr
      · -- an address that was let through is a constant or a PARAM
        have hpass := A.args
        unfold Ctx.passesLocalAddr at hpass
        rw [List.any_eq_false] at hpass
        have hp := hpass arg harg
        refine Set.eq_empty_iff_forall_notMem.mpr fun l hl => ?_
        obtain ⟨hconst, hl⟩ := hl
        have hparam : (c.irBase arg).op = .param := by
          by_contra hne
          refine hp ?_
          unfold Ctx.mayBeLocalAddr
          simp [hconst, htype, hne]
        rw [hrun.param hlist A.argsStack hparam] at hl
        exact hl
      · exact hargs arg harg htype
    intro l hl
    induction hl with
    | given h =>
      obtain ⟨arg, harg, h⟩ := h
      rw [hgiven arg harg] at h
      exact h
    | world h => rw [hworld] at h; exact h
    | holds _ _ ih => exact ih

/-! ### A leak -/

/-- `int x; return g((uintptr_t)&x);`, or with another argument of `g`. -/
def tailCallOf (arg : ℤ) : Ctx where
  irBase ref :=
    if ref = 1 then ⟨.start, .void, 6, 0, 0, [], 0⟩
    else if ref = 3 then ⟨.vaddr, .addr, 2, 0, 0, [], 0⟩
    else if ref = 4 then ⟨.data, .u64, 0, 0, 0, [3], 0⟩
    else if ref = 5 then ⟨.call, .i32, 1, -1, 0, [arg], 0⟩
    else if ref = 6 then ⟨.ret, .void, 5, 5, 0, [], 0⟩
    else if ref = -1 then ⟨.func, .addr, 0, 0, 0, [], 1⟩
    else ⟨.other, .u64, 0, 0, 0, [], 0⟩
  conv := 0
  protoConv _ := 0
  callConvDefault := sysvDsc
  builtinRule _ := none
  startUses := []
  valueParams := none

end IrJit.Emit
