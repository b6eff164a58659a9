import IrJit.EmitC.Vars

/-!
# EmitC.Order — when the text keeps the order of variable accesses

The text and the IR execute the same sequence of instructions.  A ghost state records what has been
executed, which `VLOAD`s may still be printed as the name of their variable (nothing has been printed
that assigns the variable since), and which variables already hold a value whose `VSTORE` is still to
come.  `Ok` is the condition on a step; it does not look at values.
-/

namespace IrJit.EmitC

variable (F : Func) {V : Type} (M : Meaning V)

structure Ghost where
  done : ℕ → Bool
  good : ℕ → Bool
  owner : ℕ → Option ℕ

def Ghost.mark (g : Ghost) (i : ℕ) : Ghost := { g with done := Function.update g.done i true }

/-- A statement assigns the variables in `p`. -/
def Ghost.touch (g : Ghost) (p : ℕ → Bool) : Ghost :=
  { g with good := fun l => g.good l && !p (F.insn l).var }

def Ghost.own (g : Ghost) (x : ℕ) (o : Option ℕ) : Ghost :=
  { g with owner := Function.update g.owner x o }

/-- The statement of `i` assigns what `ir_emit_def_ref` prints. -/
def Ghost.define (g : Ghost) (i : ℕ) : Ghost :=
  match emitDefRef F i with
  | .d _ => g
  | .var x => (g.touch F (· = x)).own x (some i)

def ghostStep (s : State V) (g : Ghost) : Event → Ghost
  | .moves copies => { g with done := fun r => g.done r || (copies.lookup r).isSome }
  | .insn i =>
    let x := (F.insn i).var
    match form F i with
    | .skip | .read => g
    | .raw => g.mark i
    | .assign => (g.mark i).define F i
    | .vload => { g.mark i with good := Function.update g.good i (g.owner x).isNone }
    | .vstore =>
      match operands F i with
      | [a] =>
        if useCount F a ≠ 1 then (g.touch F (· = x)).own x none else g.own x none
      | _ => g
    | .load | .store | .call =>
      let w := (M.eff i ((operands F i).map (irRead M s)) s.var).2
      let g' := (g.mark i).touch F fun x => (w x).isSome
      if printsDef F i then g'.define F i else g'

/-! ## The condition on a step -/

/-- A `VLOAD` that `ir_emit_ref` prints has not been overtaken. -/
def OkRef (g : Ghost) : Opnd → Prop
  | .const _ => True
  | .ref r => isVload (F.insn r).op = true → g.good r = true

/-- An operand printed as `d_N` is not a `VLOAD`, which has no such variable. -/
def OkReg : Opnd → Prop
  | .const _ => True
  | .ref r => isVload (F.insn r).op = false

instance (g : Ghost) : DecidablePred (OkRef F g)
  | .const _ => isTrue trivial
  | .ref r => inferInstanceAs (Decidable (isVload (F.insn r).op = true → g.good r = true))

/-- No variable that a callee or a pointer can reach waits for a `VSTORE`. -/
def Settled (g : Ghost) : Prop := ∀ x, M.escaped x = true → g.owner x = none

def Ok (g : Ghost) : Event → Prop
  | .moves copies => ∀ p ∈ copies, OkReg F p.2
  | .insn i =>
    match form F i with
    | .skip | .vload => True
    | .assign | .raw | .read => ∀ a ∈ operands F i, OkRef F g a
    -- a `VSTORE` that prints nothing: the variable holds the stored value already
    | .vstore =>
      ∀ a ∈ operands F i, OkRef F g a ∧
        (useCount F a = 1 → (g.owner (F.insn i).var).map Opnd.ref = some a)
    | .load | .store =>
      (∀ a ∈ (operands F i).head?, OkReg F a) ∧ (∀ a ∈ (operands F i).tail, OkRef F g a) ∧
        Settled M g
    | .call => (∀ a ∈ operands F i, OkRef F g a) ∧ Settled M g

/-! ## Functions and runs -/

/-- The instruction has a value that an operand may refer to. -/
def HasValue (r : ℕ) : Prop :=
  form F r = .vload ∨ form F r = .raw ∨ form F r = .assign ∨ form F r = .load ∨
    (F.insn r).op = .phi ∨ ((F.insn r).op = .call ∧ (F.insn r).type ≠ .void) ∨
    (F.insn r).op = .vaArg

instance : DecidablePred (HasValue F) := fun r =>
  inferInstanceAs (Decidable (_ ∨ _ ∨ _ ∨ _ ∨ _ ∨ (_ ∧ (F.insn r).type ≠ .void) ∨ _))

/-- What a function in SSA form guarantees. -/
structure WellFormed : Prop where
  refs_lt : ∀ u < F.size, ∀ r ∈ (F.insn u).refs, r < F.size
  /-- A call is the control operand of the instruction that follows it. -/
  ctrl_used : ∀ r < F.size, (F.insn r).op = .call → ∃ u < F.size, (F.insn u).ctrl = some r
  vstore_args : ∀ i < F.size, form F i = .vstore → (F.insn i).args.length = 1

/-- The operand has been executed. -/
def Avail (g : Ghost) : Opnd → Prop
  | .const _ => True
  | .ref r => g.done r = true ∧ HasValue F r

instance (g : Ghost) : DecidablePred (Avail F g)
  | .const _ => isTrue trivial
  | .ref r => inferInstanceAs (Decidable (g.done r = true ∧ HasValue F r))

/-- The event comes after its operands. -/
def Ready (g : Ghost) : Event → Prop
  | .moves copies =>
    ∀ p ∈ copies, p.1 < F.size ∧ (F.insn p.1).op = .phi ∧ p.2 ∈ (F.insn p.1).args ∧ Avail F g p.2
  | .insn i => i < F.size ∧ ∀ a ∈ operands F i, Avail F g a

/-- The two executions and the ghost state. -/
structure Config (V : Type) where
  ir : State V
  c : State V
  ghost : Ghost

def step (k : Config V) (e : Event) : Config V where
  ir := irStep F M k.ir e
  c := cStep F M k.c e
  ghost := ghostStep F M k.ir k.ghost e

/-- Before the first instruction both executions see the same variables. -/
def start (s : State V) : Config V where
  ir := s
  c := s
  ghost := { done := fun _ => false, good := fun _ => false, owner := fun _ => none }

/-- `P` holds at every state of a run, for the event that comes next. -/
def Along (P : Config V → Event → Prop) : Config V → List Event → Prop
  | _, [] => True
  | k, e :: events => P k e ∧ Along P (step F M k e) events

/-- What a step reads in the text is what it reads in the IR: its operands, and for a memory
instruction or a call the variables it can reach. -/
def Faithful (k : Config V) : Event → Prop
  | .moves copies => ∀ p ∈ copies, emitReg M k.c p.2 = irRead M k.ir p.2
  | .insn i =>
    match form F i with
    | .skip | .vload => True
    | .assign | .raw | .read => printed F M k.c i = (operands F i).map (irRead M k.ir)
    | .vstore => ∀ a ∈ operands F i, useCount F a ≠ 1 → emitRef F M k.c a = irRead M k.ir a
    | .load | .store | .call =>
      printed F M k.c i = (operands F i).map (irRead M k.ir) ∧
        ∀ x, M.escaped x = true → k.c.var x = k.ir.var x

/-! ## Use lists -/

variable {F} {M}

theorem mem_useList {r u : ℕ} : u ∈ useList F r ↔ u < F.size ∧ r ∈ (F.insn u).refs := by
  unfold useList
  simp only [List.mem_flatMap, List.mem_range, List.mem_replicate]
  constructor
  · rintro ⟨a, ha, hne, rfl⟩
    exact ⟨ha, List.count_pos_iff.1 (Nat.pos_of_ne_zero hne)⟩
  · rintro ⟨hu, hr⟩
    exact ⟨u, hu, Nat.pos_iff_ne_zero.1 (List.count_pos_iff.2 hr), rfl⟩

theorem mem_refs_of_arg {q r : ℕ} (h : .ref r ∈ (F.insn q).args) : r ∈ (F.insn q).refs := by
  unfold Insn.refs
  rw [List.mem_append, List.mem_filterMap]
  exact Or.inr ⟨.ref r, h, rfl⟩

/-- A value with a use other than a `VSTORE` is assigned to its own C variable. -/
theorem emitDefRef_of_use {q r : ℕ} (hq : q < F.size) (h : .ref r ∈ (F.insn q).args)
    (hv : isVstore (F.insn q).op = false) : emitDefRef F r = .d r := by
  have hmem : q ∈ useList F r := mem_useList.2 ⟨hq, mem_refs_of_arg h⟩
  unfold emitDefRef
  split
  · next u hu =>
    rw [hu, List.mem_singleton] at hmem
    subst hmem
    rw [hv]
    rfl
  · rfl

theorem emitDefRef_of_count {r : ℕ} (h : useCount F (.ref r) ≠ 1) : emitDefRef F r = .d r := by
  unfold emitDefRef
  split
  · next u hu =>
    rw [useCount, hu] at h
    exact absurd rfl h
  · rfl

/-- A call that is used as a value has a virtual register: it is also used by the instruction that
follows it. -/
theorem one_lt_useCount {r q u : ℕ} (hq : q < F.size) (h : .ref r ∈ (F.insn q).args)
    (hu : u < F.size) (hc : (F.insn u).ctrl = some r) : 1 < useCount F (.ref r) := by
  show 1 < (useList F r).length
  by_cases hqu : q = u
  · -- the instruction that follows the call also takes its value
    subst hqu
    have hcount : 2 ≤ (F.insn q).refs.count r := by
      have harg : 0 < ((F.insn q).args.filterMap Opnd.toRef?).count r :=
        List.count_pos_iff.2 (List.mem_filterMap.2 ⟨.ref r, h, rfl⟩)
      unfold Insn.refs
      rw [hc, List.count_append]
      simp only [Option.toList_some, List.count_singleton_self]
      omega
    have hsub : (List.replicate ((F.insn q).refs.count r) q).Sublist (useList F r) := by
      apply List.sublist_flatten_of_mem
      exact List.mem_map.2 ⟨q, List.mem_range.2 hq, rfl⟩
    have hle := hsub.length_le
    rw [List.length_replicate] at hle
    omega
  · have hmq : q ∈ useList F r := mem_useList.2 ⟨hq, mem_refs_of_arg h⟩
    have hmu : u ∈ useList F r := by
      refine mem_useList.2 ⟨hu, ?_⟩
      unfold Insn.refs
      rw [hc]
      simp
    by_contra hlen
    match hl : useList F r with
    | [] => simp [hl] at hmq
    | [z] =>
      rw [hl, List.mem_singleton] at hmq hmu
      exact hqu (hmq.trans hmu.symm)
    | _ :: _ :: _ => simp [hl] at hlen

end IrJit.EmitC
