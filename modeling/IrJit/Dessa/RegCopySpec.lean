import IrJit.Lib.Orbit
import IrJit.Lib.Windmill
import IrJit.Dessa.RegCopy

/-!
# Dessa.RegCopySpec — what the loops of `ir_parallel_copy` leave in the registers

`Carried` are the registers a set of copies runs on, `CopyInv` the invariant of both loops.  `X s` is the value
that the readers of the source `s` get in the end.
-/

namespace IrJit.Dessa.Regs

/-! ### Values -/

/-- What a move at `type` makes of a value. -/
def carry (type : IrType) (v : Word) : Word := if type.isInt then movExtVal type 0 v else v

theorem movExtVal_old (type : IrType) (old v : Word) : movExtVal type old v = movExtVal type 0 v := by
  unfold movExtVal writeGp mergeLow
  cases type <;> simp [IrType.size]

/-- Extending `k` bits to 32 keeps the low ones. -/
theorem agree_signExtend {n k : ℕ} (hn : 8 * n ≤ k) (hk : k ≤ 32) (v : Word) :
    Agree n (((v.setWidth k).signExtend 32).setWidth 64) v := by
  unfold Agree
  ext i hi
  have hik : i < k := by omega
  simp [BitVec.getLsbD_signExtend, hik]
  omega

theorem agree_zeroExtend {n k : ℕ} (hn : 8 * n ≤ k) (hk : k ≤ 32) (v : Word) :
    Agree n ((v.setWidth k).setWidth 64) v := by
  unfold Agree
  ext i hi
  have hik : i < k := by omega
  simp [hik]
  omega

theorem agree_extend32 {type : IrType} (h : type.size ≤ 2) (v : Word) : Agree type.size (extend32 type v) v := by
  have hle : 8 * type.size ≤ if type.size = 2 then 16 else 8 := by
    split_ifs
    · omega
    · omega
  have hlt : (if type.size = 2 then 16 else 8) ≤ 32 := by
    split_ifs
    · omega
    · omega
  unfold extend32
  dsimp only
  split
  · exact agree_signExtend hle hlt v
  · exact agree_zeroExtend hle hlt v

theorem agree_movExtVal (type : IrType) (old v : Word) : Agree type.size (movExtVal type old v) v := by
  unfold movExtVal
  split_ifs with h
  · exact agree_writeGp _ _ _
  · exact agree_extend32 (by omega) v

theorem agree_carry (type : IrType) (v : Word) : Agree type.size (carry type v) v := by
  unfold carry
  split_ifs
  · exact agree_movExtVal type 0 v
  · exact Agree.refl _ v

/-- Only the bytes of the type count. -/
theorem carry_congr {type : IrType} (hv : type ≠ .void) (h : type.isInt = true) {v w : Word}
    (ha : Agree type.size v w) : carry type v = carry type w := by
  unfold carry
  rw [if_pos h, if_pos h]
  unfold Agree at ha
  cases type <;> simp_all [IrType.isInt, movExtVal, extend32, writeGp, mergeLow, IrType.size]

theorem carry_carry {type : IrType} (hv : type ≠ .void) (v : Word) : carry type (carry type v) = carry type v := by
  by_cases h : type.isInt = true
  · exact carry_congr hv h (agree_carry type v)
  · unfold carry
    rw [if_neg h, if_neg h]

@[simp] theorem carry_zero (type : IrType) : carry type 0 = 0 := by
  cases type <;> decide

theorem writeGp_zero (n : ℕ) : writeGp n 0 0 = 0 := by
  simp [writeGp, mergeLow]

/-! ### Execution -/

theorem execCopies_append (l l' : List CopyInstr) (σ : Regs) :
    execCopies (l ++ l') σ = (execCopies l σ).bind (execCopies l') := by
  induction l generalizing σ with
  | nil => rfl
  | cons i l ih =>
    simp only [List.cons_append, execCopies]
    cases i.exec σ with
    | none => rfl
    | some σ' => exact ih σ'

theorem execCopies_snoc {l : List CopyInstr} {i : CopyInstr} {σ₀ σ σ' : Regs} (h : execCopies l σ₀ = some σ)
    (hi : i.exec σ = some σ') : execCopies (l ++ [i]) σ₀ = some σ' := by
  rw [execCopies_append, h, Option.bind_some, execCopies, hi, Option.bind_some, execCopies]

/-- The register class of a type. -/
def InClass (type : IrType) (r : ℕ) : Prop := if type.isInt then isGpReg r = true else isFpReg r = true

theorem InClass.isInt_eq {t u : IrType} {r : ℕ} (h : InClass t r) (h' : InClass u r) : t.isInt = u.isInt := by
  unfold InClass at h h'
  unfold isGpReg isFpReg at h h'
  cases ht : t.isInt <;> cases hu : u.isInt <;> simp_all <;> omega

theorem exec_emitCopyExt {type : IrType} {dst src : ℕ} (hd : InClass type dst) (hs : InClass type src) (σ : Regs) :
    (emitCopyExt type dst src).exec σ = some (Function.update σ dst (carry type (σ src))) := by
  unfold InClass at hd hs
  unfold emitCopyExt carry
  split_ifs at hd hs ⊢ with h
  · simp [CopyInstr.exec, hd, hs, movExtVal_old type (σ dst)]
  · simp [CopyInstr.exec, hd, hs]

/-! ### The invariant of the loops -/

/-- The destinations `D`, their sources and the types of the moves out of these. -/
structure Carried (D : Finset ℕ) (pred : ℕ → ℕ) (types : ℕ → IrType) : Prop where
  ne : ∀ d ∈ D, pred d ≠ d
  dst : ∀ d ∈ D, InClass (types (pred d)) d
  src : ∀ d ∈ D, InClass (types (pred d)) (pred d)
  void : ∀ d ∈ D, types (pred d) ≠ .void

/-- The invariant. -/
structure CopyInv (D : Finset ℕ) (pred : ℕ → ℕ) (types : ℕ → IrType) (σ₀ X : Regs) (ready : Finset ℕ)
    (st : CopyState) (σ : Regs) : Prop where
  run : execCopies st.code σ₀ = some σ
  copies : Copies pred (fun s v => carry (types s) v = X s) (fun d v => v = X (pred d)) D (st.todo ∪ ready) st.loc σ
  free : ∀ b ∈ ready, ∀ d ∈ D, pred d = b → st.loc b ≠ b
  stuck : ∀ b ∈ st.todo, b ∉ ready → ∃ d ∈ D, pred d = b ∧ st.loc b = b
  inClass : ∀ d ∈ D, InClass (types (pred d)) (st.loc (pred d))
  kept : ∀ x ∈ st.todo ∪ ready, σ x = σ₀ x
  /-- zero registers stay zero, but for those that wait and are read -/
  zero : (∀ x ∉ st.todo \ ready, σ₀ x = 0) → ∀ x ∉ st.todo \ ready, σ x = 0

section Loops

variable {D : Finset ℕ} {pred : ℕ → ℕ} {types : ℕ → IrType} {σ₀ σ X : Regs} {ready : Finset ℕ} {st : CopyState}
  {dst : ℕ}

/-- The registers that are ready after one move. -/
def nextReady (pred : ℕ → ℕ) (ready : Finset ℕ) (st : CopyState) (dst : ℕ) : Finset ℕ :=
  if pred dst = st.loc (pred dst) ∧ pred dst ∈ st.todo.erase dst then insert (pred dst) (ready.erase dst)
  else ready.erase dst

theorem mem_nextReady {x : ℕ} (h : x ∈ nextReady pred ready st dst) :
    (x = pred dst ∧ pred dst = st.loc (pred dst) ∧ pred dst ∈ st.todo.erase dst) ∨ (x ≠ dst ∧ x ∈ ready) := by
  unfold nextReady at h
  split_ifs at h with hf
  · rcases Finset.mem_insert.mp h with rfl | h
    · exact Or.inl ⟨rfl, hf⟩
    · exact Or.inr (Finset.mem_erase.mp h)
  · exact Or.inr (Finset.mem_erase.mp h)

theorem mem_nextReady_of_ready {x : ℕ} (hne : x ≠ dst) (h : x ∈ ready) : x ∈ nextReady pred ready st dst := by
  unfold nextReady
  split_ifs
  · exact Finset.mem_insert_of_mem (Finset.mem_erase.mpr ⟨hne, h⟩)
  · exact Finset.mem_erase.mpr ⟨hne, h⟩

theorem mem_nextReady_freed (h : pred dst = st.loc (pred dst)) (hT : pred dst ∈ st.todo.erase dst) :
    pred dst ∈ nextReady pred ready st dst := by
  unfold nextReady
  rw [if_pos ⟨h, hT⟩]
  exact Finset.mem_insert_self _ _

/-- What waits after one move. -/
theorem waiting_move (st : CopyState) (ready : Finset ℕ) (dst : ℕ) :
    st.todo.erase dst ∪ nextReady pred ready st dst = (st.todo ∪ ready).erase dst := by
  ext x
  simp only [Finset.mem_union, Finset.mem_erase]
  constructor
  · rintro (⟨h1, h2⟩ | h)
    · exact ⟨h1, Or.inl h2⟩
    · rcases mem_nextReady h with ⟨rfl, -, h⟩ | ⟨h1, h2⟩
      · obtain ⟨h1, h2⟩ := Finset.mem_erase.mp h
        exact ⟨h1, Or.inl h2⟩
      · exact ⟨h1, Or.inr h2⟩
  · rintro ⟨h1, h2 | h2⟩
    · exact Or.inl ⟨h1, h2⟩
    · exact Or.inr (mem_nextReady_of_ready h1 h2)

/-- The readers that a move leaves waiting are among those before. -/
theorem sdiff_move_subset (st : CopyState) (dst : ℕ) :
    st.todo.erase dst \ nextReady pred ready st dst ⊆ st.todo \ ready := by
  intro x hx
  obtain ⟨h1, h2⟩ := Finset.mem_sdiff.mp hx
  obtain ⟨hne, h3⟩ := Finset.mem_erase.mp h1
  exact Finset.mem_sdiff.mpr ⟨h3, fun h => h2 (mem_nextReady_of_ready hne h)⟩

/-- **One move** of either loop. -/
theorem CopyInv.move (C : Carried D pred types) (I : CopyInv D pred types σ₀ X ready st σ) (hdst : dst ∈ ready) :
    CopyInv D pred types σ₀ X (nextReady pred ready st dst) (st.moveInto pred types dst).1
      (Function.update σ dst (carry (types (pred dst)) (σ (st.loc (pred dst))))) := by
  have hT : dst ∈ st.todo ∪ ready := Finset.mem_union_right _ hdst
  have hD := I.copies.sub hT
  have hvalue := I.copies.need dst hT
  unfold CopyState.moveInto
  dsimp only at hvalue ⊢
  refine ⟨?_, ?_, ?_, ?_, ?_, ?_, ?_⟩
  · exact execCopies_snoc I.run (exec_emitCopyExt (C.dst dst hD) (I.inClass dst hD) σ)
  · dsimp only
    rw [waiting_move, hvalue]
    refine I.copies.step hT (fun d hd hp => I.free dst hdst d hd hp) rfl ?_
    rw [← hvalue]
    exact carry_carry (C.void dst hD) _
  · intro x hx d hd hp
    dsimp only
    by_cases hxa : x = pred dst
    · rw [hxa, Function.update_self]
      exact (C.ne dst hD).symm
    · rw [Function.update_of_ne hxa]
      rcases mem_nextReady hx with ⟨h, -⟩ | ⟨-, h⟩
      · exact absurd h hxa
      · exact I.free x h d hd hp
  · intro x hx hn
    dsimp only at hx ⊢
    obtain ⟨hne, hxt⟩ := Finset.mem_erase.mp hx
    obtain ⟨d, hd, hp, hloc⟩ := I.stuck x hxt (fun h => hn (mem_nextReady_of_ready hne h))
    refine ⟨d, hd, hp, ?_⟩
    by_cases hxa : x = pred dst
    · -- the source that has just been freed is ready
      refine absurd ?_ hn
      rw [hxa]
      refine mem_nextReady_freed ?_ ?_
      · rw [← hxa, hloc]
      · rwa [← hxa]
    · rw [Function.update_of_ne hxa, hloc]
  · intro d hd
    dsimp only
    by_cases hp : pred d = pred dst
    · rw [hp, Function.update_self]
      exact C.dst dst hD
    · rw [Function.update_of_ne hp]
      exact I.inClass d hd
  · intro x hx
    dsimp only at hx
    rw [waiting_move] at hx
    obtain ⟨hne, hx⟩ := Finset.mem_erase.mp hx
    rw [Function.update_of_ne hne]
    exact I.kept x hx
  · dsimp only
    intro h0
    have hsub : st.todo.erase dst \ nextReady pred ready st dst ⊆ st.todo \ ready := sdiff_move_subset st dst
    have hzero := I.zero (fun x hx => h0 x (fun h => hx (hsub h)))
    -- what waits holds its first value, zero too unless it is still read
    have hall : ∀ x ∉ st.todo.erase dst \ nextReady pred ready st dst, σ x = 0 := by
      intro x hx
      by_cases h : x ∈ st.todo \ ready
      · rw [I.kept x (Finset.mem_union_left _ (Finset.mem_sdiff.mp h).1)]
        exact h0 x hx
      · exact hzero x h
    have hloc : st.loc (pred dst) ∉ st.todo.erase dst \ nextReady pred ready st dst := by
      intro h
      obtain ⟨h1, h2⟩ := Finset.mem_sdiff.mp h
      have hw := Finset.mem_of_mem_erase h1
      rcases I.copies.loc dst hD with ⟨hown, -, -⟩ | ⟨-, hn, -⟩ | hn
      · rw [hown] at h1 h2
        exact h2 (mem_nextReady_freed hown.symm h1)
      · exact hn (Finset.mem_union_left _ hw)
      · exact hn (I.copies.sub (Finset.mem_union_left _ hw))
    intro x hx
    by_cases hxd : x = dst
    · rw [hxd, Function.update_self, hall _ hloc, carry_zero]
    · rw [Function.update_of_ne hxd]
      exact hall x hx

theorem resolveBlades_of_mem {fuel : ℕ} (h : firstBit ready = some dst) :
    resolveBlades pred types (fuel + 1) ready st =
      resolveBlades pred types fuel (nextReady pred ready st dst) (st.moveInto pred types dst).1 := by
  rw [resolveBlades, h]
  simp [CopyState.moveInto, nextReady]

theorem resolveBlades_empty (fuel : ℕ) (st : CopyState) : resolveBlades pred types (fuel + 1) ∅ st = some st := by
  rw [resolveBlades, firstBit_eq_none.mpr rfl]

/-- **The first loop** ends with nobody ready. -/
theorem resolveBlades_spec (C : Carried D pred types) (fuel : ℕ) : ∀ (ready : Finset ℕ) (st : CopyState) (σ : Regs),
    CopyInv D pred types σ₀ X ready st σ → (st.todo ∪ ready).card < fuel →
    ∃ st' σ', resolveBlades pred types fuel ready st = some st' ∧ CopyInv D pred types σ₀ X ∅ st' σ' ∧
      st'.todo ⊆ st.todo ∪ ready ∧ ∀ b ∈ ready, b ∉ st'.todo := by
  induction fuel with
  | zero =>
    intro ready st σ _ h
    omega
  | succ fuel ih =>
    intro ready st σ I hfuel
    cases hfirst : firstBit ready with
    | none =>
      have hempty := firstBit_eq_none.mp hfirst
      subst hempty
      exact ⟨st, σ, resolveBlades_empty fuel st, I, Finset.subset_union_left, by simp⟩
    | some dst =>
      have hdst := firstBit_mem hfirst
      have hwait : st.todo.erase dst ∪ nextReady pred ready st dst = (st.todo ∪ ready).erase dst :=
        waiting_move st ready dst
      have hcard : (st.todo.erase dst ∪ nextReady pred ready st dst).card < fuel := by
        have := Finset.card_erase_lt_of_mem (Finset.mem_union_right st.todo hdst)
        rw [hwait]
        omega
      obtain ⟨st', σ', hst', I', hsub, hdone⟩ := ih _ _ _ (I.move C hdst) hcard
      change st'.todo ⊆ st.todo.erase dst ∪ nextReady pred ready st dst at hsub
      rw [hwait] at hsub
      rw [resolveBlades_of_mem hfirst]
      refine ⟨st', σ', hst', I', hsub.trans (Finset.erase_subset _ _), fun b hb hm => ?_⟩
      by_cases hbd : b = dst
      · exact Finset.notMem_erase dst _ (hbd ▸ hsub hm)
      · exact hdone b (mem_nextReady_of_ready hbd hb) hm

/-- What leaves the waiting ones is reached from those that were ready. -/
theorem resolveBlades_removed {P : ℕ → Prop} (hP : ∀ x ∈ D, P x → P (pred x)) (fuel : ℕ) :
    ∀ (ready : Finset ℕ) (st st' : CopyState), st.todo ⊆ D → ready ⊆ D → (∀ x ∈ ready, P x) →
    resolveBlades pred types fuel ready st = some st' → ∀ x ∈ st.todo, x ∉ st'.todo → P x := by
  induction fuel with
  | zero =>
    intro ready st st' _ _ _ h
    simp [resolveBlades] at h
  | succ fuel ih =>
    intro ready st st' htodo hready hinit h x hx hn
    cases hfirst : firstBit ready with
    | none =>
      rw [resolveBlades, hfirst] at h
      injection h with h
      exact absurd (h ▸ hx) hn
    | some dst =>
      have hdst := firstBit_mem hfirst
      rw [resolveBlades_of_mem hfirst] at h
      by_cases hxd : x = dst
      · exact hxd ▸ hinit dst hdst
      · have hsub : st.todo.erase dst ⊆ D := (Finset.erase_subset _ _).trans htodo
        refine ih _ _ st' hsub ?_ ?_ h x (Finset.mem_erase.mpr ⟨hxd, hx⟩) hn
        · intro y hy
          rcases mem_nextReady hy with ⟨rfl, -, hy⟩ | ⟨-, hy⟩
          · exact hsub hy
          · exact hready hy
        · intro y hy
          rcases mem_nextReady hy with ⟨rfl, -, -⟩ | ⟨-, hy⟩
          · exact hP dst (hready hdst) (hinit dst hdst)
          · exact hinit y hy

/-- The loop over a cycle is the first loop, with one register ready. -/
theorem copyCycle_eq (fuel : ℕ) : ∀ (dst : ℕ) (st : CopyState),
    copyCycle pred types fuel dst st = resolveBlades pred types (fuel + 1) {dst} st := by
  induction fuel with
  | zero =>
    intro dst st
    have hfirst : firstBit {dst} = some dst := by simp [firstBit]
    rw [resolveBlades_of_mem hfirst]
    rfl
  | succ fuel ih =>
    intro dst st
    have hfirst : firstBit {dst} = some dst := by simp [firstBit]
    rw [resolveBlades_of_mem hfirst, copyCycle]
    unfold nextReady
    simp only [CopyState.moveInto, decide_eq_true_eq, ih]
    split_ifs with h
    · simp
    · simp [resolveBlades_empty]

/-! ### Breaking the cycles -/

/-- With nobody ready, what waits is at its own place. -/
theorem CopyInv.own (I : CopyInv D pred types σ₀ X ∅ st σ) {b : ℕ} (hb : b ∈ st.todo) : st.loc b = b := by
  obtain ⟨d, -, -, h⟩ := I.stuck b hb (Finset.notMem_empty b)
  exact h

/-- …and its readers wait too. -/
theorem CopyInv.reader_mem (I : CopyInv D pred types σ₀ X ∅ st σ) {d : ℕ} (hd : d ∈ D) (h : pred d ∈ st.todo) :
    d ∈ st.todo := by
  have hown := I.own h
  have hwait : st.todo ∪ ∅ = st.todo := Finset.union_empty _
  rcases I.copies.loc d hd with ⟨-, -, h3⟩ | ⟨-, h2, -⟩ | h1
  · exact hwait ▸ h3 d hd rfl
  · rw [hown, hwait] at h2
    exact absurd h h2
  · rw [hown] at h1
    exact absurd (I.copies.sub (hwait.symm ▸ h)) h1

theorem CopyInv.todo_subset (I : CopyInv D pred types σ₀ X ready st σ) : st.todo ⊆ D :=
  Finset.subset_union_left.trans I.copies.sub

theorem CopyInv.exists_reader (I : CopyInv D pred types σ₀ X ∅ st σ) : ∀ b ∈ st.todo, ∃ d ∈ st.todo, pred d = b := by
  intro b hb
  obtain ⟨d, hd, rfl, -⟩ := I.stuck b hb (Finset.notMem_empty b)
  exact ⟨d, I.reader_mem hd hb, rfl⟩

theorem CopyInv.reader_unique (I : CopyInv D pred types σ₀ X ∅ st σ) {d d' : ℕ} (hd : d ∈ D) (hd' : d' ∈ st.todo)
    (hT : pred d' ∈ st.todo) (h : pred d = pred d') : d = d' :=
  Copies.pred_inj_of_stuck I.exists_reader (I.reader_mem hd (h ▸ hT)) hd' h

/-- **Putting a register aside.** -/
theorem CopyInv.saved (I : CopyInv D pred types σ₀ X ∅ st σ) (hdst : dst ∈ st.todo) {tmp : ℕ} {v : Word}
    {save : CopyInstr} (htmp : tmp ∉ D) (hclass : InClass (types dst) tmp)
    (hexec : save.exec σ = some (Function.update σ tmp v)) (hv : σ tmp = 0 → σ dst = 0 → v = 0) :
    CopyInv D pred types σ₀ (Function.update X dst (carry (types dst) v)) {dst} (st.saveTo dst tmp save)
      (Function.update σ tmp v) := by
  have hne : ∀ x ∈ st.todo, x ≠ tmp := by
    rintro x hx rfl
    exact htmp (I.todo_subset hx)
  have hwait : st.todo.erase dst ∪ {dst} = st.todo := by
    rw [Finset.union_comm, ← Finset.insert_eq, Finset.insert_erase hdst]
  unfold CopyState.saveTo
  refine ⟨execCopies_snoc I.run hexec, ?_, ?_, ?_, ?_, ?_, ?_⟩
  · dsimp only
    have h0 := I.copies
    rw [Finset.union_empty] at h0
    rw [hwait]
    refine h0.save htmp ?_ ?_ ?_ ?_
    · intro d hd
      have hp := Copies.pred_mem_of_stuck I.exists_reader d hd
      rw [I.own hp]
      exact hne _ hp
    · intro d _ _
      rw [Function.update_self]
    · intro d _ hp w hw
      rw [Function.update_of_ne hp]
      exact hw
    · intro d hd hn w hw
      rw [Function.update_of_ne]
      · exact hw
      · rintro h
        exact hn (I.reader_mem hd (h ▸ hdst))
  · intro b hb d hd hp
    rw [Finset.mem_singleton.mp hb]
    dsimp only
    rw [Function.update_self]
    exact (hne dst hdst).symm
  · intro b hb _
    dsimp only at hb ⊢
    obtain ⟨hbd, hb⟩ := Finset.mem_erase.mp hb
    rw [Function.update_of_ne hbd]
    exact I.stuck b hb (Finset.notMem_empty b)
  · intro d hd
    dsimp only
    by_cases hp : pred d = dst
    · rw [hp, Function.update_self]
      exact hclass
    · rw [Function.update_of_ne hp]
      exact I.inClass d hd
  · dsimp only
    rw [hwait]
    intro x hx
    rw [Function.update_of_ne (hne x hx)]
    exact I.kept x (Finset.mem_union_left _ hx)
  · dsimp only
    intro h0
    have hall := I.zero (fun x hx => h0 x (fun h => hx (by
      rw [Finset.sdiff_empty]
      exact Finset.mem_of_mem_erase (Finset.mem_sdiff.mp h).1)))
    rw [Finset.sdiff_empty] at hall
    have hdst0 : σ dst = 0 := by
      rw [I.kept dst (Finset.mem_union_left _ hdst)]
      exact h0 dst (by simp)
    intro x hx
    by_cases hxt : x = tmp
    · rw [hxt, Function.update_self]
      exact hv (hall tmp fun h => hne tmp h rfl) hdst0
    · rw [Function.update_of_ne hxt]
      by_cases hxd : x = dst
      · exact hxd ▸ hdst0
      · refine hall x (fun h => hx ?_)
        simp [hxd, h]

/-- **Swapping** two registers that read each other. -/
theorem CopyInv.swapped (C : Carried D pred types) (I : CopyInv D pred types σ₀ X ∅ st σ) (hdst : dst ∈ st.todo)
    (hint : (types (pred dst)).isInt = true) (hback : pred (pred dst) = dst) {type : IrType}
    (htype : type = if (types dst).size > (types (pred dst)).size then types dst else types (pred dst)) :
    CopyInv D pred types σ₀
      (Function.update (Function.update X dst (writeGp type.size (σ (pred dst)) (σ dst))) (pred dst)
        (writeGp type.size (σ dst) (σ (pred dst)))) ∅ (st.swap types dst (pred dst))
      (Function.update (Function.update σ dst (writeGp type.size (σ dst) (σ (pred dst)))) (pred dst)
        (writeGp type.size (σ (pred dst)) (σ dst))) := by
  have hD := I.todo_subset hdst
  have hsrc := Copies.pred_mem_of_stuck I.exists_reader dst hdst
  have hsD := I.todo_subset hsrc
  have hne := C.ne dst hD
  have hreada : ∀ d ∈ D, pred d = dst → d = pred dst := fun d hd hp =>
    I.reader_unique hd hsrc (by rwa [hback]) (by rw [hp, hback])
  have hreadb : ∀ d ∈ D, pred d = pred dst → d = dst := fun d hd hp => I.reader_unique hd hdst hsrc hp
  have hgpd : isGpReg dst = true := by
    have := C.dst dst hD
    unfold InClass at this
    rwa [if_pos hint] at this
  have hgps : isGpReg (pred dst) = true := by
    have := C.src dst hD
    unfold InClass at this
    rwa [if_pos hint] at this
  unfold CopyState.swap
  rw [← htype]
  refine ⟨execCopies_snoc I.run (by simp [CopyInstr.exec, hgpd, hgps]), ?_, by simp, ?_, ?_, ?_, ?_⟩
  · have h0 := I.copies
    rw [Finset.union_empty] at h0 ⊢
    refine h0.swap hdst hsrc rfl hback (Ne.symm hne) hreada hreadb ?_ ?_ ?_ ?_
    · rw [Function.update_self]
    · rw [hback, Function.update_of_ne (Ne.symm hne), Function.update_self]
    · intro d hd hda hdb w hw
      have hdD := I.todo_subset hd
      rw [Function.update_of_ne (fun h => hda (hreadb d hdD h)), Function.update_of_ne (fun h => hdb (hreada d hdD h))]
      exact hw
    · intro d hd hn w hw
      rw [Function.update_of_ne, Function.update_of_ne]
      · exact hw
      · exact fun h => hn (I.reader_mem hd (h ▸ hdst))
      · exact fun h => hn (I.reader_mem hd (h ▸ hsrc))
  · intro b hb _
    dsimp only at hb ⊢
    obtain ⟨hbs, hb⟩ := Finset.mem_erase.mp hb
    obtain ⟨hbd, hb⟩ := Finset.mem_erase.mp hb
    rw [Function.update_of_ne hbs, Function.update_of_ne hbd]
    exact I.stuck b hb (Finset.notMem_empty b)
  · intro d hd
    dsimp only
    by_cases hps : pred d = pred dst
    · rw [hps, Function.update_self]
      exact C.dst dst hD
    · rw [Function.update_of_ne hps]
      by_cases hpd : pred d = dst
      · rw [hpd, Function.update_self]
        have := C.dst (pred dst) hsD
        rwa [hback] at this
      · rw [Function.update_of_ne hpd]
        exact I.inClass d hd
  · intro x hx
    dsimp only at hx
    rw [Finset.union_empty] at hx
    obtain ⟨hxs, hx⟩ := Finset.mem_erase.mp hx
    obtain ⟨hxd, hx⟩ := Finset.mem_erase.mp hx
    rw [Function.update_of_ne hxs, Function.update_of_ne hxd]
    exact I.kept x (Finset.mem_union_left _ hx)
  · dsimp only
    simp only [Finset.sdiff_empty]
    intro h0
    have hall := I.zero (fun x hx => h0 x (fun h => hx (by
      rw [Finset.sdiff_empty]
      exact Finset.mem_of_mem_erase (Finset.mem_of_mem_erase h))))
    rw [Finset.sdiff_empty] at hall
    have hdst0 : σ dst = 0 := by
      rw [I.kept dst (Finset.mem_union_left _ hdst)]
      exact h0 dst (by simp)
    have hsrc0 : σ (pred dst) = 0 := by
      rw [I.kept _ (Finset.mem_union_left _ hsrc)]
      exact h0 _ (by simp)
    intro x hx
    rw [hdst0, hsrc0, writeGp_zero]
    by_cases hxs : x = pred dst
    · rw [hxs, Function.update_self]
    · rw [Function.update_of_ne hxs]
      by_cases hxd : x = dst
      · rw [hxd, Function.update_self]
      · rw [Function.update_of_ne hxd]
        exact hall x (fun h => hx (by simp [hxs, hxd, h]))

end Loops

end IrJit.Dessa.Regs
