import IrJit.Dessa.RegCopySpec

/-!
# Dessa.RegCopyAxles — the cycles of `ir_parallel_copy`

`T` are the destinations that wait after the first loop: sources and destinations among themselves.  The
`Root` of a cycle is the register that is put aside, its smallest one.
-/

namespace IrJit.Dessa.Regs

/-- The register of a cycle that goes to a temporary general register. -/
def Root (T : Finset ℕ) (pred : ℕ → ℕ) (types : ℕ → IrType) (s : ℕ) : Prop :=
  s ∈ T ∧ (types (pred s)).isInt = true ∧ pred (pred s) ≠ s ∧ ∀ n, s ≤ pred^[n] s

/-- What the reader of `s` gets. -/
structure Fate (T : Finset ℕ) (pred : ℕ → ℕ) (types : ℕ → IrType) (σ₀ : Regs) (s : ℕ) (x : Word) : Prop where
  served : ¬ Root T pred types s → Agree (types s).size x (σ₀ s)
  root : Root T pred types s → ∃ old, x = carry (types s) (writeGp (types (pred s)).size old (σ₀ s)) ∧
    ((∀ y, y ≠ s → σ₀ y = 0) → old = 0)

/-- The invariant of the second loop. -/
structure AxleInv (D T : Finset ℕ) (pred : ℕ → ℕ) (types : ℕ → IrType) (σ₀ X : Regs) (st : CopyState) (σ : Regs) :
    Prop where
  inv : CopyInv D pred types σ₀ X ∅ st σ
  sub : st.todo ⊆ T
  fixed : ∀ s, s ∉ T ∨ s ∈ st.todo → X s = carry (types s) (σ₀ s)
  fate : ∀ s ∈ T, s ∉ st.todo → Fate T pred types σ₀ s (X s)

section

variable {D T : Finset ℕ} {pred : ℕ → ℕ} {types : ℕ → IrType} {σ₀ σ X : Regs} {st : CopyState} {dst : ℕ}

/-- On a set that is permuted, one comes back. -/
theorem orbit_back (hT : ∀ x ∈ T, ∃ y ∈ T, pred y = x) {x : ℕ} (hx : x ∈ T) (n : ℕ) :
    ∃ k, pred^[k] (pred^[n] x) = x := by
  have hparent : parent (fun x => (pred x : ℤ)) = pred := by
    funext x
    exact parent_eq rfl
  have hcycle : ∀ x ∈ T, OnCycle (fun x => (pred x : ℤ)) x := by
    refine OnCycle.of_child_closed fun x hx => ?_
    obtain ⟨y, hy, h⟩ := hT x hx
    exact ⟨y, hy, by exact_mod_cast h⟩
  have hback := (hcycle x hx).back n
  rwa [hparent] at hback

theorem iterate_mem (hT : ∀ x ∈ T, pred x ∈ T) {x : ℕ} (hx : x ∈ T) (n : ℕ) : pred^[n] x ∈ T := by
  induction n with
  | zero => exact hx
  | succ n ih =>
    rw [Function.iterate_succ_apply']
    exact hT _ ih

/-- **A cycle through a temporary.** -/
theorem AxleInv.cycle (C : Carried D pred types) (hT : ∀ x ∈ T, ∃ y ∈ T, pred y = x)
    (I : AxleInv D T pred types σ₀ X st σ) (hfirst : firstBit st.todo = some dst) {tmp : ℕ} {v : Word}
    {save : CopyInstr} (htmp : tmp ∉ D) (hclass : InClass (types dst) tmp)
    (hexec : save.exec σ = some (Function.update σ tmp v)) (hv : σ tmp = 0 → σ dst = 0 → v = 0)
    (hfate : Fate T pred types σ₀ dst (carry (types dst) v)) {fuel : ℕ} (hfuel : st.todo.card < fuel + 1) :
    ∃ st' σ' X', copyCycle pred types fuel dst (st.saveTo dst tmp save) = some st' ∧
      AxleInv D T pred types σ₀ X' st' σ' ∧ st'.todo.card < st.todo.card := by
  have hdst := firstBit_mem hfirst
  have hsaved := I.inv.saved hdst htmp hclass hexec hv
  have hwait : (st.saveTo dst tmp save).todo ∪ {dst} = st.todo := by
    change st.todo.erase dst ∪ {dst} = st.todo
    rw [Finset.union_comm, ← Finset.insert_eq, Finset.insert_erase hdst]
  obtain ⟨st', σ', hst', I', hsub, hdone⟩ := resolveBlades_spec C (fuel + 1) {dst} _ _ hsaved (by rwa [hwait])
  rw [hwait] at hsub
  have hgone : dst ∉ st'.todo := hdone dst (Finset.mem_singleton_self dst)
  refine ⟨st', σ', _, by rw [copyCycle_eq]; exact hst', ⟨I', hsub.trans I.sub, ?_, ?_⟩, ?_⟩
  · intro s hs
    have hne : s ≠ dst := by
      rintro rfl
      exact hs.elim (fun h => h (I.sub hdst)) hgone
    rw [Function.update_of_ne hne]
    exact I.fixed s (hs.imp id (fun h => hsub h))
  · intro s hs hn
    by_cases hsd : s = dst
    · rw [hsd, Function.update_self]
      exact hfate
    · rw [Function.update_of_ne hsd]
      by_cases hst : s ∈ st.todo
      · -- only the orbit of the root leaves the waiting ones
        have hremoved := resolveBlades_removed (D := D) (P := fun x => ∃ n, pred^[n] dst = x)
          (fun x _ ⟨n, hx⟩ => ⟨n + 1, by rw [Function.iterate_succ_apply', hx]⟩) (fuel + 1) {dst}
          (st.saveTo dst tmp save) st' ((Finset.erase_subset _ _).trans I.inv.todo_subset)
          (Finset.singleton_subset_iff.mpr (I.inv.todo_subset hdst))
          (fun x hx => ⟨0, (Finset.mem_singleton.mp hx).symm⟩) hst' s (Finset.mem_erase.mpr ⟨hsd, hst⟩) hn
        obtain ⟨n, hsn⟩ := hremoved
        obtain ⟨k, hk⟩ := orbit_back hT (I.sub hdst) n
        rw [hsn] at hk
        have hroot : ¬ Root T pred types s := by
          rintro ⟨-, -, -, hmin⟩
          have h1 := hmin k
          have h2 := firstBit_le hfirst hst
          omega
        rw [I.fixed s (Or.inr hst)]
        exact ⟨fun _ => agree_carry _ _, fun h => absurd h hroot⟩
      · exact I.fate s hs hst
  · refine Finset.card_lt_card ⟨hsub, fun h => hgone (h hdst)⟩

/-- **A cycle of two.** -/
theorem AxleInv.swap (C : Carried D pred types) (I : AxleInv D T pred types σ₀ X st σ) (hdst : dst ∈ st.todo)
    (hint : (types (pred dst)).isInt = true) (hback : pred (pred dst) = dst) :
    ∃ σ' X', AxleInv D T pred types σ₀ X' (st.swap types dst (pred dst)) σ' ∧
      (st.swap types dst (pred dst)).todo.card < st.todo.card := by
  have hne := C.ne dst (I.inv.todo_subset hdst)
  have hsrc := Copies.pred_mem_of_stuck I.inv.exists_reader dst hdst
  obtain ⟨type, htype⟩ : ∃ type : IrType,
      type = if (types dst).size > (types (pred dst)).size then types dst else types (pred dst) := ⟨_, rfl⟩
  have hle : (types dst).size ≤ type.size ∧ (types (pred dst)).size ≤ type.size := by
    rw [htype]
    split_ifs
    · omega
    · omega
  have hkept : ∀ x ∈ st.todo, σ x = σ₀ x := fun x hx => I.inv.kept x (Finset.mem_union_left _ hx)
  refine ⟨_, _, ⟨I.inv.swapped C hdst hint hback htype, ?_, ?_, ?_⟩, ?_⟩
  · exact ((Finset.erase_subset _ _).trans (Finset.erase_subset _ _)).trans I.sub
  · intro s hs
    have hsne : s ≠ dst ∧ s ≠ pred dst := by
      rcases hs with hs | hs
      · exact ⟨fun h => hs (h ▸ I.sub hdst), fun h => hs (h ▸ I.sub hsrc)⟩
      · obtain ⟨h1, hs⟩ := Finset.mem_erase.mp hs
        exact ⟨(Finset.mem_erase.mp hs).1, h1⟩
    rw [Function.update_of_ne hsne.2, Function.update_of_ne hsne.1]
    refine I.fixed s (hs.imp id fun h => Finset.mem_of_mem_erase (Finset.mem_of_mem_erase h))
  · intro s hs hn
    by_cases hss : s = pred dst
    · rw [hss, Function.update_self]
      refine ⟨fun _ => ?_, ?_⟩
      · rw [← hkept _ hsrc]
        exact (agree_writeGp _ _ _).mono hle.2
      · rintro ⟨-, -, h, -⟩
        exact absurd (by rw [hback]) h
    · rw [Function.update_of_ne hss]
      by_cases hsd : s = dst
      · rw [hsd, Function.update_self]
        refine ⟨fun _ => ?_, ?_⟩
        · rw [← hkept _ hdst]
          exact (agree_writeGp _ _ _).mono hle.1
        · rintro ⟨-, -, h, -⟩
          exact absurd hback h
      · rw [Function.update_of_ne hsd]
        exact I.fate s hs fun h => hn (Finset.mem_erase.mpr ⟨hss, Finset.mem_erase.mpr ⟨hsd, h⟩⟩)
  · refine Finset.card_lt_card ⟨(Finset.erase_subset _ _).trans (Finset.erase_subset _ _), fun h => ?_⟩
    have hmem : dst ∈ (st.todo.erase dst).erase (pred dst) := h hdst
    exact Finset.notMem_erase dst _ (Finset.mem_of_mem_erase hmem)

/-- **The second loop.** -/
theorem resolveAxles_spec (C : Carried D pred types) (hT : ∀ x ∈ T, ∃ y ∈ T, pred y = x) {tmpReg tmpFpReg : ℕ}
    (hgp : isGpReg tmpReg = true) (hgpD : tmpReg ∉ D) (hfp : isFpReg tmpFpReg = true) (hfpD : tmpFpReg ∉ D)
    (fuel : ℕ) : ∀ (st : CopyState) (σ X : Regs), AxleInv D T pred types σ₀ X st σ → st.todo.card < fuel →
    ∃ st' σ' X', resolveAxles pred types (some tmpReg) (some tmpFpReg) fuel st = some st' ∧
      AxleInv D T pred types σ₀ X' st' σ' ∧ st'.todo = ∅ := by
  induction fuel with
  | zero =>
    intro st σ X _ h
    omega
  | succ fuel ih =>
    intro st σ X I hfuel
    cases hfirst : firstBit st.todo with
    | none =>
      have hempty := firstBit_eq_none.mp hfirst
      refine ⟨st, σ, X, ?_, I, hempty⟩
      rw [resolveAxles, hfirst]
    | some dst =>
      have hdst := firstBit_mem hfirst
      have hD := I.inv.todo_subset hdst
      have hmem := Copies.pred_mem_of_stuck I.inv.exists_reader
      have hkept : σ dst = σ₀ dst := I.inv.kept dst (Finset.mem_union_left _ hdst)
      obtain ⟨reader, hreader, hread⟩ := I.inv.exists_reader dst hdst
      have hclass : InClass (types dst) dst := by
        have := C.src reader (I.inv.todo_subset hreader)
        rwa [hread] at this
      have hisInt : (types dst).isInt = (types (pred dst)).isInt := hclass.isInt_eq (C.dst dst hD)
      rw [resolveAxles, hfirst]
      dsimp only
      by_cases hint : (types (pred dst)).isInt = true
      · rw [if_pos hint]
        by_cases hback : pred (pred dst) = dst
        · rw [if_pos hback]
          obtain ⟨σ', X', I', hcard⟩ := I.swap C hdst hint hback
          exact ih _ σ' X' I' (by omega)
        · rw [if_neg hback]
          have hgpd : isGpReg dst = true := by
            unfold InClass at hclass
            rwa [hisInt, if_pos hint] at hclass
          have hroot : Root T pred types dst :=
            ⟨I.sub hdst, hint, hback, fun n => firstBit_le hfirst (iterate_mem hmem hdst n)⟩
          have hclass' : InClass (types dst) tmpReg := by
            unfold InClass
            rwa [hisInt, if_pos hint]
          have hexec : (CopyInstr.mov (types (pred dst)) tmpReg dst).exec σ =
              some (Function.update σ tmpReg (writeGp (types (pred dst)).size (σ tmpReg) (σ dst))) := by
            simp [CopyInstr.exec, hgp, hgpd]
          -- the temporary is zero when only the root is not
          have hold : (∀ y, y ≠ dst → σ₀ y = 0) → σ tmpReg = 0 := by
            intro h0
            refine I.inv.zero (fun x hx => h0 x ?_) tmpReg ?_
            · rintro rfl
              exact hx (by simpa using hdst)
            · rw [Finset.sdiff_empty]
              exact fun h => hgpD (I.inv.todo_subset h)
          have hfate : Fate T pred types σ₀ dst
              (carry (types dst) (writeGp (types (pred dst)).size (σ tmpReg) (σ dst))) :=
            ⟨fun h => absurd hroot h, fun _ => ⟨σ tmpReg, by rw [hkept], hold⟩⟩
          obtain ⟨st', σ', X', hst', I', hcard⟩ := I.cycle C hT hfirst hgpD hclass' hexec
            (fun h1 h2 => by rw [h1, h2, writeGp_zero]) hfate hfuel
          rw [Option.bind_eq_bind, Option.bind_some, hst']
          exact ih st' σ' X' I' (by omega)
      · rw [if_neg hint]
        have hfpd : isFpReg dst = true := by
          unfold InClass at hclass
          rwa [hisInt, if_neg hint] at hclass
        have hclass' : InClass (types dst) tmpFpReg := by
          unfold InClass
          rwa [hisInt, if_neg hint]
        have hexec : (CopyInstr.fpMov (types (pred dst)) tmpFpReg dst).exec σ =
            some (Function.update σ tmpFpReg (σ dst)) := by
          simp [CopyInstr.exec, hfp, hfpd]
        have hfate : Fate T pred types σ₀ dst (carry (types dst) (σ dst)) := by
          rw [hkept]
          exact ⟨fun _ => agree_carry _ _, fun h => absurd h.2.1 hint⟩
        obtain ⟨st', σ', X', hst', I', hcard⟩ := I.cycle C hT hfirst hfpD hclass' hexec (fun _ h => h) hfate hfuel
        rw [Option.bind_eq_bind, Option.bind_some, hst']
        exact ih st' σ' X' I' (by omega)

end

end IrJit.Dessa.Regs
