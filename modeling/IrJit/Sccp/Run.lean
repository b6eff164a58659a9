import IrJit.Sccp.Rounds

/-!
# Sccp.Run — whole runs of `ir_sccp_analyze`

* `RoundOk`: what a round has to meet.  `ir_sccp_fold` looks at operands only, and a PHI that becomes
  BOTTOM leaves no operand behind that nobody asked for and that nothing below it will queue.
* `Settled`: the equations of all nodes, which hold when the queue is empty.
-/

namespace IrJit.Sccp

variable {G : Graph} {F : Folding} {st st' st'' : State}

/-! ### Values leave TOP for good -/

/-- Nothing becomes TOP again, and what was asked for stays so. -/
structure Grows (st st' : State) : Prop where
  top : ∀ x, st.values x ≠ .top → st'.values x ≠ .top
  visited : ∀ x, st.visited x = true → st'.visited x = true

namespace Grows

theorem refl (st : State) : Grows st st := ⟨fun _ h => h, fun _ h => h⟩

theorem trans (h : Grows st st') (h' : Grows st' st'') : Grows st st'' :=
  ⟨fun x hx => h'.top x (h.top x hx), fun x hx => h'.visited x (h.visited x hx)⟩

theorem of_eq (hv : st'.values = st.values) (hvis : st'.visited = st.visited) : Grows st st' :=
  ⟨fun _ hx => hv ▸ hx, fun _ hx => hvis ▸ hx⟩

theorem setValue (x : ℕ) {v : Lat} (hv : v ≠ .top) : Grows st (st.setValue x v) where
  top y hy := by
    change Function.update st.values x v y ≠ .top
    by_cases h : y = x
    · rw [h, Function.update_self]
      exact hv
    · rw [Function.update_of_ne h]
      exact hy
  visited _ h := h

theorem enqueue (l : List ℕ) : Grows st (st.enqueue l) := of_eq rfl rfl

theorem addUses (x : ℕ) : Grows st (st.addUses G x) := of_eq rfl rfl

theorem addInput (x : ℕ) : Grows st (st.addInput x) := by
  unfold State.addInput
  split
  · exact refl st
  · refine ⟨fun _ h => h, fun y hy => ?_⟩
    change Function.update st.visited x true y = true
    by_cases h : y = x
    · rw [h, Function.update_self]
    · rw [Function.update_of_ne h]
      exact hy

theorem addInputs : ∀ (l : List ℤ) {st : State}, Grows st (st.addInputs l)
  | [], st => refl st
  | a :: l, st => by
    unfold State.addInputs
    rw [List.foldl_cons]
    refine trans ?_ (addInputs l)
    split
    · exact addInput _
    · exact refl st

theorem makeBottomEx (x : ℕ) : Grows st (st.makeBottomEx G x) := by
  unfold State.makeBottomEx
  split
  · refine trans (setValue x (v := .bottom) fun h => by cases h) (of_eq ?_ ?_)
    · exact splitPartition_values x
    · exact splitPartition_visited x
  · exact setValue x fun h => by cases h

theorem meetConst (x : ℕ) (c : Const) : Grows st (st.meetConst G x c).1 := by
  unfold State.meetConst
  split
  · exact setValue x fun h => by cases h
  split
  · exact refl st
  · exact makeBottomEx x

theorem meetCopy (x val : ℕ) : Grows st (st.meetCopy G x val).1 := by
  unfold State.meetCopy
  split
  · rename_i y hy
    split
    · exact refl st
    · have h : Grows st (st.makeBottomEx G x) := makeBottomEx x
      unfold State.makeBottomEx at h
      simp only [hy] at h
      exact h
  · exact trans (setValue x (v := .copy val) fun h => by cases h) (of_eq rfl rfl)

theorem meetAns (x : ℕ) (ans : FoldAns) : Grows st (st.meetAns G x ans).1 := by
  unfold State.meetAns
  split
  · exact meetConst x _
  · split
    · exact meetConst x _
    · split
      · split
        · exact meetConst x _
        · exact meetCopy x _
      · exact meetCopy x _
  · exact makeBottomEx x

theorem phiFirst (i ident : ℕ) : ∀ (l : List ℤ) {st : State}, Grows st (phiFirst G i ident l st).1
  | [], st => refl st
  | a :: l, st => by
    rw [Sccp.phiFirst]
    split
    · exact refl st
    split
    · exact phiFirst i ident l
    split
    · exact trans (addInput _) (phiFirst i ident l)
    · split
      · exact phiFirst i ident l
      · exact refl st
    · split
      · exact phiFirst i ident l
      · exact refl st
    · exact refl st
    · exact refl st

theorem phiNext (i ident : ℕ) (found : PhiVal) : ∀ (l : List ℤ) {st : State},
    Grows st (phiNext G i ident found l st).1
  | [], st => refl st
  | a :: l, st => by
    rw [Sccp.phiNext]
    split
    · split
      · exact phiNext i ident found l
      · exact refl st
    split
    · exact phiNext i ident found l
    split
    · exact trans (addInput _) (phiNext i ident found l)
    · split
      · exact phiNext i ident found l
      · exact refl st
    · split
      · exact phiNext i ident found l
      · exact refl st
    · split
      · exact phiNext i ident found l
      · exact refl st
    · exact refl st

theorem analyzePhi (i : ℕ) : Grows st (st.analyzePhi G i).1 := by
  unfold State.analyzePhi
  split
  · exact refl st
  have h₁ : Grows st (Sccp.phiFirst G i (identity G st.values i) (feasibleIns G st.values i) st).1 :=
    phiFirst i _ _
  simp only
  split
  · rename_i st₁ heq
    rw [heq] at h₁
    exact h₁
  · rename_i st₁ found rest heq
    rw [heq] at h₁
    have h₂ : Grows st₁ (Sccp.phiNext G i (identity G st.values i) found rest st₁).1 := phiNext i _ found rest
    split
    · rename_i st₂ heq₂
      rw [heq₂] at h₂
      exact (h₁.trans h₂).trans (makeBottomEx i)
    · rename_i st₂ heq₂
      rw [heq₂] at h₂
      refine (h₁.trans h₂).trans ?_
      split
      · exact meetConst i _
      · exact meetCopy i _

theorem analyzePhis : ∀ (l : List ℕ) {st : State}, Grows st (st.analyzePhis G l)
  | [], st => refl st
  | use :: l, st => by
    rw [State.analyzePhis]
    split
    · exact analyzePhis l
    split
    · have hdel : Grows st { st with queue := Function.update st.queue use false } := of_eq rfl rfl
      simp only
      split
      · exact hdel.trans (analyzePhis l)
      have h₁ : Grows { st with queue := Function.update st.queue use false }
          ({ st with queue := Function.update st.queue use false }.analyzePhi G use).1 := analyzePhi use
      split
      · rename_i st₂ heq
        rw [heq] at h₁
        exact ((hdel.trans h₁).trans (addUses use)).trans (analyzePhis l)
      · rename_i st₂ heq
        rw [heq] at h₁
        exact (hdel.trans h₁).trans (analyzePhis l)
    · exact trans (enqueue [use]) (analyzePhis l)

theorem analyzeMerge (i : ℕ) : Grows st (st.analyzeMerge G i) := by
  unfold State.analyzeMerge
  simp only
  have hset : ∀ v, (if unfeasible G st.values i = 0 then Lat.bottom else .merge (unfeasible G st.values i)) = v →
      Grows st (st.setValue i v) := by
    intro v hv
    refine setValue i (hv ▸ ?_)
    split <;> exact fun h => by cases h
  generalize (if unfeasible G st.values i = 0 then Lat.bottom else Lat.merge (unfeasible G st.values i)) = v at hset
  replace hset := hset v rfl
  split
  · exact refl st
  split
  · exact hset.trans (analyzePhis _)
  · exact hset.trans (addUses i)

theorem analyzeData {fuel i : ℕ} {r : State × Bool} (h : st.analyzeData G F fuel i = some r) : Grows st r.1 := by
  unfold State.analyzeData at h
  simp only at h
  split at h
  · rw [← Option.some.inj h]
    exact addInputs _
  split at h
  · obtain ⟨ans, -, rfl⟩ := Option.map_eq_some_iff.mp h
    exact (addInputs _).trans (meetAns i ans)
  · rw [← Option.some.inj h]
    exact (addInputs _).trans (makeBottomEx i)

theorem toBottom (i : ℕ) : Grows st ((st.setValue i .bottom).addUses G i) :=
  (setValue i fun h => by cases h).trans (addUses i)

theorem toOut (i use : ℕ) : Grows st ((st.setValue i (.out use)).enqueue [use]) :=
  (setValue i fun h => by cases h).trans (enqueue [use])

theorem analyzeIf (i : ℕ) : Grows st (st.analyzeIf G i) := by
  unfold State.analyzeIf
  simp only
  split
  · exact addInput _
  split
  · split
    · exact toOut i _
    split
    · exact refl st
    · exact toBottom i
  · exact toBottom i

theorem analyzeSwitch (i : ℕ) : Grows st (st.analyzeSwitch G i) := by
  unfold State.analyzeSwitch
  simp only
  split
  · exact addInput _
  split
  · split
    · exact toOut i _
    · exact refl st
    · exact toBottom i
  · exact toBottom i

theorem finish (i : ℕ) {r : State × Bool} (h : Grows st r.1) : Grows st (if r.2 then r.1.addUses G i else r.1) := by
  split
  · exact h.trans (addUses i)
  · exact h

theorem round {fuel i : ℕ} (h : st.round G F fuel i = some st') : Grows st st' := by
  have hdel : Grows st { st with queue := Function.update st.queue i false } := of_eq rfl rfl
  refine hdel.trans ?_
  unfold State.round at h
  generalize ({ st with queue := Function.update st.queue i false } : State) = st₁ at h
  unfold State.analyzeInsn at h
  simp only at h
  split at h
  · split at h
    · rw [← Option.some.inj h]
      exact refl st₁
    split at h
    · rw [← Option.some.inj h]
      exact finish i (analyzePhi i)
    split at h
    · obtain ⟨r, hdata, rfl⟩ := Option.map_eq_some_iff.mp h
      exact finish i (analyzeData hdata)
    · rw [← Option.some.inj h]
      exact ((makeBottomEx i).trans (addInputs _)).trans (addUses i)
  split at h
  · split at h
    · rw [← Option.some.inj h]
      exact analyzeMerge i
    · rw [← Option.some.inj h]
      exact toBottom i
  split at h
  · rw [← Option.some.inj h]
    exact refl st₁
  split at h
  · rw [← Option.some.inj h]
    exact analyzeIf i
  split at h
  · rw [← Option.some.inj h]
    exact analyzeSwitch i
  split at h
  · rw [← Option.some.inj h]
    exact toBottom i
  · rw [← Option.some.inj h]
    exact (addInputs _).trans (toBottom i)

end Grows

/-! ### Rounds that miss nothing -/

/-- Operand `a` was processed, was asked for, or is queued once the nodes below it are. -/
def Covered (G : Graph) (st : State) (a : ℤ) : Prop :=
  IsTop st.values a → st.visited a.toNat = true ∨ G.Anchored a.toNat

/-- **The condition on a round**: `ir_sccp_fold` takes constants of operands only, and a PHI that
becomes BOTTOM, which is not processed again, leaves no operand without anybody asking for it. -/
structure RoundOk (G : Graph) (F : Folding) (fuel : ℕ) (st : State) (i : ℕ) : Prop where
  direct : RoundDirect G F fuel st i
  phi : ∀ st', st.round G F fuel i = some st' → ∀ p, G.isPhi p = true → G.useLists p ≠ [] →
    st.values p ≠ .bottom → st'.values p = .bottom → ∀ e ∈ G.phiEdges p, Covered G st' e.2

/-- All rounds of a run meet the condition. -/
def RunOk (G : Graph) (F : Folding) (fuel : ℕ) : ℕ → State → Prop
  | 0, _ => True
  | rounds + 1, st => ∀ i, st.pop G = some i → RoundOk G F fuel st i ∧
      ∀ st', st.round G F fuel i = some st' → RunOk G F fuel rounds st'

/-- The operands of every PHI that is BOTTOM are covered. -/
def PhisCovered (G : Graph) (st : State) : Prop :=
  ∀ p, G.isPhi p = true → G.useLists p ≠ [] → st.values p = .bottom → ∀ e ∈ G.phiEdges p, Covered G st e.2

theorem Covered.mono (h : Grows st st') {a : ℤ} (hc : Covered G st a) : Covered G st' a := by
  intro ht
  have ht' : IsTop st.values a := by
    refine ⟨ht.1, ?_⟩
    by_contra hne
    exact h.top _ hne ht.2
  exact (hc ht').imp_left (h.visited _)

theorem PhisCovered.round {fuel i : ℕ} (h : PhisCovered G st) (hok : RoundOk G F fuel st i)
    (hr : st.round G F fuel i = some st') : PhisCovered G st' := by
  intro p hphi hu hb e he
  by_cases hbot : st.values p = .bottom
  · exact (h p hphi hu hbot e he).mono (Grows.round hr)
  · exact hok.phi st' hr p hphi hu hbot hb e he

/-! ### The end of a run -/

/-- The equations of all nodes. -/
structure Settled (G : Graph) (F : Folding) (st : State) : Prop where
  base : Base G st
  node : ∀ j, G.opOf j ≠ .nop → NodeOk G F st.values st.visited j
  phis : PhisCovered G st

theorem Inv.settled (W : Wf G) (h : Inv G F (fun _ => False) st) (hp : PhisCovered G st)
    (hpop : st.pop G = none) : Settled G F st where
  base := h.base
  node j hreal := by
    have hq : st.queue j = false := by
      have := List.find?_eq_none.mp hpop j (List.mem_range.mpr (W.range j hreal).2)
      simpa using this
    exact h.ok j hreal hq fun h => h
  phis := hp

theorem settled_of_analyzeFrom (W : Wf G) {I : Interp} (hF : FoldSound G I F) {fuel : ℕ} : ∀ {rounds : ℕ} {st st' : State},
    Inv G F (fun _ => False) st → PhisCovered G st → RunOk G F fuel rounds st →
    analyzeFrom G F fuel rounds st = some st' → Settled G F st'
  | 0, _, _, _, _, _, h => by simp [analyzeFrom] at h
  | rounds + 1, st, st', hinv, hphis, hok, h => by
    rw [analyzeFrom] at h
    cases hpop : st.pop G with
    | none =>
      simp only [hpop, Option.some.injEq] at h
      exact h ▸ hinv.settled W hphis hpop
    | some i =>
      simp only [hpop] at h
      obtain ⟨st₁, hround, hrest⟩ := Option.bind_eq_some_iff.mp h
      obtain ⟨hrok, hnext⟩ := hok i hpop
      have hq : st.queue i = true := List.find?_some hpop
      exact settled_of_analyzeFrom W hF (hinv.round W hF hq hrok.direct hround) (hphis.round hrok hround)
        (hnext st₁ hround) hrest

/-- **A run of `ir_sccp_analyze` ends with the equations of all nodes.** -/
theorem settled_of_analyze (W : Wf G) {I : Interp} (hF : FoldSound G I F) {fuel rounds : ℕ}
    (hok : RunOk G F fuel rounds State.init) (h : analyze G F fuel rounds = some st) : Settled G F st := by
  refine settled_of_analyzeFrom W hF (Inv.init W) ?_ hok h
  intro p _ _ hb
  cases (hb : Lat.top = .bottom)

end IrJit.Sccp
