import IrJit.Sccp.Fold
import IrJit.Sccp.Phi

/-!
# Sccp.Rounds — every round keeps the invariant

One lemma for each branch of `State.analyzeInsn`, put together in `Inv.round`.  A round asks
`ir_sccp_fold` about direct operands only: that is the hypothesis of the branch for foldable
nodes.
-/

namespace IrJit.Sccp

variable {G : Graph} {F : Folding} {st st' : State} {V : ℕ → Lat} {vis : ℕ → Bool}

/-! ### The equation of each kind of node -/

theorem IrOp.not_data {op : IrOp} (h : op.isControl = true) : op.isData = false := by
  by_contra hne
  rw [IrOp.isControl_eq_false (by simpa using hne)] at h
  cases h

theorem isMerge_eq_false {i : ℕ} (h : (G.opOf i).isBbStart = false) : G.isMerge i = false := by
  by_contra hne
  rw [IrOp.isBbStart_of_isMerge (by simpa [Graph.isMerge] using hne)] at h
  cases h

theorem ne_start (W : Wf G) {i : ℕ} (h : (G.opOf i).isBbStart = false) : i ≠ 1 := by
  rintro rfl
  rw [W.start] at h
  cases h

theorem not_bbStart_of_data {op : IrOp} (h : op.isData = true) : op.isBbStart = false := by
  by_contra hne
  have hc := IrOp.isControl_of_isBbStart (by simpa using hne : op.isBbStart = true)
  rw [IrOp.isControl_eq_false h] at hc
  cases hc

theorem NodeOk.data (W : Wf G) {i : ℕ} (hd : (G.opOf i).isData = true)
    (hfold : G.isFoldable i = true → G.useLists i ≠ [] → (V i = .top → Active G V vis i →
      (∃ a ∈ G.dataIns i, IsTop V a) ∧ ∀ a ∈ G.dataIns i, IsTop V a → vis a.toNat = true) ∧
      (V i ≠ .top → V i ≠ .bottom → FoldOk G F V i))
    (hleaf : G.isFloating i = true → G.isFoldable i = false → G.useLists i ≠ [] →
      (Active G V vis i → V i = .bottom) ∧
        (V i = .bottom → ∀ a ∈ G.dataIns i, IsTop V a → vis a.toNat = true))
    (hphi : G.isPhi i = true → G.useLists i ≠ [] → PhiOk G V vis i) : NodeOk G F V vis i where
  start h := absurd h (ne_start W (not_bbStart_of_data hd))
  bbStart h := by
    rw [not_bbStart_of_data hd] at h
    cases h
  merge h := by
    rw [isMerge_eq_false (not_bbStart_of_data hd)] at h
    cases h
  control h := by
    rw [IrOp.isControl_eq_false hd] at h
    cases h
  foldTop hf hu ht hact := (hfold hf hu).1 ht hact
  foldVal hf hu ht hb := (hfold hf hu).2 ht hb
  leaf := hleaf
  phi := hphi

theorem NodeOk.ctrl {i : ℕ} (hc : (G.opOf i).isControl = true) (hstart : i = 1 → V i = .bottom)
    (hbb : (G.opOf i).isBbStart = true → G.isMerge i = false → ∀ p : ℕ, G.operand i 1 = p → 0 < p →
      FeasibleEdge V p i → V i = .bottom)
    (hmerge : G.isMerge i = true → (∃ a ∈ (G.insn i).ops, V a.toNat ≠ .top) → MergeRec G V i)
    (hctrl : (G.opOf i).isBbStart = false → V (G.operand i 1).toNat ≠ .top → CtrlOk G V vis i) :
    NodeOk G F V vis i where
  start := hstart
  bbStart := hbb
  merge := hmerge
  control _ := hctrl
  foldTop h := by
    have hd := isData_of_isFoldable h
    rw [IrOp.not_data hc] at hd
    cases hd
  foldVal h := by
    have hd := isData_of_isFoldable h
    rw [IrOp.not_data hc] at hd
    cases hd
  leaf h := by
    have hd := isData_of_isFloating h
    rw [IrOp.not_data hc] at hd
    cases hd
  phi h := by
    have hd := isData_of_isPhi h
    rw [IrOp.not_data hc] at hd
    cases hd

theorem NodeOk.unused (W : Wf G) {i : ℕ} (hd : (G.opOf i).isData = true) (hu : G.useLists i = []) :
    NodeOk G F V vis i :=
  NodeOk.data W hd (fun _ h => absurd hu h) (fun _ _ h => absurd hu h) fun _ h => absurd hu h

/-! ### Data -/

section

variable {E : ℕ → Prop} (W : Wf G) {i : ℕ} (h : Inv G F (fun j => E j ∨ j = i) st)
  (hreal : G.opOf i ≠ .nop) (hq : st.queue i = false)

include W h hreal hq

theorem Inv.analyzePhi (hphi : G.isPhi i = true) (hb : st.values i ≠ .bottom) {r : State × Bool}
    (hr : st.analyzePhi G i = r) : Inv G F E (if r.2 then r.1.addUses G i else r.1) ∧
      ∀ j, j ≠ i → r.1.values j = st.values j := by
  have hi := (W.range i hreal).1
  by_cases hm : st.values (G.operand i 1).toNat = .top
  · have hr' : r = (st, false) := by
      rw [← hr]
      unfold State.analyzePhi
      rw [if_pos hm]
    rw [hr']
    refine ⟨h.resolve fun j _ _ hE hE' => ?_, fun _ _ => rfl⟩
    obtain rfl := hE.resolve_left hE'
    refine NodeOk.data W (isData_of_isPhi hphi) ?_ ?_ fun _ _ _ hrec => ?_
    · intro hf
      simp [Graph.isFoldable, hphi] at hf
    · intro hf
      simp [Graph.isFloating, hphi] at hf
    · rcases hrec with ⟨-, hrec⟩ | ⟨-, hrec⟩ <;> rw [hm] at hrec <;> cases hrec
  · obtain ⟨st₁, hask, ⟨heq, hval⟩ | ⟨st₂, heq, hlow, hbase, hval⟩⟩ := analyzePhi_spec W hphi hreal h.base hb hq hm
    · rw [← hr, heq]
      refine ⟨(h.asked W hask).resolve fun j _ _ hE hE' => ?_, fun j _ => congrFun hask.values j⟩
      obtain rfl := hE.resolve_left hE'
      refine NodeOk.data W (isData_of_isPhi hphi) ?_ ?_ fun _ _ hb _ a ha => ?_
      · intro hf
        simp [Graph.isFoldable, hphi] at hf
      · intro hf
        simp [Graph.isFloating, hphi] at hf
      · rw [hask.values] at hb ha ⊢
        exact hval hb a ha
    · rw [← hr, heq]
      refine ⟨Inv.finish W hi (h.asked W hask) hlow hbase ?_, fun j hj => by
        rw [hlow.values j hj, hask.values]⟩
      refine NodeOk.data W (isData_of_isPhi hphi) ?_ ?_ fun _ _ hb _ a ha => ?_
      · intro hf
        simp [Graph.isFoldable, hphi] at hf
      · intro hf
        simp [Graph.isFloating, hphi] at hf
      · exact (hval hb a ha).imp_right (Or.imp_left fun h => ⟨h.1, hlow.visited _ h.2⟩)

theorem Inv.analyzeData {I : Interp} (hF : FoldSound G I F) {fuel : ℕ} (hf : G.isFoldable i = true)
    (hb : st.values i ≠ .bottom)
    (hdir : st.hasTop G i = false → st.mayBenefit G i = true → FoldDirect G F fuel st.values i)
    {r : State × Bool} (hr : st.analyzeData G F fuel i = some r) :
    Inv G F E (if r.2 then r.1.addUses G i else r.1) := by
  have hi := (W.range i hreal).1
  have hd := isData_of_isFoldable hf
  have hfl := isFloating_of_isFoldable hf
  obtain ⟨hask, hvis⟩ := asked_addInputs (i := i) (G.dataIns i) st fun a ha ht =>
    ⟨W.inputs_range i a (Graph.dataIns_subset i ha) ht.1, W.not_self hfl ha ht.1⟩
  have hnl : G.isFloating i = true → G.isFoldable i = false → G.useLists i ≠ [] →
      ∀ {P : Prop}, P := fun _ h => by rw [hf] at h; cases h
  have hnp : G.isPhi i = true → ∀ {P : Prop}, P := fun hp => by simp [Graph.isFoldable, hp] at hf
  unfold State.analyzeData at hr
  simp only at hr
  by_cases htop : st.hasTop G i = true
  · rw [if_pos htop, Option.some.injEq] at hr
    rw [← hr]
    refine (h.asked W hask).resolve fun j _ _ hE hE' => ?_
    obtain rfl := hE.resolve_left hE'
    rw [hask.values]
    obtain ⟨a, ha, hat⟩ : ∃ a ∈ G.dataIns j, IsTop st.values a := by
      simpa [State.hasTop, IsTop] using htop
    refine NodeOk.data W hd (fun _ _ => ⟨fun _ _ => ⟨⟨a, ha, hat⟩, hvis⟩, fun ht _ => ?_⟩) (fun h1 h2 h3 => hnl h1 h2 h3)
      fun hp => hnp hp
    exact absurd hat.2 (h.base.kinds.folded j hf ht a ha hat.1)
  · rw [if_neg htop] at hr
    have hin : ∀ a ∈ G.dataIns i, 0 < a → (st.addInputs (G.dataIns i)).values a.toNat ≠ .top := by
      intro a ha h0 ht
      rw [hask.values] at ht
      refine htop ?_
      simp only [State.hasTop, List.any_eq_true, decide_eq_true_eq]
      exact ⟨a, ha, h0, ht⟩
    have hbase := h.base.asked hask
    have hres : FoldResult G F i (st.addInputs (G.dataIns i)) r := by
      by_cases hmay : st.mayBenefit G i = true
      · rw [if_pos hmay] at hr
        refine fold_spec W hF hf hreal hbase (hask.values ▸ hb) (hask.queue_self hq) hin ?_ hr
        rw [hask.values]
        exact hdir (by simpa using htop) hmay
      · rw [if_neg hmay, Option.some.injEq] at hr
        rw [← hr]
        exact foldResult_bottom W hf hreal hbase (hask.queue_self hq) hin
    rcases hres with ⟨rfl, hok⟩ | ⟨hr2, hlow, hb', hnt, hok⟩
    · refine (h.asked W hask).resolve fun j _ _ hE hE' => ?_
      obtain rfl := hE.resolve_left hE'
      refine NodeOk.data W hd (fun _ _ => ⟨fun ht => ?_, fun _ _ => hok⟩) (fun h1 h2 h3 => hnl h1 h2 h3)
        fun hp => hnp hp
      exact absurd ht hok.ne_top
    · rw [if_pos hr2]
      refine Inv.finish W hi (h.asked W hask) hlow hb' ?_
      exact NodeOk.data W hd (fun _ _ => ⟨fun ht => absurd ht hnt, fun _ hb => hok hb⟩)
        (fun h1 h2 h3 => hnl h1 h2 h3) fun hp => hnp hp

theorem Inv.analyzeLeaf (hd : (G.opOf i).isData = true) (hphi : G.isPhi i = false)
    (hf : G.isFoldable i = false) :
    Inv G F E (((st.makeBottomEx G i).addInputs (G.inputs i)).addUses G i) := by
  obtain ⟨hlow, hbase, hbot⟩ := makeBottomEx_spec W h.base hreal hd (fun h => by rw [hf] at h; cases h) hq
  obtain ⟨hask, hvis⟩ := asked_addInputs (i := i) (G.inputs i) (st.makeBottomEx G i) fun a ha ht => by
    refine ⟨W.inputs_range i a ha ht.1, fun heq => ?_⟩
    have := ht.2
    rw [heq, hbot] at this
    cases this
  refine Inv.finish W (W.range i hreal).1 h (hlow.asked hask) (hbase.asked hask) ?_
  rw [hask.values]
  refine NodeOk.data W hd (fun h => by rw [hf] at h; cases h) (fun _ _ _ => ⟨fun _ => hbot, fun _ a ha ht => ?_⟩)
    fun h => by rw [hphi] at h; cases h
  exact hvis a (Graph.dataIns_subset i ha) ht

end

/-! ### Control -/

theorem Inv.dequeue {E : ℕ → Prop} (h : Inv G F E st) (i : ℕ) :
    Inv G F (fun j => E j ∨ j = i) { st with queue := Function.update st.queue i false } where
  base := by
    refine ⟨h.base.forest, h.base.kinds, h.base.ring, h.base.ringReal, fun j hj => h.base.queued j ?_⟩
    by_cases hji : j = i
    · subst hji
      change Function.update st.queue j false j = true at hj
      rw [Function.update_self] at hj
      cases hj
    · exact Function.update_of_ne hji false st.queue ▸ hj
  ok j hreal hq hE := by
    push Not at hE
    exact h.ok j hreal (Function.update_of_ne hE.2 false st.queue ▸ hq) hE.1

theorem KindOk.control {i : ℕ} {v : Lat} (hc : (G.opOf i).isControl = true) (hconst : ∀ c, v ≠ .const c)
    (hcopy : ∀ y, v ≠ .copy y)
    (hout : ∀ u, v = .out u → (G.opOf i = .ifOp ∨ G.opOf i = .switch) ∧ ¬ IsTop V (G.operand i 2) ∧
      ∀ c, condConst G V (G.operand i 2) = some c → outputOf G i c = some u)
    (hmerge : ∀ n, v = .merge n → G.isMerge i = true)
    (hcounted : G.isMerge i = true → (∀ n, v = .merge n → unfeasible G V i ≤ n) ∧
      (v = .bottom → unfeasible G V i = 0))
    (hreach : (G.opOf i).isBbStart = false → V (G.operand i 1).toNat ≠ .top) : KindOk G V i v where
  const c h := absurd h (hconst c)
  copy y h := absurd h (hcopy y)
  out := hout
  merge := hmerge
  counted := hcounted
  folded hf := by
    have hd := isData_of_isFoldable hf
    rw [IrOp.not_data hc] at hd
    cases hd
  reached _ hbb _ := hreach hbb

theorem Kinds.not_copy {i : ℕ} (K : Kinds G V) (hc : (G.opOf i).isControl = true) (y : ℕ) : V i ≠ .copy y := by
  intro h
  have hd := isData_of_hasValue (K.copy i y h)
  rw [IrOp.not_data hc] at hd
  cases hd

section

variable {E : ℕ → Prop} (W : Wf G) {i : ℕ} (h : Inv G F (fun j => E j ∨ j = i) st)
  (hreal : G.opOf i ≠ .nop) (hc : (G.opOf i).isControl = true)

include W h hreal hc

/-- A control node other than a merge becomes reachable. -/
theorem Inv.ctrlBottom (hm : G.isMerge i = false)
    (hreach : (G.opOf i).isBbStart = false → st.values (G.operand i 1).toNat ≠ .top)
    (hctrl : (G.opOf i).isBbStart = false → CtrlOk G (Function.update st.values i .bottom) st.visited i) :
    Inv G F E ((st.setValue i .bottom).addUses G i) := by
  have hnc := h.base.kinds.not_copy hc
  have hlow : Lower G i st (st.setValue i .bottom) :=
    lower_setValue hnc (fun y h => by cases h) (fun h => by cases h) fun _ => rfl
  have hbase : Base G (st.setValue i .bottom) := by
    refine h.base.setValue W hreal hnc (fun y h => by cases h) (fun h => by cases h) (fun _ => rfl) ?_ fun hd => ?_
    · exact KindOk.control hc (fun c h => by cases h) (fun y h => by cases h) (fun u h => by cases h)
        (fun n h => by cases h) (fun h => by rw [hm] at h; cases h) hreach
    · rw [IrOp.not_data hc] at hd
      cases hd
  refine Inv.finish W (W.range i hreal).1 h hlow hbase ?_
  have hbot : Function.update st.values i .bottom i = .bottom := Function.update_self ..
  exact NodeOk.ctrl hc (fun _ => hbot) (fun _ _ _ _ _ _ => hbot) (fun h => by rw [hm] at h; cases h)
    fun hbb _ => hctrl hbb

end

/-- MEM2SSA: the PHIs of a merge are processed one after the other. -/
theorem Inv.analyzePhis {E : ℕ → Prop} (W : Wf G) {m : ℕ} (hm : G.isMerge m = true) (hm0 : 0 < m) :
    ∀ {l : List ℕ} {st : State}, (∀ u ∈ l, u ∈ G.useLists m) → st.values m ≠ .top →
      Inv G F (fun j => E j ∨ (j ∈ l ∧ st.values j ≠ .bottom)) st → Inv G F E (st.analyzePhis G l)
  | [], st, _, _, h => by
    refine h.resolve fun j _ _ hE hE' => ?_
    rcases hE with hE | ⟨hj, -⟩
    · exact absurd hE hE'
    · simp at hj
  | use :: rest, st, hl, hmt, h => by
    have hl' : ∀ u ∈ rest, u ∈ G.useLists m := fun u hu => hl u (List.mem_cons_of_mem use hu)
    have hreal : G.opOf use ≠ .nop := W.use_real hm0 (hl use List.mem_cons_self)
    rw [State.analyzePhis]
    by_cases hb : st.values use = .bottom
    · rw [if_pos hb]
      refine Inv.analyzePhis W hm hm0 hl' hmt (h.resolve fun j _ _ hE hE' => ?_)
      push Not at hE'
      rcases hE with hE | ⟨hj, hjb⟩
      · exact absurd hE hE'.1
      · rcases List.mem_cons.mp hj with rfl | hj
        · exact absurd hb hjb
        · exact absurd (hE'.2 hj) hjb
    rw [if_neg hb]
    by_cases hphi : G.isPhi use = true
    · rw [if_pos hphi]
      -- the PHI itself is the only exception besides the uses that follow
      have hdel : Inv G F (fun j => (E j ∨ (j ∈ rest ∧ st.values j ≠ .bottom ∧ j ≠ use)) ∨ j = use)
          { st with queue := Function.update st.queue use false } := by
        refine (h.dequeue use).resolve fun j _ _ hE hE' => ?_
        push Not at hE'
        obtain ⟨⟨hE1, hE2⟩, hju⟩ := hE'
        rcases hE with (hE | ⟨hj, hjb⟩) | hE
        · exact absurd hE hE1
        · rcases List.mem_cons.mp hj with rfl | hj
          · exact absurd rfl hju
          · exact absurd (hE2 hj hjb) hju
        · exact absurd hE hju
      by_cases hu : G.useLists use = []
      · rw [if_pos hu]
        refine Inv.analyzePhis W hm hm0 hl' hmt (hdel.resolve fun j _ _ hE hE' => ?_)
        push Not at hE'
        rcases hE with (hE | ⟨hj, hjb, -⟩) | rfl
        · exact absurd hE hE'.1
        · exact absurd (hE'.2 hj) hjb
        · exact NodeOk.unused W (isData_of_isPhi hphi) hu
      rw [if_neg hu]
      have hq : Function.update st.queue use false use = false := Function.update_self ..
      obtain ⟨st₂, b, heq⟩ : ∃ st₂ b, { st with queue := Function.update st.queue use false }.analyzePhi G use =
          (st₂, b) := ⟨_, _, rfl⟩
      obtain ⟨hinv, hval⟩ := Inv.analyzePhi W hdel hreal hq hphi hb heq
      rw [heq]
      have hmu : m ≠ use := by
        rintro rfl
        rw [isMerge_eq_false (not_bbStart_of_data (isData_of_isPhi hphi))] at hm
        cases hm
      have hmt₂ : st₂.values m ≠ .top := by
        rw [hval m hmu]
        exact hmt
      have hrest : ∀ s : State, s.values = st₂.values →
          Inv G F (fun j => E j ∨ (j ∈ rest ∧ st.values j ≠ .bottom ∧ j ≠ use)) s →
          Inv G F (fun j => E j ∨ (j ∈ rest ∧ s.values j ≠ .bottom)) s := by
        intro s hs hinv
        refine hinv.resolve fun j _ _ hE hE' => ?_
        push Not at hE'
        rcases hE with hE | ⟨hj, hjb, hju⟩
        · exact absurd hE hE'.1
        · refine absurd (hE'.2 hj) ?_
          rw [hs, hval j hju]
          exact hjb
      cases b with
      | true => exact Inv.analyzePhis W hm hm0 hl' hmt₂ (hrest _ rfl hinv)
      | false => exact Inv.analyzePhis W hm hm0 hl' hmt₂ (hrest _ rfl hinv)
    · rw [if_neg hphi]
      refine Inv.analyzePhis W hm hm0 hl' hmt ⟨?_, fun j hreal hq hE => ?_⟩
      · refine ⟨h.base.forest, h.base.kinds, h.base.ring, h.base.ringReal, fun j hj => ?_⟩
        simp only [State.enqueue, Bool.or_eq_true, decide_eq_true_eq, List.mem_singleton] at hj
        rcases hj with hj | rfl
        · exact h.base.queued j hj
        · exact ⟨hreal, fun _ => hb⟩
      · simp only [State.enqueue, Bool.or_eq_false_iff, decide_eq_false_iff_not, List.mem_singleton] at hq
        push Not at hE
        refine h.ok j hreal hq.1 ?_
        rintro (hE' | ⟨hj, hjb⟩)
        · exact hE.1 hE'
        · rcases List.mem_cons.mp hj with rfl | hj
          · exact hq.2 rfl
          · exact hjb (hE.2 hj)

theorem Wf.unfeasible_update (W : Wf G) {i : ℕ} (hm : G.isMerge i = true) (v : Lat) :
    unfeasible G (Function.update V i v) i = unfeasible G V i := by
  unfold unfeasible
  rw [Graph.merge_inputs hm]
  refine List.countP_congr fun a ha => ?_
  have hne : a.toNat ≠ i := by
    intro heq
    have hbb := (W.merge_ops i hm a ha).2.2
    rw [heq, IrOp.isBbStart_of_isMerge (by simpa [Graph.isMerge] using hm)] at hbb
    cases hbb
  rw [Function.update_of_ne hne]

theorem Inv.analyzeMerge {E : ℕ → Prop} (W : Wf G) {i : ℕ} (h : Inv G F (fun j => E j ∨ j = i) st)
    (hreal : G.opOf i ≠ .nop) (hm : G.isMerge i = true) : Inv G F E (st.analyzeMerge G i) := by
  have hbb := IrOp.isBbStart_of_isMerge (by simpa [Graph.isMerge] using hm : (G.opOf i).isMerge = true)
  have hc := IrOp.isControl_of_isBbStart hbb
  have hi := (W.range i hreal).1
  have hnode : ∀ {V vis}, MergeRec G V i → NodeOk G F V vis i := fun hrec =>
    NodeOk.ctrl hc (fun h1 => by
        rw [h1] at hm
        simp [Graph.isMerge, IrOp.isMerge, W.start] at hm)
      (fun _ h => by rw [hm] at h; cases h) (fun _ _ => hrec) fun h => by rw [hbb] at h; cases h
  unfold State.analyzeMerge
  simp only
  by_cases hsame : unfeasible G st.values i ≠ 0 ∧
      st.values i = if unfeasible G st.values i = 0 then Lat.bottom else .merge (unfeasible G st.values i)
  · rw [if_pos hsame]
    refine h.resolve fun j _ _ hE hE' => ?_
    obtain rfl := hE.resolve_left hE'
    obtain ⟨hn, hv⟩ := hsame
    rw [if_neg hn] at hv
    exact hnode (Or.inr ⟨hn, hv⟩)
  rw [if_neg hsame]
  obtain ⟨v, hv⟩ : ∃ v, v = if unfeasible G st.values i = 0 then Lat.bottom else .merge (unfeasible G st.values i) :=
    ⟨_, rfl⟩
  rw [← hv]
  have hcases : (unfeasible G st.values i = 0 ∧ v = .bottom) ∨
      (unfeasible G st.values i ≠ 0 ∧ v = .merge (unfeasible G st.values i)) := by
    by_cases hn : unfeasible G st.values i = 0
    · exact Or.inl ⟨hn, by rw [hv, if_pos hn]⟩
    · exact Or.inr ⟨hn, by rw [hv, if_neg hn]⟩
  have hvt : v ≠ .top := by
    rcases hcases with ⟨-, h⟩ | ⟨-, h⟩ <;> rw [h] <;> exact fun h => by cases h
  have hvc : ∀ y, v ≠ .copy y := by
    rcases hcases with ⟨-, h⟩ | ⟨-, h⟩ <;> rw [h] <;> exact fun y h => by cases h
  have hvb : st.values i = .bottom → v = .bottom := by
    intro hb
    rcases hcases with ⟨-, h⟩ | ⟨hn, -⟩
    · exact h
    · exact absurd ((h.base.kinds.counted i hm).2 hb) hn
  have hnc := h.base.kinds.not_copy hc
  have hlow : Lower G i st (st.setValue i v) := lower_setValue hnc hvc hvt hvb
  have hbase : Base G (st.setValue i v) := by
    refine h.base.setValue W hreal hnc hvc hvt hvb ?_ fun hd => ?_
    · refine KindOk.control hc ?_ hvc ?_ (fun _ _ => hm) (fun _ => ⟨fun n hn => ?_, fun hb => ?_⟩) fun h => ?_
      · rcases hcases with ⟨-, h⟩ | ⟨-, h⟩ <;> rw [h] <;> exact fun y h => by cases h
      · rcases hcases with ⟨-, h⟩ | ⟨-, h⟩ <;> rw [h] <;> exact fun y h => by cases h
      · rcases hcases with ⟨-, h⟩ | ⟨-, h⟩ <;> rw [h] at hn
        · cases hn
        · injection hn with hn
          omega
      · rcases hcases with ⟨h, -⟩ | ⟨-, h⟩
        · exact h
        · rw [h] at hb
          cases hb
      · rw [hbb] at h
        cases h
    · rw [IrOp.not_data hc] at hd
      cases hd
  have hrec : MergeRec G (st.setValue i v).values i := by
    unfold MergeRec
    change (unfeasible G (Function.update st.values i v) i = 0 ∧ Function.update st.values i v i = .bottom) ∨
      (unfeasible G (Function.update st.values i v) i ≠ 0 ∧
        Function.update st.values i v i = .merge (unfeasible G (Function.update st.values i v) i))
    rw [W.unfeasible_update hm, Function.update_self]
    exact hcases
  split
  · refine Inv.analyzePhis W hm hi (fun u hu => hu) ?_ ((h.lower W hlow hbase).resolve fun j _ _ hE hE' => ?_)
    · change Function.update st.values i v i ≠ .top
      rw [Function.update_self]
      exact hvt
    · push Not at hE'
      rcases hE with (hE | rfl) | rfl | hu
      · exact absurd hE hE'.1
      · exact hnode hrec
      · exact hnode hrec
      · exact absurd (hE'.2 hu.1) hu.2
  · exact Inv.finish W hi h hlow hbase (hnode hrec)

/-! ### Branches -/

theorem Wf.branch_use (W : Wf G) {i u : ℕ} (hi : 0 < i) (hop : G.opOf i = .ifOp ∨ G.opOf i = .switch)
    (hu : u ∈ G.useLists i) : G.opOf u ≠ .nop ∧ (G.opOf u).isBbStart = true ∧ G.isMerge u = false ∧
      u ≠ 1 ∧ G.operand u 1 = i := by
  obtain ⟨hreal, hin⟩ := (W.uses i u hi).mp hu
  have hkind : G.opOf u = .ifTrue ∨ G.opOf u = .ifFalse ∨ G.opOf u = .caseVal ∨ G.opOf u = .caseRange ∨
      G.opOf u = .caseDefault := by
    rcases hop with hop | hop
    · obtain ⟨t, f, hl, ht, hf⟩ := W.if_uses i hop
      rcases hl with hl | hl <;> rw [hl] at hu <;> simp only [List.mem_cons, List.not_mem_nil, or_false] at hu <;>
        rcases hu with rfl | rfl <;> simp [ht, hf]
    · rcases W.switch_cases i hop u hu with h | h | h <;> simp [h]
  have hctl : (G.opOf u).hasControlInput = true := by
    rcases hkind with h | h | h | h | h <;> rw [h] <;> rfl
  have hnm : (G.opOf u).isMerge = false := by
    rcases hkind with h | h | h | h | h <;> rw [h] <;> rfl
  refine ⟨hreal, ?_, ?_, ?_, ?_⟩
  · rcases hkind with h | h | h | h | h <;> rw [h] <;> rfl
  · exact hnm
  · rintro rfl
    rw [W.start] at hkind
    simp at hkind
  · -- the branch is no data operand
    have hnd : (i : ℤ) ∉ G.dataIns u := by
      intro hd
      have := W.data_ops u i hd (by omega)
      rw [Int.toNat_natCast] at this
      rcases hop with hop | hop <;> rw [hop] at this <;> rcases this with h | h <;> cases h
    have hne : G.inputs u ≠ [] := fun h => by rw [h] at hin; simp at hin
    unfold Graph.dataIns at hnd
    rw [if_neg (by simp [hnm]), if_pos hctl] at hnd
    obtain ⟨a, l, hl⟩ := List.exists_cons_of_ne_nil hne
    rw [Graph.operand_head hl]
    rw [hl] at hin hnd
    rcases List.mem_cons.mp hin with h | h
    · exact h.symm
    · exact absurd h hnd

theorem Wf.cond_update (W : Wf G) {i : ℕ} (hop : G.opOf i = .ifOp ∨ G.opOf i = .switch) (v : Lat) :
    condConst G (Function.update V i v) (G.operand i 2) = condConst G V (G.operand i 2) ∧
      (IsTop (Function.update V i v) (G.operand i 2) ↔ IsTop V (G.operand i 2)) := by
  have hne : 0 < G.operand i 2 → (G.operand i 2).toNat ≠ i := by
    intro h0 heq
    have := W.data_ops i _ (W.cond_mem hop) h0
    rw [heq] at this
    rcases hop with hop | hop <;> rw [hop] at this <;> rcases this with h | h <;> cases h
  have hz := W.cond i hop
  refine ⟨?_, ?_⟩
  · unfold condConst
    split
    · rfl
    · rw [Function.update_of_ne (hne (by omega))]
  · unfold IsTop
    constructor
    · rintro ⟨h0, ht⟩
      rw [Function.update_of_ne (hne h0)] at ht
      exact ⟨h0, ht⟩
    · rintro ⟨h0, ht⟩
      rw [Function.update_of_ne (hne h0)]
      exact ⟨h0, ht⟩

theorem Wf.output_mem (W : Wf G) {i u : ℕ} {c : Const} (h : outputOf G i c = some u) : u ∈ G.useLists i := by
  unfold outputOf at h
  split at h
  · rename_i hop
    obtain ⟨t, f, hl, -, -⟩ := W.if_uses i hop
    simp only [Option.some.injEq] at h
    rw [← h]
    unfold ifOutput
    rcases hl with hl | hl <;> rw [hl] <;> simp only [List.getD_cons_zero, List.getD_cons_succ] <;> split <;> simp
  · unfold switchOutput at h
    split at h
    · rename_i use huse
      simp only [Option.some.injEq] at h
      rw [← h]
      exact List.mem_of_find?_eq_some huse
    · exact List.mem_reverse.mp (List.mem_of_find?_eq_some h)

theorem Inv.enqueue {E : ℕ → Prop} (h : Inv G F E st) {l : List ℕ}
    (hl : ∀ j ∈ l, G.opOf j ≠ .nop ∧ (G.opOf j).isData = false) : Inv G F E (st.enqueue l) where
  base := by
    refine ⟨h.base.forest, h.base.kinds, h.base.ring, h.base.ringReal, fun j hj => ?_⟩
    simp only [State.enqueue, Bool.or_eq_true, decide_eq_true_eq] at hj
    rcases hj with hj | hj
    · exact h.base.queued j hj
    · obtain ⟨hreal, hd⟩ := hl j hj
      exact ⟨hreal, fun h => by rw [hd] at h; cases h⟩
  ok j hreal hq hE := by
    simp only [State.enqueue, Bool.or_eq_false_iff] at hq
    exact h.ok j hreal hq.1 hE

section

variable {E : ℕ → Prop} (W : Wf G) {i : ℕ} (h : Inv G F (fun j => E j ∨ j = i) st) (hi : 0 < i)
  (hop : G.opOf i = .ifOp ∨ G.opOf i = .switch) (hreach : st.values (G.operand i 1).toNat ≠ .top)

omit h hi in
include W hop in
theorem NodeOk.branch {V : ℕ → Lat} (htop : IsTop V (G.operand i 2) → vis (G.operand i 2).toNat = true)
    (hok : ¬ IsTop V (G.operand i 2) → BranchOk G V i) : NodeOk G F V vis i := by
  have hc : (G.opOf i).isControl = true := by rcases hop with h | h <;> rw [h] <;> rfl
  have hbb : (G.opOf i).isBbStart = false := by rcases hop with h | h <;> rw [h] <;> rfl
  refine NodeOk.ctrl hc (fun h1 => absurd h1 (ne_start W hbb)) (fun h => by rw [hbb] at h; cases h) (fun h => ?_) ?_
  · rw [isMerge_eq_false hbb] at h
    cases h
  · exact fun _ _ => ⟨fun _ => ⟨htop, hok⟩, fun h1 h2 => absurd hop (by simp [h1, h2])⟩

include W h hi hop hreach

/-- The condition is TOP. -/
theorem Inv.askCond (ht : IsTop st.values (G.operand i 2)) :
    Inv G F E (st.addInput (G.operand i 2).toNat) := by
  obtain ⟨hask, hvis⟩ := asked_addInput (i := 0) (W.inputs_range i _
    (Graph.dataIns_subset i (W.cond_mem hop)) ht.1) ht.2 (by have := ht.1; omega)
  refine (h.asked W hask).resolve fun j _ _ hE hE' => ?_
  obtain rfl := hE.resolve_left hE'
  rw [hask.values]
  exact NodeOk.branch W hop (fun _ => hvis) fun hn => absurd ht hn

/-- The recorded output is still the one. -/
theorem Inv.keepOut (hok : BranchOk G st.values i) (ht : ¬ IsTop st.values (G.operand i 2)) : Inv G F E st := by
  refine h.resolve fun j _ _ hE hE' => ?_
  obtain rfl := hE.resolve_left hE'
  exact NodeOk.branch W hop (fun h => absurd h ht) fun _ => hok

omit hi in
/-- Both ways are open. -/
theorem Inv.branchBottom (ht : ¬ IsTop st.values (G.operand i 2)) :
    Inv G F E ((st.setValue i .bottom).addUses G i) := by
  have hc : (G.opOf i).isControl = true := by rcases hop with h | h <;> rw [h] <;> rfl
  have hbb : (G.opOf i).isBbStart = false := by rcases hop with h | h <;> rw [h] <;> rfl
  have hreal : G.opOf i ≠ .nop := by rcases hop with h | h <;> rw [h] <;> exact fun h => by cases h
  refine Inv.ctrlBottom W h hreal hc (isMerge_eq_false hbb) (fun _ => hreach) fun _ => ⟨fun _ => ⟨fun h => ?_, ?_⟩, ?_⟩
  · exact absurd ((W.cond_update hop .bottom).2.mp h) ht
  · exact fun _ => Or.inl (Function.update_self ..)
  · exact fun h1 h2 => absurd hop (by simp [h1, h2])

/-- A single output is recorded: only this use is queued. -/
theorem Inv.setOut {c : Const} {u : ℕ} (ht : ¬ IsTop st.values (G.operand i 2)) (hv : st.values i = .top)
    (hcc : condConst G st.values (G.operand i 2) = some c) (hout : outputOf G i c = some u) :
    Inv G F E ((st.setValue i (.out u)).enqueue [u]) := by
  have hc : (G.opOf i).isControl = true := by rcases hop with h | h <;> rw [h] <;> rfl
  have hbb : (G.opOf i).isBbStart = false := by rcases hop with h | h <;> rw [h] <;> rfl
  have hreal : G.opOf i ≠ .nop := by rcases hop with h | h <;> rw [h] <;> exact fun h => by cases h
  have hnc := h.base.kinds.not_copy hc
  have hvb : st.values i = .bottom → Lat.out u = .bottom := fun h => by rw [hv] at h; cases h
  have hlow : Lower G i st (st.setValue i (.out u)) :=
    lower_setValue hnc (fun y h => by cases h) (fun h => by cases h) hvb
  have hbase : Base G (st.setValue i (.out u)) := by
    refine h.base.setValue W hreal hnc (fun y h => by cases h) (fun h => by cases h) hvb ?_ fun hd => ?_
    · refine KindOk.control hc (fun c h => by cases h) (fun y h => by cases h) (fun u' hu' => ⟨hop, ht, ?_⟩)
        (fun n h => by cases h) (fun h => by rw [isMerge_eq_false hbb] at h; cases h) fun _ => hreach
      injection hu' with hu'
      intro c' hc'
      rw [hcc, Option.some.injEq] at hc'
      rw [← hc', ← hu']
      exact hout
    · rw [IrOp.not_data hc] at hd
      cases hd
  have hself : Function.update st.values i (.out u) i = .out u := Function.update_self ..
  have huse := W.branch_use hi hop (W.output_mem hout)
  refine ((h.lower W hlow hbase).enqueue (l := [u]) fun j hj => ?_).resolve fun j hjr hq hE hE' => ?_
  · rw [List.mem_singleton.mp hj]
    exact ⟨huse.1, IrOp.not_data (IrOp.isControl_of_isBbStart huse.2.1)⟩
  · have hji : j = i → NodeOk G F (Function.update st.values i (.out u)) st.visited j := by
      rintro rfl
      obtain ⟨hcond, htop⟩ := W.cond_update (V := st.values) hop (.out u)
      refine NodeOk.branch W hop (fun h => absurd (htop.mp h) ht) fun _ => ?_
      exact Or.inr ⟨c, u, hcond.trans hcc, hout, hself⟩
    rcases hE with (hE | hE) | hE | ⟨hu, hb⟩
    · exact absurd hE hE'
    · exact hji hE
    · exact hji hE
    · -- another use of the branch: control does not pass to it
      obtain ⟨-, hjbb, hjm, hj1, hjop⟩ := W.branch_use hi hop hu
      refine NodeOk.ctrl (IrOp.isControl_of_isBbStart hjbb) (fun h => absurd h hj1) (fun _ _ p hp _ hfe => ?_)
        (fun h => by rw [hjm] at h; cases h) fun h => by rw [hjbb] at h; cases h
      have hpi : p = i := by
        rw [hjop] at hp
        exact_mod_cast hp.symm
      subst hpi
      have hju := hfe.2 u hself
      simp only [State.enqueue, Bool.or_eq_false_iff, decide_eq_false_iff_not, List.mem_singleton] at hq
      exact absurd hju.symm hq.2

end

theorem Inv.analyzeIf {E : ℕ → Prop} (W : Wf G) {i : ℕ} (h : Inv G F (fun j => E j ∨ j = i) st) (hi : 0 < i)
    (hop : G.opOf i = .ifOp) (hreach : st.values (G.operand i 1).toNat ≠ .top) :
    Inv G F E (st.analyzeIf G i) := by
  have hz := W.cond i (Or.inl hop)
  unfold State.analyzeIf
  simp only
  by_cases ht : IsTop st.values (G.operand i 2)
  · rw [if_pos ⟨le_of_lt ht.1, ht.2⟩]
    exact Inv.askCond W h hi (Or.inl hop) hreach ht
  rw [if_neg fun hn => ht ⟨by omega, hn.2⟩]
  split
  · rename_i c hc
    have hout : outputOf G i c = some (ifOutput G i c) := if_pos hop
    by_cases hv : st.values i = .top
    · rw [if_pos hv]
      exact Inv.setOut W h hi (Or.inl hop) hreach ht hv hc hout
    · rw [if_neg hv]
      by_cases hsame : st.values i = .out (ifOutput G i c)
      · rw [if_pos hsame]
        exact Inv.keepOut W h hi (Or.inl hop) hreach (Or.inr ⟨c, _, hc, hout, hsame⟩) ht
      · rw [if_neg hsame]
        exact Inv.branchBottom W h (Or.inl hop) hreach ht
  · exact Inv.branchBottom W h (Or.inl hop) hreach ht

theorem Inv.analyzeSwitch {E : ℕ → Prop} (W : Wf G) {i : ℕ} (h : Inv G F (fun j => E j ∨ j = i) st) (hi : 0 < i)
    (hop : G.opOf i = .switch) (hreach : st.values (G.operand i 1).toNat ≠ .top) :
    Inv G F E (st.analyzeSwitch G i) := by
  have hz := W.cond i (Or.inr hop)
  unfold State.analyzeSwitch
  simp only
  by_cases ht : IsTop st.values (G.operand i 2)
  · rw [if_pos ⟨le_of_lt ht.1, ht.2⟩]
    exact Inv.askCond W h hi (Or.inr hop) hreach ht
  rw [if_neg fun hn => ht ⟨by omega, hn.2⟩]
  split
  · rename_i u hu
    obtain ⟨c, hc, hout⟩ := Option.bind_eq_some_iff.mp hu
    have hout' : outputOf G i c = some u := by
      unfold outputOf
      rw [if_neg (by rw [hop]; exact fun h => by cases h)]
      exact hout
    split
    · rename_i hv
      exact Inv.setOut W h hi (Or.inr hop) hreach ht hv hc hout'
    · -- the output is not compared: a condition that is still constant has kept its value
      rename_i u' hv
      have hkeep := (h.base.kinds.out i u' hv).2.2 c hc
      exact Inv.keepOut W h hi (Or.inr hop) hreach (Or.inr ⟨c, u', hc, hkeep, hv⟩) ht
    · exact Inv.branchBottom W h (Or.inr hop) hreach ht
  · exact Inv.branchBottom W h (Or.inr hop) hreach ht

/-! ### One round -/

theorem isControl_of_not_data {i : ℕ} (hreal : G.opOf i ≠ .nop) (hd : (G.opOf i).isData = false) :
    (G.opOf i).isControl = true := by
  revert hreal hd
  cases G.opOf i <;> simp [IrOp.isData, IrOp.isControl, IrOp.cls]

section

variable {E : ℕ → Prop} (W : Wf G) {i : ℕ} (h : Inv G F (fun j => E j ∨ j = i) st)
  (hreal : G.opOf i ≠ .nop) (hc : (G.opOf i).isControl = true) (hbb : (G.opOf i).isBbStart = false)

include W h hreal hc hbb

/-- The control input was not reached. -/
theorem Inv.unreached (hreach : st.values (G.operand i 1).toNat = .top) : Inv G F E st := by
  refine h.resolve fun j _ _ hE hE' => ?_
  obtain rfl := hE.resolve_left hE'
  refine NodeOk.ctrl hc (fun h1 => absurd h1 (ne_start W hbb)) (fun h => by rw [hbb] at h; cases h) (fun h => ?_)
    fun _ hne => absurd hreach hne
  rw [isMerge_eq_false hbb] at h
  cases h

variable (hreach : st.values (G.operand i 1).toNat ≠ .top) (hif : G.opOf i ≠ .ifOp) (hsw : G.opOf i ≠ .switch)

include hreach hif hsw

/-- Nothing is asked for a load without a use. -/
theorem Inv.deadLoad (hdead : G.isDeadLoad i = true) : Inv G F E ((st.setValue i .bottom).addUses G i) := by
  refine Inv.ctrlBottom W h hreal hc (isMerge_eq_false hbb) (fun _ => hreach) fun _ =>
    ⟨fun hop => absurd hop (by simp [hif, hsw]), fun _ _ => ⟨Function.update_self .., fun hn => ?_⟩⟩
  rw [hdead] at hn
  cases hn

/-- The data operands of a control node that is executed are asked for. -/
theorem Inv.askOperands : Inv G F E (((st.addInputs (G.dataIns i)).setValue i .bottom).addUses G i) := by
  obtain ⟨hask, hvis⟩ := asked_addInputs (G := G) (i := 0) (G.dataIns i) st fun a ha ht =>
    ⟨W.inputs_range i a (Graph.dataIns_subset i ha) ht.1, by have := ht.1; omega⟩
  refine Inv.ctrlBottom W (h.asked W hask) hreal hc (isMerge_eq_false hbb) (fun _ => hask.values ▸ hreach) fun _ =>
    ⟨fun hop => absurd hop (by simp [hif, hsw]), fun _ _ => ⟨Function.update_self .., fun _ a ha ht => ?_⟩⟩
  rw [hask.values] at ht
  refine hvis a ha ⟨ht.1, ?_⟩
  by_cases hai : a.toNat = i
  · have hbot := ht.2
    rw [hai, Function.update_self] at hbot
    cases hbot
  · exact Function.update_of_ne hai _ st.values ▸ ht.2

end

/-- What the proof needs of a round that folds: `ir_sccp_fold` looks at operands only. -/
def RoundDirect (G : Graph) (F : Folding) (fuel : ℕ) (st : State) (i : ℕ) : Prop :=
  G.isFoldable i = true → G.useLists i ≠ [] → st.hasTop G i = false → st.mayBenefit G i = true →
    FoldDirect G F fuel st.values i

/-- **Every round keeps the invariant.** -/
theorem Inv.round (W : Wf G) {I : Interp} (hF : FoldSound G I F) {fuel i : ℕ} (h : Inv G F (fun _ => False) st)
    (hpop : st.queue i = true) (hdir : RoundDirect G F fuel st i) (hr : st.round G F fuel i = some st') :
    Inv G F (fun _ => False) st' := by
  obtain ⟨hreal, hnb⟩ := h.base.queued i hpop
  have hi := (W.range i hreal).1
  have h₁ : Inv G F (fun j => False ∨ j = i) { st with queue := Function.update st.queue i false } := h.dequeue i
  have hq : { st with queue := Function.update st.queue i false }.queue i = false := Function.update_self ..
  unfold State.round at hr
  generalize hst : ({ st with queue := Function.update st.queue i false } : State) = st₁ at h₁ hq hr
  have hval : st₁.values = st.values := by rw [← hst]
  unfold State.analyzeInsn at hr
  simp only at hr
  split at hr
  · rename_i hd
    have hb : st₁.values i ≠ .bottom := hval ▸ hnb hd
    split at hr
    · rename_i hu
      rw [← Option.some.inj hr]
      refine h₁.resolve fun j _ _ hE hE' => ?_
      obtain rfl := hE.resolve_left hE'
      exact NodeOk.unused W hd hu
    split at hr
    · rename_i hphi
      rw [← Option.some.inj hr]
      exact (Inv.analyzePhi W h₁ hreal hq hphi hb rfl).1
    rename_i hu hphi
    have hnp : G.isPhi i = false := by simpa using hphi
    split at hr
    · rename_i hf
      have hfold : G.isFoldable i = true := by simp [Graph.isFoldable, hf, hd, hnp]
      obtain ⟨r, hdata, rfl⟩ := Option.map_eq_some_iff.mp hr
      refine Inv.analyzeData W h₁ hreal hq hF hfold hb ?_ hdata
      unfold RoundDirect State.hasTop State.mayBenefit at hdir
      unfold State.hasTop State.mayBenefit
      rw [hval]
      exact hdir hfold hu
    · rename_i hf
      rw [← Option.some.inj hr]
      exact Inv.analyzeLeaf W h₁ hreal hq hd hnp (by simp [Graph.isFoldable, hf])
  rename_i hd
  have hc := isControl_of_not_data hreal (by simpa using hd)
  split at hr
  · rename_i hbb
    split at hr
    · rename_i hm
      rw [← Option.some.inj hr]
      exact Inv.analyzeMerge W h₁ hreal hm
    · rename_i hm
      rw [← Option.some.inj hr]
      refine Inv.ctrlBottom W h₁ hreal hc (by simpa [Graph.isMerge] using hm) ?_ ?_
      · intro hn
        rw [hbb] at hn
        cases hn
      · intro hn
        rw [hbb] at hn
        cases hn
  rename_i hnbb
  have hbb : (G.opOf i).isBbStart = false := by simpa using hnbb
  split at hr
  · rename_i hreach
    rw [← Option.some.inj hr]
    exact Inv.unreached W h₁ hreal hc hbb hreach
  rename_i hreach
  split at hr
  · rename_i hop
    rw [← Option.some.inj hr]
    exact Inv.analyzeIf W h₁ hi hop hreach
  rename_i hif
  split at hr
  · rename_i hop
    rw [← Option.some.inj hr]
    exact Inv.analyzeSwitch W h₁ hi hop hreach
  rename_i hsw
  split at hr
  · rename_i hdead
    rw [← Option.some.inj hr]
    exact Inv.deadLoad W h₁ hreal hc hbb hreach hif hsw hdead
  · rw [← Option.some.inj hr]
    exact Inv.askOperands W h₁ hreal hc hbb hreach hif hsw

/-! ### The first state -/

theorem Inv.init (W : Wf G) : Inv G F (fun _ => False) State.init where
  base := by
    have hne : ∀ {x : ℕ} {v : Lat}, State.init.values x = v → v = .top := fun h => h.symm
    refine ⟨⟨fun x y h => ?_, ⟨fun _ => 0, fun x y h => ?_⟩, fun _ _ => rfl⟩, ?_, fun x y h => ?_, fun r m hm => ?_,
      fun j hj => ?_⟩
    · cases hne h
    · cases hne h
    · refine ⟨fun x c h => ?_, fun x y h => ?_, fun x u h => ?_, fun x n h => ?_, fun m _ => ⟨fun n h => ?_, fun h => ?_⟩,
        fun x _ h => absurd rfl h, fun x _ _ h => absurd rfl h⟩
      all_goals cases hne h
    · cases hne h
    · simp [State.init] at hm
    · obtain rfl : j = 1 := by simpa [State.init] using hj
      rw [W.start]
      refine ⟨fun h => ?_, fun _ h => ?_⟩
      · cases h
      · cases hne h
  ok j hreal hq _ := by
    have hj : j ≠ 1 := by
      rintro rfl
      simp [State.init] at hq
    refine ⟨fun h => absurd h hj, fun _ _ p _ _ h => absurd rfl h.1, fun _ ⟨a, _, h⟩ => absurd rfl h,
      fun _ _ h => absurd rfl h, fun _ _ _ hact => ?_, fun _ _ h => absurd rfl h, fun _ _ _ => ⟨fun hact => ?_, fun h => ?_⟩,
      fun _ _ _ hrec => ?_⟩
    · rcases hact with h | ⟨a, -, -, h⟩
      · simp [State.init] at h
      · exact absurd rfl h
    · rcases hact with h | ⟨a, -, -, h⟩
      · simp [State.init] at h
      · exact absurd rfl h
    · cases (h : Lat.top = .bottom)
    · rcases hrec with ⟨-, h⟩ | ⟨-, h⟩ <;> cases (h : Lat.top = _)

end IrJit.Sccp
