import IrJit.Sccp.Frame

/-!
# Sccp.Lower — how the analysis lowers one value

The functions that write `_values[i]` have one specification, `Lower`: other values stay, and who
depends on an identity that moved is queued.
-/

namespace IrJit.Sccp

variable {G : Graph} {F : Folding} {st st' st'' : State}

/-! ### Asking for inputs -/

/-- `st'` is `st` with nodes other than `i` asked for that are TOP. -/
structure Asked (G : Graph) (i : ℕ) (st st' : State) : Prop where
  values : st'.values = st.values
  ring : st'.ring = st.ring
  visited : ∀ x, st.visited x = true → st'.visited x = true
  queue : ∀ x, st.queue x = true → st'.queue x = true
  fresh : ∀ x, st'.visited x = true → st.visited x = true ∨ st'.queue x = true
  queued : ∀ x, st'.queue x = true → st.queue x = true ∨ (G.opOf x ≠ .nop ∧ st.values x = .top ∧ x ≠ i)

theorem Asked.refl (i : ℕ) (st : State) : Asked G i st st :=
  ⟨rfl, rfl, fun _ h => h, fun _ h => h, fun _ h => Or.inl h, fun _ h => Or.inl h⟩

theorem Asked.trans {i : ℕ} (h : Asked G i st st') (h' : Asked G i st' st'') : Asked G i st st'' where
  values := h'.values.trans h.values
  ring := h'.ring.trans h.ring
  visited x hx := h'.visited x (h.visited x hx)
  queue x hx := h'.queue x (h.queue x hx)
  fresh x hx := by
    rcases h'.fresh x hx with hx | hx
    · exact (h.fresh x hx).imp id (h'.queue x)
    · exact Or.inr hx
  queued x hx := by
    rcases h'.queued x hx with hx | ⟨hreal, ht, hne⟩
    · exact h.queued x hx
    · exact Or.inr ⟨hreal, h.values ▸ ht, hne⟩

theorem Asked.queue_self {i : ℕ} (h : Asked G i st st') (hq : st.queue i = false) : st'.queue i = false := by
  by_contra hne
  rcases h.queued i (by simpa using hne) with h | ⟨-, -, h⟩
  · rw [hq] at h
    cases h
  · exact h rfl

theorem asked_addInput {i x : ℕ} (hreal : G.opOf x ≠ .nop) (ht : st.values x = .top) (hne : x ≠ i) :
    Asked G i st (st.addInput x) ∧ (st.addInput x).visited x = true := by
  unfold State.addInput
  split
  · rename_i hv
    exact ⟨Asked.refl i st, hv⟩
  · refine ⟨⟨rfl, rfl, fun y hy => ?_, fun y hy => ?_, fun y hy => ?_, fun y hy => ?_⟩, ?_⟩
    · by_cases hyx : y = x
      · subst hyx
        exact Function.update_self ..
      · exact (Function.update_of_ne hyx _ _).trans hy
    · simp [State.enqueue, hy]
    · by_cases hyx : y = x
      · subst hyx
        exact Or.inr (by simp [State.enqueue])
      · exact Or.inl ((Function.update_of_ne hyx _ _).symm.trans hy)
    · simp only [State.enqueue, Bool.or_eq_true, decide_eq_true_eq, List.mem_singleton] at hy
      rcases hy with hy | rfl
      · exact Or.inl hy
      · exact Or.inr ⟨hreal, ht, hne⟩
    · exact Function.update_self ..

theorem asked_addInputs {i : ℕ} : ∀ (l : List ℤ) (st : State),
    (∀ a ∈ l, IsTop st.values a → G.opOf a.toNat ≠ .nop ∧ a.toNat ≠ i) → Asked G i st (st.addInputs l) ∧
      ∀ a ∈ l, IsTop st.values a → (st.addInputs l).visited a.toNat = true
  | [], st, _ => ⟨Asked.refl i st, fun a ha => absurd ha (by simp)⟩
  | a :: l, st, hl => by
    have hl' : ∀ a ∈ l, IsTop st.values a → G.opOf a.toNat ≠ .nop ∧ a.toNat ≠ i := fun b hb =>
      hl b (List.mem_cons_of_mem a hb)
    unfold State.addInputs
    rw [List.foldl_cons]
    by_cases ha : 0 < a ∧ st.values a.toNat = .top
    · rw [if_pos ha]
      obtain ⟨hreal, hne⟩ := hl a List.mem_cons_self ha
      obtain ⟨h1, hv⟩ := asked_addInput hreal ha.2 hne
      obtain ⟨h2, hrest⟩ := asked_addInputs l _ (h1.values ▸ hl')
      refine ⟨h1.trans h2, fun b hb ht => ?_⟩
      rcases List.mem_cons.mp hb with rfl | hb
      · exact h2.visited _ hv
      · exact hrest b hb ⟨ht.1, h1.values ▸ ht.2⟩
    · rw [if_neg ha]
      obtain ⟨h2, hrest⟩ := asked_addInputs l st hl'
      refine ⟨h2, fun b hb ht => ?_⟩
      rcases List.mem_cons.mp hb with rfl | hb
      · exact absurd ht ha
      · exact hrest b hb ht

theorem Base.asked {i : ℕ} (h : Base G st) (ha : Asked G i st st') : Base G st' where
  forest := ha.values ▸ h.forest
  kinds := ha.values ▸ h.kinds
  ring x y hx := by
    rw [ha.values] at hx ⊢
    rw [ha.ring]
    exact h.ring x y hx
  ringReal := ha.ring ▸ h.ringReal
  queued j hj := by
    rw [ha.values]
    rcases ha.queued j hj with hj | ⟨hreal, ht, -⟩
    · exact h.queued j hj
    · exact ⟨hreal, fun _ hb => by rw [ht] at hb; cases hb⟩

theorem eq_of_fresh {x : ℕ} (hvis : st.visited x = true → st'.visited x = true)
    (hfresh : st'.visited x = true → st.visited x = true ∨ st'.queue x = true) (hq : st'.queue x = false) :
    st'.visited x = st.visited x := by
  by_cases hv : st.visited x = true
  · rw [hv, hvis hv]
  · by_cases hv' : st'.visited x = true
    · rcases hfresh hv' with h | h
      · exact absurd h hv
      · rw [hq] at h
        cases h
    · rw [Bool.not_eq_true] at hv hv'
      rw [hv, hv']

theorem Inv.asked {E : ℕ → Prop} {i : ℕ} (W : Wf G) (h : Inv G F E st) (ha : Asked G i st st') : Inv G F E st' where
  base := h.base.asked ha
  ok j hreal hq hE := by
    have hq0 : st.queue j = false := by
      by_contra hne
      rw [ha.queue j (by simpa using hne)] at hq
      cases hq
    rw [ha.values]
    refine NodeOk.frame W h.base.forest h.base.forest h.base.kinds ⟨fun _ h => h, fun _ h => h⟩ ha.visited rfl
      (eq_of_fresh (ha.visited j) (ha.fresh j) hq) ?_ ?_ (h.ok j hreal hq0 hE)
    · exact fun y _ x hx => hx
    · exact Or.inr (Or.inl fun a _ _ => ⟨rfl, rfl⟩)

/-! ### Lowering a value -/

/-- The value of `i` went down from `st` to `st'`; the nodes that read a moved identity are queued. -/
structure Lower (G : Graph) (i : ℕ) (st st' : State) : Prop where
  values : ∀ j, j ≠ i → st'.values j = st.values j
  down : Down st.values st'.values
  visited : ∀ x, st.visited x = true → st'.visited x = true
  fresh : ∀ x, st'.visited x = true → st.visited x = true ∨ st'.queue x = true
  queue : ∀ j, st.queue j = true → st'.queue j = true
  queued : ∀ j, st'.queue j = true → st.queue j = true ∨ (G.opOf j ≠ .nop ∧ st'.values j ≠ .bottom)
  moved : ∀ x, x ≠ i → identity G st'.values x ≠ identity G st.values x → ∀ u ∈ G.useLists x,
    st'.values u ≠ .bottom → st'.queue u = true
  sameClass : ∀ j, j ≠ i → st'.queue j = true ∨ SameClass G st.values st'.values j

theorem Wf.use_real (W : Wf G) {x j : ℕ} (hx : 0 < x) (h : j ∈ G.useLists x) : G.opOf j ≠ .nop :=
  ((W.uses x j hx).mp h).1

theorem mem_addUses {x j : ℕ} : (st.addUses G x).queue j = true ↔
    st.queue j = true ∨ (j ∈ G.useLists x ∧ st.values j ≠ .bottom) := by
  simp [State.addUses, State.enqueue]

theorem Lower.asked {i : ℕ} (h : Lower G i st st') (ha : Asked G i st' st'') : Lower G i st st'' where
  values j hj := by rw [ha.values, h.values j hj]
  down := ha.values ▸ h.down
  visited x hx := ha.visited x (h.visited x hx)
  fresh x hx := by
    rcases ha.fresh x hx with hx | hx
    · exact (h.fresh x hx).imp_right (ha.queue x)
    · exact Or.inr hx
  queue j hj := ha.queue j (h.queue j hj)
  queued j hj := by
    rw [ha.values]
    rcases ha.queued j hj with hj | ⟨hreal, ht, -⟩
    · exact h.queued j hj
    · exact Or.inr ⟨hreal, fun hb => by rw [ht] at hb; cases hb⟩
  moved x hx hne u hu hb := by
    rw [ha.values] at hne hb
    exact ha.queue u (h.moved x hx hne u hu hb)
  sameClass j hj := by
    rw [ha.values]
    exact (h.sameClass j hj).imp_left (ha.queue j)

/-- After `i` was lowered, only `i` and its uses may miss their equations. -/
theorem Inv.lower {E : ℕ → Prop} (W : Wf G) {i : ℕ} (h : Inv G F E st) (hl : Lower G i st st')
    (hb : Base G st') :
    Inv G F (fun j => E j ∨ j = i ∨ (j ∈ G.useLists i ∧ st'.values j ≠ .bottom)) st' where
  base := hb
  ok j hreal hq hE := by
    push Not at hE
    obtain ⟨hE, hji, hu⟩ := hE
    have hq0 : st.queue j = false := by
      by_contra hne
      rw [hl.queue j (by simpa using hne)] at hq
      cases hq
    have hV := hl.values j hji
    refine NodeOk.frame W h.base.forest hb.forest h.base.kinds hl.down hl.visited hV
      (eq_of_fresh (hl.visited j) (hl.fresh j) hq) ?_ ?_ (h.ok j hreal hq0 hE)
    · exact (hl.sameClass j hji).resolve_left (by rw [hq]; exact Bool.false_ne_true)
    · by_cases hbot : st.values j = .bottom
      · exact Or.inl hbot
      · refine Or.inr (Or.inl fun a ha h0 => ?_)
        have hua : j ∈ G.useLists a.toNat :=
          (W.uses a.toNat j (by omega)).mpr ⟨hreal, by rw [Int.toNat_of_nonneg (le_of_lt h0)]; exact ha⟩
        have hai : a.toNat ≠ i := by
          intro heq
          rw [heq] at hua
          exact hbot (hV ▸ hu hua)
        refine ⟨hl.values _ hai, ?_⟩
        by_contra hne
        have := hl.moved _ hai hne j hua (by rw [hV]; exact hbot)
        rw [hq] at this
        cases this

/-- Queueing the uses of a node. -/
theorem Inv.addUses {E : ℕ → Prop} (W : Wf G) {i : ℕ} (hi : 0 < i)
    (h : Inv G F (fun j => E j ∨ (j ∈ G.useLists i ∧ st.values j ≠ .bottom)) st) :
    Inv G F E (st.addUses G i) where
  base := by
    refine ⟨h.base.forest, h.base.kinds, h.base.ring, h.base.ringReal, fun j hj => ?_⟩
    rcases mem_addUses.mp hj with hj | ⟨hj, hv⟩
    · exact h.base.queued j hj
    · exact ⟨W.use_real hi hj, fun _ => hv⟩
  ok j hreal hq hE := by
    refine h.ok j hreal ?_ ?_
    · by_contra hne
      rw [mem_addUses.mpr (Or.inl (by simpa using hne))] at hq
      cases hq
    · rintro (hE' | hu)
      · exact hE hE'
      · rw [mem_addUses.mpr (Or.inr hu)] at hq
        cases hq

/-- An exception is no longer one when the node has its equation. -/
theorem Inv.resolve {E E' : ℕ → Prop} (h : Inv G F E st)
    (hE : ∀ j, G.opOf j ≠ .nop → st.queue j = false → E j → ¬ E' j → NodeOk G F st.values st.visited j) :
    Inv G F E' st where
  base := h.base
  ok j hreal hq hE' := by
    by_cases hj : E j
    · exact hE j hreal hq hj hE'
    · exact h.ok j hreal hq hj

/-- **A node was processed**: it was lowered, has its equation, and its uses are queued. -/
theorem Inv.finish {E : ℕ → Prop} (W : Wf G) {i : ℕ} (hi : 0 < i) (h : Inv G F (fun j => E j ∨ j = i) st)
    (hl : Lower G i st st') (hb : Base G st') (hok : NodeOk G F st'.values st'.visited i) :
    Inv G F E (st'.addUses G i) := by
  refine Inv.addUses W hi ((h.lower W hl hb).resolve fun j _ _ hE hE' => ?_)
  push Not at hE'
  rcases hE with (hE | rfl) | rfl | hu
  · exact absurd hE hE'.1
  · exact hok
  · exact hok
  · exact absurd (hE'.2 hu.1) hu.2

/-! ### Writing a value -/

/-- `v` is a value for node `i`. -/
structure KindOk (G : Graph) (V : ℕ → Lat) (i : ℕ) (v : Lat) : Prop where
  const : ∀ c, v = .const c → G.hasValue i = true ∧ (V i = .top ∨ V i = v)
  copy : ∀ y, v = .copy y → G.hasValue i = true
  out : ∀ u, v = .out u → (G.opOf i = .ifOp ∨ G.opOf i = .switch) ∧ ¬ IsTop V (G.operand i 2) ∧
    ∀ c, condConst G V (G.operand i 2) = some c → outputOf G i c = some u
  merge : ∀ n, v = .merge n → G.isMerge i = true
  counted : G.isMerge i = true → (∀ n, v = .merge n → unfeasible G V i ≤ n) ∧
    (v = .bottom → unfeasible G V i = 0)
  folded : G.isFoldable i = true → v ≠ .top → ∀ a ∈ G.dataIns i, 0 < a → V a.toNat ≠ .top
  reached : (G.opOf i).isControl = true → (G.opOf i).isBbStart = false → v ≠ .top →
    V (G.operand i 1).toNat ≠ .top

theorem Kinds.update {V : ℕ → Lat} {i : ℕ} {v : Lat} (hi : 0 < i) (K : Kinds G V) (D : Down V (Function.update V i v))
    (hv : KindOk G V i v) : Kinds G (Function.update V i v) where
  const x c h := by
    by_cases hx : x = i
    · subst hx
      exact (hv.const c (Function.update_self x v V ▸ h)).1
    · exact K.const x c (Function.update_of_ne hx v V ▸ h)
  copy x y h := by
    by_cases hx : x = i
    · subst hx
      exact hv.copy y (Function.update_self x v V ▸ h)
    · exact K.copy x y (Function.update_of_ne hx v V ▸ h)
  out x u h := by
    -- a condition that is not TOP does not become a constant
    have hcond : ∀ a : ℤ, ¬ IsTop V a → ¬ IsTop (Function.update V i v) a ∧
        ∀ c, condConst G (Function.update V i v) a = some c → condConst G V a = some c := by
      intro a ha
      refine ⟨fun hn => ha (D.isTop hn), fun c hc => ?_⟩
      unfold condConst at hc ⊢
      split
      · rw [if_pos ‹_›] at hc
        exact hc
      · rename_i hneg
        rw [if_neg hneg] at hc
        by_cases hai : a.toNat = i
        · subst hai
          rw [Function.update_self] at hc
          cases v with
          | const k =>
            rcases (hv.const k rfl).2 with ht | hk
            · exact absurd ⟨by omega, ht⟩ ha
            · rw [hk]
              exact hc
          | _ => simp at hc
        · rw [Function.update_of_ne hai] at hc
          exact hc
    by_cases hx : x = i
    · subst hx
      obtain ⟨hop, ht, hout⟩ := hv.out u (Function.update_self x v V ▸ h)
      exact ⟨hop, (hcond _ ht).1, fun c hc => hout c ((hcond _ ht).2 c hc)⟩
    · obtain ⟨hop, ht, hout⟩ := K.out x u (Function.update_of_ne hx v V ▸ h)
      exact ⟨hop, (hcond _ ht).1, fun c hc => hout c ((hcond _ ht).2 c hc)⟩
  merge x n h := by
    by_cases hx : x = i
    · subst hx
      exact hv.merge n (Function.update_self x v V ▸ h)
    · exact K.merge x n (Function.update_of_ne hx v V ▸ h)
  counted m hm := by
    have hle := D.unfeasible_le (G := G) m
    by_cases hx : m = i
    · subst hx
      rw [Function.update_self]
      obtain ⟨h1, h2⟩ := hv.counted hm
      refine ⟨fun n hn => le_trans hle (h1 n hn), fun hb => ?_⟩
      have := h2 hb
      omega
    · rw [Function.update_of_ne hx]
      obtain ⟨h1, h2⟩ := K.counted m hm
      refine ⟨fun n hn => le_trans hle (h1 n hn), fun hb => ?_⟩
      have := h2 hb
      omega
  folded x hf ht a ha h0 := by
    by_cases hx : x = i
    · subst hx
      exact D.top _ (hv.folded hf (Function.update_self x v V ▸ ht) a ha h0)
    · exact D.top _ (K.folded x hf (Function.update_of_ne hx v V ▸ ht) a ha h0)
  reached x hc hbb ht := by
    by_cases hx : x = i
    · subst hx
      exact D.top _ (hv.reached hc hbb (Function.update_self x v V ▸ ht))
    · exact D.top _ (K.reached x hc hbb (Function.update_of_ne hx v V ▸ ht))

theorem Down.update {V : ℕ → Lat} {i : ℕ} {v : Lat} (ht : v ≠ .top) (hb : V i = .bottom → v = .bottom) :
    Down V (Function.update V i v) where
  top x hx := by
    by_cases h : x = i
    · subst h
      rw [Function.update_self]
      exact ht
    · rw [Function.update_of_ne h]
      exact hx
  bottom x hx := by
    by_cases h : x = i
    · subst h
      rw [Function.update_self]
      exact hb hx
    · rw [Function.update_of_ne h]
      exact hx

/-- Writing a value that is no copy to a node that is none. -/
theorem lower_setValue {i : ℕ} {v : Lat} (hi : ∀ y, st.values i ≠ .copy y) (hv : ∀ y, v ≠ .copy y)
    (ht : v ≠ .top) (hb : st.values i = .bottom → v = .bottom) : Lower G i st (st.setValue i v) where
  values j hj := by
    change Function.update st.values i v j = st.values j
    exact Function.update_of_ne hj _ _
  down := Down.update ht hb
  visited _ h := h
  fresh _ h := Or.inl h
  queue _ h := h
  queued _ h := Or.inl h
  moved x _ hne := absurd (identity_update hi hv x) hne
  sameClass j _ := by
    refine Or.inr fun y _ x hx => ?_
    exact (identity_update hi hv x).trans hx

theorem Base.setValue (W : Wf G) {i : ℕ} {v : Lat} (h : Base G st) (hreal : G.opOf i ≠ .nop)
    (hi : ∀ y, st.values i ≠ .copy y) (hv : ∀ y, v ≠ .copy y) (ht : v ≠ .top)
    (hb : st.values i = .bottom → v = .bottom) (hk : KindOk G st.values i v)
    (hq : (G.opOf i).isData = true → st.queue i = false) : Base G (st.setValue i v) where
  forest := h.forest.update hreal (by
    by_cases hbot : st.values i = .bottom
    · exact Or.inr (hb hbot)
    · exact Or.inl hbot) (Or.inl hi) hv
  kinds := h.kinds.update (W.range i hreal).1 (Down.update ht hb) hk
  ring x y hx := by
    have hne : x ≠ i := by
      rintro rfl
      exact hv y (Function.update_self x v st.values ▸ hx)
    change x ∈ st.ring (identity G (Function.update st.values i v) x)
    rw [identity_update hi hv]
    exact h.ring x y (Function.update_of_ne hne v st.values ▸ hx)
  ringReal := h.ringReal
  queued j hj := by
    obtain ⟨h1, h2⟩ := h.queued j hj
    refine ⟨h1, fun hd => ?_⟩
    have hne : j ≠ i := by
      rintro rfl
      have hj' : st.queue j = true := hj
      rw [hq hd] at hj'
      cases hj'
    change Function.update st.values i v j ≠ .bottom
    rw [Function.update_of_ne hne]
    exact h2 hd

/-! ### Copies -/

theorem lower_addIdentity (W : Wf G) {i src : ℕ} (H : Forest G st.values) (hreal : G.opOf i ≠ .nop)
    (hib : st.values i ≠ .bottom) (hic : ∀ y, st.values i ≠ .copy y)
    (hsrc : st.values src = .bottom ∨ ∃ z, st.values src = .copy z) :
    Lower G i st (st.addIdentity G src i) where
  values j hj := by
    change Function.update st.values i (.copy src) j = st.values j
    exact Function.update_of_ne hj _ _
  down := Down.update (fun h => by cases h) fun h => absurd h hib
  visited _ h := h
  fresh _ h := Or.inl h
  queue _ h := h
  queued _ h := Or.inl h
  moved x hx hne := absurd (identity_update_copy W.range H hreal hib hic hsrc hx) hne
  sameClass j hj := by
    refine Or.inr fun y hy x hx => ?_
    have hxi : x ≠ i := by
      rintro rfl
      have hroot := H.identity_bottom W.range j (Or.inr ⟨y, hy⟩)
      rw [← hx, identity_eq_self hic] at hroot
      exact hib hroot
    exact (identity_update_copy W.range H hreal hib hic hsrc hxi).trans hx

theorem Base.addIdentity (W : Wf G) {i src : ℕ} (h : Base G st) (hreal : G.opOf i ≠ .nop)
    (hib : st.values i ≠ .bottom) (hic : ∀ y, st.values i ≠ .copy y)
    (hsrc : st.values src = .bottom ∨ ∃ z, st.values src = .copy z)
    (hk : KindOk G st.values i (.copy src)) : Base G (st.addIdentity G src i) where
  forest := h.forest.update_copy hreal hib hic hsrc
  kinds := h.kinds.update (W.range i hreal).1 (Down.update (fun h => by cases h) fun h => absurd h hib) hk
  ring x y hx := by
    change x ∈ Function.update st.ring (identity G st.values src) (st.ring (identity G st.values src) ++ [i])
      (identity G (Function.update st.values i (.copy src)) x)
    have hmem : ∀ r, x ∈ st.ring r → x ∈ Function.update st.ring (identity G st.values src)
        (st.ring (identity G st.values src) ++ [i]) r := by
      intro r hr
      by_cases hrep : r = identity G st.values src
      · subst hrep
        rw [Function.update_self]
        exact List.mem_append_left _ hr
      · rw [Function.update_of_ne hrep]
        exact hr
    by_cases hxi : x = i
    · subst hxi
      have hne : src ≠ x := by
        rintro rfl
        rcases hsrc with h | ⟨z, h⟩
        · exact hib h
        · exact hic z h
      rw [(h.forest.update_copy hreal hib hic hsrc).identity_copy W.range (Function.update_self ..),
        identity_update_copy W.range h.forest hreal hib hic hsrc hne, Function.update_self]
      exact List.mem_append_right _ (List.mem_singleton.mpr rfl)
    · rw [identity_update_copy W.range h.forest hreal hib hic hsrc hxi]
      exact hmem _ (h.ring x y (Function.update_of_ne hxi _ st.values ▸ hx))
  ringReal r m hm := by
    change m ∈ Function.update st.ring (identity G st.values src) (st.ring (identity G st.values src) ++ [i]) r
      at hm
    by_cases hrep : r = identity G st.values src
    · subst hrep
      rw [Function.update_self] at hm
      rcases List.mem_append.mp hm with hm | hm
      · exact h.ringReal _ m hm
      · rw [List.mem_singleton.mp hm]
        exact hreal
    · rw [Function.update_of_ne hrep] at hm
      exact h.ringReal r m hm
  queued j hj := by
    obtain ⟨h1, h2⟩ := h.queued j hj
    refine ⟨h1, fun hd => ?_⟩
    change Function.update st.values i (.copy src) j ≠ .bottom
    by_cases hji : j = i
    · subst hji
      rw [Function.update_self]
      exact fun h => by cases h
    · rw [Function.update_of_ne hji]
      exact h2 hd

/-! ### Splitting a class -/

theorem mem_walk {i m : ℕ} (h : m ∈ st.ring (identity G st.values i)) (hne : m ≠ i) : m ∈ st.walk G i := by
  unfold State.walk
  simp only [List.mem_append, List.mem_cons]
  rw [← List.takeWhile_append_dropWhile (p := fun y => decide (y ≠ i)) (l := st.ring _), List.mem_append] at h
  rcases h with h | h
  · exact Or.inr (Or.inr h)
  · left
    cases hd : (st.ring (identity G st.values i)).dropWhile (fun y => decide (y ≠ i)) with
    | nil => rw [hd] at h; simp at h
    | cons y l =>
      rw [hd] at h
      have hy : y = i := by
        have := List.head?_dropWhile_not (fun y => decide (y ≠ i)) (st.ring (identity G st.values i))
        rw [hd] at this
        simpa using this
      rcases List.mem_cons.mp h with rfl | h
      · exact absurd hy hne
      · exact h

/-- What the walk over a ring queues. -/
def splitQueue (G : Graph) (V : ℕ → Lat) (l : List ℕ) (j : ℕ) : Prop :=
  V j ≠ .bottom ∧ ∃ m ∈ l, j = m ∨ j ∈ G.useLists m

theorem foldl_walk : ∀ (l : List ℕ) (s : State),
    let s' := l.foldl (fun s m => (if s.values m ≠ .bottom then s.enqueue [m] else s).addUses G m) s
    s'.values = s.values ∧ s'.visited = s.visited ∧
      ∀ j, s'.queue j = true ↔ s.queue j = true ∨ splitQueue G s.values l j
  | [], s => by simp [splitQueue]
  | m :: l, s => by
    simp only [List.foldl_cons]
    obtain ⟨h1, h2, h3⟩ := foldl_walk l ((if s.values m ≠ .bottom then s.enqueue [m] else s).addUses G m)
    have hv : ((if s.values m ≠ .bottom then s.enqueue [m] else s).addUses G m).values = s.values := by
      split <;> rfl
    have hvis : ((if s.values m ≠ .bottom then s.enqueue [m] else s).addUses G m).visited = s.visited := by
      split <;> rfl
    refine ⟨h1.trans hv, h2.trans hvis, fun j => ?_⟩
    rw [h3 j, hv, mem_addUses]
    have hq : (if s.values m ≠ .bottom then s.enqueue [m] else s).queue j = true ↔
        s.queue j = true ∨ (j = m ∧ s.values j ≠ .bottom) := by
      split
      · rename_i hb
        simp only [State.enqueue, Bool.or_eq_true, decide_eq_true_eq, List.mem_singleton]
        constructor
        · rintro (h | rfl)
          · exact Or.inl h
          · exact Or.inr ⟨rfl, hb⟩
        · rintro (h | ⟨rfl, -⟩)
          · exact Or.inl h
          · exact Or.inr rfl
      · rename_i hb
        constructor
        · exact Or.inl
        · rintro (h | ⟨rfl, h⟩)
          · exact h
          · exact absurd h hb
    have hval : (if s.values m ≠ .bottom then s.enqueue [m] else s).values = s.values := by
      split <;> rfl
    rw [hq, hval]
    unfold splitQueue
    constructor
    · rintro (((h | ⟨rfl, hb⟩) | ⟨hu, hb⟩) | ⟨hb, m', hm', h⟩)
      · exact Or.inl h
      · exact Or.inr ⟨hb, j, List.mem_cons_self, Or.inl rfl⟩
      · exact Or.inr ⟨hb, m, List.mem_cons_self, Or.inr hu⟩
      · exact Or.inr ⟨hb, m', List.mem_cons_of_mem m hm', h⟩
    · rintro (h | ⟨hb, m', hm', h⟩)
      · exact Or.inl (Or.inl (Or.inl h))
      · rcases List.mem_cons.mp hm' with rfl | hm'
        · rcases h with rfl | h
          · exact Or.inl (Or.inl (Or.inr ⟨rfl, hb⟩))
          · exact Or.inl (Or.inr ⟨h, hb⟩)
        · exact Or.inr ⟨hb, m', hm', h⟩

theorem splitPartition_values (i : ℕ) : (st.splitPartition G i).values = Function.update st.values i .bottom :=
  (foldl_walk (st.walk G i) (st.setValue i .bottom)).1

theorem splitPartition_visited (i : ℕ) : (st.splitPartition G i).visited = st.visited :=
  (foldl_walk (st.walk G i) (st.setValue i .bottom)).2.1

theorem splitPartition_queue (i j : ℕ) : (st.splitPartition G i).queue j = true ↔
    st.queue j = true ∨ splitQueue G (Function.update st.values i .bottom) (st.walk G i) j :=
  (foldl_walk (st.walk G i) (st.setValue i .bottom)).2.2 j

theorem Base.walk_real (W : Wf G) {i m : ℕ} (h : Base G st) (hi : ∃ y, st.values i = .copy y)
    (hm : m ∈ st.walk G i) : G.opOf m ≠ .nop := by
  unfold State.walk at hm
  simp only [List.mem_append, List.mem_cons] at hm
  rcases hm with hm | rfl | hm
  · exact h.ringReal _ m (List.dropWhile_subset _ (List.drop_subset 1 _ hm))
  · intro hnop
    have hb := h.forest.identity_bottom W.range i (Or.inr hi)
    rw [h.forest.nop _ hnop] at hb
    cases hb
  · exact h.ringReal _ m (List.takeWhile_subset _ hm)

theorem lower_split (W : Wf G) {i y₀ : ℕ} (h : Base G st) (hreal : G.opOf i ≠ .nop)
    (hi : st.values i = .copy y₀) : Lower G i st (st.splitPartition G i) where
  values j hj := by
    rw [splitPartition_values]
    exact Function.update_of_ne hj _ _
  down := by
    rw [splitPartition_values]
    exact Down.update (fun h => by cases h) fun _ => rfl
  visited x hx := by
    rw [splitPartition_visited]
    exact hx
  fresh x hx := by
    rw [splitPartition_visited] at hx
    exact Or.inl hx
  queue j hj := (splitPartition_queue i j).mpr (Or.inl hj)
  queued j hj := by
    rw [splitPartition_values]
    rcases (splitPartition_queue i j).mp hj with hj | ⟨hb, m, hm, hjm⟩
    · exact Or.inl hj
    · refine Or.inr ⟨?_, hb⟩
      have hmreal := h.walk_real W ⟨y₀, hi⟩ hm
      rcases hjm with rfl | hjm
      · exact hmreal
      · exact W.use_real (W.range m hmreal).1 hjm
  moved x hx hne u hu hb := by
    rw [splitPartition_values] at hne hb
    rcases identity_update_bottom W.range h.forest hreal x with ⟨hid', hid⟩ | heq
    · refine (splitPartition_queue i u).mpr (Or.inr ⟨hb, x, ?_, Or.inr hu⟩)
      by_cases hc : ∃ y, st.values x = .copy y
      · obtain ⟨y, hy⟩ := hc
        exact mem_walk (hid ▸ h.ring x y hy) hx
      · -- a root stays a root
        have hroot : ∀ y, st.values x ≠ .copy y := fun y hy => hc ⟨y, hy⟩
        refine absurd ?_ hne
        rw [identity_eq_self hroot, identity_eq_self]
        intro y
        rw [Function.update_of_ne hx]
        exact hroot y
    · exact absurd heq hne
  sameClass j hj := by
    rw [splitPartition_values]
    by_cases hin : (∃ y, st.values j = .copy y) ∧ identity G st.values j = identity G st.values i
    · obtain ⟨⟨y, hy⟩, hid⟩ := hin
      refine Or.inl ((splitPartition_queue i j).mpr (Or.inr ⟨?_, j, mem_walk (hid ▸ h.ring j y hy) hj, Or.inl rfl⟩))
      rw [Function.update_of_ne hj, hy]
      exact fun h => by cases h
    · refine Or.inr fun y hy x hx => ?_
      rcases identity_update_bottom W.range h.forest hreal x with ⟨-, hid⟩ | heq
      · exact absurd ⟨⟨y, hy⟩, hx.symm.trans hid⟩ hin
      · exact heq.trans hx

theorem Base.split (W : Wf G) {i y₀ : ℕ} (h : Base G st) (hreal : G.opOf i ≠ .nop)
    (hi : st.values i = .copy y₀) (hk : KindOk G st.values i .bottom) (hq : st.queue i = false) :
    Base G (st.splitPartition G i) := by
  have hF : Forest G (Function.update st.values i .bottom) :=
    h.forest.update hreal (Or.inr rfl) (Or.inr rfl) (fun y h => by cases h)
  have hring : (st.splitPartition G i).ring = Function.update (Function.update st.ring (identity G st.values i)
      ((st.ring (identity G st.values i)).filter fun m => decide
        (m ≠ i ∧ ¬ identity G (Function.update st.values i .bottom) m = i))) i
      ((st.walk G i).filter fun m => decide (identity G (Function.update st.values i .bottom) m = i)) := rfl
  refine ⟨?_, ?_, ?_, ?_, ?_⟩
  · rw [splitPartition_values]
    exact hF
  · rw [splitPartition_values]
    exact h.kinds.update (W.range i hreal).1 (Down.update (fun h => by cases h) fun _ => rfl) hk
  · intro x y hx
    rw [splitPartition_values] at hx ⊢
    rw [hring]
    have hxi : x ≠ i := by
      rintro rfl
      rw [Function.update_self] at hx
      cases hx
    have hxV : st.values x = .copy y := Function.update_of_ne hxi _ st.values ▸ hx
    by_cases hm : identity G (Function.update st.values i .bottom) x = i
    · rw [hm, Function.update_self]
      refine List.mem_filter.mpr ⟨?_, decide_eq_true hm⟩
      rcases identity_update_bottom W.range h.forest hreal x with ⟨-, hid⟩ | heq
      · exact mem_walk (hid ▸ h.ring x y hxV) hxi
      · -- the identity of a copy is BOTTOM, `i` was none
        have hb := h.forest.identity_bottom W.range x (Or.inr ⟨y, hxV⟩)
        rw [← heq, hm, hi] at hb
        cases hb
    · have heq := (identity_update_bottom W.range h.forest hreal x).resolve_left fun h => hm h.1
      rw [Function.update_of_ne hm, heq]
      by_cases hr : identity G st.values x = identity G st.values i
      · rw [hr, Function.update_self]
        exact List.mem_filter.mpr ⟨hr ▸ h.ring x y hxV, decide_eq_true ⟨hxi, hm⟩⟩
      · rw [Function.update_of_ne hr]
        exact h.ring x y hxV
  · intro r m hm
    rw [hring] at hm
    by_cases hri : r = i
    · subst hri
      rw [Function.update_self] at hm
      exact h.walk_real W ⟨y₀, hi⟩ (List.mem_filter.mp hm).1
    · rw [Function.update_of_ne hri] at hm
      by_cases hrr : r = identity G st.values i
      · subst hrr
        rw [Function.update_self] at hm
        exact h.ringReal _ m (List.mem_filter.mp hm).1
      · rw [Function.update_of_ne hrr] at hm
        exact h.ringReal r m hm
  · intro j hj
    rcases (lower_split W h hreal hi).queued j hj with hj' | ⟨hreal', hb⟩
    · obtain ⟨h1, h2⟩ := h.queued j hj'
      refine ⟨h1, fun hd => ?_⟩
      have hne : j ≠ i := by
        rintro rfl
        rw [hq] at hj'
        cases hj'
      rw [splitPartition_values, Function.update_of_ne hne]
      exact h2 hd
    · exact ⟨hreal', fun _ => hb⟩

/-! ### Meets -/

/-- A data node may take a data value once its operands are processed. -/
theorem KindOk.data {V : ℕ → Lat} {i : ℕ} {v : Lat} (hd : (G.opOf i).isData = true)
    (hv : v = .bottom ∨ G.hasValue i = true) (hc : ∀ c, v = .const c → V i = .top ∨ V i = v)
    (hin : G.isFoldable i = true → ∀ a ∈ G.dataIns i, 0 < a → V a.toNat ≠ .top)
    (hout : ∀ u, v ≠ .out u) (hmerge : ∀ n, v ≠ .merge n) : KindOk G V i v where
  const c h := by
    refine ⟨hv.resolve_left fun hb => ?_, hc c h⟩
    rw [hb] at h
    cases h
  copy y h := by
    refine hv.resolve_left fun hb => ?_
    rw [hb] at h
    cases h
  out u h := absurd h (hout u)
  merge n h := absurd h (hmerge n)
  counted hm := by
    have hop : G.opOf i = .merge ∨ G.opOf i = .loopBegin := by
      simpa [Graph.isMerge, IrOp.isMerge] using hm
    rcases hop with hop | hop <;> rw [hop] at hd <;> cases hd
  folded hf _ := hin hf
  reached hc := by
    rw [IrOp.isControl_eq_false hd] at hc
    cases hc

section

variable (W : Wf G) {i : ℕ} (h : Base G st) (hreal : G.opOf i ≠ .nop) (hd : (G.opOf i).isData = true)
  (hin : G.isFoldable i = true → ∀ a ∈ G.dataIns i, 0 < a → st.values a.toNat ≠ .top)
  (hq : st.queue i = false)

include W h hreal hd hin hq

theorem makeBottomEx_spec : Lower G i st (st.makeBottomEx G i) ∧ Base G (st.makeBottomEx G i) ∧
    (st.makeBottomEx G i).values i = .bottom := by
  have hk : KindOk G st.values i .bottom :=
    KindOk.data hd (Or.inl rfl) (fun c h => by cases h) hin (fun u h => by cases h) (fun n h => by cases h)
  unfold State.makeBottomEx
  split
  · rename_i y hy
    refine ⟨lower_split W h hreal hy, h.split W hreal hy hk hq, ?_⟩
    rw [splitPartition_values]
    exact Function.update_self ..
  · rename_i hne
    have hi : ∀ y, st.values i ≠ .copy y := fun y hy => hne y hy
    refine ⟨lower_setValue hi (fun y h => by cases h) (fun h => by cases h) fun _ => rfl, ?_, ?_⟩
    · exact h.setValue W hreal hi (fun y h => by cases h) (fun h => by cases h) (fun _ => rfl) hk fun _ => hq
    · exact Function.update_self ..

/-- `ir_sccp_meet_const` leaves the value, gives TOP the constant, or gives up. -/
theorem meetConst_spec (hv : G.hasValue i = true) (hb : st.values i ≠ .bottom) (c : Const) :
    (st.meetConst G i c = (st, false) ∧ st.values i = .const c) ∨
      ∃ st', st.meetConst G i c = (st', true) ∧ Lower G i st st' ∧ Base G st' ∧
        ((st.values i = .top ∧ st'.values = Function.update st.values i (.const c)) ∨
          st'.values i = .bottom) := by
  unfold State.meetConst
  split
  · rename_i ht
    have hi : ∀ y, st.values i ≠ .copy y := fun y hy => by rw [ht] at hy; cases hy
    refine Or.inr ⟨_, rfl, lower_setValue hi (fun y h => by cases h) (fun h => by cases h) fun h => absurd h hb,
      ?_, Or.inl ⟨ht, rfl⟩⟩
    refine h.setValue W hreal hi (fun y h => by cases h) (fun h => by cases h) (fun h => absurd h hb) ?_ fun _ => hq
    exact KindOk.data hd (Or.inr hv) (fun c _ => Or.inl ht) hin (fun u h => by cases h) (fun n h => by cases h)
  · split
    · exact Or.inl ⟨rfl, ‹_›⟩
    · obtain ⟨h1, h2, h3⟩ := makeBottomEx_spec W h hreal hd hin hq
      exact Or.inr ⟨_, rfl, h1, h2, Or.inr h3⟩

/-- `ir_sccp_meet_copy` keeps a copy of the same class, makes a copy, or gives up. -/
theorem meetCopy_spec (hv : G.hasValue i = true) {val : ℕ} (hb : st.values i ≠ .bottom)
    (hval : st.values val = .bottom ∨ ∃ z, st.values val = .copy z) :
    (st.meetCopy G i val = (st, false) ∧ (∃ y, st.values i = .copy y) ∧
        identity G st.values i = identity G st.values val) ∨
      ∃ st', st.meetCopy G i val = (st', true) ∧ Lower G i st st' ∧ Base G st' ∧
        (st'.values i = .bottom ∨ ((∀ y, st.values i ≠ .copy y) ∧
          st'.values = Function.update st.values i (.copy val))) := by
  unfold State.meetCopy
  split
  · rename_i y hy
    split
    · exact Or.inl ⟨rfl, ⟨y, hy⟩, ‹_›⟩
    · have hk : KindOk G st.values i .bottom :=
        KindOk.data hd (Or.inl rfl) (fun c h => by cases h) hin (fun u h => by cases h) (fun n h => by cases h)
      refine Or.inr ⟨_, rfl, lower_split W h hreal hy, h.split W hreal hy hk hq, Or.inl ?_⟩
      rw [splitPartition_values]
      exact Function.update_self ..
  · rename_i hne
    have hi : ∀ y, st.values i ≠ .copy y := fun y hy => hne y hy
    refine Or.inr ⟨_, rfl, lower_addIdentity W h.forest hreal hb hi hval, ?_, Or.inr ⟨hi, rfl⟩⟩
    exact h.addIdentity W hreal hb hi hval
      (KindOk.data hd (Or.inr hv) (fun c h => by cases h) hin (fun u h => by cases h) (fun n h => by cases h))

end

end IrJit.Sccp
