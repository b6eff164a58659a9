import IrJit.Sccp.Lower

/-!
# Sccp.Phi — the equation of a PHI

The two loops of `ir_sccp_analyze_phi` have one specification each: `phiFirst_spec` and
`phiNext_spec`.  `analyzePhi_spec` puts them together: afterwards every operand of a reachable
input is the PHI itself, TOP and asked for, or has the value of the PHI.
-/

namespace IrJit.Sccp

variable {G : Graph} {F : Folding} {st st' : State}

/-- A value that can be copied. -/
def Copyable (v : Lat) : Prop := v = .bottom ∨ ∃ z, v = .copy z

/-- An operand that says nothing about the value of PHI `i`. -/
def Skipped (G : Graph) (V : ℕ → Lat) (vis : ℕ → Bool) (i ident : ℕ) (a : ℤ) : Prop :=
  a = i ∨ (IsTop V a ∧ vis a.toNat = true) ∨
    (0 < a ∧ Copyable (V a.toNat) ∧ identity G V a.toNat = ident)

/-- The operand has the value that was found. -/
def SameAs (G : Graph) (V : ℕ → Lat) (a : ℤ) : PhiVal → Prop
  | .const c => HasConst G V a c
  | .copy _ ident => 0 < a ∧ Copyable (V a.toNat) ∧ identity G V a.toNat = ident

/-- What was found is a value. -/
def PhiVal.Fine (G : Graph) (V : ℕ → Lat) : PhiVal → Prop
  | .const _ => True
  | .copy new ident => Copyable (V new) ∧ identity G V new = ident

theorem Skipped.mono {V : ℕ → Lat} {vis vis' : ℕ → Bool} {i ident : ℕ} {a : ℤ}
    (hvis : ∀ x, vis x = true → vis' x = true) (h : Skipped G V vis i ident a) : Skipped G V vis' i ident a :=
  h.imp_right (Or.imp_left fun h => ⟨h.1, hvis _ h.2⟩)

/-- An operand of a PHI. -/
def PhiOperand (G : Graph) (a : ℤ) : Prop :=
  a ≠ 0 ∧ (0 < a → G.opOf a.toNat ≠ .nop ∧ ((G.opOf a.toNat).isData = true ∨ (G.opOf a.toNat).isMem = true))

theorem Kinds.operand {V : ℕ → Lat} (K : Kinds G V) {a : ℤ} (ha : PhiOperand G a) (h0 : 0 < a) :
    (∀ u, V a.toNat ≠ .out u) ∧ ∀ n, V a.toNat ≠ .merge n := by
  obtain ⟨-, hop⟩ := ha.2 h0
  refine ⟨fun u hu => ?_, fun n hn => ?_⟩
  · rcases (K.out _ u hu).1 with h | h <;> rw [h] at hop <;> rcases hop with hop | hop <;> cases hop
  · have hm : G.opOf a.toNat = .merge ∨ G.opOf a.toNat = .loopBegin := by
      simpa [Graph.isMerge, IrOp.isMerge] using K.merge _ n hn
    rcases hm with h | h <;> rw [h] at hop <;> rcases hop with hop | hop <;> cases hop

/-- The result of the first loop over `l`: nothing found, or `found` at `a₀` with the operands after
it. -/
def FirstSpec (G : Graph) (i ident : ℕ) (st : State) (l : List ℤ) (r : State × Option (PhiVal × List ℤ)) :
    Prop :=
  Asked G i st r.1 ∧
    match r.2 with
    | none => ∀ a ∈ l, Skipped G st.values r.1.visited i ident a
    | some (found, rest) => found.Fine G st.values ∧ ∃ pre a₀, l = pre ++ a₀ :: rest ∧
        SameAs G st.values a₀ found ∧ ∀ a ∈ pre, Skipped G st.values r.1.visited i ident a

theorem FirstSpec.skip {i ident : ℕ} {a : ℤ} {l : List ℤ} {r : State × Option (PhiVal × List ℤ)}
    (hask : Asked G i st st') (hsk : Skipped G st.values st'.visited i ident a)
    (h : FirstSpec G i ident st' l r) : FirstSpec G i ident st (a :: l) r := by
  obtain ⟨st₂, r⟩ := r
  obtain ⟨hask', hr⟩ := h
  have hsk' := hsk.mono hask'.visited
  refine ⟨hask.trans hask', ?_⟩
  rw [hask.values] at hr
  cases r with
  | none =>
    intro b hb
    rcases List.mem_cons.mp hb with rfl | hb
    · exact hsk'
    · exact hr b hb
  | some x =>
    obtain ⟨hf, pre, a₀, hpre, hsame, hpre'⟩ := hr
    refine ⟨hf, a :: pre, a₀, by rw [hpre]; rfl, hsame, fun b hb => ?_⟩
    rcases List.mem_cons.mp hb with rfl | hb
    · exact hsk'
    · exact hpre' b hb

theorem FirstSpec.stop {i ident : ℕ} {a : ℤ} {l : List ℤ} {found : PhiVal} (hf : found.Fine G st.values)
    (hsame : SameAs G st.values a found) : FirstSpec G i ident st (a :: l) (st, some (found, l)) :=
  ⟨Asked.refl i st, hf, [], a, rfl, hsame, fun b hb => absurd hb (by simp)⟩

theorem phiFirst_spec (W : Wf G) (i ident : ℕ) : ∀ {l : List ℤ} {st : State}, Forest G st.values →
    Kinds G st.values → (∀ a ∈ l, PhiOperand G a) → FirstSpec G i ident st l (phiFirst G i ident l st)
  | [], st, _, _, _ => ⟨Asked.refl i st, fun a ha => absurd ha (by simp)⟩
  | a :: l, st, H, K, hl => by
    have hl' : ∀ a ∈ l, PhiOperand G a := fun b hb => hl b (List.mem_cons_of_mem a hb)
    have ha := hl a List.mem_cons_self
    -- going on with `st₁` after an operand that was skipped
    have hskip : ∀ st₁ : State, Asked G i st st₁ → Skipped G st.values st₁.visited i ident a →
        FirstSpec G i ident st (a :: l) (phiFirst G i ident l st₁) := fun st₁ hask hsk =>
      FirstSpec.skip hask hsk (phiFirst_spec W i ident (hask.values ▸ H) (hask.values ▸ K) hl')
    by_cases hneg : a < 0
    · rw [phiFirst, if_pos hneg]
      exact FirstSpec.stop trivial (Or.inl ⟨hneg, rfl⟩)
    have h0 : 0 < a := by have := ha.1; omega
    by_cases hself : a.toNat = i
    · rw [phiFirst, if_neg hneg, if_pos hself]
      exact hskip st (Asked.refl i st) (Or.inl (by omega))
    obtain ⟨hout, hmerge⟩ := K.operand ha h0
    rw [phiFirst, if_neg hneg, if_neg hself]
    cases hv : st.values a.toNat with
    | top =>
      obtain ⟨hask, hvis⟩ := asked_addInput (ha.2 h0).1 hv hself
      exact hskip _ hask (Or.inr (Or.inl ⟨⟨h0, hv⟩, hvis⟩))
    | const c =>
      exact FirstSpec.stop trivial (Or.inr ⟨h0, hv⟩)
    | copy y =>
      have hid := H.identity_copy W.range hv
      by_cases heq : identity G st.values y = ident
      · simp only [if_pos heq]
        exact hskip st (Asked.refl i st) (Or.inr (Or.inr ⟨h0, Or.inr ⟨y, hv⟩, hid.trans heq⟩))
      · simp only [if_neg heq]
        exact FirstSpec.stop ⟨H.target _ y hv, rfl⟩ ⟨h0, Or.inr ⟨y, hv⟩, hid⟩
    | bottom =>
      have hid : identity G st.values a.toNat = a.toNat :=
        identity_eq_self fun y hy => by rw [hv] at hy; cases hy
      by_cases heq : a.toNat = ident
      · simp only [if_pos heq]
        exact hskip st (Asked.refl i st) (Or.inr (Or.inr ⟨h0, Or.inl hv, hid.trans heq⟩))
      · simp only [if_neg heq]
        exact FirstSpec.stop ⟨Or.inl hv, hid⟩ ⟨h0, Or.inl hv, hid⟩
    | out u => exact absurd hv (hout u)
    | merge n => exact absurd hv (hmerge n)

/-- The result of the second loop over `l`. -/
def NextSpec (G : Graph) (i ident : ℕ) (found : PhiVal) (st : State) (l : List ℤ) (r : State × Bool) : Prop :=
  Asked G i st r.1 ∧ (r.2 = true → ∀ a ∈ l,
    Skipped G st.values r.1.visited i ident a ∨ SameAs G st.values a found)

theorem NextSpec.cons {i ident : ℕ} {found : PhiVal} {a : ℤ} {l : List ℤ} {r : State × Bool}
    (hask : Asked G i st st') (hsk : Skipped G st.values st'.visited i ident a ∨ SameAs G st.values a found)
    (h : NextSpec G i ident found st' l r) : NextSpec G i ident found st (a :: l) r := by
  obtain ⟨hask', hr⟩ := h
  refine ⟨hask.trans hask', fun htrue b hb => ?_⟩
  rcases List.mem_cons.mp hb with rfl | hb
  · exact hsk.imp_left (Skipped.mono hask'.visited)
  · exact hask.values ▸ hr htrue b hb

theorem NextSpec.fail {i ident : ℕ} {found : PhiVal} {l : List ℤ} : NextSpec G i ident found st l (st, false) :=
  ⟨Asked.refl i st, fun h => by cases h⟩

theorem phiNext_spec (W : Wf G) (i ident : ℕ) (found : PhiVal) : ∀ {l : List ℤ} {st : State},
    Forest G st.values → Kinds G st.values → (∀ a ∈ l, PhiOperand G a) →
    NextSpec G i ident found st l (phiNext G i ident found l st)
  | [], st, _, _, _ => ⟨Asked.refl i st, fun _ a ha => absurd ha (by simp)⟩
  | a :: l, st, H, K, hl => by
    have hl' : ∀ a ∈ l, PhiOperand G a := fun b hb => hl b (List.mem_cons_of_mem a hb)
    have ha := hl a List.mem_cons_self
    have hcons : ∀ st₁ : State, Asked G i st st₁ →
        Skipped G st.values st₁.visited i ident a ∨ SameAs G st.values a found →
        NextSpec G i ident found st (a :: l) (phiNext G i ident found l st₁) := fun st₁ hask hsk =>
      NextSpec.cons hask hsk (phiNext_spec W i ident found (hask.values ▸ H) (hask.values ▸ K) hl')
    have hconst : ∀ c, HasConst G st.values a c → found.sameConst c = true → SameAs G st.values a found := by
      intro c hc h
      cases found with
      | const c' =>
        have heq : c = c' := by simpa [PhiVal.sameConst] using h
        exact heq ▸ hc
      | copy _ _ => simp [PhiVal.sameConst] at h
    have hcopy : 0 < a → Copyable (st.values a.toNat) → found.sameCopy ident (identity G st.values a.toNat) = true →
        Skipped G st.values st.visited i ident a ∨ SameAs G st.values a found := by
      intro h0 hc h
      cases found with
      | const c' =>
        have heq : identity G st.values a.toNat = ident := by simpa [PhiVal.sameCopy] using h
        exact Or.inl (Or.inr (Or.inr ⟨h0, hc, heq⟩))
      | copy new ident' =>
        have heq : identity G st.values a.toNat = ident ∨ identity G st.values a.toNat = ident' := by
          simpa [PhiVal.sameCopy] using h
        exact heq.imp (fun h => Or.inr (Or.inr ⟨h0, hc, h⟩)) fun h => ⟨h0, hc, h⟩
    by_cases hneg : a < 0
    · rw [phiNext, if_pos hneg]
      split
      · exact hcons st (Asked.refl i st) (Or.inr (hconst _ (Or.inl ⟨hneg, rfl⟩) ‹_›))
      · exact NextSpec.fail
    have h0 : 0 < a := by have := ha.1; omega
    by_cases hself : a.toNat = i
    · rw [phiNext, if_neg hneg, if_pos hself]
      exact hcons st (Asked.refl i st) (Or.inl (Or.inl (by omega)))
    rw [phiNext, if_neg hneg, if_neg hself]
    cases hv : st.values a.toNat with
    | top =>
      obtain ⟨hask, hvis⟩ := asked_addInput (ha.2 h0).1 hv hself
      exact hcons _ hask (Or.inl (Or.inr (Or.inl ⟨⟨h0, hv⟩, hvis⟩)))
    | const c =>
      simp only
      split
      · exact hcons st (Asked.refl i st) (Or.inr (hconst c (Or.inr ⟨h0, hv⟩) ‹_›))
      · exact NextSpec.fail
    | copy y =>
      simp only
      split
      · rename_i h
        rw [← H.identity_copy W.range hv] at h
        exact hcons st (Asked.refl i st) (hcopy h0 (Or.inr ⟨y, hv⟩) h)
      · exact NextSpec.fail
    | bottom =>
      simp only
      split
      · rename_i h
        have hid : identity G st.values a.toNat = a.toNat :=
          identity_eq_self fun y hy => by rw [hv] at hy; cases hy
        exact hcons st (Asked.refl i st) (hcopy h0 (Or.inl hv) (hid.symm ▸ h))
      · exact NextSpec.fail
    | out u => exact NextSpec.fail
    | merge n => exact NextSpec.fail

/-! ### The whole PHI -/

theorem Wf.phi_dataIns (W : Wf G) {i : ℕ} (h : G.isPhi i = true) : G.dataIns i = (G.insn i).ops.drop 1 := by
  have hop : G.opOf i = .phi := by simpa [Graph.isPhi] using h
  unfold Graph.dataIns
  rw [(W.phi_inputs h).1, hop]
  rfl

theorem Wf.phiOperand (W : Wf G) {i : ℕ} (h : G.isPhi i = true) {e : ℤ × ℤ} (he : e ∈ G.phiEdges i) :
    PhiOperand G e.2 := by
  have hmem := (List.of_mem_zip he).2
  refine ⟨W.data_zero i (isData_of_isPhi h) e.2 (W.phi_dataIns h ▸ hmem), fun h0 => ⟨?_, ?_⟩⟩
  · exact W.inputs_range i e.2 (W.phiEdges_mem h he).1 h0
  · exact W.data_ops i e.2 (W.phi_dataIns h ▸ hmem) h0

theorem Wf.feasibleIns_update (W : Wf G) {i : ℕ} (h : G.isPhi i = true) (V : ℕ → Lat) (v : Lat) :
    feasibleIns G (Function.update V i v) i = feasibleIns G V i := by
  unfold feasibleIns
  congr 1
  refine List.filter_congr fun e he => ?_
  have hc := (W.merge_ops _ (W.phi_merge i h).2.1 e.1 (W.phiEdges_mem h he).2).2.1
  have hne : e.1.toNat ≠ i := by
    intro heq
    rw [heq, IrOp.isControl_eq_false (isData_of_isPhi h)] at hc
    cases hc
  rw [Function.update_of_ne hne]

/-- The equation of a PHI that is not BOTTOM. -/
def PhiValue (G : Graph) (V : ℕ → Lat) (vis : ℕ → Bool) (i : ℕ) : Prop :=
  V i ≠ .bottom → ∀ a ∈ feasibleIns G V i, a = i ∨ (IsTop V a ∧ vis a.toNat = true) ∨ Agrees G V i a

/-- A node that is no root is the identity of itself only. -/
theorem Forest.not_identity (W : Wf G) {V : ℕ → Lat} (H : Forest G V) {i x : ℕ} (hb : V i ≠ .bottom)
    (hc : ∀ y, V i ≠ .copy y) (hx : Copyable (V x)) : identity G V x ≠ identity G V i := by
  intro h
  have hbot := H.identity_bottom W.range x hx
  rw [h, identity_eq_self hc] at hbot
  exact hb hbot

theorem phiValue_const (W : Wf G) {V : ℕ → Lat} (H : Forest G V) {vis : ℕ → Bool} {i : ℕ} {c : Const}
    (hphi : G.isPhi i = true) (hi : V i = .top ∨ V i = .const c)
    (h : ∀ a ∈ feasibleIns G V i, Skipped G V vis i (identity G V i) a ∨ HasConst G V a c) :
    PhiValue G (Function.update V i (.const c)) vis i := by
  intro _ a ha
  rw [W.feasibleIns_update hphi] at ha
  by_cases hself : a = i
  · exact Or.inl hself
  have hne : 0 < a → a.toNat ≠ i := fun h0 h => hself (by omega)
  have hval : 0 < a → Function.update V i (.const c) a.toNat = V a.toNat := fun h0 =>
    Function.update_of_ne (hne h0) _ _
  rcases h a ha with (hs | ⟨ht, hv⟩ | ⟨h0, hcp, hid⟩) | hc
  · exact absurd hs hself
  · exact Or.inr (Or.inl ⟨⟨ht.1, (hval ht.1).trans ht.2⟩, hv⟩)
  · refine absurd hid (H.not_identity W ?_ ?_ hcp)
    · rcases hi with hi | hi <;> rw [hi] <;> exact fun h => by cases h
    · rcases hi with hi | hi <;> rw [hi] <;> exact fun y h => by cases h
  · refine Or.inr (Or.inr (Or.inl ⟨c, Function.update_self .., ?_⟩))
    exact hc.imp_right fun h => ⟨h.1, (hval h.1).trans h.2⟩

theorem phiValue_copy (W : Wf G) {V : ℕ → Lat} (H : Forest G V) {vis : ℕ → Bool} {i new ident' : ℕ}
    (hphi : G.isPhi i = true) (hreal : G.opOf i ≠ .nop) (hb : V i ≠ .bottom) (hc : ∀ y, V i ≠ .copy y)
    (hnew : Copyable (V new)) (hid' : identity G V new = ident')
    (h : ∀ a ∈ feasibleIns G V i, Skipped G V vis i (identity G V i) a ∨ SameAs G V a (.copy new ident')) :
    PhiValue G (Function.update V i (.copy new)) vis i := by
  have H' := H.update_copy hreal hb hc hnew
  have hcp : ∀ {x}, Copyable (V x) → x ≠ i := by
    rintro x (hx | ⟨z, hx⟩) rfl
    · exact hb hx
    · exact hc z hx
  intro _ a ha
  rw [W.feasibleIns_update hphi] at ha
  by_cases hself : a = i
  · exact Or.inl hself
  rcases h a ha with (hs | ⟨ht, hv⟩ | ⟨h0, ha, hid⟩) | ⟨h0, ha, hid⟩
  · exact absurd hs hself
  · have hne : a.toNat ≠ i := fun h => hself (by have := ht.1; omega)
    exact Or.inr (Or.inl ⟨⟨ht.1, (Function.update_of_ne hne _ _).trans ht.2⟩, hv⟩)
  · exact absurd hid (H.not_identity W hb hc ha)
  · refine Or.inr (Or.inr (Or.inr ⟨h0, ⟨new, Function.update_self ..⟩, ?_, ?_⟩))
    · rw [Function.update_of_ne (hcp ha)]
      exact ha
    · rw [H'.identity_copy W.range (Function.update_self ..), identity_update_copy W.range H hreal hb hc hnew (hcp ha),
        identity_update_copy W.range H hreal hb hc hnew (hcp hnew), hid, hid']

/-- **`ir_sccp_analyze_phi`**: operands are asked for, then the PHI keeps its value or is lowered,
and its equation holds. -/
theorem analyzePhi_spec (W : Wf G) {i : ℕ} (hphi : G.isPhi i = true) (hreal : G.opOf i ≠ .nop)
    (h : Base G st) (hb : st.values i ≠ .bottom) (hq : st.queue i = false)
    (hm : st.values (G.operand i 1).toNat ≠ .top) :
    ∃ st₁, Asked G i st st₁ ∧
      ((st.analyzePhi G i = (st₁, false) ∧ PhiValue G st.values st₁.visited i) ∨
        ∃ st₂, st.analyzePhi G i = (st₂, true) ∧ Lower G i st₁ st₂ ∧ Base G st₂ ∧
          PhiValue G st₂.values st₁.visited i) := by
  have hl : ∀ a ∈ feasibleIns G st.values i, PhiOperand G a := by
    intro a ha
    obtain ⟨m, hma, -⟩ := mem_feasibleIns.mp ha
    exact W.phiOperand hphi hma
  have hfirst := phiFirst_spec W i (identity G st.values i) h.forest h.kinds hl
  unfold State.analyzePhi
  simp only [if_neg hm]
  obtain ⟨st₁, r, heq⟩ : ∃ st₁ r, phiFirst G i (identity G st.values i) (feasibleIns G st.values i) st = (st₁, r) :=
    ⟨_, _, rfl⟩
  rw [heq] at hfirst ⊢
  obtain ⟨hask, hr⟩ := hfirst
  cases r with
  | none =>
    refine ⟨st₁, hask, Or.inl ⟨rfl, fun hb a ha => ?_⟩⟩
    rcases hr a ha with hs | ht | ⟨h0, hcp, hid⟩
    · exact Or.inl hs
    · exact Or.inr (Or.inl ht)
    · by_cases hc : ∃ y, st.values i = .copy y
      · exact Or.inr (Or.inr (Or.inr ⟨h0, hc, hcp, hid⟩))
      · exact absurd hid (h.forest.not_identity W hb (fun y hy => hc ⟨y, hy⟩) hcp)
  | some x =>
    obtain ⟨found, rest⟩ := x
    obtain ⟨hfine, pre, a₀, hsplit, hsame, hpre⟩ := hr
    have hnext := phiNext_spec W i (identity G st.values i) found (l := rest)
      (hask.values ▸ h.forest) (hask.values ▸ h.kinds) fun a ha => hl a (by rw [hsplit]; simp [ha])
    obtain ⟨st₂, ok, heq₂⟩ : ∃ st₂ ok, phiNext G i (identity G st.values i) found rest st₁ = (st₂, ok) :=
      ⟨_, _, rfl⟩
    simp only
    rw [heq₂] at hnext ⊢
    obtain ⟨hask₂, hok⟩ := hnext
    have hask' := hask.trans hask₂
    have hb₂ := h.asked hask'
    have hin : G.isFoldable i = true → ∀ a ∈ G.dataIns i, 0 < a → st₂.values a.toNat ≠ .top := by
      intro hf
      simp [Graph.isFoldable, hphi] at hf
    have hdata := isData_of_isPhi hphi
    have hvi : st₂.values = st.values := hask'.values
    have hbi : st₂.values i ≠ .bottom := hvi ▸ hb
    refine ⟨st₂, hask', ?_⟩
    cases ok with
    | false =>
      obtain ⟨h1, h2, h3⟩ := makeBottomEx_spec W hb₂ hreal hdata hin (hask'.queue_self hq)
      exact Or.inr ⟨_, rfl, h1, h2, fun hne => absurd h3 hne⟩
    | true =>
      have hall : ∀ a ∈ feasibleIns G st₂.values i, Skipped G st₂.values st₂.visited i (identity G st₂.values i) a ∨
          SameAs G st₂.values a found := by
        rw [hvi]
        intro a ha
        rw [hsplit] at ha
        simp only [List.mem_append, List.mem_cons] at ha
        rcases ha with ha | rfl | ha
        · exact Or.inl ((hpre a ha).mono hask₂.visited)
        · exact Or.inr hsame
        · exact hask.values ▸ hok rfl a ha
      cases found with
      | const c =>
        simp only
        rcases meetConst_spec W hb₂ hreal hdata hin (hask'.queue_self hq) (hasValue_of_isPhi hphi) hbi c with
          ⟨heq₃, hc⟩ | ⟨st₃, heq₃, hlow, hbase, ⟨ht, hval⟩ | hbot⟩
        · refine Or.inl ⟨heq₃, ?_⟩
          have := phiValue_const W hb₂.forest hphi (Or.inr hc) hall
          rwa [show Function.update st₂.values i (.const c) = st.values by
            rw [← hc, Function.update_eq_self, hvi]] at this
        · exact Or.inr ⟨st₃, heq₃, hlow, hbase, hval ▸ phiValue_const W hb₂.forest hphi (Or.inl ht) hall⟩
        · exact Or.inr ⟨st₃, heq₃, hlow, hbase, fun hne => absurd hbot hne⟩
      | copy new ident' =>
        simp only
        obtain ⟨hnew, hid'⟩ : Copyable (st₂.values new) ∧ identity G st₂.values new = ident' := hvi ▸ hfine
        rcases meetCopy_spec W hb₂ hreal hdata hin (hask'.queue_self hq) (hasValue_of_isPhi hphi) hbi hnew with
          ⟨heq₃, hc, hid⟩ | ⟨st₃, heq₃, hlow, hbase, hbot | ⟨hnc, hval⟩⟩
        · refine Or.inl ⟨heq₃, fun _ a ha => ?_⟩
          rw [← hvi] at ha ⊢
          rcases hall a ha with (hs | ht | ⟨h0, hcp, hida⟩) | ⟨h0, hcp, hida⟩
          · exact Or.inl hs
          · exact Or.inr (Or.inl ht)
          · exact Or.inr (Or.inr (Or.inr ⟨h0, hc, hcp, hida⟩))
          · exact Or.inr (Or.inr (Or.inr ⟨h0, hc, hcp, by rw [hida, hid, hid']⟩))
        · exact Or.inr ⟨st₃, heq₃, hlow, hbase, fun hne => absurd hbot hne⟩
        · exact Or.inr ⟨st₃, heq₃, hlow, hbase,
            hval ▸ phiValue_copy W hb₂.forest hphi hreal hbi hnc hnew hid' hall⟩

end IrJit.Sccp
