import IrJit.Dessa.Cycle

/-!
# Dessa.Axles — the loop of `ir_dessa_parallel_copy` over the cycles

The loop takes the smallest pending source, follows `pred` from it as long as it stays among the
pending sources, and resolves the cycle it runs into, if any.
-/

namespace IrJit.Dessa

section

variable {e : Env} {D S : Finset ℕ} {σ₀ : State}

/-! ### One walk -/

/-- The three ends of a walk from `y`: a constant used as an index, a way out of `ready`, a cycle
inside `ready`. -/
def WalkEnds (e : Env) (ready : Finset ℕ) (y : ℕ) : Option (Finset ℕ × Option ℕ) → Prop
  | none => ∃ n, 0 < n ∧ (parent e.pred)^[n] y ∈ ready ∧ e.pred ((parent e.pred)^[n] y) < 0 ∧
      ∀ i < n, 0 ≤ e.pred ((parent e.pred)^[i] y)
  | some (V, none) => y ∈ V ∧ ∀ x ∈ V, OnCycle e.pred x → ∃ m, (parent e.pred)^[m] x ∉ ready
  | some (V, some root) => y ∈ V ∧ root ∈ V ∧ OnCycle e.pred root ∧
      (∀ m, (parent e.pred)^[m] root ∈ ready) ∧ ∀ x ∈ V, ∃ m, (parent e.pred)^[m] x = root

/-- A walk that returns to one of its points has found a cycle inside `ready`. -/
theorem walk_closed {ready : Finset ℕ} {y i j : ℕ} (hji : j ≤ i)
    (hready : ∀ l ≤ i, (parent e.pred)^[l] y ∈ ready)
    (hpos : ∀ l ≤ i, 0 ≤ e.pred ((parent e.pred)^[l] y))
    (hback : (parent e.pred)^[i + 1] y = (parent e.pred)^[j] y) :
    OnCycle e.pred ((parent e.pred)^[j] y) ∧
      ∀ m, (parent e.pred)^[m] ((parent e.pred)^[j] y) ∈ ready := by
  have hret : (parent e.pred)^[i + 1 - j] ((parent e.pred)^[j] y) = (parent e.pred)^[j] y := by
    rw [← Function.iterate_add_apply, Nat.sub_add_cancel (by omega), hback]
  have hpt : ∀ m, ∃ l ≤ i, (parent e.pred)^[m] ((parent e.pred)^[j] y) = (parent e.pred)^[l] y := by
    intro m
    have hlt : m % (i + 1 - j) < i + 1 - j := Nat.mod_lt _ (by omega)
    refine ⟨m % (i + 1 - j) + j, by omega, ?_⟩
    rw [iterate_mod hret, ← Function.iterate_add_apply]
  refine ⟨⟨fun m => ?_, i + 1 - j, by omega, hret⟩, fun m => ?_⟩
  · obtain ⟨l, hl, he⟩ := hpt m
    exact he ▸ hpos l hl
  · obtain ⟨l, hl, he⟩ := hpt m
    exact he ▸ hready l hl

/-- **One walk**, from its step `i` on: the visited points are `y` and those from the second on. -/
theorem findCycle_spec {ready : Finset ℕ} {y : ℕ} :
    ∀ (fuel i : ℕ) (V : Finset ℕ), 0 < i →
      (∀ x, x ∈ V ↔ ∃ j ≤ i, j ≠ 1 ∧ (parent e.pred)^[j] y = x) →
      (∀ j < i, (parent e.pred)^[j] y ∈ ready) →
      (∀ j < i, 1 < i → 0 ≤ e.pred ((parent e.pred)^[j] y)) →
      (∀ x ∈ V, x < e.len) → (∀ x ∈ ready, 0 ≤ e.pred x → parent e.pred x < e.len) →
      e.len < fuel + V.card →
      WalkEnds e ready y (findCycle e ready fuel V (e.pred ((parent e.pred)^[i - 1] y))) := by
  intro fuel
  induction fuel with
  | zero =>
    intro i V _ _ _ _ hlt _ hcard
    have hsub : V ⊆ Finset.range e.len := fun x hx => Finset.mem_range.mpr (hlt x hx)
    have hle := Finset.card_le_card hsub
    rw [Finset.card_range] at hle
    omega
  | succ fuel ih =>
    intro i V hi hV hready hpos hlt hlen hcard
    have hy : y ∈ V := (hV y).mpr ⟨0, by omega, by omega, rfl⟩
    have hnext : (e.pred ((parent e.pred)^[i - 1] y)).toNat = (parent e.pred)^[i] y := by
      show parent e.pred _ = _
      rw [iterate_parent_succ, Nat.sub_add_cancel hi]
    unfold findCycle
    simp only [hnext]
    by_cases hcond : 0 ≤ e.pred ((parent e.pred)^[i - 1] y) ∧ (parent e.pred)^[i] y ∈ ready
    · rw [if_pos hcond]
      have hready' : ∀ l ≤ i, (parent e.pred)^[l] y ∈ ready := by
        intro l hl
        rcases Nat.lt_or_eq_of_le hl with h | rfl
        · exact hready l h
        · exact hcond.2
      have hbefore : ∀ l < i, 0 ≤ e.pred ((parent e.pred)^[l] y) := by
        intro l hl
        by_cases hl1 : l = i - 1
        · rw [hl1]
          exact hcond.1
        · exact hpos l hl (by omega)
      by_cases hneg : e.pred ((parent e.pred)^[i] y) < 0
      · rw [if_pos hneg]
        exact ⟨i, hi, hcond.2, hneg, hbefore⟩
      · rw [if_neg hneg]
        have hpos' : ∀ l ≤ i, 0 ≤ e.pred ((parent e.pred)^[l] y) := by
          intro l hl
          rcases Nat.lt_or_eq_of_le hl with h | rfl
          · exact hbefore l h
          · exact not_lt.mp hneg
        have hsucc : (e.pred ((parent e.pred)^[i] y)).toNat = (parent e.pred)^[i + 1] y :=
          iterate_parent_succ e.pred i y
        rw [hsucc]
        by_cases hin : (parent e.pred)^[i + 1] y ∈ V
        · -- a cycle is closed
          rw [if_pos hin]
          obtain ⟨j, hj, hj1, hback⟩ := (hV _).mp hin
          obtain ⟨hon, hall⟩ := walk_closed hj hready' hpos' hback.symm
          rw [hback] at hon hall
          refine ⟨hy, hin, hon, hall, fun x hx => ?_⟩
          obtain ⟨l, hl, -, rfl⟩ := (hV x).mp hx
          refine ⟨i + 1 - l, ?_⟩
          rw [← Function.iterate_add_apply, Nat.sub_add_cancel (by omega)]
        · rw [if_neg hin]
          have hV' : ∀ x, x ∈ insert ((parent e.pred)^[i + 1] y) V ↔
              ∃ j ≤ i + 1, j ≠ 1 ∧ (parent e.pred)^[j] y = x := by
            intro x
            rw [Finset.mem_insert, hV x]
            constructor
            · rintro (rfl | ⟨j, hj, h1, hx⟩)
              · exact ⟨i + 1, le_rfl, by omega, rfl⟩
              · exact ⟨j, by omega, h1, hx⟩
            · rintro ⟨j, hj, h1, hx⟩
              rcases Nat.lt_or_eq_of_le hj with h | rfl
              · exact Or.inr ⟨j, by omega, h1, hx⟩
              · exact Or.inl hx.symm
          have hlt' : ∀ x ∈ insert ((parent e.pred)^[i + 1] y) V, x < e.len := by
            intro x hx
            rcases Finset.mem_insert.mp hx with rfl | hx
            · rw [← iterate_parent_succ]
              exact hlen _ hcond.2 (by omega)
            · exact hlt x hx
          have hcard' : e.len < fuel + (insert ((parent e.pred)^[i + 1] y) V).card := by
            rw [Finset.card_insert_of_notMem hin]
            omega
          have h := ih (i + 1) _ (by omega) hV' (fun j hj => hready' j (by omega))
            (fun j hj _ => hpos' j (by omega)) hlt' hlen hcard'
          rwa [Nat.add_sub_cancel] at h
    · -- the walk leaves `ready`
      rw [if_neg hcond]
      refine ⟨hy, fun x hx hon => ?_⟩
      obtain ⟨j, hj, hj1, rfl⟩ := (hV x).mp hx
      by_cases hneg : 0 ≤ e.pred ((parent e.pred)^[i - 1] y)
      · refine ⟨i - j, ?_⟩
        rw [← Function.iterate_add_apply, Nat.sub_add_cancel hj]
        exact fun hc => hcond ⟨hneg, hc⟩
      · have hi1 : i = 1 := by
          by_contra hne
          exact hneg (hpos (i - 1) (by omega) (by omega))
        subst hi1
        obtain rfl : j = 0 := by omega
        exact absurd hon.pred_nonneg hneg

/-! ### The loop -/

/-- No walk over the pending sources starts below the destination of a constant that it reaches. -/
def NoConstWalk (e : Env) (S T : Finset ℕ) : Prop :=
  ∀ x ∈ T, e.pred x < 0 → ∀ y ∈ S, y ∈ T → ∀ n, 0 < n → (parent e.pred)^[n] y = x →
    (∀ i < n, 0 ≤ e.pred ((parent e.pred)^[i] y)) → x < y

/-- The invariant of the loop: `T₀` is what was pending before it. -/
structure AxleInv (e : Env) (D S tmps T₀ ready : Finset ℕ) (st : PcState) : Prop where
  sub : st.todo ⊆ T₀
  stuck : Stuck tmps S st
  kept : ∀ t ∈ tmps, t ∈ D → t ∈ st.todo
  ready_src : ready ⊆ S
  origin : ready ⊆ T₀
  /-- pending cycles are still to be found -/
  pending : ∀ x ∈ st.todo, OnCycle e.pred x → x ∈ ready
  /-- a cycle that can still be found is pending -/
  whole : ∀ x, OnCycle e.pred x → (∀ m, (parent e.pred)^[m] x ∈ ready) → x ∈ st.todo

/-- The readers of a pending source that holds its own value are pending. -/
theorem Reached.kids_pending {tmps : Finset ℕ} {st : PcState} (hR : Reached e D S σ₀ st)
    (hstuck : Stuck tmps S st) (hdis : ∀ t ∈ tmps, t ∉ S) {z d : ℕ} (hz : z ∈ st.todo) (hzS : z ∈ S)
    (hd : d ∈ D) (hp : e.pred d = z) : d ∈ st.todo := by
  rcases hstuck z hz with h | ⟨-, hl⟩
  · exact absurd hzS (hdis z h)
  · rcases hR.loc z hzS with ⟨-, hk⟩ | ⟨-, hlT, -⟩
    · exact hk d hd hp
    · exact absurd hz (hl ▸ hlT)

/-- The cycle of a pending destination is pending as a whole. -/
theorem Reached.orbit_pending (P : Prob e D S) {tmps : Finset ℕ} {st : PcState}
    (hR : Reached e D S σ₀ st) (hstuck : Stuck tmps S st) (hdis : ∀ t ∈ tmps, t ∉ S) {x : ℕ}
    (hx : x ∈ st.todo) (hon : OnCycle e.pred x) (m : ℕ) : (parent e.pred)^[m] x ∈ st.todo := by
  refine hon.forall_of_child (Q := fun z => z ∈ st.todo) hx (fun z y hy hp hz => ?_) m
  have hyD : y ∈ D := P.dom y hy.pred_nonneg
  exact hR.kids_pending hstuck hdis hz (P.src_mem y hyD z hp) hyD hp

theorem Prob.cycle_src (P : Prob e D S) {x : ℕ} (hon : OnCycle e.pred x) : x ∈ S := by
  obtain ⟨m, hm⟩ := hon.exists_child
  exact P.src_mem _ (P.dom _ (hon.1 m)) x hm

/-- A walk that ends outside of `ready` leaves the invariant as it is. -/
theorem AxleInv.skip (P : Prob e D S) {tmps T₀ ready V : Finset ℕ} {st : PcState} (hR : Reached e D S σ₀ st)
    (hdis : ∀ t ∈ tmps, t ∉ S) (h : AxleInv e D S tmps T₀ ready st)
    (hV : ∀ x ∈ V, OnCycle e.pred x → ∃ m, (parent e.pred)^[m] x ∉ ready) :
    AxleInv e D S tmps T₀ (ready \ V) st where
  sub := h.sub
  stuck := h.stuck
  kept := h.kept
  ready_src := Finset.sdiff_subset.trans h.ready_src
  origin := Finset.sdiff_subset.trans h.origin
  pending := by
    intro x hx hon
    refine Finset.mem_sdiff.mpr ⟨h.pending x hx hon, fun hxV => ?_⟩
    obtain ⟨m, hm⟩ := hV x hxV hon
    exact hm (h.pending _ (hR.orbit_pending P h.stuck hdis hx hon m) (hon.iterate m))
  whole := fun x hon hall => h.whole x hon fun m => (Finset.mem_sdiff.mp (hall m)).1

/-- The cycle of `root` is resolved. -/
theorem AxleInv.resolve (P : Prob e D S) {tmps T₀ ready V : Finset ℕ} {st st' : PcState} {root : ℕ}
    (hdis : ∀ t ∈ tmps, t ∉ S) (h : AxleInv e D S tmps T₀ ready st) (hroot : root ∈ V)
    (hon : OnCycle e.pred root) (hV : ∀ x ∈ V, ∃ m, (parent e.pred)^[m] x = root)
    (htodo : ∀ x, x ∈ st'.todo ↔ x ∈ st.todo ∧ ∀ j, (parent e.pred)^[j] root ≠ x)
    (hloc : ∀ s, (∀ j, (parent e.pred)^[j] root ≠ s) → st'.loc s = st.loc s) :
    AxleInv e D S tmps T₀ (ready \ V) st' where
  sub := fun x hx => h.sub ((htodo x).mp hx).1
  stuck := by
    intro d hd
    obtain ⟨hd, hj⟩ := (htodo d).mp hd
    rw [hloc d hj]
    exact h.stuck d hd
  kept := by
    intro t ht htD
    refine (htodo t).mpr ⟨h.kept t ht htD, fun j hj => hdis t ht ?_⟩
    exact hj ▸ P.cycle_src (hon.iterate j)
  ready_src := Finset.sdiff_subset.trans h.ready_src
  origin := Finset.sdiff_subset.trans h.origin
  pending := by
    intro x hx hxon
    obtain ⟨hx, hj⟩ := (htodo x).mp hx
    refine Finset.mem_sdiff.mpr ⟨h.pending x hx hxon, fun hxV => ?_⟩
    obtain ⟨m, hm⟩ := hV x hxV
    obtain ⟨k, hk⟩ := hxon.same hm
    exact hj k hk
  whole := by
    intro x hxon hall
    refine (htodo x).mpr ⟨h.whole x hxon fun m => (Finset.mem_sdiff.mp (hall m)).1, fun j hj => ?_⟩
    obtain ⟨k, hk⟩ := hon.same hj
    exact (Finset.mem_sdiff.mp (hall k)).2 (hk ▸ hroot)

/-- **The loop over the cycles.** -/
theorem resolveAxles_spec (P : Prob e D S) {tmps T₀ : Finset ℕ}
    (hdis : ∀ t ∈ tmps, t ∉ S) (htmps : ∀ t, e.tmp = some t ∨ e.tmpFp = some t → t ∈ tmps)
    (hT₀ : T₀ ⊆ D) (hK : CycleKinds e T₀) (hconst : NoConstWalk e S T₀) :
    ∀ (fuel : ℕ) (ready : Finset ℕ) (st : PcState), ready.card < fuel → Reached e D S σ₀ st →
      AxleInv e D S tmps T₀ ready st →
      ∃ st', resolveAxles e fuel ready st = some st' ∧ Reached e D S σ₀ st' ∧
        AxleInv e D S tmps T₀ ∅ st' := by
  intro fuel
  induction fuel with
  | zero => exact fun _ _ h => absurd h (Nat.not_lt_zero _)
  | succ fuel ih =>
    intro ready st hcard hR hA
    cases hf : firstBit ready with
    | none =>
      rw [firstBit_eq_none] at hf
      subst hf
      exact ⟨st, by simp [resolveAxles, firstBit], hR, hA⟩
    | some y =>
      have hy : y ∈ ready := firstBit_mem hf
      have hwalk := @findCycle_spec e ready y (e.len + 1) 1 {y} Nat.one_pos
        (fun x => by
          rw [Finset.mem_singleton]
          constructor
          · rintro rfl
            exact ⟨0, by omega, by omega, rfl⟩
          · rintro ⟨j, hj, hj1, rfl⟩
            obtain rfl : j = 0 := by omega
            rfl)
        (fun j hj => by
          obtain rfl : j = 0 := by omega
          exact hy)
        (fun _ _ h => absurd h (by omega))
        (fun x hx => by
          rw [Finset.mem_singleton.mp hx]
          exact P.src_lt y (hA.ready_src hy))
        (fun x hx hp => P.src_lt _ (P.src_mem x (hT₀ (hA.origin hx)) _ (cast_parent hp).symm))
        (by omega)
      simp only [Nat.sub_self, Function.iterate_zero, id_eq] at hwalk
      have hless : ∀ V : Finset ℕ, y ∈ V → (ready \ V).card < fuel := fun V hyV => by
        refine lt_of_lt_of_le (Finset.card_lt_card ?_) (Nat.lt_succ_iff.mp hcard)
        exact Finset.ssubset_iff_subset_ne.mpr ⟨Finset.sdiff_subset,
          fun he => absurd (he ▸ hy) fun hc => (Finset.mem_sdiff.mp hc).2 hyV⟩
      cases hw : findCycle e ready (e.len + 1) {y} (e.pred y) with
      | none =>
        -- the walk from the smallest element would meet a constant
        rw [hw] at hwalk
        obtain ⟨n, hn, hx, hneg, hpos⟩ := hwalk
        have hlt := hconst _ (hA.origin hx) hneg y (hA.ready_src hy) (hA.origin hy) n hn rfl hpos
        exact absurd (firstBit_le hf hx) (not_le.mpr hlt)
      | some r =>
        obtain ⟨V, root⟩ := r
        rw [hw] at hwalk
        cases root with
        | none =>
          obtain ⟨hyV, hV⟩ := hwalk
          have hA' := hA.skip P hR hdis hV
          obtain ⟨st', h1, h2, h3⟩ := ih _ st (hless V hyV) hR hA'
          exact ⟨st', by simpa [resolveAxles, hf, hw, resolveFound] using h1, h2, h3⟩
        | some root =>
          obtain ⟨hyV, hroot, hon, hall, hV⟩ := hwalk
          have hpend := hA.whole root hon hall
          have horb := hR.orbit_pending P hA.stuck hdis hpend hon
          have hself : ∀ i, st.loc ((parent e.pred)^[i] root) = (parent e.pred)^[i] root := by
            intro i
            rcases hA.stuck _ (horb i) with h | ⟨-, h⟩
            · exact absurd (P.cycle_src (hon.iterate i)) (hdis _ h)
            · exact h
          obtain ⟨st₁, h1, h2, h3, h4⟩ := resolveCycle_spec P (hK.mono hA.sub) hR hon horb hself
            fun t ht => hA.kept t (htmps t ht)
          have hA' := hA.resolve P hdis hroot hon hV h3 h4
          obtain ⟨st', h5, h6, h7⟩ := ih _ st₁ (hless V hyV) h2 hA'
          exact ⟨st', by simpa [resolveAxles, hf, hw, resolveFound, h1] using h5, h6, h7⟩

end

end IrJit.Dessa
