import IrJit.Dessa.MoveSpec

/-!
# Dessa.Blades — the tree loops of `ir_dessa_parallel_copy`

`Prob` collects what the tables of a well-formed list of copies satisfy, `Inv` is the invariant of
all three phases: finished destinations hold their value, the value of a source that is still
needed is at `loc`, and `loc` is the source itself or a finished copy of it.
-/

namespace IrJit.Dessa

/-- The tables of a well-formed list of copies: `D` the destinations, `S` the source locations. -/
structure Prob (e : Env) (D S : Finset ℕ) : Prop where
  dom : ∀ x, 0 ≤ e.pred x → x ∈ D
  pred_ne : ∀ d ∈ D, e.pred d ≠ d
  src_mem : ∀ d ∈ D, ∀ s : ℕ, e.pred d = s → s ∈ S
  mem_src : ∀ s ∈ S, ∃ d ∈ D, e.pred d = s
  dst_lt : ∀ d ∈ D, d < e.len
  src_lt : ∀ s ∈ S, s < e.len
  dst_class : ∀ d ∈ D, ClassOk (e.types d) d
  src_class : ∀ d ∈ D, ∀ s : ℕ, e.pred d = s → ClassOk (e.types d) s
  local_int : ∀ d ∈ D, isLocalAddr e.ctx (e.pred d) → (e.types d).isInt = true
  tmp : ∀ d ∈ D, ∃ r, tmpFor (e.types d) e.tmp e.tmpFp = some r ∧ r < regNum ∧
    ClassOk (e.types d) r ∧ r ∉ S
  /-- copies of one source have one register class and size -/
  same_src : ∀ d ∈ D, ∀ d' ∈ D, 0 ≤ e.pred d → e.pred d = e.pred d' →
    (e.types d).kind = (e.types d').kind

/-- The invariant: `σ₀` the state before the first instruction, `σ` the current one. -/
structure Inv (e : Env) (D S : Finset ℕ) (σ₀ : State) (T : Finset ℕ) (loc : ℕ → ℕ) (σ : State) :
    Prop where
  sub : T ⊆ D
  done : ∀ d ∈ D, d ∉ T → Agree (e.types d).size (σ.get d) (srcVal e.ctx σ₀ (e.pred d))
  need : ∀ d ∈ T, ∀ s : ℕ, e.pred d = s → Agree (e.types d).size (σ.get (loc s)) (σ₀.get s)
  loc : ∀ s ∈ S, (loc s = s ∧ ∀ d ∈ D, e.pred d = s → d ∈ T) ∨
    (loc s ∈ D ∧ loc s ∉ T ∧ e.pred (loc s) = s)

/-- Where the value of a source is read: a constant stays itself, a location is at `loc`. -/
def readAt (loc : ℕ → ℕ) (src : ℤ) : ℤ := if src < 0 then src else (loc src.toNat : ℤ)

/-- `loc` after the copy of `src` to `dst`. -/
def locAfter (loc : ℕ → ℕ) (src : ℤ) (dst : ℕ) : ℕ → ℕ :=
  if src < 0 then loc else Function.update loc src.toNat dst

theorem natCast_not_neg (s : ℕ) : ¬ (s : ℤ) < 0 := by omega

theorem readAt_neg {loc : ℕ → ℕ} {src : ℤ} (h : src < 0) : readAt loc src = src := if_pos h

theorem readAt_nat (loc : ℕ → ℕ) (s : ℕ) : readAt loc (s : ℤ) = loc s := by simp [readAt]

theorem locAfter_self (loc : ℕ → ℕ) (s dst : ℕ) : locAfter loc (s : ℤ) dst s = dst := by
  simp [locAfter, natCast_not_neg]

theorem locAfter_of_ne {loc : ℕ → ℕ} {src : ℤ} {dst s : ℕ} (h : src ≠ s) :
    locAfter loc src dst s = loc s := by
  unfold locAfter
  split_ifs with hneg
  · rfl
  · have hne : s ≠ src.toNat := by omega
    exact Function.update_of_ne hne dst loc

section

variable {e : Env} {D S : Finset ℕ} {σ₀ : State}

theorem Prob.kind_of_src (P : Prob e D S) {d d' s : ℕ} (hd : d ∈ D) (hd' : d' ∈ D)
    (h : e.pred d = s) (h' : e.pred d' = s) : (e.types d).kind = (e.types d').kind :=
  P.same_src d hd d' hd' (by omega) (by omega)

/-- The place of a pending copy's source has the class of the copy. -/
theorem Inv.class_read (P : Prob e D S) {T : Finset ℕ} {loc : ℕ → ℕ} {σ : State}
    (h : Inv e D S σ₀ T loc σ) {d s : ℕ} (hd : d ∈ D) (hs : e.pred d = s) :
    ClassOk (e.types d) (loc s) := by
  rcases h.loc s (P.src_mem d hd s hs) with ⟨hl, -⟩ | ⟨hD, -, hp⟩
  · rw [hl]
    exact P.src_class d hd s hs
  · exact (P.dst_class _ hD).of_kind (P.kind_of_src hD hd hp hs)

/-- The move of a pending copy is emitted and executes. -/
theorem Inv.emit (P : Prob e D S) {T : Finset ℕ} {loc : ℕ → ℕ} {σ : State}
    (h : Inv e D S σ₀ T loc σ) {d : ℕ} (hd : d ∈ D) :
    ∃ c, emitDessaMove e.ctx (e.types d) d (readAt loc (e.pred d)) e.tmp e.tmpFp = some c ∧
      ∃ σ', exec e.ctx c σ = some σ' ∧
        Moved e.ctx (e.types d) d (readAt loc (e.pred d))
          (clobberOf e.ctx (e.types d) d (readAt loc (e.pred d)) e.tmp e.tmpFp) σ σ' := by
  obtain ⟨r, hr, hrl, hrc, -⟩ := P.tmp d hd
  have hspec := emitDessaMove_spec e.ctx (e.types d) d (readAt loc (e.pred d)) e.tmp e.tmpFp
    (P.dst_class d hd) ?_ ?_
    (fun _ => ⟨r, hr, hrl, hrc⟩)
  · obtain ⟨c, hc, hex⟩ := hspec
    obtain ⟨σ', h1, h2⟩ := hex σ
    exact ⟨c, hc, σ', h1, h2⟩
  · intro hnn
    by_cases hneg : e.pred d < 0
    · rw [readAt_neg hneg] at hnn
      omega
    · obtain ⟨s, hs⟩ := Int.eq_ofNat_of_zero_le (not_lt.mp hneg)
      rw [hs, readAt_nat, Int.toNat_natCast]
      exact h.class_read P hd hs
  · intro hla
    refine P.local_int d hd ?_
    by_cases hneg : e.pred d < 0
    · rwa [readAt_neg hneg] at hla
    · exact absurd hla.1 (by simp [readAt, hneg])

/-- **One copy.**  `dst` is pending and no longer needed at its own place; the clobbered register
is no source and no finished destination. -/
theorem Inv.step (P : Prob e D S) {T : Finset ℕ} {loc : ℕ → ℕ} {σ σ' : State} {clob : Option ℕ}
    (h : Inv e D S σ₀ T loc σ) {dst : ℕ} (hT : dst ∈ T) (hfree : dst ∈ S → loc dst ≠ dst)
    (hclob : ∀ x, clob = some x → x ∉ S ∧ (x ∈ D → x ∈ T))
    (hm : Moved e.ctx (e.types dst) dst (readAt loc (e.pred dst)) clob σ σ') :
    Inv e D S σ₀ (T.erase dst) (locAfter loc (e.pred dst) dst) σ' := by
  have hD : dst ∈ D := h.sub hT
  -- a place that still holds a needed value is not overwritten
  have hkeep : ∀ s ∈ S, s ≠ dst ∨ loc s ≠ s → σ'.get (loc s) = σ.get (loc s) := by
    intro s hs hne
    rcases h.loc s hs with ⟨hl, -⟩ | ⟨hlD, hlT, -⟩
    · refine hm.frame _ ?_ fun hx => (hclob _ hx).1 (hl.symm ▸ hs)
      rw [hl]
      exact hne.resolve_right (fun hc => hc hl)
    · exact hm.frame _ (fun he => hlT (he ▸ hT)) fun hx => hlT ((hclob _ hx).2 hlD)
  have hval : Agree (e.types dst).size (σ'.get dst) (srcVal e.ctx σ₀ (e.pred dst)) := by
    refine hm.val.trans ?_
    by_cases hneg : e.pred dst < 0
    · rw [readAt_neg hneg]
      simp only [srcVal, if_pos hneg]
      exact Agree.refl _ _
    · obtain ⟨s, hs⟩ := Int.eq_ofNat_of_zero_le (not_lt.mp hneg)
      rw [hs, readAt_nat, srcVal_of_nat, srcVal_of_nat]
      exact h.need dst hT s hs
  refine ⟨(Finset.erase_subset _ _).trans h.sub, ?_, ?_, ?_⟩
  · intro d hd hdT
    by_cases hdd : d = dst
    · rw [hdd]
      exact hval
    · have hdT' : d ∉ T := fun hc => hdT (Finset.mem_erase.mpr ⟨hdd, hc⟩)
      rw [hm.frame d hdd fun hx => hdT' ((hclob d hx).2 hd)]
      exact h.done d hd hdT'
  · intro d hd s hs
    obtain ⟨hdd, hdT⟩ := Finset.mem_erase.mp hd
    by_cases hsrc : e.pred dst = s
    · -- the same source: its value is now at `dst`
      rw [hsrc, locAfter_self, IrType.size_of_kind (P.kind_of_src (h.sub hdT) hD hs hsrc)]
      rw [hsrc, srcVal_of_nat] at hval
      exact hval
    · rw [locAfter_of_ne hsrc, hkeep s (P.src_mem d (h.sub hdT) s hs)]
      · exact h.need d hdT s hs
      · by_cases hsd : s = dst
        · exact Or.inr (hsd ▸ hfree (hsd ▸ P.src_mem d (h.sub hdT) s hs))
        · exact Or.inl hsd
  · intro s hs
    by_cases hsrc : e.pred dst = s
    · rw [hsrc, locAfter_self]
      exact Or.inr ⟨hD, Finset.notMem_erase _ _, hsrc⟩
    · rw [locAfter_of_ne hsrc]
      rcases h.loc s hs with ⟨hl, hch⟩ | ⟨hlD, hlT, hp⟩
      · refine Or.inl ⟨hl, fun d hd hp => Finset.mem_erase.mpr ⟨?_, hch d hd hp⟩⟩
        rintro rfl
        exact hsrc hp
      · exact Or.inr ⟨hlD, fun hc => hlT (Finset.mem_of_mem_erase hc), hp⟩

end

/-! ### The loop -/

section

variable {e : Env} {D S : Finset ℕ} {σ₀ : State}

/-- A state of the algorithm, its code executed. -/
structure Reached (e : Env) (D S : Finset ℕ) (σ₀ : State) (st : PcState) : Prop where
  inv : ∃ σ, exec e.ctx st.code σ₀ = some σ ∧ Inv e D S σ₀ st.todo st.loc σ

theorem Reached.sub {st : PcState} (h : Reached e D S σ₀ st) : st.todo ⊆ D := by
  obtain ⟨σ, -, hi⟩ := h.inv
  exact hi.sub

theorem Reached.loc {st : PcState} (h : Reached e D S σ₀ st) : ∀ s ∈ S,
    (st.loc s = s ∧ ∀ d ∈ D, e.pred d = s → d ∈ st.todo) ∨
      (st.loc s ∈ D ∧ st.loc s ∉ st.todo ∧ e.pred (st.loc s) = s) := by
  obtain ⟨σ, -, hi⟩ := h.inv
  exact hi.loc

/-- What a tree loop leaves pending: the destinations kept back, and the sources that still hold
their own value. -/
def Stuck (blocked S : Finset ℕ) (st : PcState) : Prop :=
  ∀ d ∈ st.todo, d ∈ blocked ∨ (d ∈ S ∧ st.loc d = d)

/-- The body of the loop, constants and locations at once. -/
theorem resolveBlades_succ (blocked : Finset ℕ) (fuel : ℕ) {ready : Finset ℕ} {st : PcState}
    {dst : ℕ} (hf : firstBit ready = some dst) {c : List Instr}
    (hc : emitDessaMove e.ctx (e.types dst) dst (readAt st.loc (e.pred dst)) e.tmp e.tmpFp = some c) :
    ∃ ready', resolveBlades e blocked (fuel + 1) ready st =
        resolveBlades e blocked fuel ready'
          ⟨st.todo.erase dst, locAfter st.loc (e.pred dst) dst, st.code ++ c⟩ ∧
      ∀ x, x ∈ ready' ↔ (x ∈ ready ∧ x ≠ dst) ∨
        (e.pred dst = x ∧ st.loc x = x ∧ x ∈ st.todo ∧ x ≠ dst ∧ x ∉ blocked) := by
  by_cases hneg : e.pred dst < 0
  · rw [readAt_neg hneg] at hc
    refine ⟨ready.erase dst, by simp [resolveBlades, hf, hneg, hc, locAfter], fun x => ?_⟩
    simp only [Finset.mem_erase]
    constructor
    · exact fun h => Or.inl h.symm
    · rintro (h | ⟨hp, -⟩)
      · exact h.symm
      · omega
  · obtain ⟨s, hs⟩ := Int.eq_ofNat_of_zero_le (not_lt.mp hneg)
    rw [hs, readAt_nat] at hc
    refine ⟨if s = st.loc s ∧ s ∈ st.todo.erase dst ∧ s ∉ blocked then insert s (ready.erase dst)
      else ready.erase dst, by simp [resolveBlades, hf, hs, hc, locAfter, natCast_not_neg], fun x => ?_⟩
    simp only [hs, Nat.cast_inj]
    split_ifs with hcond
    · obtain ⟨h1, h2, h3⟩ := hcond
      simp only [Finset.mem_insert, Finset.mem_erase]
      constructor
      · rintro (rfl | h)
        · exact Or.inr ⟨rfl, h1.symm, (Finset.mem_erase.mp h2).2, (Finset.mem_erase.mp h2).1, h3⟩
        · exact Or.inl h.symm
      · rintro (h | ⟨rfl, -⟩)
        · exact Or.inr h.symm
        · exact Or.inl rfl
    · simp only [Finset.mem_erase]
      constructor
      · exact fun h => Or.inl h.symm
      · rintro (h | ⟨rfl, h1, h2, h3, h4⟩)
        · exact h.symm
        · exact absurd ⟨h1.symm, Finset.mem_erase.mpr ⟨h3, h2⟩, h4⟩ hcond

/-- **A tree loop.**  `hclob`: the register a move goes through is no source and no finished
destination. -/
theorem resolveBlades_spec (P : Prob e D S) (σ₀ : State) (blocked T₀ : Finset ℕ)
    (hclob : ∀ st, Reached e D S σ₀ st → st.todo ⊆ T₀ → (∀ x ∈ blocked, x ∈ D → x ∈ st.todo) →
      ∀ d ∈ st.todo, d ∉ blocked → ∀ x,
        clobberOf e.ctx (e.types d) d (readAt st.loc (e.pred d)) e.tmp e.tmpFp = some x →
          x ∉ S ∧ (x ∈ D → x ∈ st.todo)) :
    ∀ (fuel : ℕ) (ready : Finset ℕ) (st : PcState), st.todo.card < fuel → Reached e D S σ₀ st →
      st.todo ⊆ T₀ → (∀ x ∈ blocked, x ∈ D → x ∈ st.todo) →
      (∀ x ∈ ready, x ∈ st.todo ∧ x ∉ blocked ∧ (x ∈ S → st.loc x ≠ x)) →
      (∀ d ∈ st.todo, d ∈ ready ∨ d ∈ blocked ∨ (d ∈ S ∧ st.loc d = d)) →
      ∃ st', resolveBlades e blocked fuel ready st = some st' ∧ Reached e D S σ₀ st' ∧
        st'.todo ⊆ st.todo ∧ (∀ x ∈ blocked, x ∈ D → x ∈ st'.todo) ∧ Stuck blocked S st' := by
  intro fuel
  induction fuel with
  | zero => exact fun _ _ h => absurd h (Nat.not_lt_zero _)
  | succ fuel ih =>
    intro ready st hcard hR hT₀ hblk hready hstuck
    cases hf : firstBit ready with
    | none =>
      rw [firstBit_eq_none] at hf
      subst hf
      refine ⟨st, by simp [resolveBlades, firstBit], hR, subset_rfl, hblk, fun d hd => ?_⟩
      exact (hstuck d hd).resolve_left (Finset.notMem_empty d)
    | some dst =>
      obtain ⟨hdT, hdb, hdfree⟩ := hready dst (firstBit_mem hf)
      obtain ⟨σ, hex, hinv⟩ := hR.inv
      have hD := hinv.sub hdT
      obtain ⟨c, hc, σ', hex', hm⟩ := hinv.emit P hD
      obtain ⟨ready', hrun, hready'⟩ := resolveBlades_succ blocked fuel hf hc
      have hstep := hinv.step P hdT hdfree (hclob st hR hT₀ hblk dst hdT hdb) hm
      have hcard' : (st.todo.erase dst).card < fuel :=
        lt_of_lt_of_le (Finset.card_erase_lt_of_mem hdT) (Nat.lt_succ_iff.mp hcard)
      have hex'' : exec e.ctx (st.code ++ c) σ₀ = some σ' := by
        rw [exec_append, hex]
        exact hex'
      have hblk' : ∀ x ∈ blocked, x ∈ D → x ∈ st.todo.erase dst := fun x hx hxD =>
        Finset.mem_erase.mpr ⟨fun he => hdb (he ▸ hx), hblk x hx hxD⟩
      have hnew : ∀ x ∈ ready', x ∈ st.todo.erase dst ∧ x ∉ blocked ∧
          (x ∈ S → locAfter st.loc (e.pred dst) dst x ≠ x) := by
        intro x hx
        rcases (hready' x).mp hx with ⟨hxr, hxd⟩ | ⟨hp, hlx, hxT, hxd, hxb⟩
        · obtain ⟨h1, h2, h3⟩ := hready x hxr
          refine ⟨Finset.mem_erase.mpr ⟨hxd, h1⟩, h2, fun hxS => ?_⟩
          by_cases hp : e.pred dst = x
          · rw [hp, locAfter_self]
            exact Ne.symm hxd
          · rw [locAfter_of_ne hp]
            exact h3 hxS
        · refine ⟨Finset.mem_erase.mpr ⟨hxd, hxT⟩, hxb, fun _ => ?_⟩
          rw [hp, locAfter_self]
          exact Ne.symm hxd
      have hold : ∀ d ∈ st.todo.erase dst, d ∈ ready' ∨ d ∈ blocked ∨
          (d ∈ S ∧ locAfter st.loc (e.pred dst) dst d = d) := by
        intro d hd
        obtain ⟨hdd, hdT'⟩ := Finset.mem_erase.mp hd
        rcases hstuck d hdT' with h | h | ⟨hS, hl⟩
        · exact Or.inl ((hready' d).mpr (Or.inl ⟨h, hdd⟩))
        · exact Or.inr (Or.inl h)
        · by_cases hp : e.pred dst = d
          · by_cases hb : d ∈ blocked
            · exact Or.inr (Or.inl hb)
            · exact Or.inl ((hready' d).mpr (Or.inr ⟨hp, hl, hdT', hdd, hb⟩))
          · exact Or.inr (Or.inr ⟨hS, by rw [locAfter_of_ne hp]; exact hl⟩)
      obtain ⟨st', h1, h2, h3, h4, h5⟩ := ih ready'
        ⟨st.todo.erase dst, locAfter st.loc (e.pred dst) dst, st.code ++ c⟩ hcard'
        ⟨σ', hex'', hstep⟩ ((Finset.erase_subset _ _).trans hT₀) hblk' hnew hold
      rw [hrun]
      exact ⟨st', h1, h2, h3.trans (Finset.erase_subset _ _), h4, h5⟩

end

end IrJit.Dessa
