import IrJit.Ra.Wf

/-!
# Ra.LiveSetsSpec — what `ir_compute_live_sets` computes

`SetInv` is the invariant of the walk for one virtual register: marks are sound, and every block
that is marked or has a use is on the queue or has all its predecessors marked.
-/

namespace IrJit.Ra

section

variable {P : Prog} (W : Wf P)

include W

theorem fusedUser_lt {x u : ℕ} (hx : P.isFused x = true) (hu : u ∈ P.useLists x) :
    x < u ∧ u < P.insnsCount := by
  obtain ⟨hbody, hop⟩ := (W.uses x (Or.inr hx) u).mp hu
  have hlt := W.ops_lt _ u hbody (W.fused_phi x hx u hu) x hop
  exact ⟨by omega, (W.body_mem _ u hbody).2.2.2.1⟩

/-- The loop over `fuse_queue` ends, with the blocks of all instructions that `use` is fused
into. -/
theorem mem_fusedUseBlocks {use c : ℕ} (hf : P.isFused use = true) :
    c ∈ P.fusedUseBlocks use ↔ ∃ f, Below P.fusedUsers use f ∧ c ∈ P.userBlocks f := by
  obtain ⟨l, hl⟩ := drain_isSome P.fusedUsers P.userBlocks P.maxUses
    (fun x => P.insnsCount - x) (fun x => P.isFused x = true)
    (fun x _ y hy => (List.mem_filter.mp hy).2)
    (fun x hx y hy => by
      have h := fusedUser_lt W hx (List.mem_filter.mp hy).1
      omega)
    (fun x hx => by
      have hlt := (W.body_mem _ x (W.fused_body x hx).1).2.2.2.1
      calc (P.fusedUsers x).length ≤ (P.useLists x).length := List.length_filter_le _ _
        _ ≤ P.maxUses := Finset.le_sup (f := fun r => (P.useLists r).length) (Finset.mem_range.mpr hlt))
    ((P.maxUses + 1) ^ (P.insnsCount - use)) [use] (by simpa using hf) (by simp [weight])
  unfold Prog.fusedUseBlocks
  rw [hl, Option.getD_some, mem_drain hl]
  simp

end

/-! ### The walk for one register -/

section

variable {P : Prog} {i : ℕ} {st₀ : LiveSets}

/-- All predecessors of `c` are marked, or none is to be. -/
def Closed (P : Prog) (i : ℕ) (st : LiveSets) (c : ℕ) : Prop :=
  (P.block c).entry ≠ none ∨ ∀ p ∈ (P.block c).preds, P.vregs i ∈ st.outs p

/-- The invariant: `st₀` the sets before the register of `i` is processed, `Q` the blocks on the
queue, `U` and `E` the uses collected so far. -/
structure SetInv (P : Prog) (i : ℕ) (st₀ : LiveSets) (Q U E : ℕ → Prop) (st : LiveSets) : Prop where
  near : ∀ b, st.outs b = st₀.outs b ∨ st.outs b = P.vregs i :: st₀.outs b
  mark : ∀ b, P.vregs i ∈ st.outs b → P.LiveOutBy i (P.ListedUse i) b
  queue : ∀ c, Q c → c ≠ P.cfgMap i ∧ P.InRange c ∧
    (P.ListedUse i c ∨ P.LiveOutBy i (P.ListedUse i) c)
  ends : ∀ c, E c → P.vregs i ∈ st.outs c
  pend : ∀ c, U c ∨ P.vregs i ∈ st.outs c → c ≠ P.cfgMap i → Q c ∨ Closed P i st c

theorem SetInv.top_iff {Q U E : ℕ → Prop} {st : LiveSets} (h : SetInv P i st₀ Q U E st)
    (hnew : ∀ b, P.vregs i ∉ st₀.outs b) (b : ℕ) :
    st.liveOutTop b = some (P.vregs i) ↔ P.vregs i ∈ st.outs b := by
  unfold LiveSets.liveOutTop
  rcases h.near b with heq | heq
  · rw [heq]
    constructor
    · intro hh
      exact absurd (List.mem_of_mem_head? hh) (hnew b)
    · exact fun hm => absurd hm (hnew b)
  · simp [heq]

theorem liveOutPush_outs (st : LiveSets) (b v c : ℕ) :
    (st.liveOutPush b v).outs c = if c = b then v :: st.outs b else st.outs c := by
  unfold LiveSets.liveOutPush
  split_ifs with h
  · rw [h]
    exact Function.update_self ..
  · exact Function.update_of_ne h _ _

/-- Marking a block that is live out. -/
theorem SetInv.push {Q U E : ℕ → Prop} {st : LiveSets} (h : SetInv P i st₀ Q U E st) {b : ℕ}
    (hlive : P.LiveOutBy i (P.ListedUse i) b) (hr : P.InRange b) (hno : P.vregs i ∉ st.outs b) :
    SetInv P i st₀ (fun c => Q c ∨ (c = b ∧ b ≠ P.cfgMap i)) U E (st.liveOutPush b (P.vregs i)) := by
  have hgrow : ∀ c, P.vregs i ∈ st.outs c → P.vregs i ∈ (st.liveOutPush b (P.vregs i)).outs c := by
    intro c hc
    rw [liveOutPush_outs]
    split_ifs with hcb
    · exact List.mem_cons_self
    · exact hc
  have hself : P.vregs i ∈ (st.liveOutPush b (P.vregs i)).outs b := by
    rw [liveOutPush_outs, if_pos rfl]
    exact List.mem_cons_self
  have hclosed : ∀ c, Closed P i st c → Closed P i (st.liveOutPush b (P.vregs i)) c := fun c hc =>
    hc.imp id fun hp p hpm => hgrow p (hp p hpm)
  refine ⟨fun c => ?_, fun c hc => ?_, fun c hc => ?_, fun c hc => hgrow c (h.ends c hc), fun c hc hcd => ?_⟩
  · rw [liveOutPush_outs]
    split_ifs with hcb
    · rcases h.near b with heq | heq
      · exact Or.inr (by rw [heq, hcb])
      · exact absurd (by rw [heq]; exact List.mem_cons_self) hno
    · exact h.near c
  · rw [liveOutPush_outs] at hc
    split_ifs at hc with hcb
    · exact hcb ▸ hlive
    · exact h.mark c hc
  · rcases hc with hc | ⟨rfl, hbd⟩
    · exact h.queue c hc
    · exact ⟨hbd, hr, Or.inr hlive⟩
  · by_cases hcb : c = b
    · exact Or.inl (Or.inr ⟨hcb, hcb ▸ hcd⟩)
    · have hc' : U c ∨ P.vregs i ∈ st.outs c := by
        rcases hc with hc | hc
        · exact Or.inl hc
        · rw [liveOutPush_outs, if_neg hcb] at hc
          exact Or.inr hc
      rcases h.pend c hc' hcd with hq | hcl
      · exact Or.inl (Or.inl hq)
      · exact Or.inr (hclosed c hcl)

theorem SetInv.mono {Q Q' U E : ℕ → Prop} {st : LiveSets} (h : SetInv P i st₀ Q U E st)
    (hQ : ∀ c, Q c ↔ Q' c) : SetInv P i st₀ Q' U E st := by
  have he : Q = Q' := funext fun c => propext (hQ c)
  exact he ▸ h

/-- The number of blocks that are not marked. -/
def unmarked (P : Prog) (i : ℕ) (st : LiveSets) : ℕ :=
  ((Finset.Icc 1 P.blocksCount).filter fun b => P.vregs i ∉ st.outs b).card

theorem unmarked_push {st : LiveSets} {b : ℕ} (hr : P.InRange b) (hno : P.vregs i ∉ st.outs b) :
    unmarked P i (st.liveOutPush b (P.vregs i)) + 1 ≤ unmarked P i st := by
  refine Finset.card_lt_card (Finset.ssubset_iff_of_subset ?_ |>.mpr ⟨b, ?_, ?_⟩)
  · intro c hc
    obtain ⟨h1, h2⟩ := Finset.mem_filter.mp hc
    rw [liveOutPush_outs] at h2
    split_ifs at h2 with hcb
    · exact absurd List.mem_cons_self h2
    · exact Finset.mem_filter.mpr ⟨h1, h2⟩
  · exact Finset.mem_filter.mpr ⟨Finset.mem_Icc.mpr hr, hno⟩
  · intro hc
    have h2 := (Finset.mem_filter.mp hc).2
    rw [liveOutPush_outs, if_pos rfl] at h2
    exact h2 List.mem_cons_self

/-- One predecessor. -/
theorem visitPred_spec (hnew : ∀ b, P.vregs i ∉ st₀.outs b) {X U E : ℕ → Prop} {st : LiveSets}
    {q : List ℕ} (h : SetInv P i st₀ (fun c => c ∈ q ∨ X c) U E st) {b : ℕ}
    (hlive : P.LiveOutBy i (P.ListedUse i) b) (hr : P.InRange b) :
    SetInv P i st₀ (fun c => c ∈ (visitPred P i (st, q) b).2 ∨ X c) U E (visitPred P i (st, q) b).1 ∧
      P.vregs i ∈ (visitPred P i (st, q) b).1.outs b ∧
      (∀ c, P.vregs i ∈ st.outs c → P.vregs i ∈ (visitPred P i (st, q) b).1.outs c) ∧
      (visitPred P i (st, q) b).2.length + unmarked P i (visitPred P i (st, q) b).1 ≤
        q.length + unmarked P i st := by
  unfold visitPred
  by_cases htop : st.liveOutTop b = some (P.vregs i)
  · rw [if_pos htop]
    exact ⟨h, (h.top_iff hnew b).mp htop, fun c hc => hc, le_rfl⟩
  · rw [if_neg htop]
    have hno : P.vregs i ∉ st.outs b := fun hc => htop ((h.top_iff hnew b).mpr hc)
    have hless := unmarked_push hr hno
    refine ⟨(h.push hlive hr hno).mono fun c => ?_, ?_, fun c hc => ?_, ?_⟩
    · by_cases hbd : b = P.cfgMap i
      · simp [hbd]
      · simp only [hbd, if_false, List.mem_cons]
        tauto
    · rw [liveOutPush_outs, if_pos rfl]
      exact List.mem_cons_self
    · rw [liveOutPush_outs]
      split_ifs
      · exact List.mem_cons_self
      · exact hc
    · by_cases hbd : b = P.cfgMap i
      · simp only [hbd, if_true]
        rw [hbd] at hless
        omega
      · simp only [hbd, if_false, List.length_cons]
        omega

/-- All predecessors of a block. -/
theorem visitPreds_spec (hnew : ∀ b, P.vregs i ∉ st₀.outs b) {X U E : ℕ → Prop} :
    ∀ (ps : List ℕ) (st : LiveSets) (q : List ℕ), SetInv P i st₀ (fun c => c ∈ q ∨ X c) U E st →
      (∀ p ∈ ps, P.LiveOutBy i (P.ListedUse i) p ∧ P.InRange p) →
      SetInv P i st₀ (fun c => c ∈ (ps.foldl (visitPred P i) (st, q)).2 ∨ X c) U E
        (ps.foldl (visitPred P i) (st, q)).1 ∧
      (∀ p ∈ ps, P.vregs i ∈ (ps.foldl (visitPred P i) (st, q)).1.outs p) ∧
      (∀ c, P.vregs i ∈ st.outs c → P.vregs i ∈ (ps.foldl (visitPred P i) (st, q)).1.outs c) ∧
      (ps.foldl (visitPred P i) (st, q)).2.length + unmarked P i (ps.foldl (visitPred P i) (st, q)).1 ≤
        q.length + unmarked P i st := by
  intro ps
  induction ps with
  | nil => exact fun st q h _ => ⟨h, by simp, fun c hc => hc, le_rfl⟩
  | cons p ps ih =>
    intro st q h hps
    obtain ⟨hl, hr⟩ := hps p List.mem_cons_self
    obtain ⟨h1, h2, h3, h4⟩ := visitPred_spec hnew h hl hr
    obtain ⟨g1, g2, g3, g4⟩ := ih _ _ h1 fun z hz => hps z (List.mem_cons_of_mem p hz)
    refine ⟨g1, fun z hz => ?_, fun c hc => g3 c (h3 c hc), g4.trans h4⟩
    rcases List.mem_cons.mp hz with rfl | hz
    · exact g3 z h2
    · exact g2 z hz

/-! ### The loops -/

/-- The uses that one element of the use list of `i` stands for, in blocks and at ends of
blocks. -/
def usesOf (P : Prog) (use c : ℕ) : Prop :=
  P.isPhi use = false ∧ ((P.isFused use = false ∧ P.cfgMap use = c) ∨
    (P.isFused use = true ∧ ∃ f, Below P.fusedUsers use f ∧ c ∈ P.userBlocks f))

def endsOf (P : Prog) (i use c : ℕ) : Prop :=
  P.isPhi use = true ∧ ∃ src : ℤ, ((i : ℤ), src) ∈ P.phiInputs use ∧ P.cfgMap src.toNat = c

theorem SetInv.weaken {Q U U' E E' : ℕ → Prop} {st : LiveSets} (h : SetInv P i st₀ Q U E st)
    (hU : ∀ c, U' c → U c ∨ c = P.cfgMap i ∨ Q c ∨ P.vregs i ∈ st.outs c)
    (hE : ∀ c, E' c → E c ∨ P.vregs i ∈ st.outs c) : SetInv P i st₀ Q U' E' st where
  near := h.near
  mark := h.mark
  queue := h.queue
  ends := fun c hc => (hE c hc).elim (h.ends c) id
  pend := by
    intro c hc hcd
    rcases hc with hc | hc
    · rcases hU c hc with hu | rfl | hq | hm
      · exact h.pend c (Or.inl hu) hcd
      · exact absurd rfl hcd
      · exact Or.inl hq
      · exact h.pend c (Or.inr hm) hcd
    · exact h.pend c (Or.inr hc) hcd

/-- A use in block `b`. -/
theorem visitUse_spec (hnew : ∀ b, P.vregs i ∉ st₀.outs b) {U E : ℕ → Prop} {st : LiveSets}
    {q : List ℕ} (h : SetInv P i st₀ (fun c => c ∈ q) U E st) {b : ℕ} (huse : P.ListedUse i b)
    (hr : P.InRange b) :
    SetInv P i st₀ (fun c => c ∈ (visitUse P i (st, q) b).2) (fun c => U c ∨ c = b) E
      (visitUse P i (st, q) b).1 := by
  unfold visitUse
  by_cases hcond : P.cfgMap i ≠ b ∧ st.liveOutTop b ≠ some (P.vregs i)
  · rw [if_pos hcond]
    refine ⟨h.near, h.mark, fun c hc => ?_, h.ends, fun c hc hcd => ?_⟩
    · rcases List.mem_cons.mp hc with rfl | hc
      · exact ⟨Ne.symm hcond.1, hr, Or.inl huse⟩
      · exact h.queue c hc
    · by_cases hcb : c = b
      · exact Or.inl (List.mem_cons.mpr (Or.inl hcb))
      · have hc' : U c ∨ P.vregs i ∈ st.outs c :=
          hc.imp_left fun hu => hu.resolve_right hcb
        exact (h.pend c hc' hcd).imp_left (List.mem_cons_of_mem b)
  · rw [if_neg hcond]
    refine h.weaken (fun c hc => ?_) fun c hc => Or.inl hc
    rcases hc with hc | rfl
    · exact Or.inl hc
    · by_cases hd : P.cfgMap i = c
      · exact Or.inr (Or.inl hd.symm)
      · have htop : st.liveOutTop c = some (P.vregs i) := by
          by_contra hne
          exact hcond ⟨hd, hne⟩
        exact Or.inr (Or.inr (Or.inr ((h.top_iff hnew c).mp htop)))

theorem visitUses_spec (hnew : ∀ b, P.vregs i ∉ st₀.outs b) {E : ℕ → Prop} :
    ∀ (bs : List ℕ) (U : ℕ → Prop) (st : LiveSets) (q : List ℕ),
      SetInv P i st₀ (fun c => c ∈ q) U E st → (∀ b ∈ bs, P.ListedUse i b ∧ P.InRange b) →
      SetInv P i st₀ (fun c => c ∈ (bs.foldl (visitUse P i) (st, q)).2) (fun c => U c ∨ c ∈ bs) E
        (bs.foldl (visitUse P i) (st, q)).1 := by
  intro bs
  induction bs with
  | nil => exact fun U st q h _ => h.weaken (fun c hc => Or.inl (by simpa using hc)) fun c hc => Or.inl hc
  | cons b bs ih =>
    intro U st q h hbs
    obtain ⟨hu, hr⟩ := hbs b List.mem_cons_self
    have hrest := ih _ _ _ (visitUse_spec hnew h hu hr) fun c hc => hbs c (List.mem_cons_of_mem b hc)
    refine hrest.weaken (fun c hc => Or.inl ?_) fun c hc => Or.inl hc
    rcases hc with hc | hc
    · exact Or.inl (Or.inl hc)
    · rcases List.mem_cons.mp hc with rfl | hc
      · exact Or.inl (Or.inr rfl)
      · exact Or.inr hc

/-- The inputs of a PHI. -/
theorem visitPhi_spec (hnew : ∀ b, P.vregs i ∉ st₀.outs b) {U : ℕ → Prop} :
    ∀ (ins : List (ℤ × ℤ)) (E : ℕ → Prop) (st : LiveSets) (q : List ℕ),
      SetInv P i st₀ (fun c => c ∈ q) U E st →
      (∀ src : ℤ, ((i : ℤ), src) ∈ ins →
        P.LiveOutBy i (P.ListedUse i) (P.cfgMap src.toNat) ∧ P.InRange (P.cfgMap src.toNat)) →
      let r := ins.foldl (fun acc (x : ℤ × ℤ) =>
        if x.1 = i then visitPred P i acc (P.cfgMap x.2.toNat) else acc) (st, q)
      SetInv P i st₀ (fun c => c ∈ r.2) U
        (fun c => E c ∨ ∃ src : ℤ, ((i : ℤ), src) ∈ ins ∧ P.cfgMap src.toNat = c) r.1 := by
  intro ins
  induction ins with
  | nil => exact fun E st q h _ => h.weaken (fun c hc => Or.inl hc) fun c hc => Or.inl (by simpa using hc)
  | cons x ins ih =>
    intro E st q h hins
    obtain ⟨input, src⟩ := x
    simp only [List.foldl_cons]
    have htail : ∀ s : ℤ, ((i : ℤ), s) ∈ ins →
        P.LiveOutBy i (P.ListedUse i) (P.cfgMap s.toNat) ∧ P.InRange (P.cfgMap s.toNat) := fun s hs =>
      hins s (List.mem_cons_of_mem _ hs)
    by_cases hi : input = i
    · subst hi
      rw [if_pos rfl]
      obtain ⟨hl, hr⟩ := hins src List.mem_cons_self
      have h' : SetInv P i st₀ (fun c => c ∈ q ∨ False) U E st := h.mono fun c => by simp
      obtain ⟨h1, h2, -, -⟩ := visitPred_spec hnew h' hl hr
      have h3 : SetInv P i st₀ (fun c => c ∈ (visitPred P i (st, q) (P.cfgMap src.toNat)).2) U
          (fun c => E c ∨ c = P.cfgMap src.toNat) (visitPred P i (st, q) (P.cfgMap src.toNat)).1 := by
        refine (h1.mono fun c => by simp).weaken (fun c hc => Or.inl hc) fun c hc => ?_
        rcases hc with hc | rfl
        · exact Or.inl hc
        · exact Or.inr h2
      refine (ih _ _ _ h3 htail).weaken (fun c hc => Or.inl hc) fun c hc => Or.inl ?_
      rcases hc with hc | ⟨s, hs, hc⟩
      · exact Or.inl (Or.inl hc)
      · rcases List.mem_cons.mp hs with he | hs
        · injection he with _ he
          exact Or.inl (Or.inr (by rw [← hc, he]))
        · exact Or.inr ⟨s, hs, hc⟩
    · rw [if_neg hi]
      refine (ih _ _ _ h htail).weaken (fun c hc => Or.inl hc) fun c hc => Or.inl ?_
      rcases hc with hc | ⟨s, hs, hc⟩
      · exact Or.inl hc
      · rcases List.mem_cons.mp hs with he | hs
        · injection he with he _
          exact absurd he.symm hi
        · exact Or.inr ⟨s, hs, hc⟩

/-- One element of the use list. -/
theorem collectUse_spec (W : Wf P) (hv : P.vregs i ≠ 0) (hnew : ∀ b, P.vregs i ∉ st₀.outs b)
    {U E : ℕ → Prop} {st : LiveSets} {q : List ℕ} (h : SetInv P i st₀ (fun c => c ∈ q) U E st) {use : ℕ}
    (huse : use ∈ P.useLists i) :
    SetInv P i st₀ (fun c => c ∈ (collectUse P i (st, q) use).2) (fun c => U c ∨ usesOf P use c)
      (fun c => E c ∨ endsOf P i use c) (collectUse P i (st, q) use).1 := by
  unfold collectUse
  cases hphi : P.isPhi use with
  | true =>
    rw [if_pos rfl]
    have hbody := ((W.uses i (Or.inl hv) use).mp huse).1
    have hends : ∀ src : ℤ, ((i : ℤ), src) ∈ P.phiInputs use → P.UsedAtEnd i (P.cfgMap src.toNat) :=
      fun src hsrc => ⟨_, use, hbody, hphi, src, hsrc, rfl⟩
    have h1 := visitPhi_spec hnew (P.phiInputs use) E st q h fun src hsrc =>
      ⟨Or.inl ⟨_, Relation.ReflTransGen.refl, hends src hsrc⟩, (W.end_dom hv (hends src hsrc)).1⟩
    refine h1.weaken (fun c hc => Or.inl ?_) fun c hc => Or.inl ?_
    · rcases hc with hc | ⟨hc, -⟩
      · exact hc
      · rw [hphi] at hc
        exact absurd hc (by simp)
    · exact hc.imp_right fun he => he.2
  | false =>
    rw [if_neg (by simp)]
    have hlisted : ∀ c, usesOf P use c → P.ListedUse i c := fun c hc => ⟨use, huse, hc⟩
    have hE : ∀ c, E c ∨ endsOf P i use c → E c := fun c hc => hc.elim id fun he => by
      have hp := he.1
      rw [hphi] at hp
      exact absurd hp (by simp)
    cases hf : P.isFused use with
    | true =>
      rw [if_pos rfl]
      have hmem : ∀ c, c ∈ P.fusedUseBlocks use ↔ usesOf P use c := fun c => by
        rw [mem_fusedUseBlocks W hf]
        simp [usesOf, hphi, hf]
      have h1 := visitUses_spec hnew (P.fusedUseBlocks use) U st q h fun c hc =>
        ⟨hlisted c ((hmem c).mp hc), (W.listed_dom hv (hlisted c ((hmem c).mp hc))).1⟩
      refine h1.weaken (fun c hc => Or.inl ?_) fun c hc => Or.inl (hE c hc)
      exact hc.imp_right (hmem c).mpr
    | false =>
      rw [if_neg (by simp)]
      have hself : usesOf P use (P.cfgMap use) := ⟨hphi, Or.inl ⟨hf, rfl⟩⟩
      have h1 := visitUse_spec hnew h (hlisted _ hself) (W.listed_dom hv (hlisted _ hself)).1
      refine h1.weaken (fun c hc => Or.inl ?_) fun c hc => Or.inl (hE c hc)
      refine hc.imp_right fun hu => ?_
      obtain ⟨-, ⟨-, he⟩ | ⟨hf', -⟩⟩ := hu
      · exact he.symm
      · rw [hf] at hf'
        exact absurd hf' (by simp)

theorem collectUses_spec (W : Wf P) (hv : P.vregs i ≠ 0) (hnew : ∀ b, P.vregs i ∉ st₀.outs b) :
    ∀ (uses : List ℕ) (U E : ℕ → Prop) (st : LiveSets) (q : List ℕ),
      SetInv P i st₀ (fun c => c ∈ q) U E st → (∀ u ∈ uses, u ∈ P.useLists i) →
      SetInv P i st₀ (fun c => c ∈ (uses.foldl (collectUse P i) (st, q)).2)
        (fun c => U c ∨ ∃ u ∈ uses, usesOf P u c) (fun c => E c ∨ ∃ u ∈ uses, endsOf P i u c)
        (uses.foldl (collectUse P i) (st, q)).1 := by
  intro uses
  induction uses with
  | nil =>
    intro U E st q h _
    exact h.weaken (fun c hc => Or.inl (by simpa using hc)) fun c hc => Or.inl (by simpa using hc)
  | cons u us ih =>
    intro U E st q h hus
    have h1 := collectUse_spec W hv hnew h (hus u List.mem_cons_self)
    refine (ih _ _ _ _ h1 fun z hz => hus z (List.mem_cons_of_mem u hz)).weaken
      (fun c hc => Or.inl ?_) fun c hc => Or.inl ?_
    all_goals
      rcases hc with hc | ⟨z, hz, hc⟩
      · exact Or.inl (Or.inl hc)
      · rcases List.mem_cons.mp hz with rfl | hz
        · exact Or.inl (Or.inr hc)
        · exact Or.inr ⟨z, hz, hc⟩

/-- `UP_AND_MARK`. -/
theorem upAndMark_spec (W : Wf P) (hnew : ∀ b, P.vregs i ∉ st₀.outs b) {U E : ℕ → Prop} :
    ∀ (fuel : ℕ) (q : List ℕ) (st : LiveSets), q.length + unmarked P i st ≤ fuel →
      SetInv P i st₀ (fun c => c ∈ q) U E st →
      ∃ st', upAndMark P i fuel q st = some st' ∧ SetInv P i st₀ (fun _ => False) U E st' := by
  intro fuel
  induction fuel with
  | zero =>
    intro q st hle h
    cases q with
    | nil => exact ⟨st, rfl, h.mono fun c => by simp⟩
    | cons b q => simp only [List.length_cons] at hle; omega
  | succ fuel ih =>
    intro q st hle h
    cases q with
    | nil => exact ⟨st, by simp [upAndMark], h.mono fun c => by simp⟩
    | cons b q =>
      obtain ⟨hbd, hbr, hb⟩ := h.queue b List.mem_cons_self
      simp only [List.length_cons] at hle
      cases hent : (P.block b).entry with
      | some n =>
        have h' : SetInv P i st₀ (fun c => c ∈ q) U E (st.liveInPush n (P.vregs i)) := by
          refine ⟨h.near, h.mark, fun c hc => h.queue c (List.mem_cons_of_mem b hc), h.ends, ?_⟩
          intro c hc hcd
          rcases h.pend c hc hcd with hq | hcl
          · rcases List.mem_cons.mp hq with rfl | hq
            · exact Or.inr (Or.inl (by simp [hent]))
            · exact Or.inl hq
          · exact Or.inr hcl
        obtain ⟨st', h1, h2⟩ := ih q (st.liveInPush n (P.vregs i)) (by
          show q.length + unmarked P i st ≤ fuel
          omega) h'
        exact ⟨st', by simpa [upAndMark, hent] using h1, h2⟩
      | none =>
        -- the predecessors of `b` are live out
        have hpreds : ∀ p ∈ (P.block b).preds, P.LiveOutBy i (P.ListedUse i) p ∧ P.InRange p := by
          intro p hp
          have hstep : P.Step i p b := ⟨hp, hbd, hent⟩
          refine ⟨?_, W.preds_range b hbr p hp⟩
          rcases hb with hu | ⟨c, hpath, hc⟩ | ⟨c, hpath, hc⟩
          · exact Or.inr ⟨b, Relation.TransGen.single hstep, hu⟩
          · exact Or.inl ⟨c, Relation.ReflTransGen.head hstep hpath, hc⟩
          · exact Or.inr ⟨c, Relation.TransGen.head hstep hpath, hc⟩
        have hX : SetInv P i st₀ (fun c => c ∈ q ∨ c = b) U E st := h.mono fun c => by
          simp only [List.mem_cons]
          tauto
        obtain ⟨h1, h2, -, h4⟩ := visitPreds_spec hnew (P.block b).preds st q hX hpreds
        set r := (P.block b).preds.foldl (visitPred P i) (st, q) with hr
        have h' : SetInv P i st₀ (fun c => c ∈ r.2) U E r.1 := by
          refine ⟨h1.near, h1.mark, fun c hc => h1.queue c (Or.inl hc), h1.ends, fun c hc hcd => ?_⟩
          rcases h1.pend c hc hcd with (hq | rfl) | hcl
          · exact Or.inl hq
          · exact Or.inr (Or.inr h2)
          · exact Or.inr hcl
        obtain ⟨st', h5, h6⟩ := ih r.2 r.1 (by omega) h'
        refine ⟨st', ?_, h6⟩
        rw [upAndMark, hent]
        simpa [← hr] using h5

/-- When nothing is pending any more, everything that is live is marked. -/
theorem SetInv.complete {U E : ℕ → Prop} {st : LiveSets} (h : SetInv P i st₀ (fun _ => False) U E st)
    (hU : ∀ c, P.ListedUse i c → U c) (hE : ∀ c, P.UsedAtEnd i c → E c) (b : ℕ) :
    P.vregs i ∈ st.outs b ↔ P.LiveOutBy i (P.ListedUse i) b := by
  have hback : ∀ {p c : ℕ}, P.Step i p c → U c ∨ P.vregs i ∈ st.outs c → P.vregs i ∈ st.outs p := by
    rintro p c ⟨hp, hcd, hent⟩ hc
    rcases (h.pend c hc hcd).resolve_left id with he | hall
    · exact absurd hent he
    · exact hall p hp
  refine ⟨h.mark b, ?_⟩
  rintro (⟨c, hpath, hc⟩ | ⟨c, hpath, hc⟩)
  · induction hpath using Relation.ReflTransGen.head_induction_on with
    | refl => exact h.ends c (hE c hc)
    | head hstep _ ih => exact hback hstep (Or.inr ih)
  · induction hpath using Relation.TransGen.head_induction_on with
    | single hstep => exact hback hstep (Or.inl (hU c hc))
    | head hstep _ ih => exact hback hstep (Or.inr ih)

/-- **One register.** -/
theorem liveSetsOf_spec (W : Wf P) (hv : P.vregs i ≠ 0) (hnew : ∀ b, P.vregs i ∉ st₀.outs b) :
    ∃ st, liveSetsOf P i st₀ = some st ∧
      (∀ b, st.outs b = st₀.outs b ∨ st.outs b = P.vregs i :: st₀.outs b) ∧
      ∀ b, P.vregs i ∈ st.outs b ↔ P.LiveOutBy i (P.ListedUse i) b := by
  have hinit : SetInv P i st₀ (fun c => c ∈ ([] : List ℕ)) (fun _ => False) (fun _ => False) st₀ :=
    ⟨fun _ => Or.inl rfl, fun b hb => absurd hb (hnew b), fun c hc => absurd hc (by simp),
      fun _ hc => hc.elim, fun c hc _ => absurd (hc.resolve_left id) (hnew c)⟩
  have h1 := collectUses_spec W hv hnew (P.useLists i) _ _ st₀ [] hinit fun u hu => hu
  set r := (P.useLists i).foldl (collectUse P i) (st₀, []) with hr
  have hle : unmarked P i r.1 ≤ P.blocksCount := by
    refine (Finset.card_filter_le _ _).trans ?_
    simp
  obtain ⟨st, h2, h3⟩ := upAndMark_spec W hnew (r.2.length + P.blocksCount + 1) r.2 r.1 (by omega) h1
  refine ⟨st, by simp only [liveSetsOf, if_neg hv, ← hr, h2], h3.near, h3.complete ?_ ?_⟩
  · rintro c ⟨u, hu, hc⟩
    exact Or.inr ⟨u, hu, hc⟩
  · rintro c ⟨b, phi, hphi, hp, src, hsrc, rfl⟩
    have hop : (i : ℤ) ∈ (P.insn phi).ops := by
      unfold Prog.phiInputs at hsrc
      split at hsrc
      · exact absurd hsrc (by simp)
      · rename_i merge inputs heq
        rw [heq]
        exact List.mem_cons_of_mem _ (List.of_mem_zip hsrc).1
    have hcfg := (W.body_mem b phi hphi).2.2.2.2
    exact Or.inr ⟨phi, (W.uses i (Or.inl hv) phi).mpr ⟨hcfg.symm ▸ hphi, hop⟩, hp, src, hsrc, rfl⟩

end

/-! ### All registers -/

section

variable {P : Prog}

/-- What the outer loop has done after the references in `done`. -/
structure SetsDone (P : Prog) (done : ℕ → Prop) (st : LiveSets) : Prop where
  iff : ∀ i, done i → P.vregs i ≠ 0 → ∀ b, P.vregs i ∈ st.outs b ↔ P.LiveOutBy i (P.ListedUse i) b
  only : ∀ b, ∀ v ∈ st.outs b, ∃ i, done i ∧ P.vregs i = v ∧ v ≠ 0

theorem liveSets_loop (W : Wf P) :
    ∀ (is : List ℕ) (done : ℕ → Prop) (st : LiveSets), is.Nodup → (∀ i ∈ is, ¬ done i) →
      SetsDone P done st →
      ∃ st', is.foldlM (fun st i => liveSetsOf P i st) st = some st' ∧
        SetsDone P (fun i => done i ∨ i ∈ is) st' := by
  intro is
  induction is with
  | nil =>
    intro done st _ _ h
    exact ⟨st, rfl, by simpa using h⟩
  | cons i is ih =>
    intro done st hnd hfresh h
    obtain ⟨hi, hnd'⟩ := List.nodup_cons.mp hnd
    have hstep : ∃ st₁, liveSetsOf P i st = some st₁ ∧ SetsDone P (fun j => done j ∨ j = i) st₁ := by
      by_cases hv : P.vregs i = 0
      · refine ⟨st, by simp [liveSetsOf, hv], fun j hj hjv => ?_, fun b v hb => ?_⟩
        · rcases hj with hj | rfl
          · exact h.iff j hj hjv
          · exact absurd hv hjv
        · obtain ⟨j, hj, hjv⟩ := h.only b v hb
          exact ⟨j, Or.inl hj, hjv⟩
      · have hnew : ∀ b, P.vregs i ∉ st.outs b := by
          intro b hb
          obtain ⟨j, hj, hjv, -⟩ := h.only b _ hb
          have hij := W.vreg_inj i j hv hjv.symm
          exact hfresh i List.mem_cons_self (hij ▸ hj)
        obtain ⟨st₁, h1, h2, h3⟩ := liveSetsOf_spec W hv hnew
        refine ⟨st₁, h1, fun j hj hjv b => ?_, fun b v hb => ?_⟩
        · rcases hj with hj | rfl
          · rw [← h.iff j hj hjv b]
            have hne : P.vregs j ≠ P.vregs i := fun he =>
              hfresh i List.mem_cons_self (W.vreg_inj j i hjv he ▸ hj)
            rcases h2 b with he | he
            · rw [he]
            · rw [he, List.mem_cons, or_iff_right hne]
          · exact h3 b
        · rcases h2 b with he | he
          · rw [he] at hb
            obtain ⟨j, hj, hjv⟩ := h.only b v hb
            exact ⟨j, Or.inl hj, hjv⟩
          · rw [he] at hb
            rcases List.mem_cons.mp hb with rfl | hb
            · exact ⟨i, Or.inr rfl, rfl, hv⟩
            · obtain ⟨j, hj, hjv⟩ := h.only b v hb
              exact ⟨j, Or.inl hj, hjv⟩
    obtain ⟨st₁, h1, h2⟩ := hstep
    obtain ⟨st', h3, h4⟩ := ih _ st₁ hnd' (fun j hj hd => by
      rcases hd with hd | rfl
      · exact hfresh j (List.mem_cons_of_mem i hj) hd
      · exact hi hj) h2
    refine ⟨st', by simp [List.foldlM_cons, h1, h3], ⟨fun j hj => h4.iff j ?_, fun b v hb => ?_⟩⟩
    · rcases hj with hj | hj
      · exact Or.inl (Or.inl hj)
      · rcases List.mem_cons.mp hj with rfl | hj
        · exact Or.inl (Or.inr rfl)
        · exact Or.inr hj
    · obtain ⟨j, hj, hjv⟩ := h4.only b v hb
      refine ⟨j, ?_, hjv⟩
      rcases hj with (hj | rfl) | hj
      · exact Or.inl hj
      · exact Or.inr List.mem_cons_self
      · exact Or.inr (List.mem_cons_of_mem i hj)

/-- **`ir_compute_live_sets`** ends, and marks a register live at the end of a block exactly when it
is, by the listed uses. -/
theorem computeLiveSets_spec (W : Wf P) :
    ∃ st, computeLiveSets P = some st ∧
      (∀ i, P.vregs i ≠ 0 → ∀ b, P.vregs i ∈ st.outs b ↔ P.LiveOutBy i (P.ListedUse i) b) ∧
      ∀ b, ∀ v ∈ st.outs b, ∃ i, P.vregs i = v ∧ v ≠ 0 := by
  obtain ⟨st, h1, h2⟩ := liveSets_loop W (List.range' 1 (P.insnsCount - 1)).reverse (fun _ => False)
    ⟨fun _ => [], fun _ => []⟩ (List.nodup_reverse.mpr List.nodup_range') (fun _ _ h => h)
    ⟨fun _ h => h.elim, fun b v hb => absurd hb (by simp)⟩
  refine ⟨st, h1, fun i hv => h2.iff i (Or.inr ?_) hv, fun b v hb => ?_⟩
  · obtain ⟨-, hlo, -, hhi, -⟩ := W.body_mem _ i (W.vreg_body i hv)
    rw [List.mem_reverse, List.mem_range'_1]
    omega
  · obtain ⟨j, -, hjv⟩ := h2.only b v hb
    exact ⟨j, hjv⟩

/-! ### Listed uses and reads -/

/-- The uses in the lists make nothing live that the reads do not. -/
def ListedUsesLive (P : Prog) : Prop :=
  ∀ i, P.vregs i ≠ 0 → ∀ c, P.ListedUse i c → c ≠ P.cfgMap i → (P.block c).entry = none →
    ∀ p ∈ (P.block c).preds, P.LiveOut i p

theorem liveOut_iff (W : Wf P) :
    (∀ i, P.vregs i ≠ 0 → ∀ b, P.LiveOutBy i (P.ListedUse i) b ↔ P.LiveOut i b) ↔ ListedUsesLive P := by
  constructor
  · intro h i hv c hc hcd hent p hp
    exact (h i hv p).mp (Or.inr ⟨c, Relation.TransGen.single ⟨hp, hcd, hent⟩, hc⟩)
  · intro h i hv b
    constructor
    · rintro (hend | ⟨c, hpath, hc⟩)
      · exact Or.inl hend
      · -- from the last step of the path backwards
        have hback : ∀ {x y : ℕ}, Relation.ReflTransGen (P.Step i) x y → P.LiveOut i y → P.LiveOut i x := by
          rintro x y hxy (⟨z, hyz, hz⟩ | ⟨z, hyz, hz⟩)
          · exact Or.inl ⟨z, hxy.trans hyz, hz⟩
          · exact Or.inr ⟨z, Relation.TransGen.trans_right hxy hyz, hz⟩
        obtain ⟨p, hbp, hpc⟩ := Relation.TransGen.tail'_iff.mp hpath
        exact hback hbp (h i hv c hc hpc.2.1 hpc.2.2 p hpc.1)
    · rintro (hend | ⟨c, hpath, hc⟩)
      · exact Or.inl hend
      · exact Or.inr ⟨c, hpath, W.usedIn_listed hv hc⟩

end

end IrJit.Ra
