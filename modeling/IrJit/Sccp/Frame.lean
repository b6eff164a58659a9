import IrJit.Sccp.Invariant

/-!
# Sccp.Frame — what a change of one value leaves as it is
-/

namespace IrJit.Sccp

variable {G : Graph} {F : Folding} {V V' : ℕ → Lat}

/-- Instructions have numbers below `insns_count`. -/
def Graph.Ranged (G : Graph) : Prop := ∀ x, G.opOf x ≠ .nop → 0 < x ∧ x < G.insnsCount

theorem follow_eq_self {x : ℕ} (h : ∀ y, V x ≠ .copy y) : follow V x = x := by
  unfold follow
  split
  · exact absurd ‹_› (h _)
  · rfl

theorem follow_copy {x y : ℕ} (h : V x = .copy y) : follow V x = y := by
  simp [follow, h]

theorem copy_of_follow {x : ℕ} (h : follow V x ≠ x) : ∃ y, V x = .copy y ∧ follow V x = y := by
  by_cases hc : ∃ y, V x = .copy y
  · obtain ⟨y, hy⟩ := hc
    exact ⟨y, hy, follow_copy hy⟩
  · exact absurd (follow_eq_self fun y hy => hc ⟨y, hy⟩) h

theorem identity_eq_self {x : ℕ} (h : ∀ y, V x ≠ .copy y) : identity G V x = x :=
  Settles.iterate_of_rest (follow_eq_self h) _

namespace Forest

variable (R : G.Ranged) (H : Forest G V)

include R H

theorem settles : Settles (follow V) G.insnsCount where
  down := by
    obtain ⟨d, hd⟩ := H.down
    refine ⟨d, fun x hx => ?_⟩
    obtain ⟨y, hy, hf⟩ := copy_of_follow hx
    rw [hf]
    exact hd x y hy
  lt x hx := by
    obtain ⟨y, hy, hf⟩ := copy_of_follow hx
    rw [hf]
    refine (R y fun hnop => ?_).2
    have htop := H.nop y hnop
    rcases H.target x y hy with h | ⟨z, h⟩
    · rw [htop] at h
      cases h
    · rw [htop] at h
      cases h

theorem identity_copy {x y : ℕ} (h : V x = .copy y) : identity G V x = identity G V y := by
  have hnext := (H.settles R).iterate_next x
  rw [follow_copy h] at hnext
  exact hnext.symm

theorem identity_not_copy (x y : ℕ) : V (identity G V x) ≠ .copy y := by
  intro h
  have hrest := (H.settles R).iterate_rest x
  obtain ⟨d, hd⟩ := H.down
  change follow V (identity G V x) = identity G V x at hrest
  have hlt := hd _ _ h
  rw [follow_copy h] at hrest
  rw [hrest] at hlt
  omega

/-- Induction along the copies. -/
theorem induct {motive : ℕ → Prop} (root : ∀ x, (∀ y, V x ≠ .copy y) → motive x)
    (copy : ∀ x y, V x = .copy y → motive y → motive x) (x : ℕ) : motive x := by
  refine (H.settles R).induct ?_ ?_ x
  · intro x hx
    by_cases hc : ∃ y, V x = .copy y
    · obtain ⟨y, hy⟩ := hc
      obtain ⟨d, hd⟩ := H.down
      have hlt := hd x y hy
      rw [follow_copy hy] at hx
      rw [hx] at hlt
      omega
    · exact root x fun y hy => hc ⟨y, hy⟩
  · intro x hx ih
    obtain ⟨y, hy, hf⟩ := copy_of_follow hx
    exact copy x y hy (hf ▸ ih)

theorem identity_bottom (x : ℕ) : (V x = .bottom ∨ ∃ y, V x = .copy y) → V (identity G V x) = .bottom := by
  refine H.induct R (motive := fun x => (V x = .bottom ∨ ∃ y, V x = .copy y) → V (identity G V x) = .bottom)
    ?_ ?_ x
  · rintro x hx (h | ⟨y, h⟩)
    · rw [identity_eq_self hx, h]
    · exact absurd h (hx y)
  · intro x y hy ih _
    rw [H.identity_copy R hy]
    exact ih (H.target x y hy)

/-- Only a BOTTOM node is the identity of others. -/
theorem eq_of_identity {x r : ℕ} (h : identity G V x = r) (hr : V r ≠ .bottom) : x = r := by
  by_cases hc : ∃ y, V x = .copy y
  · exact absurd (h ▸ H.identity_bottom R x (Or.inr hc)) hr
  · rw [← h]
    exact (identity_eq_self fun y hy => hc ⟨y, hy⟩).symm

end Forest

/-! ### A node becomes a copy, or leaves its class -/

theorem identity_update {i : ℕ} {v : Lat} (hi : ∀ y, V i ≠ .copy y) (hv : ∀ y, v ≠ .copy y) (x : ℕ) :
    identity G (Function.update V i v) x = identity G V x := by
  have hf : follow (Function.update V i v) = follow V := by
    funext x
    by_cases hx : x = i
    · subst hx
      rw [follow_eq_self hi, follow_eq_self]
      intro y
      rw [Function.update_self]
      exact hv y
    · simp only [follow, Function.update_of_ne hx]
  unfold identity
  rw [hf]

theorem Forest.update (H : Forest G V) {i : ℕ} {v : Lat} (hreal : G.opOf i ≠ .nop)
    (hi : V i ≠ .bottom ∨ v = .bottom) (hc : (∀ y, V i ≠ .copy y) ∨ v = .bottom) (hv : ∀ y, v ≠ .copy y) :
    Forest G (Function.update V i v) where
  target x y h := by
    have hx : x ≠ i := by
      rintro rfl
      rw [Function.update_self] at h
      exact hv y h
    rw [Function.update_of_ne hx] at h
    by_cases hy : y = i
    · subst hy
      rw [Function.update_self]
      rcases H.target x y h with hb | ⟨z, hz⟩
      · exact Or.inl (hi.resolve_left (not_not.mpr hb))
      · rcases hc with hc | hc
        · exact absurd hz (hc z)
        · exact Or.inl hc
    · rw [Function.update_of_ne hy]
      exact H.target x y h
  down := by
    obtain ⟨d, hd⟩ := H.down
    refine ⟨d, fun x y h => ?_⟩
    have hx : x ≠ i := by
      rintro rfl
      rw [Function.update_self] at h
      exact hv y h
    rw [Function.update_of_ne hx] at h
    exact hd x y h
  nop x hx := by
    have hne : x ≠ i := fun h => hreal (h ▸ hx)
    rw [Function.update_of_ne hne]
    exact H.nop x hx

theorem Forest.update_copy (H : Forest G V) {i src : ℕ} (hreal : G.opOf i ≠ .nop) (hib : V i ≠ .bottom)
    (hic : ∀ y, V i ≠ .copy y) (hsrc : V src = .bottom ∨ ∃ z, V src = .copy z) :
    Forest G (Function.update V i (.copy src)) where
  target x y h := by
    have hy : y ≠ i := by
      rintro rfl
      by_cases hx : x = y
      · rw [hx, Function.update_self] at h
        injection h with h
        subst h
        rcases hsrc with h | ⟨z, h⟩
        · exact hib h
        · exact hic z h
      · rw [Function.update_of_ne hx] at h
        rcases H.target x y h with h | ⟨z, h⟩
        · exact hib h
        · exact hic z h
    rw [Function.update_of_ne hy]
    by_cases hx : x = i
    · subst hx
      rw [Function.update_self] at h
      injection h with h
      exact h ▸ hsrc
    · rw [Function.update_of_ne hx] at h
      exact H.target x y h
  down := by
    obtain ⟨d, hd⟩ := H.down
    have hne : src ≠ i := by
      rintro rfl
      rcases hsrc with h | ⟨z, h⟩
      · exact hib h
      · exact hic z h
    refine ⟨Function.update d i (d src + 1), fun x y h => ?_⟩
    by_cases hx : x = i
    · subst hx
      rw [Function.update_self] at h
      injection h with h
      subst h
      rw [Function.update_self, Function.update_of_ne hne]
      omega
    · rw [Function.update_of_ne hx] at h
      have hy : y ≠ i := by
        rintro rfl
        rcases H.target x y h with h | ⟨z, h⟩
        · exact hib h
        · exact hic z h
      rw [Function.update_of_ne hx, Function.update_of_ne hy]
      exact hd x y h
  nop x hx := by
    have hne : x ≠ i := fun h => hreal (h ▸ hx)
    rw [Function.update_of_ne hne]
    exact H.nop x hx

/-- When `i` becomes a copy, the others keep their identity. -/
theorem identity_update_copy (R : G.Ranged) (H : Forest G V) {i src : ℕ} (hreal : G.opOf i ≠ .nop)
    (hib : V i ≠ .bottom) (hic : ∀ y, V i ≠ .copy y) (hsrc : V src = .bottom ∨ ∃ z, V src = .copy z) {x : ℕ}
    (hx : x ≠ i) : identity G (Function.update V i (.copy src)) x = identity G V x := by
  have H' := H.update_copy hreal hib hic hsrc
  refine H.induct R (motive := fun x => x ≠ i →
    identity G (Function.update V i (.copy src)) x = identity G V x) ?_ ?_ x hx
  · intro x hroot hx
    rw [identity_eq_self hroot, identity_eq_self]
    intro y
    rw [Function.update_of_ne hx]
    exact hroot y
  · intro x y hy ih hx
    have hyi : y ≠ i := by
      rintro rfl
      rcases H.target x y hy with h | ⟨z, h⟩
      · exact hib h
      · exact hic z h
    have hy' : Function.update V i (.copy src) x = .copy y := by
      rw [Function.update_of_ne hx]
      exact hy
    rw [H.identity_copy R hy, H'.identity_copy R hy']
    exact ih hyi

/-- When `i` leaves its class, the identity of a node is `i` or stays. -/
theorem identity_update_bottom (R : G.Ranged) (H : Forest G V) {i : ℕ} (hreal : G.opOf i ≠ .nop) (x : ℕ) :
    (identity G (Function.update V i .bottom) x = i ∧ identity G V x = identity G V i) ∨
      identity G (Function.update V i .bottom) x = identity G V x := by
  have H' : Forest G (Function.update V i .bottom) :=
    H.update hreal (Or.inr rfl) (Or.inr rfl) (fun y h => by cases h)
  have hbot : ∀ y, Function.update V i .bottom i ≠ .copy y := by
    intro y h
    rw [Function.update_self] at h
    cases h
  refine H.induct R (motive := fun x =>
    (identity G (Function.update V i .bottom) x = i ∧ identity G V x = identity G V i) ∨
      identity G (Function.update V i .bottom) x = identity G V x) ?_ ?_ x
  · intro x hroot
    by_cases hx : x = i
    · subst hx
      exact Or.inl ⟨identity_eq_self hbot, rfl⟩
    · right
      rw [identity_eq_self hroot, identity_eq_self]
      intro y
      rw [Function.update_of_ne hx]
      exact hroot y
  · intro x y hy ih
    by_cases hx : x = i
    · subst hx
      exact Or.inl ⟨identity_eq_self hbot, rfl⟩
    · have hy' : Function.update V i .bottom x = .copy y := by
        rw [Function.update_of_ne hx]
        exact hy
      rw [H'.identity_copy R hy', H.identity_copy R hy]
      exact ih

/-! ### Operands -/

theorem Graph.dataIns_subset (x : ℕ) : G.dataIns x ⊆ G.inputs x := by
  unfold Graph.dataIns
  split
  · exact List.nil_subset _
  split
  · exact List.drop_subset 1 _
  · exact List.take_subset _ _

theorem Graph.operand_head {x : ℕ} {a : ℤ} {l : List ℤ} (h : G.inputs x = a :: l) : G.operand x 1 = a := by
  unfold Graph.inputs at h
  unfold Graph.operand
  split at h
  · rw [h]
    rfl
  · cases hops : (G.insn x).ops with
    | nil => rw [hops] at h; simp at h
    | cons b l' =>
      rw [hops] at h
      cases hk : (G.opOf x).inputEdges with
      | zero => rw [hk] at h; simp at h
      | succ k =>
        rw [hk, List.take_succ_cons] at h
        injection h

theorem Graph.operand_one {x : ℕ} (h : G.inputs x ≠ []) : G.operand x 1 ∈ G.inputs x := by
  obtain ⟨a, l, hl⟩ := List.exists_cons_of_ne_nil h
  rw [Graph.operand_head hl, hl]
  exact List.mem_cons_self

theorem Wf.phi_inputs (W : Wf G) {p : ℕ} (h : G.isPhi p = true) :
    G.inputs p = (G.insn p).ops ∧ G.operand p 1 ∈ G.inputs p := by
  have hop : G.opOf p = .phi := by simpa [Graph.isPhi] using h
  have hin : G.inputs p = (G.insn p).ops := by
    unfold Graph.inputs
    rw [hop]
    rfl
  refine ⟨hin, Graph.operand_one ?_⟩
  rw [hin]
  intro hnil
  have hlen := (W.phi_merge p h).2.2
  rw [hnil] at hlen
  simp at hlen

/-- The condition is all that an IF or SWITCH reads. -/
theorem Wf.branch_dataIns (W : Wf G) {i : ℕ} (h : G.opOf i = .ifOp ∨ G.opOf i = .switch) :
    G.dataIns i = [G.operand i 2] := by
  have hlen := W.ops_len i (by rcases h with h | h <;> rw [h] <;> rfl)
  have hin : G.dataIns i = ((G.insn i).ops.take 2).drop 1 := by
    unfold Graph.dataIns Graph.inputs
    rcases h with h | h <;> rw [h] <;> rfl
  rw [hin]
  unfold Graph.operand
  rcases hops : (G.insn i).ops with _ | ⟨a, _ | ⟨b, l⟩⟩
  · rw [hops] at hlen; simp at hlen
  · rw [hops] at hlen; simp at hlen
  · simp

theorem Wf.cond_mem (W : Wf G) {i : ℕ} (h : G.opOf i = .ifOp ∨ G.opOf i = .switch) :
    G.operand i 2 ∈ G.dataIns i := by
  rw [W.branch_dataIns h]
  exact List.mem_singleton.mpr rfl

/-! ### The frame of a node -/

/-- Values only go down: a node never becomes TOP again, and stays BOTTOM. -/
structure Down (V V' : ℕ → Lat) : Prop where
  top : ∀ x, V x ≠ .top → V' x ≠ .top
  bottom : ∀ x, V x = .bottom → V' x = .bottom

theorem Down.isTop (D : Down V V') {a : ℤ} (h : IsTop V' a) : IsTop V a := by
  refine ⟨h.1, ?_⟩
  by_contra hne
  exact D.top _ hne h.2

theorem countP_eq_of_imp {α : Type*} {p q : α → Bool} :
    ∀ {l : List α}, (∀ a ∈ l, q a = true → p a = true) → l.countP p ≤ l.countP q → ∀ a ∈ l, p a = q a
  | [], _, _, a, ha => by simp at ha
  | b :: l, himp, hle, a, ha => by
    have himp' : ∀ a ∈ l, q a = true → p a = true := fun a ha => himp a (List.mem_cons_of_mem b ha)
    have hmono : l.countP q ≤ l.countP p := List.countP_mono_left himp'
    have hb := himp b List.mem_cons_self
    rw [List.countP_cons, List.countP_cons] at hle
    have hpq : p b = q b := by
      cases hp : p b <;> cases hq : q b
      · rfl
      · exact absurd (hb hq) (by simp [hp])
      · simp only [hp, hq] at hle
        simp at hle
        omega
      · rfl
    rcases List.mem_cons.mp ha with rfl | ha
    · exact hpq
    · rw [hpq] at hle
      exact countP_eq_of_imp himp' (by omega) a ha

theorem Down.unfeasible_le (D : Down V V') (m : ℕ) : unfeasible G V' m ≤ unfeasible G V m := by
  refine List.countP_mono_left fun a _ h => ?_
  simp only [decide_eq_true_eq] at h ⊢
  by_contra hne
  exact D.top _ hne h

theorem Graph.merge_inputs {m : ℕ} (h : G.isMerge m = true) : G.inputs m = (G.insn m).ops := by
  have hop : G.opOf m = .merge ∨ G.opOf m = .loopBegin := by
    simpa [Graph.isMerge, IrOp.isMerge] using h
  unfold Graph.inputs
  rcases hop with hop | hop <;> rw [hop] <;> rfl

/-- While a merge keeps its recorded count, the same inputs are reachable. -/
theorem Down.feasibleIns_eq (W : Wf G) (D : Down V V') (K : Kinds G V) {i : ℕ} (hphi : G.isPhi i = true)
    (hm : V' (G.operand i 1).toNat = V (G.operand i 1).toNat)
    (hrec : MergeRec G V' (G.operand i 1).toNat) :
    MergeRec G V (G.operand i 1).toNat ∧ feasibleIns G V' i = feasibleIns G V i := by
  obtain ⟨-, hmerge, -⟩ := W.phi_merge i hphi
  generalize hgen : (G.operand i 1).toNat = m at *
  have hle := D.unfeasible_le (G := G) m
  have heq : unfeasible G V m ≤ unfeasible G V' m := by
    rcases hrec with ⟨h0, hb⟩ | ⟨h0, hb⟩
    · rw [(K.counted m hmerge).2 (hm ▸ hb)]
      omega
    · exact (K.counted m hmerge).1 _ (hm ▸ hb)
  have hsame : unfeasible G V m = unfeasible G V' m := by omega
  refine ⟨?_, ?_⟩
  · unfold MergeRec
    rw [hsame, ← hm]
    exact hrec
  · have htop : ∀ a ∈ (G.insn m).ops, decide (V a.toNat = .top) = decide (V' a.toNat = .top) := by
      rw [← Graph.merge_inputs hmerge]
      refine countP_eq_of_imp ?_ heq
      intro a _ h
      simp only [decide_eq_true_eq] at h ⊢
      by_contra hne
      exact D.top _ hne h
    unfold feasibleIns
    congr 1
    refine List.filter_congr fun e he => ?_
    have hmem : e.1 ∈ (G.insn m).ops := by
      unfold Graph.phiEdges at he
      rw [hgen] at he
      exact (List.of_mem_zip he).1
    have := htop e.1 hmem
    simp only [decide_eq_decide] at this
    simp only [decide_eq_decide, ne_eq]
    rw [this]

/-- What a node reads is as it was. -/
def SameInputs (G : Graph) (V V' : ℕ → Lat) (j : ℕ) : Prop :=
  ∀ a ∈ G.inputs j, 0 < a → V' a.toNat = V a.toNat ∧ identity G V' a.toNat = identity G V a.toNat

/-- The class of `j` is as it was. -/
def SameClass (G : Graph) (V V' : ℕ → Lat) (j : ℕ) : Prop :=
  ∀ y, V j = .copy y → ∀ x, identity G V x = identity G V j → identity G V' x = identity G V j

theorem SameInputs.isTop {j : ℕ} (h : SameInputs G V V' j) {a : ℤ} (ha : a ∈ G.inputs j) :
    IsTop V' a ↔ IsTop V a := by
  unfold IsTop
  constructor
  · rintro ⟨h0, ht⟩
    exact ⟨h0, (h a ha h0).1 ▸ ht⟩
  · rintro ⟨h0, ht⟩
    exact ⟨h0, (h a ha h0).1.symm ▸ ht⟩

theorem SameInputs.operand {j : ℕ} (h : SameInputs G V V' j) (H : Forest G V) (H' : Forest G V') (W : Wf G)
    {a : ℤ} (ha : a ∈ G.inputs j) : V' a.toNat = V a.toNat := by
  rcases lt_or_ge 0 a with h0 | h0
  · exact (h a ha h0).1
  · have hz : a.toNat = 0 := Int.toNat_of_nonpos h0
    have hnop : G.opOf 0 = .nop := by
      by_contra hne
      exact absurd (W.range 0 hne).1 (by omega)
    rw [hz, H.nop 0 hnop, H'.nop 0 hnop]

theorem SameInputs.condConst {j : ℕ} (h : SameInputs G V V' j) (H : Forest G V) (H' : Forest G V')
    (W : Wf G) {a : ℤ} (ha : a ∈ G.inputs j) : condConst G V' a = condConst G V a := by
  unfold Sccp.condConst
  rw [h.operand H H' W ha]

/-- What a foldable node reads is as it was. -/
def SameData (G : Graph) (V V' : ℕ → Lat) (j : ℕ) : Prop :=
  ∀ a ∈ G.dataIns j, 0 < a → V' a.toNat = V a.toNat ∧ identity G V' a.toNat = identity G V a.toNat

theorem SameInputs.data {j : ℕ} (h : SameInputs G V V' j) : SameData G V V' j :=
  fun a ha => h a (Graph.dataIns_subset j ha)

theorem SameData.identityRef {j : ℕ} (h : SameData G V V' j) {a : ℤ} (ha : a ∈ G.dataIns j) :
    identityRef G V' a = identityRef G V a := by
  unfold Sccp.identityRef
  split
  · rename_i h0
    rw [(h a ha h0).2]
  · rfl

theorem SameData.foldRefs {j : ℕ} (h : SameData G V V' j) : foldRefs G V' j = foldRefs G V j :=
  List.map_congr_left fun _ ha => h.identityRef ha

/-- The constant that stands for an operand is its own. -/
theorem constOf_identityRef (W : Wf G) (H : Forest G V) (a : ℤ) :
    constOf V (identityRef G V a) = constOf V a := by
  unfold identityRef
  split
  · rename_i h0
    by_cases hc : ∃ y, V a.toNat = .copy y
    · have hb := H.identity_bottom W.range a.toNat (Or.inr hc)
      obtain ⟨y, hy⟩ := hc
      simp [constOf, hb, hy]
    · rw [identity_eq_self fun y hy => hc ⟨y, hy⟩, Int.toNat_of_nonneg (le_of_lt h0)]
  · rfl

theorem SameData.constOf {j : ℕ} (h : SameData G V V' j) {a : ℤ} (ha : a ∈ G.dataIns j) :
    constOf V' a = constOf V a := by
  unfold Sccp.constOf
  split
  · rename_i h0
    rw [(h a ha h0).1]
  · rfl

theorem SameData.directView {j : ℕ} (h : SameData G V V' j) (H : Forest G V) (H' : Forest G V')
    (W : Wf G) : directView G V' j = directView G V j := by
  funext r
  unfold Sccp.directView
  rw [h.foldRefs]
  split
  · rename_i hr
    obtain ⟨a, ha, rfl⟩ := List.mem_map.mp hr
    rw [constOf_identityRef W H, ← h.identityRef ha, constOf_identityRef W H', h.constOf ha]
  · rfl

/-- A constant among the identities of the operands is an operand. -/
theorem SameData.const_eq (W : Wf G) (H : Forest G V) {i : ℕ} (h : SameData G V V' i) {r : ℤ}
    (hr : r ∈ Sccp.foldRefs G V i) (h0 : 0 < r) {c : Const} (hc : V r.toNat = .const c) : V' r.toNat = .const c := by
  obtain ⟨a, ha, rfl⟩ := List.mem_map.mp hr
  have ha0 : 0 < a := by
    unfold Sccp.identityRef at h0
    split at h0
    · assumption
    · exact h0
  simp only [Sccp.identityRef, if_pos ha0, Int.toNat_natCast] at hc ⊢
  have hself : a.toNat = identity G V a.toNat :=
    H.eq_of_identity W.range rfl (by rw [hc]; exact fun h => by cases h)
  rw [← hself] at hc ⊢
  exact (h a ha ha0).1.trans hc

theorem FoldOk.ne_top {i : ℕ} (h : FoldOk G F V i) : V i ≠ .top := by
  obtain ⟨ans, -, hans⟩ := h
  intro ht
  cases ans with
  | emit => exact hans
  | restart => exact hans
  | const c =>
    change V i = .const c at hans
    rw [ht] at hans
    cases hans
  | copy r =>
    rcases hans with ⟨-, h⟩ | ⟨-, ⟨-, c, -, h⟩ | ⟨-, ⟨y, h⟩, -⟩⟩ <;> rw [ht] at h <;> cases h

theorem FoldOk.frame (W : Wf G) (H : Forest G V) (H' : Forest G V') (D : Down V V') {j : ℕ}
    (hj : V' j = V j) (hin : SameInputs G V V' j) (hid : SameClass G V V' j) (h : FoldOk G F V j) :
    FoldOk G F V' j := by
  obtain ⟨ans, hrun, hans⟩ := h
  refine ⟨ans, ?_, ?_⟩
  · rw [hin.data.directView H H' W, hin.data.foldRefs]
    exact hrun
  · cases ans with
    | emit => exact hans
    | restart => exact hans
    | const c => exact hj.trans hans
    | copy r =>
      rcases hans with ⟨hr, hc⟩ | ⟨hr, ⟨hmem, c, hc, hjc⟩ | ⟨hrv, ⟨y, hy⟩, heq⟩⟩
      · exact Or.inl ⟨hr, hj.trans hc⟩
      · exact Or.inr ⟨hr, Or.inl ⟨hin.data.foldRefs ▸ hmem, c, hin.data.const_eq W H hmem hr hc, hj.trans hjc⟩⟩
      · have hclass := hid y hy
        have hid' : identity G V' r.toNat = identity G V j := hclass _ heq.symm
        refine Or.inr ⟨hr, Or.inr ⟨?_, ⟨y, hj.trans hy⟩, (hclass j rfl).trans hid'.symm⟩⟩
        have hb' : V' (identity G V' r.toNat) = .bottom := by
          rw [hid']
          exact D.bottom _ (H.identity_bottom W.range j (Or.inr ⟨y, hy⟩))
        by_cases hc : ∃ z, V' r.toNat = .copy z
        · exact Or.inr hc
        · rw [identity_eq_self fun z hz => hc ⟨z, hz⟩] at hb'
          exact Or.inl hb'

theorem Wf.phiEdges_mem (W : Wf G) {i : ℕ} (h : G.isPhi i = true) {e : ℤ × ℤ} (he : e ∈ G.phiEdges i) :
    e.2 ∈ G.inputs i ∧ e.1 ∈ (G.insn (G.operand i 1).toNat).ops := by
  obtain ⟨h1, h2⟩ := List.of_mem_zip he
  rw [(W.phi_inputs h).1]
  exact ⟨List.drop_subset 1 _ h2, h1⟩

theorem mem_feasibleIns {i : ℕ} {a : ℤ} :
    a ∈ feasibleIns G V i ↔ ∃ m, (m, a) ∈ G.phiEdges i ∧ V m.toNat ≠ .top := by
  simp [feasibleIns]

theorem PhiOk.frame (W : Wf G) (K : Kinds G V) (D : Down V V') {vis vis' : ℕ → Bool}
    (hvis : ∀ x, vis x = true → vis' x = true) {j : ℕ} (hj : V' j = V j) (hphi : G.isPhi j = true)
    (hin : V j = .bottom ∨ SameInputs G V V' j) (hid : SameClass G V V' j) (h : PhiOk G V vis j) :
    PhiOk G V' vis' j := by
  intro hb hrec a ha
  have hin := hin.resolve_left (hj ▸ hb)
  obtain ⟨h0, -, -⟩ := W.phi_merge j hphi
  obtain ⟨hrec', hfeas⟩ := D.feasibleIns_eq W K hphi (hin _ (W.phi_inputs hphi).2 h0).1 hrec
  rw [hfeas] at ha
  obtain ⟨m, hm, -⟩ := mem_feasibleIns.mp ha
  have hmem := (W.phiEdges_mem hphi hm).1
  rcases h (hj ▸ hb) hrec' a ha with rfl | ⟨ht, hv⟩ | ⟨c, hc, hac⟩ | ⟨ha0, ⟨y, hy⟩, hav, heq⟩
  · exact Or.inl rfl
  · exact Or.inr (Or.inl ⟨(hin.isTop hmem).mpr ht, hvis _ hv⟩)
  · refine Or.inr (Or.inr (Or.inl ⟨c, hj.trans hc, ?_⟩))
    exact hac.imp id fun h => ⟨h.1, (hin a hmem h.1).1.trans h.2⟩
  · obtain ⟨hva, hida⟩ := hin a hmem ha0
    refine Or.inr (Or.inr (Or.inr ⟨ha0, ⟨y, hj.trans hy⟩, hva ▸ hav, ?_⟩))
    rw [hida, hid y hy j rfl]
    exact heq

theorem CtrlOk.frame (W : Wf G) (H : Forest G V) (H' : Forest G V') (D : Down V V') {vis vis' : ℕ → Bool}
    (hvis : ∀ x, vis x = true → vis' x = true) {j : ℕ} (hj : V' j = V j)
    (hin : V j = .bottom ∨ SameInputs G V V' j) (h : CtrlOk G V vis j) : CtrlOk G V' vis' j where
  branch hop := by
    obtain ⟨htop, hbranch⟩ := h.branch hop
    refine ⟨fun ht => hvis _ (htop (D.isTop ht)), fun hnt => ?_⟩
    rcases hin with hb | hin
    · exact Or.inl (hj.trans hb)
    · have hmem := Graph.dataIns_subset j (W.cond_mem hop)
      rcases hbranch ((hin.isTop hmem).not.mp hnt) with hb | ⟨c, u, hc, hu, hout⟩
      · exact Or.inl (hj.trans hb)
      · exact Or.inr ⟨c, u, (hin.condConst H H' W hmem).trans hc, hu, hj.trans hout⟩
  other hif hsw := by
    obtain ⟨hb, hvals⟩ := h.other hif hsw
    exact ⟨hj.trans hb, fun hdead a ha ht => hvis _ (hvals hdead a ha (D.isTop ht))⟩

theorem Active.frame {vis vis' : ℕ → Bool} {j : ℕ} (hvj : vis' j = vis j) (hin : SameInputs G V V' j)
    (h : Active G V' vis' j) : Active G V vis j := by
  rcases h with h | ⟨a, ha, h0, ht⟩
  · exact Or.inl (hvj ▸ h)
  · exact Or.inr ⟨a, ha, h0, (hin a ha h0).1 ▸ ht⟩

theorem isData_of_isFloating {x : ℕ} (h : G.isFloating x = true) : (G.opOf x).isData = true := by
  simp only [Graph.isFloating, Bool.and_eq_true] at h
  exact h.1

theorem isData_of_isFoldable {x : ℕ} (h : G.isFoldable x = true) : (G.opOf x).isData = true := by
  simp only [Graph.isFoldable, Bool.and_eq_true] at h
  exact h.1.2

theorem isData_of_isPhi {x : ℕ} (h : G.isPhi x = true) : (G.opOf x).isData = true := by
  have hop : G.opOf x = .phi := by simpa [Graph.isPhi] using h
  rw [hop]
  rfl

theorem hasValue_of_isFoldable {x : ℕ} (h : G.isFoldable x = true) : G.hasValue x = true := by
  simp [Graph.hasValue, h]

theorem hasValue_of_isPhi {x : ℕ} (h : G.isPhi x = true) : G.hasValue x = true := by
  simp [Graph.hasValue, h]

theorem isData_of_hasValue {x : ℕ} (h : G.hasValue x = true) : (G.opOf x).isData = true := by
  simp only [Graph.hasValue, Bool.or_eq_true] at h
  exact h.elim isData_of_isFoldable isData_of_isPhi

theorem data_inputs {j : ℕ} {P : Prop} (h : V j = .bottom ∨ SameInputs G V V' j ∨
    ((G.opOf j).isBbStart = true ∧ P)) (hb : V j ≠ .bottom) (hd : (G.opOf j).isData = true) :
    SameInputs G V V' j := by
  rcases h with h | h | ⟨h, -⟩
  · exact absurd h hb
  · exact h
  · have hc := IrOp.isControl_of_isBbStart h
    rw [IrOp.isControl_eq_false hd] at hc
    cases hc

/-- **A node keeps its equation** when it is BOTTOM, when its inputs are as they were, or when it is a
block start that the lattice does not let control pass to. -/
theorem NodeOk.frame (W : Wf G) (H : Forest G V) (H' : Forest G V') (K : Kinds G V) (D : Down V V')
    {vis vis' : ℕ → Bool} (hvis : ∀ x, vis x = true → vis' x = true) {j : ℕ} (hj : V' j = V j)
    (hvj : vis' j = vis j) (hid : SameClass G V V' j)
    (hin : V j = .bottom ∨ SameInputs G V V' j ∨ ((G.opOf j).isBbStart = true ∧ G.isMerge j = false ∧
      ∀ p : ℕ, G.operand j 1 = p → ¬ FeasibleEdge V' p j)) (h : NodeOk G F V vis j) :
    NodeOk G F V' vis' j where
  start hs := hj.trans (h.start hs)
  bbStart hbb hm p hp hp0 hf := by
    by_cases h1 : j = 1
    · exact hj.trans (h.start h1)
    rcases hin with hb | hin | ⟨-, -, hno⟩
    · exact hj.trans hb
    · refine hj.trans (h.bbStart hbb hm p hp hp0 ?_)
      have hmem := Graph.operand_one (W.control_in j (IrOp.isControl_of_isBbStart hbb) h1)
      have hV := (hin _ hmem (by omega)).1
      rw [hp, Int.toNat_natCast] at hV
      unfold FeasibleEdge at hf ⊢
      rw [← hV]
      exact hf
    · exact absurd hf (hno p hp)
  merge hm hex := by
    rcases hin with hb | hin | ⟨-, hno, -⟩
    · have h0 := (K.counted j hm).2 hb
      have hle := D.unfeasible_le (G := G) j
      exact Or.inl ⟨by omega, hj.trans hb⟩
    · have hsame : ∀ a ∈ (G.insn j).ops, V' a.toNat = V a.toNat := fun a ha =>
        (hin a (Graph.merge_inputs hm ▸ ha) (W.merge_ops j hm a ha).1).1
      have hun : unfeasible G V' j = unfeasible G V j := by
        unfold unfeasible
        rw [Graph.merge_inputs hm]
        refine List.countP_congr fun a ha => ?_
        rw [hsame a ha]
      unfold MergeRec
      rw [hun, hj]
      obtain ⟨a, ha, hne⟩ := hex
      exact h.merge hm ⟨a, ha, hsame a ha ▸ hne⟩
    · rw [hm] at hno
      cases hno
  control hc hbb hop := by
    have hin' : V j = .bottom ∨ SameInputs G V V' j :=
      hin.imp_right fun h => h.resolve_right fun h' => by simp [hbb] at h'
    refine CtrlOk.frame W H H' D hvis hj hin' (h.control hc hbb ?_)
    rcases hin' with hb | hin
    · exact K.reached j hc hbb (by rw [hb]; exact fun h => by cases h)
    · have h1 : j ≠ 1 := by
        rintro rfl
        rw [W.start] at hbb
        cases hbb
      rw [← hin.operand H H' W (Graph.operand_one (W.control_in j hc h1))]
      exact hop
  foldTop hf hu ht hact := by
    have hin' := data_inputs hin (by rw [← hj, ht]; exact fun h => by cases h) (isData_of_isFoldable hf)
    obtain ⟨⟨a, ha, hat⟩, hvals⟩ := h.foldTop hf hu (hj ▸ ht) (hact.frame hvj hin')
    refine ⟨⟨a, ha, (hin'.isTop (Graph.dataIns_subset j ha)).mpr hat⟩, fun a ha hat => ?_⟩
    exact hvis _ (hvals a ha ((hin'.isTop (Graph.dataIns_subset j ha)).mp hat))
  foldVal hf hu ht hb := by
    have hin' := data_inputs hin (hj ▸ hb) (isData_of_isFoldable hf)
    exact FoldOk.frame W H H' D hj hin' hid (h.foldVal hf hu (hj ▸ ht) (hj ▸ hb))
  leaf hfl hf hu := by
    obtain ⟨hact, hvals⟩ := h.leaf hfl hf hu
    refine ⟨fun hact' => ?_, fun hb a ha ht => hvis _ (hvals (hj ▸ hb) a ha (D.isTop ht))⟩
    by_cases hb : V j = .bottom
    · exact hj.trans hb
    · exact hj.trans (hact (hact'.frame hvj (data_inputs hin hb (isData_of_isFloating hfl))))
  phi hp hu := by
    refine PhiOk.frame W K D hvis hj hp ?_ hid (h.phi hp hu)
    by_cases hb : V j = .bottom
    · exact Or.inl hb
    · exact Or.inr (data_inputs hin hb (isData_of_isPhi hp))

end IrJit.Sccp
