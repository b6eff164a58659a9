import IrJit.Sccp.Copies
import IrJit.Sccp.Lower

/-!
# Sccp.CopyLists — the copies stay consistent
-/

namespace IrJit.Sccp

/-! ### Values with their lists -/

/-- The lists of a state hold the copies, each in the list of its identity. -/
structure Lists (G : Graph) (st : State) : Prop where
  forest : Forest G st.values
  nodup : ∀ r, (st.ring r).Nodup
  mem : ∀ r m, m ∈ st.ring r ↔ (∃ y, st.values m = .copy y) ∧ identity G st.values m = r

/-- The list of a BOTTOM node: `l` without the node, or none at all. -/
def HasList (s : Slots) (r : ℕ) (l : List ℕ) : Prop :=
  (s.copy r = r ∧ Ring s.next s.prev (r :: l)) ∨ (s.copy r ≠ r ∧ l = [])

/-- The values as stored, and as the analysis reads them. -/
structure Sim (s : Slots) (st : State) : Prop where
  values : s.lat = st.values
  queue : s.queue = st.queue
  visited : ∀ x, s.level x = .top → (s.copy x = 0 ↔ st.visited x = false)
  /-- before a value has a list, `copy` is the flag `visited` -/
  flag : ∀ x, s.level x ≠ .copy → s.level x ≠ .bottom → s.copy x ≤ 1
  list : ∀ r, s.level r = .bottom → HasList s r (st.ring r)

section

variable {G : Graph} {s : Slots} {st : State}

namespace Lists

variable (L : Lists G st)

include L

/-- The points of a list are copies, and its start is BOTTOM. -/
theorem linked {r x : ℕ} (hr : st.values r = .bottom) (hx : x ∈ r :: st.ring r) :
    st.values x = .bottom ∨ ∃ y, st.values x = .copy y := by
  rcases List.mem_cons.mp hx with rfl | hx
  · exact Or.inl hr
  · exact Or.inr ((L.mem r x).mp hx).1

/-- Two lists have no common point. -/
theorem disjoint {r r' x : ℕ} (hne : r ≠ r') (hr : st.values r = .bottom) (hr' : st.values r' = .bottom)
    (hx : x ∈ r :: st.ring r) : x ∉ r' :: st.ring r' := by
  intro hx'
  rcases List.mem_cons.mp hx with rfl | hx
  · rcases List.mem_cons.mp hx' with h | hx'
    · exact hne h
    · obtain ⟨⟨y, hy⟩, -⟩ := (L.mem r' x).mp hx'
      rw [hr] at hy
      cases hy
  · obtain ⟨⟨y, hy⟩, hid⟩ := (L.mem r x).mp hx
    rcases List.mem_cons.mp hx' with rfl | hx'
    · rw [hr'] at hy
      cases hy
    · exact hne (hid.symm.trans ((L.mem r' x).mp hx').2)

/-- A value that is no copy becomes another one that is no copy. -/
theorem setValue {i : ℕ} {v : Lat} (hreal : G.opOf i ≠ .nop) (hi : ∀ y, st.values i ≠ .copy y) (hv : ∀ y, v ≠ .copy y)
    (hb : st.values i = .bottom → v = .bottom) : Lists G (st.setValue i v) where
  forest := L.forest.update hreal (by tauto) (Or.inl hi) hv
  nodup := L.nodup
  mem r m := by
    have hcopy : (∃ y, (st.setValue i v).values m = .copy y) ↔ ∃ y, st.values m = .copy y := by
      change (∃ y, Function.update st.values i v m = .copy y) ↔ _
      by_cases hm : m = i
      · subst hm
        rw [Function.update_self]
        exact ⟨fun ⟨y, h⟩ => absurd h (hv y), fun ⟨y, h⟩ => absurd h (hi y)⟩
      · rw [Function.update_of_ne hm]
    rw [hcopy]
    change m ∈ st.ring r ↔ _ ∧ identity G (Function.update st.values i v) m = r
    rw [identity_update hi hv]
    exact L.mem r m

/-- A copy is in the list of its identity. -/
theorem split_at {i y : ℕ} (hi : st.values i = .copy y) : ∃ A B, st.ring (identity G st.values i) = B ++ i :: A ∧
    i ∉ A ∧ i ∉ B ∧ st.walk G i = A ++ identity G st.values i :: B := by
  obtain ⟨B, A, heq⟩ := List.append_of_mem ((L.mem _ i).mpr ⟨⟨y, hi⟩, rfl⟩)
  have hnodup := L.nodup (identity G st.values i)
  rw [heq] at hnodup
  have hB : i ∉ B := fun h => (List.nodup_append.mp hnodup).2.2 i h i List.mem_cons_self rfl
  have hA : i ∉ A := (List.nodup_cons.mp (List.nodup_append.mp hnodup).2.1).1
  refine ⟨A, B, heq, hA, hB, ?_⟩
  unfold State.walk
  simp only [heq]
  have hne : ∀ z ∈ B, decide (z ≠ i) = true := fun z hz => decide_eq_true fun h => hB (h ▸ hz)
  have htake : (B ++ i :: A).takeWhile (fun z => decide (z ≠ i)) = B := by
    rw [List.takeWhile_append_of_pos hne]
    simp
  have hdrop : (B ++ i :: A).dropWhile (fun z => decide (z ≠ i)) = i :: A := by
    rw [List.dropWhile_append_of_pos hne]
    simp
  rw [htake, hdrop, List.drop_succ_cons, List.drop_zero]

variable (R : G.Ranged)

include R

theorem ring_nil {r : ℕ} (h : st.values r ≠ .bottom) : st.ring r = [] := by
  refine List.eq_nil_iff_forall_not_mem.mpr fun m hm => ?_
  obtain ⟨hc, rfl⟩ := (L.mem r m).mp hm
  exact h (L.forest.identity_bottom R m (Or.inr hc))

theorem points_nodup (r : ℕ) : (r :: st.ring r).Nodup := by
  refine List.nodup_cons.mpr ⟨fun h => ?_, L.nodup r⟩
  obtain ⟨⟨y, hy⟩, hid⟩ := (L.mem r r).mp h
  exact L.forest.identity_not_copy R r y (hid.symm ▸ hy)

theorem addIdentity {src dst : ℕ} (hreal : G.opOf dst ≠ .nop) (hb : st.values dst ≠ .bottom)
    (hc : ∀ y, st.values dst ≠ .copy y) (hsrc : st.values src = .bottom ∨ ∃ z, st.values src = .copy z) :
    Lists G (st.addIdentity G src dst) := by
  have hne : src ≠ dst := by
    rintro rfl
    rcases hsrc with h | ⟨z, h⟩
    · exact hb h
    · exact hc z h
  have H' := L.forest.update_copy hreal hb hc hsrc
  have hid : identity G (Function.update st.values dst (.copy src)) dst = identity G st.values src := by
    rw [H'.identity_copy R (Function.update_self ..), identity_update_copy R L.forest hreal hb hc hsrc hne]
  have hfresh : ∀ r, dst ∉ st.ring r := fun r h => by
    obtain ⟨⟨y, hy⟩, -⟩ := (L.mem r dst).mp h
    exact hc y hy
  refine ⟨H', fun r => ?_, fun r m => ?_⟩
  · change (Function.update st.ring (identity G st.values src) (st.ring (identity G st.values src) ++ [dst]) r).Nodup
    by_cases hr : r = identity G st.values src
    · rw [hr, Function.update_self]
      refine List.nodup_append.mpr ⟨L.nodup _, List.nodup_singleton dst, fun x hx y hy h => ?_⟩
      rw [List.mem_singleton.mp hy] at h
      exact hfresh _ (h ▸ hx)
    · rw [Function.update_of_ne hr]
      exact L.nodup r
  · change m ∈ Function.update st.ring (identity G st.values src) (st.ring (identity G st.values src) ++ [dst]) r ↔
      (∃ y, Function.update st.values dst (.copy src) m = .copy y) ∧
        identity G (Function.update st.values dst (.copy src)) m = r
    by_cases hm : m = dst
    · subst hm
      rw [Function.update_self, hid]
      by_cases hr : r = identity G st.values src
      · rw [hr, Function.update_self]
        simp
      · rw [Function.update_of_ne hr]
        exact ⟨fun h => absurd h (hfresh r), fun h => absurd h.2.symm hr⟩
    · rw [Function.update_of_ne hm, identity_update_copy R L.forest hreal hb hc hsrc hm, ← L.mem r m]
      by_cases hr : r = identity G st.values src
      · rw [hr, Function.update_self]
        simp [hm]
      · rw [Function.update_of_ne hr]

/-- The copies of `i` are in a list of their own. -/
theorem split {i y : ℕ} (hreal : G.opOf i ≠ .nop) (hi : st.values i = .copy y) : Lists G (st.splitPartition G i) := by
  have H' : Forest G (Function.update st.values i .bottom) :=
    L.forest.update hreal (Or.inr rfl) (Or.inr rfl) (fun y h => by cases h)
  obtain ⟨A, B, hring, hA, hB, hwalk⟩ := L.split_at hi
  have hroot := L.forest.identity_bottom R i (Or.inr ⟨y, hi⟩)
  have hnodup := L.points_nodup R (identity G st.values i)
  have hri : identity G st.values i ≠ i := by
    intro h
    rw [h, hi] at hroot
    cases hroot
  have hrings : (st.splitPartition G i).ring = Function.update (Function.update st.ring (identity G st.values i)
      ((st.ring (identity G st.values i)).filter fun m => decide
        (m ≠ i ∧ ¬ identity G (Function.update st.values i .bottom) m = i))) i
      ((st.walk G i).filter fun m => decide (identity G (Function.update st.values i .bottom) m = i)) := rfl
  have hcopy : ∀ m, (∃ z, Function.update st.values i .bottom m = .copy z) ↔ m ≠ i ∧ ∃ z, st.values m = .copy z := by
    intro m
    by_cases hm : m = i
    · subst hm
      simp [Function.update_self]
    · rw [Function.update_of_ne hm]
      simp [hm]
  have hself : identity G (Function.update st.values i .bottom) (identity G st.values i) = identity G st.values i := by
    refine identity_eq_self fun z => ?_
    rw [Function.update_of_ne hri, hroot]
    exact fun h => by cases h
  have hstay : ∀ m, identity G (Function.update st.values i .bottom) m ≠ i →
      identity G (Function.update st.values i .bottom) m = identity G st.values m := fun m hm =>
    (identity_update_bottom R L.forest hreal m).resolve_left fun h => hm h.1
  rw [hwalk] at hrings
  refine ⟨by rw [splitPartition_values]; exact H', fun r => ?_, fun r m => ?_⟩
  · rw [hrings]
    by_cases hr : r = i
    · rw [hr, Function.update_self]
      rw [hring] at hnodup
      have hsub : List.Sublist (identity G st.values i :: (B ++ A)) (identity G st.values i :: (B ++ i :: A)) :=
        ((List.Sublist.refl B).append (List.sublist_cons_self i A)).cons_cons _
      refine List.Nodup.filter _ ?_
      exact (@List.perm_append_comm _ (identity G st.values i :: B) _).nodup_iff.mp (hsub.nodup hnodup)
    · rw [Function.update_of_ne hr]
      by_cases hrr : r = identity G st.values i
      · rw [hrr, Function.update_self]
        exact (L.nodup _).filter _
      · rw [Function.update_of_ne hrr]
        exact L.nodup r
  · rw [splitPartition_values, hcopy, hrings]
    have hmem : ∀ m, m ≠ i → (m ∈ st.ring (identity G st.values i) ↔ m ∈ A ∨ m ∈ B) := by
      intro m hm
      rw [hring]
      simp [hm, or_comm]
    by_cases hr : r = i
    · rw [hr, Function.update_self, List.mem_filter, decide_eq_true_eq, List.mem_append, List.mem_cons]
      constructor
      · rintro ⟨hm, hid⟩
        have hmr : m ≠ identity G st.values i := by
          rintro rfl
          exact hri (hself.symm.trans hid)
        have hm' : m ∈ A ∨ m ∈ B := by tauto
        have hmi : m ≠ i := by
          rintro rfl
          tauto
        exact ⟨⟨hmi, ((L.mem _ m).mp ((hmem m hmi).mpr hm')).1⟩, hid⟩
      · rintro ⟨⟨hmi, hc⟩, hid⟩
        refine ⟨?_, hid⟩
        rcases identity_update_bottom R L.forest hreal m with ⟨-, h⟩ | h
        · rcases (hmem m hmi).mp ((L.mem _ m).mpr ⟨hc, h⟩) with h | h
          · exact Or.inl h
          · exact Or.inr (Or.inr h)
        · -- the identity of a copy is BOTTOM
          have hb := L.forest.identity_bottom R m (Or.inr hc)
          rw [← h, hid, hi] at hb
          cases hb
    · rw [Function.update_of_ne hr]
      by_cases hrr : r = identity G st.values i
      · rw [hrr, Function.update_self, List.mem_filter, decide_eq_true_eq, L.mem]
        constructor
        · rintro ⟨⟨hc, hid⟩, hmi, hnot⟩
          exact ⟨⟨hmi, hc⟩, (hstay m hnot).trans hid⟩
        · rintro ⟨⟨hmi, hc⟩, hid⟩
          have hnot : identity G (Function.update st.values i .bottom) m ≠ i := fun h => hri (hid.symm.trans h)
          exact ⟨⟨hc, (hstay m hnot).symm.trans hid⟩, hmi, hnot⟩
      · rw [Function.update_of_ne hrr, L.mem]
        constructor
        · rintro ⟨hc, hid⟩
          have hmi : m ≠ i := by
            rintro rfl
            exact hrr hid.symm
          rcases identity_update_bottom R L.forest hreal m with ⟨-, h⟩ | h
          · exact absurd (hid.symm.trans h) hrr
          · exact ⟨⟨hmi, hc⟩, h.trans hid⟩
        · rintro ⟨⟨hmi, hc⟩, hid⟩
          exact ⟨hc, (hstay m fun h => hr (hid.symm.trans h)).symm.trans hid⟩

end Lists

end

/-! ### The updates on values and lists -/

section

variable {G : Graph} {s s' : Slots} {st : State}

theorem HasList.congr {r : ℕ} {l : List ℕ} (h : HasList s r l) (hc : s'.copy r = s.copy r)
    (hf : ∀ x ∈ r :: l, s'.next x = s.next x ∧ s'.prev x = s.prev x) : HasList s' r l := by
  rcases h with ⟨hcopy, hring⟩ | ⟨hcopy, rfl⟩
  · exact Or.inl ⟨hc.trans hcopy, hring.congr (fun x hx => (hf x hx).1) fun x hx => (hf x hx).2⟩
  · exact Or.inr ⟨fun h => hcopy (hc.symm.trans h), rfl⟩

namespace Sim

variable (S : Sim s st)

include S

theorem bottom_iff {x : ℕ} : s.level x = .bottom ↔ st.values x = .bottom := by
  rw [← S.values]
  exact Slots.lat_bottom.symm

theorem copy_iff {x : ℕ} : s.level x = .copy ↔ ∃ y, st.values x = .copy y := by
  rw [← S.values]
  exact ⟨fun h => ⟨_, Slots.lat_copy.mpr ⟨h, rfl⟩⟩, fun ⟨y, h⟩ => (Slots.lat_copy.mp h).1⟩

theorem top_iff {x : ℕ} : s.level x = .top ↔ st.values x = .top := by
  rw [← S.values]
  exact Slots.lat_top.symm

/-- The points of a list have the level of copies or BOTTOM. -/
theorem linked (L : Lists G st) {r x : ℕ} (hr : s.level r = .bottom) (hx : x ∈ r :: st.ring r) :
    s.level x = .bottom ∨ s.level x = .copy := by
  rw [S.bottom_iff, S.copy_iff]
  exact L.linked (S.bottom_iff.mp hr) hx

theorem enqueue (l : List ℕ) : Sim (s.enqueue l) (st.enqueue l) where
  values := S.values
  queue := by
    funext j
    change (s.queue j || _) = (st.queue j || _)
    rw [S.queue]
  visited := S.visited
  flag := S.flag
  list := S.list

theorem addUses (x : ℕ) : Sim (s.addUses G x) (st.addUses G x) := by
  have hfilter : (fun use => decide (s.level use ≠ .bottom)) = fun use => decide (st.values use ≠ .bottom) := by
    funext use
    rw [decide_eq_decide, ne_eq, ne_eq, S.bottom_iff]
  unfold Slots.addUses State.addUses
  rw [hfilter]
  exact S.enqueue _

theorem pop (x : ℕ) : Sim { s with queue := Function.update s.queue x false }
    { st with queue := Function.update st.queue x false } where
  values := S.values
  queue := by
    change Function.update s.queue x false = Function.update st.queue x false
    rw [S.queue]
  visited := S.visited
  flag := S.flag
  list := S.list

/-- `ir_sccp_add_input`. -/
theorem addInput {x : ℕ} (hx : s.level x = .top) : Sim (s.addInput x) (st.addInput x) := by
  have hvis := S.visited x hx
  unfold Slots.addInput State.addInput
  by_cases h0 : s.copy x = 0
  · rw [if_pos h0, if_neg (by rw [hvis.mp h0]; exact Bool.false_ne_true)]
    have S' : Sim (s.setCopy x 1) { st with visited := Function.update st.visited x true } := by
      refine ⟨?_, S.queue, fun y hy => ?_, fun y h₁ h₂ => ?_, fun r hr => ?_⟩
      · rw [← S.values]
        funext y
        by_cases hy : y = x
        · subst hy
          rw [Slots.lat_top.mpr hx, (Slots.lat_top (s := s.setCopy y 1)).mpr hx]
        · exact Slots.lat_congr rfl (Function.update_of_ne hy _ _) fun _ => ⟨rfl, rfl⟩
      · change Function.update s.copy x 1 y = 0 ↔ Function.update st.visited x true y = false
        by_cases hyx : y = x
        · rw [hyx, Function.update_self, Function.update_self]
          simp
        · rw [Function.update_of_ne hyx, Function.update_of_ne hyx]
          exact S.visited y hy
      · change Function.update s.copy x 1 y ≤ 1
        by_cases hyx : y = x
        · rw [hyx, Function.update_self]
        · rw [Function.update_of_ne hyx]
          exact S.flag y h₁ h₂
      · have hrx : r ≠ x := by
          rintro rfl
          change s.level r = .bottom at hr
          rw [hx] at hr
          cases hr
        exact (S.list r hr).congr (Function.update_of_ne hrx _ _) fun _ _ => ⟨rfl, rfl⟩
    exact S'.enqueue [x]
  · have hv : st.visited x = true := by
      rw [← Bool.not_eq_false]
      exact fun h => h0 (hvis.mpr h)
    rw [if_neg h0, if_pos hv]
    exact S

/-- A value that is no copy is lowered. -/
theorem setBottom (R : G.Ranged) (L : Lists G st) {i : ℕ} (h1 : 1 < i) (hi : s.level i ≠ .copy) :
    Sim (s.setLevel i .bottom) (st.setValue i .bottom) := by
  have hval : (s.setLevel i .bottom).lat = Function.update st.values i .bottom := by
    rw [← S.values]
    funext y
    by_cases hy : y = i
    · subst hy
      rw [Function.update_self]
      exact Slots.lat_bottom.mpr (Function.update_self ..)
    · rw [Function.update_of_ne hy]
      exact Slots.lat_congr (Function.update_of_ne hy _ _) rfl fun _ => ⟨rfl, rfl⟩
  have hother : ∀ y, (s.setLevel i .bottom).level y ≠ .bottom → (s.setLevel i .bottom).level y = s.level y := by
    intro y hy
    refine Function.update_of_ne ?_ _ _
    rintro rfl
    exact hy (Function.update_self ..)
  refine ⟨hval, S.queue, fun y hy => ?_, fun y h₁ h₂ => ?_, fun r hr => ?_⟩
  · rw [hother y (by rw [hy]; exact fun h => by cases h)] at hy
    exact S.visited y hy
  · rw [hother y h₂] at h₁ h₂
    exact S.flag y h₁ h₂
  · by_cases hb : s.level r = .bottom
    · exact (S.list r hb).congr rfl fun _ _ => ⟨rfl, rfl⟩
    · have hri : r = i := by
        by_contra hne
        have hl : s.level r = .bottom := by
          rwa [show (s.setLevel i .bottom).level r = s.level r from Function.update_of_ne hne _ _] at hr
        exact hb hl
      subst hri
      refine Or.inr ⟨fun h => ?_, L.ring_nil R fun h => hb (S.bottom_iff.mpr h)⟩
      have := S.flag r hi hb
      change s.copy r = r at h
      omega

/-- A value that is TOP becomes a constant, over the pointers. -/
theorem setConst (L : Lists G st) {i : ℕ} (hi : s.level i = .top) (c : Const) :
    Sim (((s.setLevel i (.const c.op c.type)).setNext i (c.val.toNat % 2 ^ 32)).setPrev i (c.val.toNat / 2 ^ 32))
      (st.setValue i (.const c)) := by
  have hne : ∀ {y l}, Function.update s.level i (.const c.op c.type) y = l → (∀ op type, l ≠ .const op type) →
      y ≠ i ∧ s.level y = l := by
    intro y l h hl
    have hyi : y ≠ i := by
      rintro rfl
      rw [Function.update_self] at h
      exact hl _ _ h.symm
    rw [Function.update_of_ne hyi] at h
    exact ⟨hyi, h⟩
  refine ⟨?_, S.queue, fun y hy => ?_, fun y h₁ h₂ => ?_, fun r hr => ?_⟩
  · change _ = Function.update st.values i (.const c)
    rw [← S.values]
    funext y
    by_cases hy : y = i
    · subst hy
      rw [Function.update_self]
      unfold Slots.lat Slots.setPrev Slots.setNext Slots.setLevel
      simp only [Function.update_self]
      rw [loHi_halves]
    · rw [Function.update_of_ne hy]
      exact Slots.lat_congr (Function.update_of_ne hy _ _) rfl
        fun _ => ⟨Function.update_of_ne hy _ _, Function.update_of_ne hy _ _⟩
  · exact S.visited y (hne hy fun _ _ h => by cases h).2
  · by_cases hyi : y = i
    · exact S.flag y (by rw [hyi, hi]; exact fun h => by cases h) (by rw [hyi, hi]; exact fun h => by cases h)
    · change Function.update s.level i _ y ≠ _ at h₁ h₂
      rw [Function.update_of_ne hyi] at h₁ h₂
      exact S.flag y h₁ h₂
  · obtain ⟨hri, hb⟩ := hne hr fun _ _ h => by cases h
    refine (S.list r hb).congr rfl fun x hx => ?_
    have hxi : x ≠ i := by
      rintro rfl
      rcases S.linked L hb hx with h | h <;> rw [hi] at h <;> cases h
    exact ⟨Function.update_of_ne hxi _ _, Function.update_of_ne hxi _ _⟩

end Sim

end

/-! ### A copy is inserted -/

section

variable {G : Graph} {s : Slots} {st : State}

namespace Slots

theorem initList_eq {r : ℕ} (h : s.copy r = r) : s.initList r = s := if_pos h

theorem initList_spec {r : ℕ} {l : List ℕ} (h : HasList s r l) :
    (s.initList r).level = s.level ∧ (s.initList r).queue = s.queue ∧
      (s.initList r).copy = Function.update s.copy r r ∧ Ring (s.initList r).next (s.initList r).prev (r :: l) ∧
      ∀ x, x ≠ r → (s.initList r).next x = s.next x ∧ (s.initList r).prev x = s.prev x := by
  rcases h with ⟨hcopy, hring⟩ | ⟨hcopy, rfl⟩
  · rw [initList_eq hcopy]
    refine ⟨rfl, rfl, ?_, hring, fun _ _ => ⟨rfl, rfl⟩⟩
    rw [Function.update_eq_self_iff.mpr hcopy.symm]
  · rw [show s.initList r = ((s.setCopy r r).setNext r r).setPrev r r from if_neg hcopy]
    refine ⟨rfl, rfl, rfl, Ring.single (Function.update_self ..) (Function.update_self ..), fun x hx => ?_⟩
    exact ⟨Function.update_of_ne hx _ _, Function.update_of_ne hx _ _⟩

/-- The new point is the last of the list. -/
theorem insertBefore_spec {r x : ℕ} {l : List ℕ} (R : Ring s.next s.prev (r :: l)) (hnodup : (r :: l).Nodup)
    (hx : x ∉ r :: l) : Ring (s.insertBefore r x).next (s.insertBefore r x).prev (r :: (l ++ [x])) ∧
      ∀ y, y ∉ r :: (l ++ [x]) → (s.insertBefore r x).next y = s.next y ∧ (s.insertBefore r x).prev y = s.prev y := by
  obtain ⟨t, z, ht⟩ : ∃ t z, r :: l = t ++ [z] := ⟨_, _, (List.dropLast_append_getLast (List.cons_ne_nil r l)).symm⟩
  have hlast : s.prev r = z := (R.last ht).2
  have hnext : (s.insertBefore r x).next = Function.update (Function.update s.next x r) z x := by
    rw [← hlast]
    rfl
  have hprev : (s.insertBefore r x).prev = Function.update (Function.update s.prev x z) r x := by
    rw [← hlast]
    rfl
  have hne : ∀ y ∈ r :: l, y ≠ x := fun y hy h => hx (h ▸ hy)
  have hz : z ∈ r :: l := by rw [ht]; simp
  have hr : r ∈ r :: l := List.mem_cons_self
  rw [hnext, hprev]
  refine ⟨?_, fun y hy => ?_⟩
  · have hzt : z ∉ t := by
      rw [ht] at hnodup
      exact fun h => (List.nodup_append.mp hnodup).2.2 z h z (List.mem_singleton_self z) rfl
    have hring : Ring (Function.update (Function.update s.next x r) z x) (Function.update (Function.update s.prev x z) r x)
        (x :: (t ++ [z])) := by
      have hhead : (t ++ [z]).head? = some r := by rw [← ht]; rfl
      refine (ht ▸ R).insert hhead (ht ▸ hnodup) (fun y hy => ?_) (fun y hy hyr => ?_) ?_ ?_ ?_ ?_
      · have hyz : y ≠ z := fun h => hzt (h ▸ hy)
        rw [Function.update_of_ne hyz, Function.update_of_ne (hne y (ht ▸ List.mem_append_left _ hy))]
      · rw [Function.update_of_ne hyr, Function.update_of_ne (hne y (ht ▸ hy))]
      · rw [Function.update_of_ne (hne z hz).symm, Function.update_self]
      · exact Function.update_self ..
      · exact Function.update_self ..
      · rw [Function.update_of_ne (hne r hr).symm, Function.update_self]
    rw [← ht] at hring
    exact hring.rotate (p := [x]) (List.cons_ne_nil r l)
  · have hyx : y ≠ x := fun h => hy (by rw [h]; simp)
    have hyl : ∀ w ∈ r :: l, y ≠ w := by
      intro w hw h
      rw [← h] at hw
      exact hy (by rw [← List.cons_append]; exact List.mem_append_left _ hw)
    rw [Function.update_of_ne (hyl z hz), Function.update_of_ne hyx, Function.update_of_ne (hyl r hr),
      Function.update_of_ne hyx]
    exact ⟨rfl, rfl⟩

end Slots

/-- `ir_sccp_add_identity`. -/
theorem Sim.addIdentity (S : Sim s st) (R : G.Ranged) (L : Lists G st) {src dst : ℕ} (hreal : G.opOf dst ≠ .nop)
    (hb : s.level dst ≠ .bottom) (hc : s.level dst ≠ .copy) (hsrc : s.level src = .bottom ∨ s.level src = .copy) :
    Sim (s.addIdentity G src dst) (st.addIdentity G src dst) := by
  have hbV : st.values dst ≠ .bottom := fun h => hb (S.bottom_iff.mpr h)
  have hcV : ∀ y, st.values dst ≠ .copy y := fun y h => hc (S.copy_iff.mpr ⟨y, h⟩)
  have hsrcV : st.values src = .bottom ∨ ∃ z, st.values src = .copy z := by rwa [← S.bottom_iff, ← S.copy_iff]
  have hne : src ≠ dst := by
    rintro rfl
    rcases hsrc with h | h
    · exact hb h
    · exact hc h
  have hroot := L.forest.identity_bottom R src hsrcV
  generalize hrep : identity G st.values src = rep at hroot
  have hrd : rep ≠ dst := by
    rintro rfl
    exact hbV hroot
  have hlist := S.list rep (S.bottom_iff.mpr hroot)
  generalize hs₁ : (s.setLevel dst .copy).setCopy dst src = s₁
  have hlev : s₁.level = Function.update s.level dst .copy := by rw [← hs₁]; rfl
  have hcopy : s₁.copy = Function.update s.copy dst src := by rw [← hs₁]; rfl
  have hq₁ : s₁.queue = s.queue := by rw [← hs₁]; rfl
  have hp₁ : s₁.next = s.next ∧ s₁.prev = s.prev := by rw [← hs₁]; exact ⟨rfl, rfl⟩
  have hdst : ∀ r, s.level r = .bottom → dst ∉ r :: st.ring r := fun r hr h => by
    rcases S.linked L hr h with h | h
    · exact hb h
    · exact hc h
  have hlist₁ : HasList s₁ rep (st.ring rep) := by
    refine hlist.congr ?_ fun x _ => ?_
    · rw [hcopy]
      exact Function.update_of_ne hrd _ _
    · rw [hp₁.1, hp₁.2]
      exact ⟨rfl, rfl⟩
  have hval₁ : s₁.lat = Function.update st.values dst (.copy src) := by
    rw [← S.values]
    funext y
    by_cases hy : y = dst
    · subst hy
      rw [Function.update_self]
      exact Slots.lat_copy.mpr ⟨by rw [hlev, Function.update_self], by rw [hcopy, Function.update_self]⟩
    · rw [Function.update_of_ne hy]
      refine Slots.lat_congr ?_ ?_ fun _ => by rw [hp₁.1, hp₁.2]; exact ⟨rfl, rfl⟩
      · rw [hlev, Function.update_of_ne hy]
      · rw [hcopy, Function.update_of_ne hy]
  -- a source that is a copy has a list already
  have hdef : s.addIdentity G src dst = (s₁.initList rep).insertBefore rep dst := by
    unfold Slots.addIdentity
    rw [hs₁]
    by_cases hbot : s.level src = .bottom
    · have hsame : rep = src := by
        rw [← hrep]
        refine identity_eq_self fun y h => ?_
        rw [S.bottom_iff.mp hbot] at h
        cases h
      simp only [hlev, Function.update_of_ne hne, if_pos hbot, hsame]
    · obtain ⟨y, hy⟩ := S.copy_iff.mp (hsrc.resolve_left hbot)
      have hself : s₁.copy rep = rep := by
        rcases hlist₁ with ⟨h, -⟩ | ⟨-, h⟩
        · exact h
        · have hmem := (L.mem rep src).mpr ⟨⟨y, hy⟩, hrep⟩
          rw [h] at hmem
          cases hmem
      have hid : identity G s₁.lat src = rep := by
        rw [hval₁, identity_update_copy R L.forest hreal hbV hcV hsrcV hne, hrep]
      simp only [hlev, Function.update_of_ne hne, if_neg hbot, hid, Slots.initList_eq hself]
  obtain ⟨hl₂, hq₂, hc₂, hring, hframe⟩ := Slots.initList_spec hlist₁
  have hbrep := S.bottom_iff.mpr hroot
  obtain ⟨hring', hframe'⟩ := Slots.insertBefore_spec hring (L.points_nodup R rep) (hdst rep hbrep)
  rw [hdef]
  generalize hs₃ : (s₁.initList rep).insertBefore rep dst = s₃ at hring' hframe'
  have hlev₃ : s₃.level = Function.update s.level dst .copy := by rw [← hs₃, ← hlev]; exact hl₂
  have hcopy₃ : s₃.copy = Function.update (Function.update s.copy dst src) rep rep := by
    rw [← hs₃, ← hcopy]
    exact hc₂
  have hfar : ∀ x, x ∉ rep :: (st.ring rep ++ [dst]) → s₃.next x = s.next x ∧ s₃.prev x = s.prev x := by
    intro x hx
    obtain ⟨h₁, h₂⟩ := hframe' x hx
    obtain ⟨h₃, h₄⟩ := hframe x fun h => hx (h ▸ List.mem_cons_self)
    rw [h₁, h₂, h₃, h₄, hp₁.1, hp₁.2]
    exact ⟨rfl, rfl⟩
  have hstate : (st.addIdentity G src dst).values = Function.update st.values dst (.copy src) ∧
      (st.addIdentity G src dst).ring = Function.update st.ring rep (st.ring rep ++ [dst]) := by
    rw [← hrep]
    exact ⟨rfl, rfl⟩
  refine ⟨?_, ?_, fun y hy => ?_, fun y h₁ h₂ => ?_, fun r hr => ?_⟩
  · rw [hstate.1, ← hval₁]
    funext y
    by_cases hyr : y = rep
    · have hb' : ∀ s' : Slots, s'.level = Function.update s.level dst .copy → s'.lat y = .bottom := by
        intro s' h
        rw [Slots.lat_bottom, h, hyr, Function.update_of_ne hrd]
        exact hbrep
      rw [hb' s₃ hlev₃, hb' s₁ hlev]
    · refine Slots.lat_congr (by rw [hlev₃, hlev]) ?_ ?_
      · rw [hcopy₃, Function.update_of_ne hyr, hcopy]
      · rintro ⟨op, type, h⟩
        rw [hp₁.1, hp₁.2]
        refine hfar y fun hmem => ?_
        rw [hlev] at h
        rw [← List.cons_append, List.mem_append, List.mem_singleton] at hmem
        rcases hmem with hmem | rfl
        · have hyd : y ≠ dst := fun he => hdst rep hbrep (he ▸ hmem)
          rw [Function.update_of_ne hyd] at h
          rcases S.linked L hbrep hmem with h' | h' <;> rw [h'] at h <;> cases h
        · rw [Function.update_self] at h
          cases h
  · change s₃.queue = st.queue
    rw [← S.queue, ← hq₁, ← hq₂, ← hs₃]
    rfl
  · rw [hlev₃] at hy
    have hyd : y ≠ dst := by
      rintro rfl
      rw [Function.update_self] at hy
      cases hy
    rw [Function.update_of_ne hyd] at hy
    have hyr : y ≠ rep := by
      rintro rfl
      rw [hbrep] at hy
      cases hy
    rw [hcopy₃, Function.update_of_ne hyr, Function.update_of_ne hyd]
    exact S.visited y hy
  · rw [hlev₃] at h₁ h₂
    have hyd : y ≠ dst := by
      rintro rfl
      exact h₁ (Function.update_self ..)
    rw [Function.update_of_ne hyd] at h₁ h₂
    have hyr : y ≠ rep := by
      rintro rfl
      exact h₂ hbrep
    rw [hcopy₃, Function.update_of_ne hyr, Function.update_of_ne hyd]
    exact S.flag y h₁ h₂
  · rw [hstate.2]
    rw [hlev₃] at hr
    have hrd' : r ≠ dst := by
      rintro rfl
      rw [Function.update_self] at hr
      cases hr
    rw [Function.update_of_ne hrd'] at hr
    by_cases hrr : r = rep
    · subst hrr
      rw [Function.update_self]
      exact Or.inl ⟨by rw [hcopy₃, Function.update_self], hring'⟩
    · rw [Function.update_of_ne hrr]
      refine (S.list r hr).congr ?_ fun x hx => hfar x ?_
      · rw [hcopy₃, Function.update_of_ne hrr, Function.update_of_ne hrd']
      · rw [← List.cons_append, List.mem_append, List.mem_singleton]
        rintro (h | rfl)
        · exact L.disjoint hrr (S.bottom_iff.mp hr) hroot hx h
        · exact hdst r hr hx

end

/-! ### A class is split, with its list -/

section

variable {G : Graph} {s : Slots} {st : State}

/-- A list of different instructions is not longer than the graph. -/
theorem Graph.Ranged.length_le (R : G.Ranged) {l : List ℕ} (hnodup : l.Nodup) (h : ∀ x ∈ l, G.opOf x ≠ .nop) :
    l.length ≤ G.insnsCount := by
  have hsub : l ⊆ List.range G.insnsCount := fun x hx => List.mem_range.mpr (R x (h x hx)).2
  have hle := (List.subperm_of_subset hnodup hsub).length_le
  rwa [List.length_range] at hle

/-- The members that stay, from the start of the list on. -/
theorem filter_stay {A B : List ℕ} {i : ℕ} {P : ℕ → Prop} [DecidablePred P] (hA : i ∉ A) (hB : i ∉ B) :
    (B ++ i :: A).filter (fun m => decide (m ≠ i ∧ ¬ P m)) =
      B.filter (fun m => ! decide (P m)) ++ A.filter fun m => ! decide (P m) := by
  have hstay : ∀ l : List ℕ, i ∉ l →
      l.filter (fun m => decide (m ≠ i ∧ ¬ P m)) = l.filter fun m => ! decide (P m) := by
    intro l hl
    refine List.filter_congr fun m hm => ?_
    have hne : m ≠ i := fun h => hl (h ▸ hm)
    simp [hne]
  rw [List.filter_append, List.filter_cons_of_neg (by simp), hstay B hB, hstay A hA]

/-- `ir_sccp_split_partition`. -/
theorem Sim.split (S : Sim s st) (R : G.Ranged) (L : Lists G st) {i : ℕ} (hi : s.level i = .copy) :
    ∃ s', s.splitPartition G i = some s' ∧ Sim s' (st.splitPartition G i) := by
  obtain ⟨y, hy⟩ := S.copy_iff.mp hi
  obtain ⟨A, B, hring, hA, hB, hwalk⟩ := L.split_at hy
  have hroot := L.forest.identity_bottom R i (Or.inr ⟨y, hy⟩)
  have hpoints := L.points_nodup R (identity G st.values i)
  have hlinked := fun x => L.linked (x := x) hroot
  generalize hrep : identity G st.values i = rep at *
  rw [hring] at hpoints hlinked
  have hri : rep ≠ i := by
    rintro rfl
    rw [hroot] at hy
    cases hy
  have hbrep := S.bottom_iff.mpr hroot
  -- the list of the class, from `i` on
  have hcopy : s.copy rep = rep ∧ Ring s.next s.prev (i :: (A ++ rep :: B)) := by
    rcases S.list rep hbrep with ⟨hc, hR⟩ | ⟨-, hnil⟩
    · rw [hring] at hR
      exact ⟨hc, hR.rotate (p := rep :: B) (List.cons_ne_nil i A)⟩
    · rw [hring] at hnil
      simp at hnil
  have hperm : List.Perm (rep :: (B ++ i :: A)) (i :: (A ++ rep :: B)) :=
    @List.perm_append_comm _ (rep :: B) (i :: A)
  have hnodup := hperm.nodup_iff.mp hpoints
  have hlink : ∀ x ∈ i :: (A ++ rep :: B), st.values x = .bottom ∨ ∃ y, st.values x = .copy y :=
    fun x hx => hlinked x (hperm.mem_iff.mpr hx)
  have hreal : ∀ x ∈ A ++ rep :: B, G.opOf x ≠ .nop := by
    intro x hx hnop
    have htop := L.forest.nop x hnop
    rcases hlink x (List.mem_cons_of_mem i hx) with h | ⟨z, h⟩ <;> rw [htop] at h <;> cases h
  have hlow : (s.lowered i).lat = Function.update st.values i .bottom := by
    rw [← S.values]
    funext x
    by_cases hx : x = i
    · subst hx
      rw [Function.update_self]
      exact Slots.lat_bottom.mpr (Function.update_self ..)
    · rw [Function.update_of_ne hx]
      exact Slots.lat_congr (Function.update_of_ne hx _ _) (Function.update_of_ne hx _ _) fun _ => ⟨rfl, rfl⟩
  have hmoves : Slots.moves G (s.lowered i) i = fun m => decide (identity G (Function.update st.values i .bottom) m = i) := by
    funext m
    rw [Slots.moves, hlow]
  have hself : identity G (Function.update st.values i .bottom) rep = rep := by
    refine identity_eq_self fun z => ?_
    rw [Function.update_of_ne hri, hroot]
    exact fun h => by cases h
  obtain ⟨s', hrun, hsplit⟩ := Slots.splitPartition_spec (G := G) hcopy.2 hnodup
    (R.length_le (List.nodup_cons.mp hnodup).2 hreal) (by
      refine List.ne_nil_of_mem (a := rep) (List.mem_filter.mpr ⟨by simp, ?_⟩)
      rw [hmoves]
      simp [hself, hri])
  refine ⟨s', hrun, ?_⟩
  have hlev : s'.level = Function.update s.level i .bottom := hsplit.walked.level
  have hcop : s'.copy = Function.update s.copy i i := hsplit.walked.copy
  have hother : ∀ x, s'.level x ≠ .bottom → x ≠ i ∧ s'.level x = s.level x := by
    intro x hx
    rw [hlev] at hx ⊢
    have hxi : x ≠ i := by
      rintro rfl
      exact hx (Function.update_self ..)
    exact ⟨hxi, Function.update_of_ne hxi _ _⟩
  have hstate : (st.splitPartition G i).ring = Function.update (Function.update st.ring rep
      ((B ++ i :: A).filter fun m => decide
        (m ≠ i ∧ ¬ identity G (Function.update st.values i .bottom) m = i))) i
      ((A ++ rep :: B).filter fun m => decide (identity G (Function.update st.values i .bottom) m = i)) := by
    rw [← hring, ← hwalk, ← hrep]
    rfl
  refine ⟨?_, ?_, fun x hx => ?_, fun x h₁ h₂ => ?_, fun r hr => ?_⟩
  · rw [splitPartition_values, ← hlow]
    funext x
    refine Slots.lat_congr (by rw [hlev]; rfl) (by rw [hcop]; rfl) ?_
    rintro ⟨op, type, h⟩
    refine hsplit.frame x fun hx => ?_
    have hv := hlink x hx
    rw [← S.values] at hv
    have hxi : x ≠ i := by
      rintro rfl
      rw [show (s.lowered x).level x = .bottom from Function.update_self ..] at h
      cases h
    rw [show (s.lowered i).level x = s.level x from Function.update_of_ne hxi _ _] at h
    rcases hv with hv | ⟨z, hv⟩
    · rw [Slots.lat_bottom.mp hv] at h
      cases h
    · rw [(Slots.lat_copy.mp hv).1] at h
      cases h
  · funext j
    rw [Bool.eq_iff_iff, hsplit.walked.queue, splitPartition_queue, hwalk, ← S.queue]
    unfold splitQueue
    rw [← hlow, ne_eq, ne_eq, Slots.lat_bottom]
    rfl
  · obtain ⟨hxi, hl⟩ := hother x (by rw [hx]; exact fun h => by cases h)
    rw [hcop, Function.update_of_ne hxi, splitPartition_visited]
    exact S.visited x (hl ▸ hx)
  · obtain ⟨hxi, hl⟩ := hother x h₂
    rw [hcop, Function.update_of_ne hxi]
    exact S.flag x (hl ▸ h₁) (hl ▸ h₂)
  · rw [hstate]
    by_cases hri' : r = i
    · subst hri'
      rw [Function.update_self]
      refine Or.inl ⟨by rw [hcop, Function.update_self], ?_⟩
      rw [← hmoves]
      exact hsplit.new
    · rw [hlev, Function.update_of_ne hri'] at hr
      rw [Function.update_of_ne hri']
      by_cases hrr : r = rep
      · subst hrr
        rw [Function.update_self, filter_stay hA hB]
        refine Or.inl ⟨by rw [hcop, Function.update_of_ne hri', hcopy.1], ?_⟩
        have hold := hsplit.old
        rw [hmoves, List.filter_append, List.filter_cons_of_pos (by simp [hself, hri])] at hold
        exact hold.rotate (List.cons_ne_nil _ _)
      · rw [Function.update_of_ne hrr]
        refine (S.list r hr).congr (by rw [hcop, Function.update_of_ne hri']) fun x hx => hsplit.frame x fun h => ?_
        refine L.disjoint hrr (S.bottom_iff.mp hr) hroot hx ?_
        rw [hring]
        exact hperm.mem_iff.mpr h

/-- `ir_sccp_make_bottom_ex`. -/
theorem Sim.makeBottomEx (S : Sim s st) (R : G.Ranged) (L : Lists G st) {i : ℕ} (h1 : 1 < i) (hreal : G.opOf i ≠ .nop) :
    ∃ s', s.makeBottomEx G i = some s' ∧ Sim s' (st.makeBottomEx G i) ∧ Lists G (st.makeBottomEx G i) := by
  unfold Slots.makeBottomEx State.makeBottomEx
  by_cases hi : s.level i = .copy
  · obtain ⟨y, hy⟩ := S.copy_iff.mp hi
    obtain ⟨s', hrun, S'⟩ := S.split R L hi
    rw [if_pos hi, hy]
    exact ⟨s', hrun, S', L.split R hreal hy⟩
  · have hne : ∀ y, st.values i ≠ .copy y := fun y h => hi (S.copy_iff.mpr ⟨y, h⟩)
    rw [if_neg hi]
    refine ⟨_, rfl, ?_⟩
    split
    · exact absurd ‹_› (hne _)
    · exact ⟨S.setBottom R L h1 hi, L.setValue hreal hne (fun y h => by cases h) fun _ => rfl⟩

/-- `ir_sccp_meet_const`. -/
theorem Sim.meetConst (S : Sim s st) (R : G.Ranged) (L : Lists G st) {i : ℕ} (h1 : 1 < i) (hreal : G.opOf i ≠ .nop)
    (c : Const) : ∃ s', s.meetConst G i c = some (s', (st.meetConst G i c).2) ∧ Sim s' (st.meetConst G i c).1 ∧
      Lists G (st.meetConst G i c).1 := by
  unfold Slots.meetConst State.meetConst
  by_cases ht : s.level i = .top
  · rw [if_pos ht, if_pos (S.top_iff.mp ht)]
    have hv := S.top_iff.mp ht
    refine ⟨_, rfl, S.setConst L ht c, L.setValue hreal (fun y h => ?_) (fun y h => by cases h) fun h => ?_⟩
    · rw [hv] at h
      cases h
    · rw [hv] at h
      cases h
  · have hsame : (s.level i = .const c.op c.type ∧ loHi (s.next i) (s.prev i) = c.val) ↔ st.values i = .const c := by
      rw [← S.values]
      unfold Slots.lat
      split <;> rename_i h <;> simp only [h, reduceCtorEq, false_and, Level.const.injEq, Lat.const.injEq]
      constructor
      · rintro ⟨⟨rfl, rfl⟩, hv⟩
        rw [hv]
      · rintro rfl
        exact ⟨⟨rfl, rfl⟩, rfl⟩
    rw [if_neg ht, if_neg fun h => ht (S.top_iff.mpr h)]
    by_cases hc : st.values i = .const c
    · rw [if_pos (hsame.mpr hc), if_pos hc]
      exact ⟨s, rfl, S, L⟩
    · rw [if_neg fun h => hc (hsame.mp h), if_neg hc]
      obtain ⟨s', hrun, S', L'⟩ := S.makeBottomEx R L h1 hreal
      exact ⟨s', by rw [hrun]; rfl, S', L'⟩

/-- `ir_sccp_meet_copy`. -/
theorem Sim.meetCopy (S : Sim s st) (R : G.Ranged) (L : Lists G st) {i val : ℕ} (hreal : G.opOf i ≠ .nop)
    (hb : s.level i ≠ .bottom) (hval : s.level i ≠ .copy → s.level val = .bottom ∨ s.level val = .copy) :
    ∃ s', s.meetCopy G i val = some (s', (st.meetCopy G i val).2) ∧ Sim s' (st.meetCopy G i val).1 ∧
      Lists G (st.meetCopy G i val).1 := by
  unfold Slots.meetCopy State.meetCopy
  by_cases hi : s.level i = .copy
  · obtain ⟨y, hy⟩ := S.copy_iff.mp hi
    rw [if_pos hi, hy, S.values]
    by_cases hid : identity G st.values i = identity G st.values val
    · simp only [if_pos hid]
      exact ⟨s, rfl, S, L⟩
    · obtain ⟨s', hrun, S'⟩ := S.split R L hi
      simp only [if_neg hid, hrun]
      exact ⟨s', rfl, S', L.split R hreal hy⟩
  · have hne : ∀ y, st.values i ≠ .copy y := fun y h => hi (S.copy_iff.mpr ⟨y, h⟩)
    have hsrc := hval hi
    rw [if_neg hi]
    split
    · exact absurd ‹_› (hne _)
    · refine ⟨_, rfl, S.addIdentity R L hreal hb hi hsrc, L.addIdentity R hreal (fun h => hb (S.bottom_iff.mpr h)) hne ?_⟩
      rwa [← S.bottom_iff, ← S.copy_iff]

end

/-! ### Runs -/

/-- The updates of `ir_sccp_analyze`. -/
inductive Update
  | addInput (ref : ℕ)
  | addUses (ref : ℕ)
  | pop (ref : ℕ)
  | makeBottomEx (ref : ℕ)
  | meetConst (ref : ℕ) (c : Const)
  | meetCopy (ref val : ℕ)

namespace Slots

variable (G : Graph)

/-- The assertions of an update; `ref` is an instruction after START. -/
def Allowed (s : Slots) : Update → Prop
  | .addInput ref => s.level ref = .top
  | .addUses _ => True
  | .pop _ => True
  | .makeBottomEx ref => 1 < ref ∧ G.opOf ref ≠ .nop
  | .meetConst ref c => 1 < ref ∧ G.opOf ref ≠ .nop ∧ c.isPlain = true
  | .meetCopy ref val => 1 < ref ∧ G.opOf ref ≠ .nop ∧ s.level ref ≠ .bottom ∧
      (s.level ref ≠ .copy → s.level val = .bottom ∨ s.level val = .copy)

def update (s : Slots) : Update → Option Slots
  | .addInput ref => some (s.addInput ref)
  | .addUses ref => some (s.addUses G ref)
  | .pop ref => some { s with queue := Function.update s.queue ref false }
  | .makeBottomEx ref => s.makeBottomEx G ref
  | .meetConst ref c => (s.meetConst G ref c).map Prod.fst
  | .meetCopy ref val => (s.meetCopy G ref val).map Prod.fst

/-- `_values` is cleared, and START is in the worklist. -/
def init : Slots where
  level := fun _ => .top
  copy := fun _ => 0
  next := fun _ => 0
  prev := fun _ => 0
  queue := fun j => j = 1

/-- What a sequence of updates can lead to. -/
inductive Reachable : Slots → Prop
  | init : Reachable .init
  | step {s s' : Slots} {u : Update} (h : Reachable s) (hu : s.Allowed G u) (hrun : s.update G u = some s') :
      Reachable s'

/-- The list that starts at `r`: a circle with the copies whose identity is `r`. -/
structure CopyList (s : Slots) (r : ℕ) (l : List ℕ) : Prop where
  start : s.level r = .bottom
  ring : Ring s.next s.prev (r :: l)
  nodup : (r :: l).Nodup
  members : ∀ m, m ∈ l ↔ s.level m = .copy ∧ identity G s.lat m = r

structure Consistent (s : Slots) : Prop where
  ends : ∀ x, ∃ n, s.level (s.copy^[n] x) ≠ .copy
  list : ∀ m, s.level m = .copy → ∃ l, CopyList G s (identity G s.lat m) l ∧ m ∈ l
  disjoint : ∀ r r' l l', CopyList G s r l → CopyList G s r' l' → r ≠ r' → (r :: l).Disjoint (r' :: l')

/-- `ref` left its class: the other members are in the worklist, and the uses of all that were in the class. -/
structure Requeued (s s' : Slots) (ref : ℕ) : Prop where
  members : ∀ m, m ≠ ref → s.level m = .copy → identity G s.lat m = identity G s.lat ref → s'.queue m = true
  uses : ∀ m, m ≠ ref → identity G s.lat m = identity G s.lat ref → ∀ use ∈ G.useLists m,
    s'.level use ≠ .bottom → s'.queue use = true

end Slots

/-- The same update of the values with their lists. -/
def State.update (G : Graph) (st : State) : Update → State
  | .addInput ref => st.addInput ref
  | .addUses ref => st.addUses G ref
  | .pop ref => { st with queue := Function.update st.queue ref false }
  | .makeBottomEx ref => st.makeBottomEx G ref
  | .meetConst ref c => (st.meetConst G ref c).1
  | .meetCopy ref val => (st.meetCopy G ref val).1

section

variable {G : Graph} {s s' : Slots} {st : State}

theorem Lists.of_eq {st' : State} (L : Lists G st) (hv : st'.values = st.values) (hr : st'.ring = st.ring) :
    Lists G st' where
  forest := hv ▸ L.forest
  nodup := hr ▸ L.nodup
  mem := by
    rw [hv, hr]
    exact L.mem

theorem State.addInput_values (x : ℕ) : (st.addInput x).values = st.values ∧ (st.addInput x).ring = st.ring := by
  unfold State.addInput
  split <;> exact ⟨rfl, rfl⟩

/-- **Every update succeeds**, and does the same to the values with their lists. -/
theorem Sim.update (S : Sim s st) (R : G.Ranged) (L : Lists G st) {u : Update} (hu : s.Allowed G u) :
    ∃ s', s.update G u = some s' ∧ Sim s' (st.update G u) ∧ Lists G (st.update G u) := by
  cases u with
  | addInput ref =>
    exact ⟨_, rfl, S.addInput hu, L.of_eq (State.addInput_values ref).1 (State.addInput_values ref).2⟩
  | addUses ref => exact ⟨_, rfl, S.addUses ref, L.of_eq rfl rfl⟩
  | pop ref => exact ⟨_, rfl, S.pop ref, L.of_eq rfl rfl⟩
  | makeBottomEx ref => exact S.makeBottomEx R L hu.1 hu.2
  | meetConst ref c =>
    obtain ⟨s', hrun, h⟩ := S.meetConst R L hu.1 hu.2.1 c
    exact ⟨s', by rw [Slots.update, hrun]; rfl, h⟩
  | meetCopy ref val =>
    obtain ⟨-, hreal, hb, hval⟩ := hu
    obtain ⟨s', hrun, h⟩ := S.meetCopy R L hreal hb hval
    exact ⟨s', by rw [Slots.update, hrun]; rfl, h⟩

theorem Sim.init : Sim .init .init where
  values := rfl
  queue := rfl
  visited := fun _ _ => ⟨fun _ => rfl, fun _ => rfl⟩
  flag := fun _ _ _ => Nat.zero_le 1
  list := fun _ h => by cases h

theorem Lists.init : Lists G .init where
  forest := ⟨fun _ _ h => (by cases h), ⟨fun _ => 0, fun _ _ h => (by cases h)⟩, fun _ _ => rfl⟩
  nodup := fun _ => List.nodup_nil
  mem := fun _ _ => ⟨fun h => (by cases h), fun ⟨⟨_, h⟩, _⟩ => (by cases h)⟩

theorem Slots.Reachable.sim (R : G.Ranged) (h : Reachable G s) : ∃ st, Sim s st ∧ Lists G st := by
  induction h with
  | init => exact ⟨_, Sim.init, Lists.init⟩
  | step _ hu hrun ih =>
    obtain ⟨st, S, L⟩ := ih
    obtain ⟨s'', hrun', S', L'⟩ := S.update R L hu
    rw [hrun] at hrun'
    obtain rfl := Option.some.inj hrun'
    exact ⟨_, S', L'⟩

theorem Sim.consistent (S : Sim s st) (R : G.Ranged) (L : Lists G st) : s.Consistent G := by
  have hmem : ∀ r m, m ∈ st.ring r ↔ s.level m = .copy ∧ identity G s.lat m = r := by
    intro r m
    rw [L.mem r m, S.copy_iff, S.values]
  refine ⟨fun x => ?_, fun m hm => ?_, fun r r' l l' hl hl' hne x hx hx' => ?_⟩
  · refine L.forest.induct R (motive := fun x => ∃ n, s.level (s.copy^[n] x) ≠ .copy) ?_ ?_ x
    · intro x hx
      refine ⟨0, fun h => ?_⟩
      obtain ⟨y, hy⟩ := S.copy_iff.mp h
      exact hx y hy
    · rintro x y hy ⟨n, hn⟩
      rw [← S.values] at hy
      refine ⟨n + 1, ?_⟩
      rw [Function.iterate_succ_apply, (Slots.lat_copy.mp hy).2]
      exact hn
  · obtain ⟨y, hy⟩ := S.copy_iff.mp hm
    have hroot := L.forest.identity_bottom R m (Or.inr ⟨y, hy⟩)
    have hin := (L.mem _ m).mpr ⟨⟨y, hy⟩, rfl⟩
    rw [S.values]
    refine ⟨_, ⟨S.bottom_iff.mpr hroot, ?_, L.points_nodup R _, fun k => ?_⟩, hin⟩
    · rcases S.list _ (S.bottom_iff.mpr hroot) with ⟨-, hR⟩ | ⟨-, hnil⟩
      · exact hR
      · rw [hnil] at hin
        cases hin
    · rw [hmem, S.values]
  · have hsame : ∀ r l, Slots.CopyList G s r l → ∀ x ∈ r :: l, x ∈ r :: st.ring r := by
      intro r l h x hx
      rcases List.mem_cons.mp hx with rfl | hx
      · exact List.mem_cons_self
      · exact List.mem_cons_of_mem r ((hmem r x).mpr ((h.members x).mp hx))
    exact L.disjoint hne (S.bottom_iff.mp hl.start) (S.bottom_iff.mp hl'.start) (hsame r l hl x hx)
      (hsame r' l' hl' x hx')

/-- A copy is lowered by a split only. -/
theorem State.update_lowered {u : Update} {ref y : ℕ} (hc : st.values ref = .copy y)
    (hb : (st.update G u).values ref = .bottom) : st.update G u = st.splitPartition G ref := by
  have hsplit : ∀ i, (st.splitPartition G i).values ref = .bottom → i = ref := by
    intro i h
    by_contra hne
    rw [splitPartition_values, Function.update_of_ne (Ne.symm hne), hc] at h
    cases h
  have hbottom : ∀ i, (st.makeBottomEx G i).values ref = .bottom → st.makeBottomEx G i = st.splitPartition G ref := by
    intro i h
    unfold State.makeBottomEx at h ⊢
    split at h
    · rw [hsplit i h]
    · rename_i hne
      have hri : ref ≠ i := by
        rintro rfl
        exact hne y hc
      rw [show (st.setValue i .bottom).values ref = st.values ref from Function.update_of_ne hri _ _, hc] at h
      cases h
  cases u with
  | addInput i =>
    rw [State.update, (State.addInput_values i).1, hc] at hb
    cases hb
  | addUses i =>
    change st.values ref = .bottom at hb
    rw [hc] at hb
    cases hb
  | pop i =>
    change st.values ref = .bottom at hb
    rw [hc] at hb
    cases hb
  | makeBottomEx i => exact hbottom i hb
  | meetConst i c =>
    change (st.meetConst G i c).1.values ref = .bottom at hb
    change (st.meetConst G i c).1 = _
    unfold State.meetConst at hb ⊢
    by_cases ht : st.values i = .top
    · rw [if_pos ht] at hb
      change Function.update st.values i (.const c) ref = .bottom at hb
      by_cases hri : ref = i
      · rw [hri, Function.update_self] at hb
        cases hb
      · rw [Function.update_of_ne hri, hc] at hb
        cases hb
    · rw [if_neg ht] at hb ⊢
      by_cases hsame : st.values i = .const c
      · rw [if_pos hsame, hc] at hb
        cases hb
      · rw [if_neg hsame] at hb ⊢
        exact hbottom i hb
  | meetCopy i val =>
    change (st.meetCopy G i val).1.values ref = .bottom at hb
    change (st.meetCopy G i val).1 = _
    unfold State.meetCopy at hb ⊢
    split at hb
    · rename_i z hz
      by_cases hid : identity G st.values i = identity G st.values val
      · rw [if_pos hid, hc] at hb
        cases hb
      · rw [if_neg hid] at hb
        simp only [if_neg hid]
        rw [hsplit i hb]
    · change Function.update st.values i (.copy val) ref = .bottom at hb
      by_cases hri : ref = i
      · rw [hri, Function.update_self] at hb
        cases hb
      · rw [Function.update_of_ne hri, hc] at hb
        cases hb

theorem Sim.requeued (S : Sim s st) (L : Lists G st) {ref : ℕ} (hc : s.level ref = .copy)
    (S' : Sim s' (st.splitPartition G ref)) : s.Requeued G s' ref := by
  have hlev : ∀ {u : ℕ}, s'.level u ≠ .bottom ↔ Function.update st.values ref .bottom u ≠ .bottom := by
    intro u
    rw [ne_eq, S'.bottom_iff, splitPartition_values]
  obtain ⟨y, hy⟩ := S.copy_iff.mp hc
  refine ⟨fun m hne hm hid => ?_, fun m hne hid use huse hb => ?_⟩
  · rw [S.values] at hid
    obtain ⟨z, hz⟩ := S.copy_iff.mp hm
    rw [S'.queue, splitPartition_queue]
    refine Or.inr ⟨?_, m, mem_walk ((L.mem _ m).mpr ⟨⟨z, hz⟩, hid⟩) hne, Or.inl rfl⟩
    rw [Function.update_of_ne hne, hz]
    exact fun h => by cases h
  · rw [S.values] at hid
    rw [S'.queue, splitPartition_queue]
    refine Or.inr ⟨hlev.mp hb, m, ?_, Or.inr huse⟩
    by_cases hm : s.level m = .copy
    · obtain ⟨z, hz⟩ := S.copy_iff.mp hm
      exact mem_walk ((L.mem _ m).mpr ⟨⟨z, hz⟩, hid⟩) hne
    · -- the start of the list
      have hself : identity G st.values m = m := identity_eq_self fun z hz => hm (S.copy_iff.mpr ⟨z, hz⟩)
      obtain ⟨A, B, -, -, -, hwalk⟩ := L.split_at hy
      rw [hwalk, ← hid, hself]
      simp

end

/-- A parameter, a COPY of it, and a COPY of the COPY. -/
def copyChain : Graph where
  insnsCount := 5
  insn
    | 1 => ⟨.start, .void, []⟩
    | 2 => ⟨.param, .i64, [1]⟩
    | 3 => ⟨.copy, .i64, [2]⟩
    | 4 => ⟨.copy, .i64, [3]⟩
    | _ => ⟨.nop, .void, []⟩
  useLists
    | 2 => [3]
    | 3 => [4]
    | _ => []
  const := fun _ => ⟨.nop, .void, 0⟩
  mem2ssaVars := false

end IrJit.Sccp
