import IrJit.Ra.SpillSlotsSpec

/-!
# Ra.SpillScan — stack slots do not overlap while they are in use

Every byte of the frame belongs to at most one variable, active interval, left-over or free slot
(`Linked`).  An interval gives its slot back only when it ends before everything that is still to be
handled, so an interval whose span meets the span of the one at hand is active and keeps its bytes.
-/

namespace IrJit.Ra.Spill

open HashChain

/-- The lists that share the field `listNext`. -/
inductive Place
  | unhandled | active | handled (k : SlotSize)
  deriving DecidableEq

/-- The first interval of each list. -/
def heads (unhandled : ℕ) (s : State) : Place → ℕ
  | .unhandled => unhandled
  | .active => s.active
  | .handled k => s.handled k

/-- The bytes of interval `i`. -/
def region (V : Vregs) (s : State) (i : ℕ) : ℕ × ℕ := (s.spillPos i, (V.size i).bytes)

/-- The free lists among the lists. -/
def freeLists (L : Place → List ℕ) (k : SlotSize) : List ℕ := L (.handled k)

/-- The lists are well linked, and no byte belongs to two of the held ranges `P`, the active intervals
and the free slots. -/
structure Linked (V : Vregs) (wide : Bool) (P : List (ℕ × ℕ)) (unhandled : ℕ) (L : Place → List ℕ)
    (s : State) : Prop where
  threaded : Threaded s.listNext (heads unhandled s) L
  le : ∀ w, ∀ i ∈ L w, i ≤ V.count
  free : Free wide s (freeLists L)
  aligned : ∀ i ∈ L .active, align wide (V.size i) ∣ s.spillPos i
  cover : ∀ x, cover P x + cover ((L .active).map (region V s)) x + freeCover s (freeLists L) x ≤
    cell 0 s.frame x

section Lists

variable {V : Vregs} {wide : Bool} {P : List (ℕ × ℕ)} {u i prev : ℕ} {L : Place → List ℕ}
  {s t : State}

theorem heads_unhandled (u u' : ℕ) (s : State) :
    heads u' s = Function.update (heads u s) .unhandled u' := by
  ext w
  cases w <;> rfl

theorem heads_active (u a : ℕ) (s : State) :
    heads u { s with active := a } = Function.update (heads u s) .active a := by
  ext w
  cases w <;> rfl

theorem heads_handled (u a : ℕ) (k : SlotSize) (s : State) :
    heads u { s with handled := Function.update s.handled k a } =
      Function.update (heads u s) (.handled k) a := by
  ext w
  cases w with
  | unhandled => rfl
  | active => rfl
  | handled j =>
    by_cases hj : j = k
    · subst hj
      simp [heads]
    · simp [heads, hj]

/-- Lists stay shorter than the number of virtual registers. -/
theorem Linked.length_le (h : Linked V wide P u L s) (w : Place) : (L w).length ≤ V.count := by
  have hsub : (L w) ⊆ List.range' 1 V.count := by
    intro i hi
    have h0 := h.threaded.ne_zero hi
    have hle := h.le w i hi
    rw [List.mem_range'_1]
    omega
  have := ((h.threaded.nodup w).subperm hsub).length_le
  rwa [List.length_range'] at this

/-- Where the loop over the active list stands: behind `prev`. -/
theorem chain_cursor {next : ℕ → ℕ} {r : ℕ} {kept rest : List ℕ} (h : Chain next r (kept ++ rest))
    (hprev : prev = kept.getLast?.getD 0) : Chain next (if prev ≠ 0 then next prev else r) rest := by
  rcases List.eq_nil_or_concat kept with rfl | ⟨l, p, rfl⟩
  · have h0 : prev = 0 := by simpa using hprev
    rw [if_neg (by simpa using h0)]
    exact h
  · have hp : prev = p := by simpa using hprev
    have hne : prev ≠ 0 := hp ▸ h.ne_zero (by simp)
    rw [if_pos hne, hp]
    rw [List.concat_append] at h
    exact h.of_append_cons

/-- Unlinking an active interval holds its bytes. -/
theorem Linked.unlink (h : Linked V wide P u L s) {kept rest : List ℕ}
    (hL : L .active = kept ++ i :: rest) (hprev : prev = kept.getLast?.getD 0) :
    Linked V wide (region V s i :: P) u (Function.update L .active (kept ++ rest))
      (Spill.unlink prev i s) := by
  have hthreaded : Threaded (Spill.unlink prev i s).listNext (heads u (Spill.unlink prev i s))
      (Function.update L .active (kept ++ rest)) := by
    rcases List.eq_nil_or_concat kept with rfl | ⟨l, p, rfl⟩
    · have h0 : prev = 0 := by simpa using hprev
      have heq : Spill.unlink prev i s = { s with active := s.listNext i } := if_neg (by simpa using h0)
      rw [heq, heads_active]
      exact h.threaded.pop hL
    · have hp : prev = p := by simpa using hprev
      rw [List.concat_append] at hL ⊢
      have hne : prev ≠ 0 := hp ▸ h.threaded.ne_zero (i := .active) (by simp [hL])
      have heq : Spill.unlink prev i s =
          { s with listNext := Function.update s.listNext prev (s.listNext i) } := if_pos hne
      rw [heq, hp]
      exact h.threaded.unlink hL
  obtain ⟨n, a, heq⟩ : ∃ n a, Spill.unlink prev i s = { s with listNext := n, active := a } := by
    unfold Spill.unlink
    split_ifs
    · exact ⟨_, s.active, rfl⟩
    · exact ⟨s.listNext, _, rfl⟩
  rw [heq] at hthreaded ⊢
  have hle : ∀ w, ∀ j ∈ Function.update L .active (kept ++ rest) w, j ∈ L w := by
    intro w j hj
    by_cases hw : w = .active
    · subst hw
      rw [Function.update_self] at hj
      rw [hL, List.mem_append, List.mem_cons]
      rcases List.mem_append.mp hj with hj | hj
      · exact Or.inl hj
      · exact Or.inr (Or.inr hj)
    · rwa [Function.update_of_ne hw] at hj
  have hfree : freeLists (Function.update L .active (kept ++ rest)) = freeLists L := by
    ext1 k
    simp [freeLists]
  refine ⟨hthreaded, fun w j hj => h.le w j (hle w j hj), ?_, fun j hj => ?_, fun x => ?_⟩
  · rw [hfree]
    refine ⟨fun k => ?_, h.free.aligned, h.free.aligned2, h.free.aligned4, h.free.frame⟩
    have hk := hthreaded.chain (.handled k)
    rwa [Function.update_of_ne (by simp)] at hk
  · exact h.aligned j (hle .active j hj)
  · have hx := h.cover x
    rw [hfree, Function.update_self, cover_cons]
    rw [hL] at hx
    have hregion : region V { s with listNext := n, active := a } = region V s := rfl
    have hsame : freeCover { s with listNext := n, active := a } (freeLists L) x =
      freeCover s (freeLists L) x := rfl
    rw [hregion, hsame]
    simp only [List.map_append, List.map_cons, cover_append, cover_cons] at hx ⊢
    omega

theorem freeLists_update (L : Place → List ℕ) (k : SlotSize) (l : List ℕ) :
    freeLists (Function.update L (.handled k) l) = Function.update (freeLists L) k l := by
  ext1 j
  by_cases hj : j = k
  · subst hj
    simp [freeLists]
  · simp [freeLists, hj]

/-- A held slot is given back. -/
theorem Linked.release (h : Linked V wide (region V s i :: P) u L s) (hnew : ∀ w, i ∉ L w)
    (h0 : i ≠ 0) (hi : i ≤ V.count) (hal : align wide (V.size i) ∣ s.spillPos i) :
    ∃ s' L', Spill.release V i s = some s' ∧ Linked V wide P u L' s' ∧
      (s'.frame = s.frame ∧ s'.spillPos = s.spillPos) ∧
      (L' .unhandled = L .unhandled ∧ L' .active = L .active) ∧ ∀ w, ∀ j ∈ L' w, j = i ∨ j ∈ L w := by
  have hwalk := HashChain.walk_eq (h.threaded.chain (.handled (V.size i)))
    (fun old => s.spillPos old = s.spillPos i) (Nat.lt_succ_of_le (h.length_le _))
  have hcover : ∀ x, cell (s.spillPos i) (V.size i).bytes x + IrJit.cover P x +
      IrJit.cover ((L .active).map (region V s)) x + freeCover s (freeLists L) x ≤
      cell 0 s.frame x := by
    intro x
    have hx := h.cover x
    rw [cover_cons] at hx
    exact hx
  simp only [Spill.release, heads] at hwalk ⊢
  rw [hwalk, Option.map_some]
  split_ifs with hold
  · -- the slot goes to the front of its free list
    set k := V.size i with hk
    set L' := Function.update L (.handled k) (i :: L (.handled k)) with hL'
    set s' : State := { s with
      listNext := Function.update s.listNext i (s.handled k)
      handled := Function.update s.handled k i } with hs'
    have hthreaded : Threaded s'.listNext (heads u s') L' := by
      have := h.threaded.push h0 hnew (.handled k)
      rw [← heads_handled] at this
      exact this
    have hmem : ∀ w, ∀ j ∈ L' w, j = i ∨ j ∈ L w := by
      intro w j hj
      by_cases hw : w = .handled k
      · subst hw
        rw [hL', Function.update_self] at hj
        exact List.mem_cons.mp hj
      · rw [hL', Function.update_of_ne hw] at hj
        exact Or.inr hj
    have hlists : freeLists L' = Function.update (freeLists L) k (i :: L (.handled k)) :=
      freeLists_update L k _
    have hactive : L' .active = L .active := Function.update_of_ne (by simp) _ _
    have hunhandled : L' .unhandled = L .unhandled := Function.update_of_ne (by simp) _ _
    refine ⟨s', L', rfl, ⟨hthreaded, ?_, ⟨fun j => hthreaded.chain (.handled j), ?_, h.free.aligned2,
      h.free.aligned4, h.free.frame⟩, ?_, fun x => ?_⟩, ⟨rfl, rfl⟩, ⟨hunhandled, hactive⟩, hmem⟩
    · intro w j hj
      rcases hmem w j hj with rfl | hj
      · exact hi
      · exact h.le w j hj
    · intro m j hj
      by_cases hm : m = k
      · subst hm
        rcases hmem (.handled _) j hj with rfl | hj
        · exact hal
        · exact h.free.aligned _ j hj
      · rw [hlists, Function.update_of_ne hm] at hj
        exact h.free.aligned m j hj
    · rw [hactive]
      exact h.aligned
    · have hx := hcover x
      have hup := freeCover_update s (freeLists L) k (i :: L (.handled k)) x
      rw [listCover_cons] at hup
      have hsame : freeCover s' (freeLists L') x =
          freeCover s (Function.update (freeLists L) k (i :: L (.handled k))) x := by
        rw [hlists]
        rfl
      have hregion : region V s' = region V s := rfl
      rw [hsame, hactive, hregion]
      have hfl : freeLists L k = L (.handled k) := rfl
      rw [hfl] at hup
      have hframe : s'.frame = s.frame := rfl
      rw [hframe]
      omega
  · refine ⟨s, L, rfl, ⟨h.threaded, h.le, h.free, h.aligned, fun x => ?_⟩, ⟨rfl, rfl⟩, ⟨rfl, rfl⟩,
      fun w j hj => Or.inr hj⟩
    have hx := hcover x
    omega

/-- The loop over the active list keeps the intervals that end after `position`. -/
theorem expire_spec (position : ℕ) {fuel : ℕ} {kept rest : List ℕ} (h : Linked V wide P u L s)
    (hL : L .active = kept ++ rest) (hprev : prev = kept.getLast?.getD 0) (hf : rest.length < fuel) :
    ∃ s' L', expire V position fuel (if prev ≠ 0 then s.listNext prev else s.active) prev s = some s' ∧
      Linked V wide P u L' s' ∧ (s'.frame = s.frame ∧ s'.spillPos = s.spillPos) ∧
      L' .unhandled = L .unhandled ∧
      (∀ j ∈ L .active, j ∈ L' .active ∨ V.stop j ≤ position) ∧ ∀ w, ∀ j ∈ L' w, ∃ w', j ∈ L w' := by
  induction fuel generalizing L s kept rest prev with
  | zero => omega
  | succ fuel ih =>
    have hchain : Chain s.listNext (if prev ≠ 0 then s.listNext prev else s.active) rest := by
      have := h.threaded.chain .active
      rw [hL] at this
      exact chain_cursor this hprev
    rcases rest with _ | ⟨i, rest⟩
    · have h0 : (if prev ≠ 0 then s.listNext prev else s.active) = 0 := hchain
      rw [expire, if_pos h0]
      exact ⟨s, L, rfl, h, ⟨rfl, rfl⟩, rfl, fun j hj => Or.inl hj, fun w j hj => ⟨w, hj⟩⟩
    · obtain ⟨hother, hi0, _⟩ := hchain
      have hi : i ∈ L .active := by simp [hL]
      rw [hother, expire, if_neg hi0]
      by_cases hstop : V.stop i ≤ position
      · rw [if_pos hstop]
        -- the interval is unlinked, held for a moment, and released
        have hun := h.unlink hL hprev
        have hpos : (Spill.unlink prev i s).spillPos = s.spillPos ∧
            (Spill.unlink prev i s).frame = s.frame := by
          unfold Spill.unlink
          split_ifs <;> exact ⟨rfl, rfl⟩
        have hnew : ∀ w, i ∉ Function.update L .active (kept ++ rest) w := by
          intro w hmem
          by_cases hw : w = .active
          · subst hw
            rw [Function.update_self] at hmem
            have hnd := h.threaded.nodup .active
            rw [hL] at hnd
            have := (List.nodup_middle.mp hnd)
            exact (List.nodup_cons.mp this).1 hmem
          · rw [Function.update_of_ne hw] at hmem
            exact hw (h.threaded.disjoint w .active i hmem hi)
        have hregion : region V s i = region V (Spill.unlink prev i s) i := by
          simp only [region, hpos.1]
        rw [hregion] at hun
        obtain ⟨s₁, L₁, hrel, hlinked₁, ⟨hframe₁, hpos₁⟩, ⟨hu₁, ha₁⟩, hmem₁⟩ :=
          hun.release hnew hi0 (h.le .active i hi) (hpos.1 ▸ h.aligned i hi)
        rw [Function.update_self] at ha₁
        obtain ⟨s', L', hex, hlinked, ⟨hframe, hpos'⟩, hu, hactive, hmem⟩ :=
          ih hlinked₁ ha₁ hprev (by simpa using hf)
        have hback : ∀ w, ∀ j ∈ Function.update L .active (kept ++ rest) w, ∃ w', j ∈ L w' := by
          intro w j hj
          by_cases hw : w = .active
          · subst hw
            rw [Function.update_self] at hj
            refine ⟨.active, ?_⟩
            rw [hL, List.mem_append, List.mem_cons]
            rcases List.mem_append.mp hj with hj | hj
            · exact Or.inl hj
            · exact Or.inr (Or.inr hj)
          · rw [Function.update_of_ne hw] at hj
            exact ⟨w, hj⟩
        refine ⟨s', L', ?_, hlinked, ⟨?_, ?_⟩, ?_, ?_, ?_⟩
        · rw [hrel]
          exact hex
        · rw [hframe, hframe₁, hpos.2]
        · rw [hpos', hpos₁, hpos.1]
        · rw [hu, hu₁, Function.update_of_ne (by simp)]
        · intro j hj
          by_cases hji : j = i
          · exact Or.inr (hji ▸ hstop)
          · refine hactive j ?_
            rw [ha₁]
            rw [hL] at hj
            simp only [List.mem_append, List.mem_cons] at hj ⊢
            tauto
        · intro w j hj
          obtain ⟨w₁, hj⟩ := hmem w j hj
          rcases hmem₁ w₁ j hj with rfl | hj
          · exact ⟨.active, hi⟩
          · exact hback w₁ j hj
      · rw [if_neg hstop]
        have hkept : L .active = (kept ++ [i]) ++ rest := by simp [hL]
        have hlast : i = (kept ++ [i]).getLast?.getD 0 := by simp
        have := ih h hkept hlast (by simpa using hf)
        rwa [if_pos hi0] at this

/-- The lists once the free lists have changed. -/
def withFree (L : Place → List ℕ) (G : SlotSize → List ℕ) : Place → List ℕ
  | .handled k => G k
  | w => L w

/-- A slot is carved out and held. -/
theorem Linked.carve (h : Linked V wide P u L s) {r k : ℕ} {G : SlotSize → List ℕ}
    (hc : Carve wide s (freeLists L) r k t G) : Linked V wide ((r, k) :: P) u (withFree L G) t := by
  have hsub : ∀ w, (withFree L G w).Sublist (L w) := by
    intro w
    cases w with
    | unhandled => exact List.Sublist.refl _
    | active => exact List.Sublist.refl _
    | handled j => exact (hc.suffix j).sublist
  have hthreaded : Threaded t.listNext (heads u t) (withFree L G) := by
    refine h.threaded.sub (fun w => ?_) hsub
    cases w with
    | unhandled =>
      rw [hc.next_eq]
      exact h.threaded.chain .unhandled
    | active =>
      rw [hc.next_eq]
      show Chain s.listNext t.active (L .active)
      rw [hc.active_eq]
      exact h.threaded.chain .active
    | handled j => exact hc.free.chain j
  refine ⟨hthreaded, fun w i hi => h.le w i ((hsub w).subset hi), hc.free, ?_, fun x => ?_⟩
  · rw [hc.pos_eq]
    exact h.aligned
  · have hx := h.cover x
    have hcx := hc.cover x
    have hgrow := cell_grow hc.frame_le x
    have hregion : region V t = region V s := by
      ext1 i
      simp only [region, hc.pos_eq]
    have hactive : withFree L G .active = L .active := rfl
    have hfree : freeLists (withFree L G) = G := rfl
    rw [cover_cons, hregion, hactive, hfree]
    simp only
    omega

/-- Writing the position of an interval that is in no list. -/
theorem Linked.assign {slot : ℕ} (h : Linked V wide ((slot, (V.size i).bytes) :: P) u L s)
    (hnew : ∀ w, i ∉ L w) :
    let t := { s with spillPos := Function.update s.spillPos i slot }
    Linked V wide (region V t i :: P) u L t := by
  intro t
  have hpos : ∀ w, ∀ j ∈ L w, t.spillPos j = s.spillPos j :=
    fun w j hj => Function.update_of_ne (ne_of_mem_of_not_mem hj (hnew w)) _ _
  have hlist : ∀ k x, listCover t.spillPos k (L (.handled k)) x =
      listCover s.spillPos k (L (.handled k)) x := by
    intro k x
    unfold listCover
    congr 1
    exact List.map_congr_left fun j hj => by rw [hpos _ j hj]
  refine ⟨h.threaded, h.le, ⟨h.free.chain, ?_, h.free.aligned2, h.free.aligned4, h.free.frame⟩, ?_,
    fun x => ?_⟩
  · intro k j hj
    rw [hpos (.handled k) j hj]
    exact h.free.aligned k j hj
  · intro j hj
    rw [hpos .active j hj]
    exact h.aligned j hj
  · have hx := h.cover x
    have hactive : (L .active).map (region V t) = (L .active).map (region V s) := by
      refine List.map_congr_left fun j hj => ?_
      simp only [region, hpos .active j hj]
    have hfree : freeCover t (freeLists L) x = freeCover s (freeLists L) x := by
      simp only [freeCover, freeLists, hlist]
      rfl
    have hregion : region V t i = (slot, (V.size i).bytes) := by
      simp [region, t]
    rw [hactive, hfree, hregion]
    exact hx

/-- A held slot becomes active. -/
theorem Linked.activate (h : Linked V wide (region V s i :: P) u L s) (hnew : ∀ w, i ∉ L w)
    (h0 : i ≠ 0) (hi : i ≤ V.count) (hal : align wide (V.size i) ∣ s.spillPos i) :
    Linked V wide P u (Function.update L .active (i :: L .active))
      { s with listNext := Function.update s.listNext i s.active, active := i } := by
  have hthreaded := h.threaded.push h0 hnew .active
  rw [← heads_active] at hthreaded
  have hmem : ∀ w, ∀ j ∈ Function.update L .active (i :: L .active) w, j = i ∨ j ∈ L w := by
    intro w j hj
    by_cases hw : w = .active
    · subst hw
      rw [Function.update_self] at hj
      exact List.mem_cons.mp hj
    · rw [Function.update_of_ne hw] at hj
      exact Or.inr hj
  have hfree : freeLists (Function.update L .active (i :: L .active)) = freeLists L := by
    ext1 k
    simp [freeLists]
  refine ⟨hthreaded, ?_, ?_, ?_, fun x => ?_⟩
  · intro w j hj
    rcases hmem w j hj with rfl | hj
    · exact hi
    · exact h.le w j hj
  · rw [hfree]
    refine ⟨fun k => ?_, h.free.aligned, h.free.aligned2, h.free.aligned4, h.free.frame⟩
    have hk := hthreaded.chain (.handled k)
    rwa [Function.update_of_ne (by simp)] at hk
  · intro j hj
    rcases hmem .active j hj with rfl | hj
    · exact hal
    · exact h.aligned j hj
  · have hx := h.cover x
    rw [hfree, Function.update_self, List.map_cons, cover_cons]
    rw [cover_cons] at hx
    have hsame : freeCover { s with listNext := Function.update s.listNext i s.active, active := i }
      (freeLists L) x = freeCover s (freeLists L) x := rfl
    have hregion : region V { s with listNext := Function.update s.listNext i s.active, active := i } =
      region V s := rfl
    rw [hsame, hregion]
    simp only
    omega

end Lists

/-- The spans of two virtual registers share a position. -/
def Meet (V : Vregs) (i j : ℕ) : Prop :=
  ∃ q, (V.start i ≤ q ∧ q < V.stop i) ∧ V.start j ≤ q ∧ q < V.stop j

/-- What holds of the intervals that have their slot. -/
structure Slots (V : Vregs) (wide : Bool) (P : List (ℕ × ℕ)) (s : State) (done : ℕ → Prop) : Prop where
  inside : ∀ i, done i → s.spillPos i + (V.size i).bytes ≤ s.frame
  aligned : ∀ i, done i → align wide (V.size i) ∣ s.spillPos i
  vars : ∀ i, done i → ∀ r ∈ P, Apart r (region V s i)
  apart : ∀ i j, done i → done j → i ≠ j → Meet V i j → Apart (region V s i) (region V s j)

/-- The intervals with a slot are active, or over before anything still to be handled starts. -/
structure Over (V : Vregs) (L : Place → List ℕ) (done : ℕ → Prop) : Prop where
  sorted : (L .unhandled).Pairwise fun i j => V.start i ≤ V.start j
  fresh : ∀ i, done i → i ∉ L .unhandled
  past : ∀ i, done i → i ∈ L .active ∨ ∀ j ∈ L .unhandled, V.stop i ≤ V.start j

section Scan

variable {V : Vregs} {wide : Bool} {P : List (ℕ × ℕ)} {u i slot : ℕ} {L : Place → List ℕ}
  {s t : State} {done : ℕ → Prop}

theorem SlotSize.bytes_pos (k : SlotSize) : 0 < k.bytes := by cases k <;> decide

/-- A state with the same positions and a larger frame. -/
theorem Slots.mono (h : Slots V wide P s done) (hpos : t.spillPos = s.spillPos)
    (hframe : s.frame ≤ t.frame) : Slots V wide P t done := by
  have hregion : ∀ j, region V t j = region V s j := fun j => by simp only [region, hpos]
  refine ⟨fun j hj => ?_, fun j hj => ?_, fun j hj r hr => ?_, fun j k hj hk hne hm => ?_⟩
  · have := h.inside j hj
    rw [hpos]
    omega
  · rw [hpos]
    exact h.aligned j hj
  · rw [hregion]
    exact h.vars j hj r hr
  · rw [hregion, hregion]
    exact h.apart j k hj hk hne hm

/-- A held slot is apart from the variables and from the active intervals. -/
theorem Slots.add (h : Slots V wide P s done) (hl : Linked V wide ((slot, (V.size i).bytes) :: P) u L s)
    (hnew : ¬ done i) (hal : align wide (V.size i) ∣ slot)
    (hover : ∀ j, done j → j ∈ L .active ∨ V.stop j ≤ V.start i) :
    Slots V wide P { s with spillPos := Function.update s.spillPos i slot } fun j => done j ∨ j = i := by
  set t : State := { s with spillPos := Function.update s.spillPos i slot } with ht
  have hold : ∀ j, done j → region V t j = region V s j := by
    intro j hj
    have hji : j ≠ i := fun e => hnew (e ▸ hj)
    simp [region, ht, hji]
  have hself : region V t i = (slot, (V.size i).bytes) := by simp [region, ht]
  -- a done interval whose span meets that of `i` is still active
  have hmeet : ∀ j, done j → Meet V j i → Apart (region V s j) (slot, (V.size i).bytes) := by
    intro j hj ⟨q, hqj, hqi⟩ x
    rcases hover j hj with hactive | hstop
    · have hx := hl.cover x
      have hone := cell_le_one 0 s.frame x
      have hj := cell_le_cover (List.mem_map_of_mem (f := region V s) hactive) x
      rw [cover_cons] at hx
      simp only at hx ⊢
      omega
    · omega
  refine ⟨?_, ?_, ?_, ?_⟩
  · rintro j (hj | rfl)
    · have hji : j ≠ i := fun e => hnew (e ▸ hj)
      have := h.inside j hj
      simpa [ht, hji] using this
    · simp only [ht, Function.update_self]
      refine le_of_cell_le (SlotSize.bytes_pos _) fun x => ?_
      have hx := hl.cover x
      rw [cover_cons] at hx
      simp only at hx
      omega
  · rintro j (hj | rfl)
    · have hji : j ≠ i := fun e => hnew (e ▸ hj)
      have := h.aligned j hj
      simpa [ht, hji] using this
    · simpa [ht] using hal
  · rintro j (hj | rfl) r hr
    · rw [hold j hj]
      exact h.vars j hj r hr
    · rw [hself]
      intro x
      have hx := hl.cover x
      have hone := cell_le_one 0 s.frame x
      have hr := cell_le_cover hr x
      rw [cover_cons] at hx
      simp only at hx ⊢
      omega
  · rintro j k (hj | rfl) (hk | rfl) hne hm
    · rw [hold j hj, hold k hk]
      exact h.apart j k hj hk hne hm
    · rw [hold j hj, hself]
      exact hmeet j hj hm
    · rw [hold k hk, hself]
      obtain ⟨q, hqj, hqk⟩ := hm
      exact (hmeet k hk ⟨q, hqk, hqj⟩).symm
    · exact absurd rfl hne

/-- The interval at hand gets its slot and goes to the active list or to a free list. -/
theorem place_spec (hl : Linked V wide ((slot, (V.size i).bytes) :: P) u L s)
    (hnew : ∀ w, i ∉ L w) (h0 : i ≠ 0) (hi : i ≤ V.count) (hal : align wide (V.size i) ∣ slot)
    (hsorted : (L .unhandled).Pairwise fun i j => V.start i ≤ V.start j) :
    ∃ s' L', place V i u slot s = some s' ∧ Linked V wide P u L' s' ∧
      (s'.frame = s.frame ∧ s'.spillPos = Function.update s.spillPos i slot) ∧
      L' .unhandled = L .unhandled ∧ (∀ j ∈ L .active, j ∈ L' .active) ∧
      (i ∈ L' .active ∨ ∀ j ∈ L .unhandled, V.stop i ≤ V.start j) := by
  have hassign := hl.assign hnew
  set t : State := { s with spillPos := Function.update s.spillPos i slot } with ht
  have hal' : align wide (V.size i) ∣ t.spillPos i := by simpa [ht] using hal
  have hplace : place V i u slot s =
      if u ≠ 0 ∧ V.stop i > V.start u then
        some { t with listNext := Function.update t.listNext i t.active, active := i }
      else release V i t := rfl
  rw [hplace]
  by_cases hu : u ≠ 0 ∧ V.stop i > V.start u
  · rw [if_pos hu]
    refine ⟨_, _, rfl, hassign.activate hnew h0 hi hal', ⟨rfl, rfl⟩, ?_, ?_, ?_⟩
    · exact Function.update_of_ne (by simp) _ _
    · intro j hj
      rw [Function.update_self]
      exact List.mem_cons_of_mem i hj
    · rw [Function.update_self]
      exact Or.inl (List.mem_cons_self)
  · rw [if_neg hu]
    obtain ⟨s', L', hrel, hlinked, hsame, ⟨hunh, hact⟩, _⟩ := hassign.release hnew h0 hi hal'
    refine ⟨s', L', hrel, hlinked, hsame, hunh, fun j hj => hact ▸ hj, Or.inr fun j hj => ?_⟩
    -- the list of what follows starts with `u` and ascends
    have hchain : Chain s.listNext u (L .unhandled) := hl.threaded.chain .unhandled
    rcases hLu : L .unhandled with _ | ⟨v, rest⟩
    · simp [hLu] at hj
    · rw [hLu] at hj hchain hsorted
      obtain ⟨rfl, hv0, _⟩ := hchain
      have hstop : V.stop i ≤ V.start u := by
        by_contra hlt
        exact hu ⟨hv0, by omega⟩
      rcases List.mem_cons.mp hj with rfl | hj
      · exact hstop
      · exact le_trans hstop ((List.pairwise_cons.mp hsorted).1 j hj)

/-- The lists once the first interval is taken off `unhandled`. -/
theorem Linked.next (h : Linked V wide P u L s) {rest : List ℕ} (hL : L .unhandled = i :: rest) :
    Linked V wide P (s.listNext i) (Function.update L .unhandled rest) s := by
  have hthreaded := h.threaded.pop hL
  rw [← heads_unhandled] at hthreaded
  have hfree : freeLists (Function.update L .unhandled rest) = freeLists L := by
    ext1 k
    simp [freeLists]
  have hactive : Function.update L .unhandled rest .active = L .active :=
    Function.update_of_ne (by simp) _ _
  refine ⟨hthreaded, ?_, hfree ▸ h.free, hactive ▸ h.aligned, fun x => ?_⟩
  · intro w j hj
    by_cases hw : w = .unhandled
    · subst hw
      rw [Function.update_self] at hj
      exact h.le .unhandled j (by simp [hL, hj])
    · rw [Function.update_of_ne hw] at hj
      exact h.le w j hj
  · rw [hfree, hactive]
    exact h.cover x

/-- One step of the scan. -/
theorem handle_spec (hl : Linked V wide P u L s) (ho : Over V L done) (hs : Slots V wide P s done)
    {rest : List ℕ} (hL : L .unhandled = i :: rest) :
    (∀ s', handle V wide i (s.listNext i) s = some s' →
      ∃ L', Linked V wide P (s.listNext i) L' s' ∧ L' .unhandled = rest ∧
        Over V L' (fun j => done j ∨ j = i) ∧ Slots V wide P s' fun j => done j ∨ j = i) ∧
    (s.frame + 8 < 2 ^ 31 →
      ∃ s', handle V wide i (s.listNext i) s = some s' ∧ s'.frame ≤ s.frame + 8) := by
  have hi : i ∈ L .unhandled := by simp [hL]
  have hi0 : i ≠ 0 := hl.threaded.ne_zero hi
  have hsorted := ho.sorted
  rw [hL] at hsorted
  obtain ⟨hfirst, hsorted⟩ := List.pairwise_cons.mp hsorted
  have hnext := hl.next hL
  have hnew₀ : ∀ w, i ∉ Function.update L .unhandled rest w := by
    intro w hmem
    by_cases hw : w = .unhandled
    · subst hw
      rw [Function.update_self] at hmem
      have hnd := hl.threaded.nodup .unhandled
      rw [hL] at hnd
      exact (List.nodup_cons.mp hnd).1 hmem
    · rw [Function.update_of_ne hw] at hmem
      exact hw (hl.threaded.disjoint w .unhandled i hmem hi)
  have hlen := hnext.length_le .active
  obtain ⟨s₁, L₁, hex, hl₁, ⟨hframe₁, hpos₁⟩, hu₁, hact₁, hmem₁⟩ :=
    expire_spec (V.start i) hnext (List.nil_append _).symm rfl (Nat.lt_succ_of_le hlen)
  rw [Function.update_self] at hu₁
  have hnew₁ : ∀ w, i ∉ L₁ w := by
    intro w hmem
    obtain ⟨w', hmem'⟩ := hmem₁ w i hmem
    exact hnew₀ w' hmem'
  have hex' : expire V (V.start i) (V.count + 1) s.active 0 s = some s₁ := by simpa using hex
  -- what is done is still active, or over before `i` starts
  have hover : ∀ j, done j → j ∈ L₁ .active ∨ V.stop j ≤ V.start i := by
    intro j hj
    rcases ho.past j hj with hactive | hstop
    · refine hact₁ j ?_
      rw [Function.update_of_ne (by simp)]
      exact hactive
    · exact Or.inr (hstop i hi)
  have hcont : ∀ slot t, allocateSmallSpillSlot wide (V.size i) s₁ = some (slot, t) →
      ∃ s' L', place V i (s.listNext i) slot t = some s' ∧ s'.frame = t.frame ∧
        Linked V wide P (s.listNext i) L' s' ∧ L' .unhandled = rest ∧
        Over V L' (fun j => done j ∨ j = i) ∧ Slots V wide P s' fun j => done j ∨ j = i := by
    intro slot t halloc
    obtain ⟨G, hcarve, hal⟩ := allocateSmallSpillSlot_carve hl₁.free halloc
    have hl₂ := hl₁.carve hcarve
    have hnew₂ : ∀ w, i ∉ withFree L₁ G w := by
      intro w hmem
      cases w with
      | unhandled => exact hnew₁ .unhandled hmem
      | active => exact hnew₁ .active hmem
      | handled k => exact hnew₁ (.handled k) ((hcarve.suffix k).subset hmem)
    have hunh₂ : withFree L₁ G .unhandled = rest := hu₁
    obtain ⟨s', L', hplace, hl', ⟨hframe', hpos'⟩, hu', hact', hself⟩ :=
      place_spec hl₂ hnew₂ hi0 (hl.le .unhandled i hi) hal (hunh₂ ▸ hsorted)
    have hslots := (hs.mono (t := t) (hcarve.pos_eq.trans hpos₁)
      (hframe₁ ▸ hcarve.frame_le)).add hl₂ (fun h => ho.fresh i h hi) hal hover
    refine ⟨s', L', hplace, hframe', hl', hu'.trans hunh₂, ⟨?_, ?_, ?_⟩, ?_⟩
    · rw [hu', hunh₂]
      exact hsorted
    · rintro j (hj | rfl) hmem
      · rw [hu', hunh₂] at hmem
        exact ho.fresh j hj (by simp [hL, hmem])
      · rw [hu', hunh₂] at hmem
        exact hnew₁ .unhandled (hu₁ ▸ hmem)
    · rintro j (hj | rfl)
      · rcases hover j hj with hactive | hstop
        · exact Or.inl (hact' j hactive)
        · refine Or.inr fun k hk => le_trans hstop (hfirst k ?_)
          rwa [hu', hunh₂] at hk
      · rw [hu']
        exact hself
    · exact hslots.mono hpos' hframe'.ge
  refine ⟨fun s' hs' => ?_, fun hfit => ?_⟩
  · simp only [handle, hex', Option.bind_eq_bind, Option.bind_some, Option.bind_eq_some_iff] at hs'
    obtain ⟨⟨slot, t⟩, halloc, hplace⟩ := hs'
    obtain ⟨s'', L', hplace', _, hres⟩ := hcont slot t halloc
    rw [hplace', Option.some.injEq] at hplace
    exact ⟨L', hplace ▸ hres⟩
  · obtain ⟨slot, t, halloc, hle⟩ :=
      allocateSmallSpillSlot_total (s := s₁) wide (V.size i) (by omega)
    obtain ⟨s', L', hplace, hframe', _⟩ := hcont slot t halloc
    refine ⟨s', ?_, by omega⟩
    simp only [handle, hex', halloc, hplace, Option.bind_eq_bind, Option.bind_some]

/-- The whole scan. -/
theorem scan_spec {fuel : ℕ} (hl : Linked V wide P u L s) (ho : Over V L done)
    (hs : Slots V wide P s done) (hf : (L .unhandled).length < fuel) :
    (∀ s', scan V wide fuel u s = some s' →
      (∀ x, IrJit.cover P x ≤ cell 0 s'.frame x) ∧
        Slots V wide P s' fun j => done j ∨ j ∈ L .unhandled) ∧
    (s.frame + 8 * (L .unhandled).length < 2 ^ 31 → ∃ s', scan V wide fuel u s = some s') := by
  induction fuel generalizing L s u done with
  | zero => omega
  | succ fuel ih =>
    have hchain : Chain s.listNext u (L .unhandled) := hl.threaded.chain .unhandled
    rcases hL : L .unhandled with _ | ⟨i, rest⟩
    · have hu : u = 0 := hchain.eq_nil_iff.mpr hL
      rw [scan, if_pos hu]
      refine ⟨fun s' hs' => ?_, fun _ => ⟨s, rfl⟩⟩
      simp only [Option.some.injEq] at hs'
      subst hs'
      refine ⟨fun x => ?_, by simpa using hs⟩
      have := hl.cover x
      omega
    · rw [hL] at hchain hf
      obtain ⟨rfl, hu0, _⟩ := hchain
      rw [scan, if_neg hu0]
      obtain ⟨hpart, htotal⟩ := handle_spec hl ho hs hL
      refine ⟨fun s' hs' => ?_, fun hfit => ?_⟩
      · obtain ⟨s₁, hs₁, hs'⟩ := Option.bind_eq_some_iff.mp hs'
        obtain ⟨L₁, hl₁, hL₁, ho₁, hslots₁⟩ := hpart s₁ hs₁
        obtain ⟨hcov, hres⟩ := (ih hl₁ ho₁ hslots₁ (by rw [hL₁]; simpa using hf)).1 s' hs'
        refine ⟨hcov, ?_⟩
        have hsame : (fun j => done j ∨ j ∈ u :: rest) =
            fun j => (done j ∨ j = u) ∨ j ∈ L₁ .unhandled := by
          ext j
          rw [hL₁, List.mem_cons, or_assoc]
        rw [hsame]
        exact hres
      · rw [List.length_cons] at hfit
        obtain ⟨s₁, hs₁, hframe₁⟩ := htotal (by omega)
        obtain ⟨L₁, hl₁, hL₁, ho₁, hslots₁⟩ := hpart s₁ hs₁
        rw [hs₁, Option.bind_some]
        refine (ih hl₁ ho₁ hslots₁ (by rw [hL₁]; simpa using hf)).2 ?_
        rw [hL₁]
        omega

end Scan

end IrJit.Ra.Spill
