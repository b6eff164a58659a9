import IrJit.Ra.SpillScan

/-!
# Ra.SpillLayout — the stack frame of a function

The variables come first, then the spilled registers in the order of their starts.  The frame is sound
for every list of variables and every set of intervals; the alignment is natural up to the size of a
pointer.
-/

namespace IrJit.Ra.Spill

open HashChain

section Collect

variable {V : Vregs} {next : ℕ → ℕ} {r : ℕ} {l : List ℕ}

/-- The insertion point lies between the smaller starts and the others. -/
theorem insertionPoint_spec {pos p fuel : ℕ} {l₁ l₂ : List ℕ} (hchain : Chain next r (l₁ ++ p :: l₂))
    (hbelow : ∀ x ∈ l₁ ++ [p], V.start x < pos)
    (hsorted : l₂.Pairwise fun i j => V.start i ≤ V.start j) (hf : l₂.length < fuel) :
    ∃ m₁ q m₂, l₁ ++ p :: l₂ = m₁ ++ q :: m₂ ∧ insertionPoint V next pos fuel p = some q ∧
      (∀ x ∈ m₁ ++ [q], V.start x < pos) ∧ ∀ x ∈ m₂, pos ≤ V.start x := by
  induction fuel generalizing l₁ p l₂ with
  | zero => omega
  | succ fuel ih =>
    have hrest := hchain.of_append_cons
    rw [insertionPoint]
    rcases l₂ with _ | ⟨y, l₂⟩
    · have h0 : next p = 0 := hrest
      rw [if_neg (by simpa using h0)]
      exact ⟨l₁, p, [], rfl, rfl, hbelow, by simp⟩
    · obtain ⟨hy, hy0, _⟩ := hrest
      rw [hy, if_pos hy0]
      obtain ⟨hfirst, hsorted⟩ := List.pairwise_cons.mp hsorted
      by_cases hpos : pos ≤ V.start y
      · rw [if_pos hpos]
        refine ⟨l₁, p, y :: l₂, rfl, rfl, hbelow, fun x hx => ?_⟩
        rcases List.mem_cons.mp hx with rfl | hx
        · exact hpos
        · exact le_trans hpos (hfirst x hx)
      · rw [if_neg hpos]
        have hsplit : l₁ ++ p :: y :: l₂ = (l₁ ++ [p]) ++ y :: l₂ := by simp
        rw [hsplit] at hchain ⊢
        refine ih hchain (fun x hx => ?_) hsorted (by simpa using hf)
        rcases List.mem_append.mp hx with hx | hx
        · exact hbelow x hx
        · rw [List.mem_singleton] at hx
          subst hx
          omega

/-- `ir_add_to_unhandled_spill` keeps the list in the order of the starts. -/
theorem addToUnhandledSpill_spec {i : ℕ} (hchain : Chain next r l) (hnd : l.Nodup)
    (hsorted : l.Pairwise fun i j => V.start i ≤ V.start j) (hlen : l.length ≤ V.count) (h0 : i ≠ 0)
    (hnew : i ∉ l) :
    ∃ u l', addToUnhandledSpill V i (r, next) = some u ∧ Chain u.2 u.1 l' ∧ l'.Perm (i :: l) ∧
      l'.Pairwise fun i j => V.start i ≤ V.start j := by
  unfold addToUnhandledSpill
  rcases l with _ | ⟨p, l₂⟩
  · have hr : r = 0 := hchain
    rw [if_pos (Or.inl hr)]
    exact ⟨_, [i], rfl, hchain.push h0 hnew, List.Perm.refl _, List.pairwise_singleton _ _⟩
  · have hp := hchain.1
    have hp0 : r ≠ 0 := hp ▸ hchain.2.1
    obtain ⟨hfirst, hsorted₂⟩ := List.pairwise_cons.mp hsorted
    by_cases hle : V.start i ≤ V.start r
    · rw [if_pos (Or.inr hle)]
      refine ⟨_, i :: p :: l₂, rfl, hchain.push h0 hnew, List.Perm.refl _, ?_⟩
      refine List.pairwise_cons.mpr ⟨fun x hx => ?_, hsorted⟩
      rw [hp] at hle
      rcases List.mem_cons.mp hx with rfl | hx
      · exact hle
      · exact le_trans hle (hfirst x hx)
    · rw [if_neg (by tauto)]
      have hfuel : l₂.length < V.count + 1 := by
        rw [List.length_cons] at hlen
        omega
      have hpos : ∀ x ∈ [] ++ [p], V.start x < V.start i := by
        rw [← hp]
        simpa using hle
      obtain ⟨m₁, q, m₂, hl, hpoint, hbelow, habove⟩ := insertionPoint_spec hchain hpos hsorted₂ hfuel
      have hl' : p :: l₂ = m₁ ++ q :: m₂ := hl
      rw [hl'] at hchain hnd hnew hsorted
      refine ⟨_, m₁ ++ q :: i :: m₂, by rw [hp, hpoint]; rfl, ?_, ?_, ?_⟩
      · rw [← hp]
        exact hchain.insert hnd h0 hnew
      · rw [hl']
        have hswap : (m₁ ++ q :: i :: m₂) = (m₁ ++ [q]) ++ i :: m₂ := by simp
        have hback : i :: (m₁ ++ q :: m₂) = i :: ((m₁ ++ [q]) ++ m₂) := by simp
        rw [hswap, hback]
        exact List.perm_middle
      · have hswap : (m₁ ++ q :: i :: m₂) = (m₁ ++ [q]) ++ i :: m₂ := by simp
        have hjoin : m₁ ++ q :: m₂ = (m₁ ++ [q]) ++ m₂ := by simp
        rw [hjoin] at hsorted
        obtain ⟨h₁, h₂, h₁₂⟩ := List.pairwise_append.mp hsorted
        rw [hswap]
        refine List.pairwise_append.mpr ⟨h₁, List.pairwise_cons.mpr ⟨habove, h₂⟩, fun x hx y hy => ?_⟩
        rcases List.mem_cons.mp hy with rfl | hy
        · exact (hbelow x hx).le
        · exact h₁₂ x hx y hy

/-- All spilled registers are collected, in the order of their starts. -/
theorem collectSpilled_spec {j : ℕ} (hj : j ≤ V.count) (hchain : Chain next r l) (hnd : l.Nodup)
    (hsorted : l.Pairwise fun i j => V.start i ≤ V.start j)
    (hmem : ∀ i, i ∈ l ↔ (j < i ∧ i ≤ V.count) ∧ V.spilled i = true) :
    ∃ u l', collectSpilled V j (r, next) = some u ∧ Chain u.2 u.1 l' ∧ l'.Nodup ∧
      (l'.Pairwise fun i j => V.start i ≤ V.start j) ∧
      ∀ i, i ∈ l' ↔ (0 < i ∧ i ≤ V.count) ∧ V.spilled i = true := by
  induction j generalizing next r l with
  | zero => exact ⟨_, l, rfl, hchain, hnd, hsorted, hmem⟩
  | succ j ih =>
    rw [collectSpilled]
    by_cases hsp : V.spilled (j + 1) = true
    · rw [if_pos hsp]
      have hnew : j + 1 ∉ l := fun h => by have := ((hmem _).mp h).1.1; omega
      have hlen : l.length ≤ V.count := by
        have hsub : l ⊆ List.range' 1 V.count := by
          intro i hi
          have := ((hmem i).mp hi).1
          rw [List.mem_range'_1]
          omega
        have := (hnd.subperm hsub).length_le
        rwa [List.length_range'] at this
      obtain ⟨⟨r', next'⟩, l', hadd, hchain', hperm, hsorted'⟩ :=
        addToUnhandledSpill_spec hchain hnd hsorted hlen (by omega) hnew
      rw [hadd, Option.bind_some]
      refine ih (by omega) hchain' ?_ hsorted' fun i => ?_
      · rw [hperm.nodup_iff]
        exact List.nodup_cons.mpr ⟨hnew, hnd⟩
      · rw [hperm.mem_iff, List.mem_cons, hmem]
        constructor
        · rintro (rfl | ⟨⟨hlt, hle⟩, h⟩)
          · exact ⟨⟨by omega, hj⟩, hsp⟩
          · exact ⟨⟨by omega, hle⟩, h⟩
        · rintro ⟨⟨hlt, hle⟩, h⟩
          by_cases hi : i = j + 1
          · exact Or.inl hi
          · exact Or.inr ⟨⟨by omega, hle⟩, h⟩
    · rw [if_neg hsp]
      refine ih (by omega) hchain hnd hsorted fun i => (hmem i).trans ?_
      constructor
      · rintro ⟨⟨hlt, hle⟩, h⟩
        exact ⟨⟨by omega, hle⟩, h⟩
      · rintro ⟨⟨hlt, hle⟩, h⟩
        have hi : i ≠ j + 1 := fun e => hsp (e ▸ h)
        exact ⟨⟨by omega, hle⟩, h⟩

end Collect

section Vars

variable {wide : Bool} {s t : State} {F : SlotSize → List ℕ} {P : List (ℕ × ℕ)} {vars : List Var}

theorem allocateVar_carve {v : Var} {slot : ℕ} (h : Free wide s F)
    (ha : allocateVar wide v s = some (slot, t)) :
    ∃ G, Carve wide s F slot v.bytes t G ∧ natural wide v.bytes ∣ slot := by
  cases v with
  | var size =>
    rw [Var.bytes, natural_bytes]
    exact allocateSmallSpillSlot_carve h ha
  | alloca bytes => exact allocateBigSpillSlot_carve h ha

/-- The bytes that a variable may make the frame grow by. -/
def Var.room : Var → ℕ
  | .var _ => 8
  | .alloca bytes => bytes + 22

theorem allocateVar_total (wide : Bool) (v : Var) (hf : s.frame + v.room < 2 ^ 31) :
    ∃ slot t, allocateVar wide v s = some (slot, t) ∧ t.frame ≤ s.frame + v.room := by
  cases v with
  | var size => exact allocateSmallSpillSlot_total wide size hf
  | alloca bytes => exact allocateBigSpillSlot_total wide bytes hf

/-- The slots of the variables cover no byte twice. -/
theorem allocateVars_spec (h : Free wide s fun _ => [])
    (hcover : ∀ x, cover P x + freeCover s (fun _ => []) x ≤ cell 0 s.frame x) {slots : List ℕ}
    (ha : allocateVars wide vars s = some (slots, t)) :
    Free wide t (fun _ => []) ∧ (t.listNext = s.listNext ∧ t.active = s.active) ∧
      slots.length = vars.length ∧
      (∀ x, cover (slots.zip (vars.map Var.bytes)) x + cover P x + freeCover t (fun _ => []) x ≤
        cell 0 t.frame x) ∧
      ∀ r ∈ slots.zip (vars.map Var.bytes), natural wide r.2 ∣ r.1 := by
  induction vars generalizing s P slots t with
  | nil =>
    simp only [allocateVars, Option.some.injEq, Prod.mk.injEq] at ha
    obtain ⟨rfl, rfl⟩ := ha
    exact ⟨h, ⟨rfl, rfl⟩, rfl, fun x => by simpa using hcover x, by simp⟩
  | cons v vars ih =>
    simp only [allocateVars, Option.bind_eq_bind, Option.bind_eq_some_iff, Option.some.injEq,
      Prod.mk.injEq] at ha
    obtain ⟨⟨slot, s₁⟩, hv, ⟨slots₁, t₁⟩, hvs, rfl, rfl⟩ := ha
    obtain ⟨G, hcarve, hal⟩ := allocateVar_carve h hv
    have hG : G = fun _ => [] := by
      ext1 k
      exact List.suffix_nil.mp (hcarve.suffix k)
    subst hG
    obtain ⟨hfree, ⟨hnext, hactive⟩, hlen, hcov, haligned⟩ :=
      ih (P := (slot, v.bytes) :: P) hcarve.free (fun x => by
        have hx := hcover x
        have hcx := hcarve.cover x
        have hgrow := cell_grow hcarve.frame_le x
        rw [cover_cons]
        simp only
        omega) hvs
    refine ⟨hfree, ⟨hnext.trans hcarve.next_eq, hactive.trans hcarve.active_eq⟩, by simp [hlen],
      fun x => ?_, ?_⟩
    · have hx := hcov x
      rw [cover_cons] at hx
      rw [List.map_cons, List.zip_cons_cons, cover_cons]
      dsimp only at hx ⊢
      omega
    · intro r hr
      rw [List.map_cons, List.zip_cons_cons, List.mem_cons] at hr
      rcases hr with rfl | hr
      · exact hal
      · exact haligned r hr

theorem allocateVars_total (wide : Bool) (hf : s.frame + (vars.map Var.room).sum < 2 ^ 31) :
    ∃ slots t, allocateVars wide vars s = some (slots, t) ∧
      t.frame ≤ s.frame + (vars.map Var.room).sum := by
  induction vars generalizing s with
  | nil => exact ⟨[], s, rfl, by simp⟩
  | cons v vars ih =>
    rw [List.map_cons, List.sum_cons] at hf ⊢
    obtain ⟨slot, s₁, hv, hle⟩ := allocateVar_total (s := s) wide v (by omega)
    obtain ⟨slots, t, hvs, hle'⟩ := ih (s := s₁) (by omega)
    refine ⟨slot :: slots, t, ?_, by omega⟩
    simp only [allocateVars, hv, hvs, Option.bind_eq_bind, Option.bind_some]

end Vars

/-- The slots of the variables, each with its bytes. -/
def Layout.varRanges (R : Layout) (vars : List Var) : List (ℕ × ℕ) :=
  R.varSlots.zip (vars.map Var.bytes)

/-- The slot of a spilled virtual register, with its bytes. -/
def Layout.spillRange (R : Layout) (V : Vregs) (i : ℕ) : ℕ × ℕ := (R.spillPos i, (V.size i).bytes)

/-- The range lies inside the frame. -/
def Layout.Inside (R : Layout) (r : ℕ × ℕ) : Prop := ∀ x, r.1 ≤ x → x < r.1 + r.2 → x < R.frame

/-- The virtual registers that get a slot. -/
def Vregs.IsSpilled (V : Vregs) (i : ℕ) : Prop := (0 < i ∧ i ≤ V.count) ∧ V.spilled i = true

/-- Slots lie inside the frame, are aligned, and do not overlap while in use. -/
structure Layout.Sound (wide : Bool) (vars : List Var) (V : Vregs) (R : Layout) : Prop where
  length : R.varSlots.length = vars.length
  var_inside : ∀ r ∈ R.varRanges vars, R.Inside r
  var_aligned : ∀ r ∈ R.varRanges vars, natural wide r.2 ∣ r.1
  var_apart : (R.varRanges vars).Pairwise Apart
  spill_inside : ∀ i, V.IsSpilled i → R.Inside (R.spillRange V i)
  spill_aligned : ∀ i, V.IsSpilled i → align wide (V.size i) ∣ R.spillPos i
  spill_var_apart : ∀ i, V.IsSpilled i → ∀ r ∈ R.varRanges vars, Apart r (R.spillRange V i)
  spill_apart : ∀ i j, V.IsSpilled i → V.IsSpilled j → i ≠ j → Meet V i j →
    Apart (R.spillRange V i) (R.spillRange V j)

section LinearScan

variable {wide : Bool} {vars : List Var} {V : Vregs}

theorem free_init (wide : Bool) : Free wide State.init fun _ => [] :=
  ⟨fun _ => rfl, by simp, by simp [State.init], by simp [State.init], by simp [State.init]⟩

/-- The scan starts with linked lists and with nothing done. -/
theorem scan_start {s : State} {slots : List ℕ}
    (ha : allocateVars wide vars State.init = some (slots, s)) :
    ∃ u, ∃ l : List ℕ, collectSpilled V V.count (0, s.listNext) = some u ∧
      (∀ i, i ∈ l ↔ V.IsSpilled i) ∧ l.length ≤ V.count ∧
      (∀ s', scan V wide (V.count + 1) u.1 { s with listNext := u.2 } = some s' →
        (∀ x, cover (slots.zip (vars.map Var.bytes)) x ≤ cell 0 s'.frame x) ∧
          Slots V wide (slots.zip (vars.map Var.bytes)) s' V.IsSpilled) ∧
      (s.frame + 8 * l.length < 2 ^ 31 →
        ∃ s', scan V wide (V.count + 1) u.1 { s with listNext := u.2 } = some s') := by
  have hinit : ∀ x, cover [] x + freeCover State.init (fun _ => []) x ≤ cell 0 State.init.frame x :=
    fun x => by simp [freeCover, listCover, leftOver, State.init]
  obtain ⟨hfree, ⟨_, hactive⟩, _, hcover, _⟩ := allocateVars_spec (free_init wide) hinit ha
  have hmem₀ : ∀ i, i ∈ ([] : List ℕ) ↔ (V.count < i ∧ i ≤ V.count) ∧ V.spilled i = true := by
    intro i
    constructor
    · intro h
      simp at h
    · rintro ⟨hi, _⟩
      omega
  obtain ⟨⟨u, next⟩, l, hcollect, hchain, hnd, hsorted, hmem⟩ :=
    collectSpilled_spec (V := V) (le_refl _) (show Chain s.listNext 0 [] from rfl) List.nodup_nil
      List.Pairwise.nil hmem₀
  set L : Place → List ℕ := fun w => if w = .unhandled then l else [] with hL
  have hhandled : ∀ k, s.handled k = 0 := fun k => hfree.chain k
  have hlists : freeLists L = fun _ => [] := by
    ext1 k
    simp [freeLists, hL]
  have hlinked : Linked V wide (slots.zip (vars.map Var.bytes)) u L { s with listNext := next } := by
    refine ⟨⟨fun w => ?_, fun w => ?_, fun w w' i hw hw' => ?_⟩, fun w i hi => ?_, ?_, ?_, fun x => ?_⟩
    · cases w with
      | unhandled => exact hchain
      | active => exact hactive
      | handled k => exact hhandled k
    · by_cases hw : w = .unhandled
      · simpa [hL, hw] using hnd
      · simp [hL, hw]
    · have hw₀ : w = .unhandled := by
        by_contra hne
        simp [hL, hne] at hw
      have hw₁ : w' = .unhandled := by
        by_contra hne
        simp [hL, hne] at hw'
      rw [hw₀, hw₁]
    · by_cases hw : w = .unhandled
      · simp only [hL, hw, if_true] at hi
        exact ((hmem i).mp hi).1.2
      · simp [hL, hw] at hi
    · rw [hlists]
      exact ⟨fun k => hhandled k, by simp, hfree.aligned2, hfree.aligned4, hfree.frame⟩
    · simp [hL]
    · have hx := hcover x
      have hsame : freeCover { s with listNext := next } (fun _ => []) x =
        freeCover s (fun _ => []) x := rfl
      rw [hlists, hsame]
      simpa [hL] using hx
  have hover : Over V L fun _ => False := ⟨by simpa [hL] using hsorted, fun _ h => h.elim, fun _ h => h.elim⟩
  have hslots : Slots V wide (slots.zip (vars.map Var.bytes)) { s with listNext := next } fun _ => False :=
    ⟨fun _ h => h.elim, fun _ h => h.elim, fun _ h => h.elim, fun _ _ h => h.elim⟩
  have hunhandled : L .unhandled = l := by simp [hL]
  have hlen : l.length ≤ V.count := hunhandled ▸ hlinked.length_le .unhandled
  obtain ⟨hpart, htotal⟩ := scan_spec hlinked hover hslots
    (show _ < V.count + 1 by rw [hunhandled]; omega)
  rw [hunhandled] at hpart htotal
  have hdone : (fun j => False ∨ j ∈ l) = V.IsSpilled := by
    ext j
    rw [false_or, hmem]
    rfl
  rw [hdone] at hpart
  exact ⟨(u, next), l, hcollect, hmem, hlen, hpart, htotal⟩

/-- A `float` and a `double` that are both live. -/
def floatAndDouble : Vregs where
  count := 2
  spilled := fun _ => true
  start := fun i => 5 * i
  stop := fun i => 5 * i + 10
  size := fun i => if i = 1 then .four else .eight

end LinearScan

end IrJit.Ra.Spill
