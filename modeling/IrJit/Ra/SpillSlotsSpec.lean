import IrJit.Lib.Cells
import IrJit.Lib.Threaded
import IrJit.Ra.SpillSlots

/-!
# Ra.SpillSlotsSpec — what the allocation of one slot does

A slot is carved out of the free bytes (the free lists and the three left-overs) and the bytes the
frame grows by.  `Carve` says that no byte is handed out or kept free more often than it was free
before.
-/

namespace IrJit.Ra.Spill

open HashChain

/-- The alignment of a slot of size `k`: its size, but not more than a pointer. -/
def align (wide : Bool) (k : SlotSize) : ℕ := if wide then k.bytes else min k.bytes 4

/-- How often the left-over at `u` covers `x`; `0` is no left-over. -/
def leftOver (u k x : ℕ) : ℕ := if u = 0 then 0 else cell u k x

/-- How often the slots of a free list cover `x`. -/
def listCover (pos : ℕ → ℕ) (k : SlotSize) (l : List ℕ) (x : ℕ) : ℕ :=
  cover (l.map fun i => (pos i, k.bytes)) x

/-- How often the free bytes cover `x`. -/
def freeCover (s : State) (F : SlotSize → List ℕ) (x : ℕ) : ℕ :=
  listCover s.spillPos .one (F .one) x + listCover s.spillPos .two (F .two) x +
    listCover s.spillPos .four (F .four) x + listCover s.spillPos .eight (F .eight) x +
    leftOver s.unused1 1 x + leftOver s.unused2 2 x + leftOver s.unused4 4 x

/-- The free lists, and what is free is aligned. -/
structure Free (wide : Bool) (s : State) (F : SlotSize → List ℕ) : Prop where
  chain : ∀ k, Chain s.listNext (s.handled k) (F k)
  aligned : ∀ k, ∀ i ∈ F k, align wide k ∣ s.spillPos i
  aligned2 : 2 ∣ s.unused2
  aligned4 : 4 ∣ s.unused4
  frame : align wide .eight ∣ s.frame

/-- `r` is a range of `k` bytes carved out of the free bytes of `s` and the growth of its frame. -/
structure Carve (wide : Bool) (s : State) (F : SlotSize → List ℕ) (r k : ℕ) (s' : State)
    (F' : SlotSize → List ℕ) : Prop where
  free : Free wide s' F'
  next_eq : s'.listNext = s.listNext
  pos_eq : s'.spillPos = s.spillPos
  active_eq : s'.active = s.active
  suffix : ∀ k, F' k <:+ F k
  frame_le : s.frame ≤ s'.frame
  cover : ∀ x, cell r k x + freeCover s' F' x ≤
    freeCover s F x + cell s.frame (s'.frame - s.frame) x

section Carve

variable {wide : Bool} {s t : State} {F G : SlotSize → List ℕ} {r : ℕ}

theorem listCover_cons (pos : ℕ → ℕ) (k : SlotSize) (i : ℕ) (l : List ℕ) (x : ℕ) :
    listCover pos k (i :: l) x = cell (pos i) k.bytes x + listCover pos k l x := by
  simp [listCover]

/-- The part of the cover that comes from the free lists, one list apart. -/
theorem freeCover_update (s : State) (F : SlotSize → List ℕ) (k : SlotSize) (l : List ℕ) (x : ℕ) :
    freeCover s (Function.update F k l) x + listCover s.spillPos k (F k) x =
      freeCover s F x + listCover s.spillPos k l x := by
  cases k <;> simp [freeCover] <;> omega

theorem align_four (wide : Bool) : align wide .four = 4 := by cases wide <;> rfl

/-- The first slot of a free list. -/
theorem carve_pop (h : Free wide s F) {k : SlotSize} (hk : s.handled k ≠ 0) :
    ∃ G, Carve wide s F (s.peek k) k.bytes (s.pop k) G ∧ align wide k ∣ s.peek k := by
  rcases hl : F k with _ | ⟨i, l⟩
  · exact absurd ((h.chain k).eq_nil_iff.mpr hl) hk
  have hchain := h.chain k
  rw [hl] at hchain
  obtain ⟨hi, hi0, hrest⟩ := hchain
  have hsuffix : ∀ j, Function.update F k l j <:+ F j := by
    intro j
    by_cases hj : j = k
    · subst hj
      rw [Function.update_self, hl]
      exact List.suffix_cons i l
    · simp only [Function.update_of_ne hj, List.suffix_rfl]
  refine ⟨Function.update F k l, ⟨⟨?_, ?_, h.aligned2, h.aligned4, h.frame⟩, rfl, rfl, rfl, hsuffix,
    le_refl _, ?_⟩, ?_⟩
  · intro j
    by_cases hj : j = k
    · subst hj
      simp only [State.pop, Function.update_self, hi]
      exact hrest
    · simp only [State.pop, Function.update_of_ne hj]
      exact h.chain j
  · exact fun j i hi => h.aligned j i ((hsuffix j).subset hi)
  · intro x
    have hcover := freeCover_update s F k l x
    rw [hl, listCover_cons] at hcover
    have hpeek : s.peek k = s.spillPos i := by rw [State.peek, hi]
    have hpop : freeCover (s.pop k) (Function.update F k l) x =
      freeCover s (Function.update F k l) x := rfl
    rw [hpeek, hpop]
    omega
  · rw [State.peek, hi]
    exact h.aligned k i (by simp [hl])

/-- The left-over of four bytes. -/
theorem carve_unused4 (h : Free wide s F) (h4 : s.unused4 ≠ 0) :
    Carve wide s F s.unused4 4 { s with unused4 := 0 } F where
  free := ⟨h.chain, h.aligned, h.aligned2, by simp, h.frame⟩
  next_eq := rfl
  pos_eq := rfl
  active_eq := rfl
  suffix := fun k => List.suffix_rfl
  frame_le := le_refl _
  cover := by
    intro x
    simp [freeCover, leftOver, h4]
    omega

/-- The left-over of two bytes. -/
theorem carve_unused2 (h : Free wide s F) (h2 : s.unused2 ≠ 0) :
    Carve wide s F s.unused2 2 { s with unused2 := 0 } F where
  free := ⟨h.chain, h.aligned, by simp, h.aligned4, h.frame⟩
  next_eq := rfl
  pos_eq := rfl
  active_eq := rfl
  suffix := fun k => List.suffix_rfl
  frame_le := le_refl _
  cover := by
    intro x
    simp [freeCover, leftOver, h2]
    omega

/-- The left-over byte. -/
theorem carve_unused1 (h : Free wide s F) (h1 : s.unused1 ≠ 0) :
    Carve wide s F s.unused1 1 { s with unused1 := 0 } F where
  free := ⟨h.chain, h.aligned, h.aligned2, h.aligned4, h.frame⟩
  next_eq := rfl
  pos_eq := rfl
  active_eq := rfl
  suffix := fun k => List.suffix_rfl
  frame_le := le_refl _
  cover := by
    intro x
    simp [freeCover, leftOver, h1]
    omega

/-- The bytes the frame grows by. -/
theorem carve_fresh (h : Free wide s F) {p k f : ℕ} (hp : s.frame ≤ p) (hk : p + k ≤ f)
    (hf : align wide .eight ∣ f) : Carve wide s F p k { s with frame := f } F where
  free := ⟨h.chain, h.aligned, h.aligned2, h.aligned4, hf⟩
  next_eq := rfl
  pos_eq := rfl
  active_eq := rfl
  suffix := fun k => List.suffix_rfl
  frame_le := by simp only; omega
  cover := by
    intro x
    have : cell p k x ≤ cell s.frame (f - s.frame) x := cell_le_of_within hp (by omega)
    have hsame : freeCover { s with frame := f } F x = freeCover s F x := rfl
    rw [hsame]
    simp only
    omega

/-- The upper half of eight bytes is left over. -/
theorem Carve.halve8 (h : Carve wide s F r 8 t G) (hr : 4 ∣ r) (h4 : t.unused4 = 0) :
    Carve wide s F r 4 { t with unused4 := r + 4 } G where
  free := ⟨h.free.chain, h.free.aligned, h.free.aligned2, show 4 ∣ r + 4 by omega, h.free.frame⟩
  next_eq := h.next_eq
  pos_eq := h.pos_eq
  active_eq := h.active_eq
  suffix := h.suffix
  frame_le := h.frame_le
  cover := by
    intro x
    have hx := h.cover x
    have hsplit : cell r 8 x = cell r 4 x + cell (r + 4) 4 x := cell_split r 4 4 x
    simp only [freeCover, leftOver, h4] at hx ⊢
    simp at hx ⊢
    omega

/-- The upper half of four bytes is left over. -/
theorem Carve.halve4 (h : Carve wide s F r 4 t G) (hr : 2 ∣ r) (h2 : t.unused2 = 0) :
    Carve wide s F r 2 { t with unused2 := r + 2 } G where
  free := ⟨h.free.chain, h.free.aligned, show 2 ∣ r + 2 by omega, h.free.aligned4, h.free.frame⟩
  next_eq := h.next_eq
  pos_eq := h.pos_eq
  active_eq := h.active_eq
  suffix := h.suffix
  frame_le := h.frame_le
  cover := by
    intro x
    have hx := h.cover x
    have hsplit : cell r 4 x = cell r 2 x + cell (r + 2) 2 x := cell_split r 2 2 x
    simp only [freeCover, leftOver, h2] at hx ⊢
    simp at hx ⊢
    omega

/-- The upper half of two bytes is left over. -/
theorem Carve.halve2 (h : Carve wide s F r 2 t G) (h1 : t.unused1 = 0) :
    Carve wide s F r 1 { t with unused1 := r + 1 } G where
  free := ⟨h.free.chain, h.free.aligned, h.free.aligned2, h.free.aligned4, h.free.frame⟩
  next_eq := h.next_eq
  pos_eq := h.pos_eq
  active_eq := h.active_eq
  suffix := h.suffix
  frame_le := h.frame_le
  cover := by
    intro x
    have hx := h.cover x
    have hsplit : cell r 2 x = cell r 1 x + cell (r + 1) 1 x := cell_split r 1 1 x
    simp only [freeCover, leftOver, h1] at hx ⊢
    simp at hx ⊢
    omega

end Carve

section Allocate

variable {wide : Bool} {s t : State} {F : SlotSize → List ℕ} {r k n : ℕ} {size : SlotSize}

theorem add32_eq_some {a b c : ℕ} : add32 a b = some c ↔ a + b < 2 ^ 31 ∧ a + b = c := by
  unfold add32
  split_ifs with h
  · exact ⟨fun hc => ⟨h, Option.some.inj hc⟩, fun hc => congrArg some hc.2⟩
  · exact ⟨fun hc => absurd hc (by simp), fun hc => absurd hc.1 h⟩

theorem align_dvd_of_eight (h : align wide .eight ∣ n) (size : SlotSize) : align wide size ∣ n := by
  refine Nat.dvd_trans ?_ h
  cases wide <;> cases size <;> decide

theorem align_two (wide : Bool) : align wide .two = 2 := by cases wide <;> rfl

theorem align_one (wide : Bool) : align wide .one = 1 := by cases wide <;> rfl

/-- A new unit of the frame, seen as four bytes. -/
theorem carve_grow (h : Free wide s F) (h4 : s.unused4 = 0) (hg : s.grow wide = some t) :
    Carve wide s F s.frame 4 t F ∧ t.unused2 = s.unused2 ∧ t.unused1 = s.unused1 := by
  have h4f : 4 ∣ s.frame := by
    rw [← align_four wide]
    exact align_dvd_of_eight h.frame .four
  unfold State.grow at hg
  cases wide with
  | true =>
    simp only [if_true, Option.map_eq_some_iff] at hg
    obtain ⟨f, hf, rfl⟩ := hg
    obtain ⟨_, rfl⟩ := add32_eq_some.mp hf
    have hf8 : align true .eight ∣ s.frame + 8 := by
      have := h.frame
      simp only [align, SlotSize.bytes, if_true] at this ⊢
      omega
    exact ⟨(carve_fresh h (le_refl _) (le_refl _) hf8).halve8 h4f h4, rfl, rfl⟩
  | false =>
    simp only [Bool.false_eq_true, if_false, Option.map_eq_some_iff] at hg
    obtain ⟨f, hf, rfl⟩ := hg
    obtain ⟨_, rfl⟩ := add32_eq_some.mp hf
    have hf4 : align false .eight ∣ s.frame + 4 := by
      have hal : align false .eight = 4 := rfl
      rw [hal]
      omega
    exact ⟨carve_fresh h (le_refl _) (le_refl _) hf4, rfl, rfl⟩

/-- A slot handed out is carved out of what was free, and aligned. -/
theorem allocateSmallSpillSlot_carve (h : Free wide s F)
    (ha : allocateSmallSpillSlot wide size s = some (r, t)) :
    ∃ G, Carve wide s F r size.bytes t G ∧ align wide size ∣ r := by
  unfold allocateSmallSpillSlot at ha
  by_cases hh : s.handled size ≠ 0
  · rw [if_pos hh] at ha
    simp only [Option.some.injEq, Prod.mk.injEq] at ha
    obtain ⟨rfl, rfl⟩ := ha
    exact carve_pop h hh
  rw [if_neg hh] at ha
  have hframe : ∀ k, align wide k ∣ s.frame := align_dvd_of_eight h.frame
  cases size with
  | eight =>
    simp only [Option.map_eq_some_iff, Prod.mk.injEq] at ha
    obtain ⟨f, hf, rfl, rfl⟩ := ha
    obtain ⟨_, rfl⟩ := add32_eq_some.mp hf
    have hf8 : align wide .eight ∣ s.frame + 8 := by
      refine Nat.dvd_add h.frame ?_
      cases wide <;> decide
    exact ⟨F, carve_fresh h (le_refl _) (le_refl _) hf8, h.frame⟩
  | four =>
    rw [align_four]
    simp only at ha
    split_ifs at ha with h4 h8
    · simp only [Option.some.injEq, Prod.mk.injEq] at ha
      obtain ⟨rfl, rfl⟩ := ha
      exact ⟨F, carve_unused4 h h4, h.aligned4⟩
    · simp only [Option.some.injEq, Prod.mk.injEq] at ha
      obtain ⟨rfl, rfl⟩ := ha
      obtain ⟨G, hG, hal⟩ := carve_pop h h8
      have hal4 : 4 ∣ s.peek .eight := (align_four wide) ▸ align_dvd_of_eight hal .four
      exact ⟨G, hG.halve8 hal4 (not_ne_iff.mp h4), hal4⟩
    · simp only [Option.map_eq_some_iff, Prod.mk.injEq] at ha
      obtain ⟨t', ht, rfl, rfl⟩ := ha
      exact ⟨F, (carve_grow h (not_ne_iff.mp h4) ht).1, (align_four wide) ▸ hframe .four⟩
  | two =>
    rw [align_two]
    simp only at ha
    split_ifs at ha with h2 h4 hh4 h8
    · simp only [Option.some.injEq, Prod.mk.injEq] at ha
      obtain ⟨rfl, rfl⟩ := ha
      exact ⟨F, carve_unused2 h h2, h.aligned2⟩
    · simp only [Option.some.injEq, Prod.mk.injEq] at ha
      obtain ⟨rfl, rfl⟩ := ha
      have hal2 : 2 ∣ s.unused4 := Nat.dvd_trans (by decide) h.aligned4
      exact ⟨F, (carve_unused4 h h4).halve4 hal2 (not_ne_iff.mp h2), hal2⟩
    · simp only [Option.some.injEq, Prod.mk.injEq] at ha
      obtain ⟨rfl, rfl⟩ := ha
      obtain ⟨G, hG, hal⟩ := carve_pop h hh4
      rw [align_four] at hal
      have hal2 : 2 ∣ s.peek .four := Nat.dvd_trans (by decide) hal
      exact ⟨G, hG.halve4 hal2 (not_ne_iff.mp h2), hal2⟩
    · simp only [Option.some.injEq, Prod.mk.injEq] at ha
      obtain ⟨rfl, rfl⟩ := ha
      obtain ⟨G, hG, hal⟩ := carve_pop h h8
      have hal4 : 4 ∣ s.peek .eight := (align_four wide) ▸ align_dvd_of_eight hal .four
      have hal2 : 2 ∣ s.peek .eight := Nat.dvd_trans (by decide) hal4
      exact ⟨G, (hG.halve8 hal4 (not_ne_iff.mp h4)).halve4 hal2 (not_ne_iff.mp h2), hal2⟩
    · simp only [Option.map_eq_some_iff, Prod.mk.injEq] at ha
      obtain ⟨t', ht, rfl, rfl⟩ := ha
      obtain ⟨hG, ht2, _⟩ := carve_grow h (not_ne_iff.mp h4) ht
      have hal2 : 2 ∣ s.frame := (align_two wide) ▸ hframe .two
      exact ⟨F, hG.halve4 hal2 (ht2.trans (not_ne_iff.mp h2)), hal2⟩
  | one =>
    rw [align_one]
    simp only at ha
    split_ifs at ha with h1 h2 h4 hh2 hh4 h8
    · simp only [Option.some.injEq, Prod.mk.injEq] at ha
      obtain ⟨rfl, rfl⟩ := ha
      exact ⟨F, carve_unused1 h h1, Nat.one_dvd _⟩
    · simp only [Option.some.injEq, Prod.mk.injEq] at ha
      obtain ⟨rfl, rfl⟩ := ha
      exact ⟨F, (carve_unused2 h h2).halve2 (not_ne_iff.mp h1), Nat.one_dvd _⟩
    · simp only [Option.some.injEq, Prod.mk.injEq] at ha
      obtain ⟨rfl, rfl⟩ := ha
      have hal2 : 2 ∣ s.unused4 := Nat.dvd_trans (by decide) h.aligned4
      exact ⟨F, ((carve_unused4 h h4).halve4 hal2 (not_ne_iff.mp h2)).halve2 (not_ne_iff.mp h1),
        Nat.one_dvd _⟩
    · simp only [Option.some.injEq, Prod.mk.injEq] at ha
      obtain ⟨rfl, rfl⟩ := ha
      obtain ⟨G, hG, _⟩ := carve_pop h hh2
      exact ⟨G, hG.halve2 (not_ne_iff.mp h1), Nat.one_dvd _⟩
    · simp only [Option.some.injEq, Prod.mk.injEq] at ha
      obtain ⟨rfl, rfl⟩ := ha
      obtain ⟨G, hG, hal⟩ := carve_pop h hh4
      rw [align_four] at hal
      have hal2 : 2 ∣ s.peek .four := Nat.dvd_trans (by decide) hal
      exact ⟨G, (hG.halve4 hal2 (not_ne_iff.mp h2)).halve2 (not_ne_iff.mp h1), Nat.one_dvd _⟩
    · simp only [Option.some.injEq, Prod.mk.injEq] at ha
      obtain ⟨rfl, rfl⟩ := ha
      obtain ⟨G, hG, hal⟩ := carve_pop h h8
      have hal4 : 4 ∣ s.peek .eight := (align_four wide) ▸ align_dvd_of_eight hal .four
      have hal2 : 2 ∣ s.peek .eight := Nat.dvd_trans (by decide) hal4
      have hG4 := hG.halve8 hal4 (not_ne_iff.mp h4)
      exact ⟨G, (hG4.halve4 hal2 (not_ne_iff.mp h2)).halve2 (not_ne_iff.mp h1), Nat.one_dvd _⟩
    · simp only [Option.map_eq_some_iff, Prod.mk.injEq] at ha
      obtain ⟨t', ht, rfl, rfl⟩ := ha
      obtain ⟨hG, ht2, ht1⟩ := carve_grow h (not_ne_iff.mp h4) ht
      have hal2 : 2 ∣ s.frame := (align_two wide) ▸ hframe .two
      have hG2 := hG.halve4 hal2 (ht2.trans (not_ne_iff.mp h2))
      exact ⟨F, hG2.halve2 (ht1.trans (not_ne_iff.mp h1)), Nat.one_dvd _⟩

/-- The frame grows by eight bytes at most, and only an overflow keeps a slot from being found. -/
theorem allocateSmallSpillSlot_total (wide : Bool) (size : SlotSize) (hf : s.frame + 8 < 2 ^ 31) :
    ∃ r t, allocateSmallSpillSlot wide size s = some (r, t) ∧ t.frame ≤ s.frame + 8 := by
  have hadd8 : add32 s.frame 8 = some (s.frame + 8) := if_pos hf
  have hadd4 : add32 s.frame 4 = some (s.frame + 4) := if_pos (by omega)
  have hgrow : ∃ t, s.grow wide = some t ∧ t.frame ≤ s.frame + 8 := by
    unfold State.grow
    cases wide with
    | true => exact ⟨_, by rw [if_pos rfl, hadd8]; rfl, le_refl _⟩
    | false => exact ⟨_, by rw [if_neg (by simp), hadd4]; rfl, by simp⟩
  obtain ⟨t, ht, hle⟩ := hgrow
  have hkeep : s.frame ≤ s.frame + 8 := by omega
  unfold allocateSmallSpillSlot
  by_cases hh : s.handled size ≠ 0
  · rw [if_pos hh]
    exact ⟨_, _, rfl, hkeep⟩
  · rw [if_neg hh]
    cases size with
    | eight => exact ⟨_, _, by rw [hadd8]; rfl, le_refl _⟩
    | four =>
      simp only [ht]
      split_ifs
      · exact ⟨_, _, rfl, hkeep⟩
      · exact ⟨_, _, rfl, hkeep⟩
      · exact ⟨_, _, rfl, hle⟩
    | two =>
      simp only [ht]
      split_ifs
      · exact ⟨_, _, rfl, hkeep⟩
      · exact ⟨_, _, rfl, hkeep⟩
      · exact ⟨_, _, rfl, hkeep⟩
      · exact ⟨_, _, rfl, hkeep⟩
      · exact ⟨_, _, rfl, hle⟩
    | one =>
      simp only [ht]
      split_ifs
      · exact ⟨_, _, rfl, hkeep⟩
      · exact ⟨_, _, rfl, hkeep⟩
      · exact ⟨_, _, rfl, hkeep⟩
      · exact ⟨_, _, rfl, hkeep⟩
      · exact ⟨_, _, rfl, hkeep⟩
      · exact ⟨_, _, rfl, hkeep⟩
      · exact ⟨_, _, rfl, hle⟩

/-- The alignment of a variable of `n` bytes. -/
def natural (wide : Bool) (n : ℕ) : ℕ :=
  if n ≤ 1 then 1
  else if n ≤ 2 then 2
  else if n ≤ 4 then 4
  else if n ≤ 8 then align wide .eight
  else 16

theorem natural_bytes (wide : Bool) (size : SlotSize) : natural wide size.bytes = align wide size := by
  cases size <;> cases wide <;> rfl

theorem Carve.shrink {G : SlotSize → List ℕ} (h : Carve wide s F r k t G) (hn : n ≤ k) :
    Carve wide s F r n t G where
  free := h.free
  next_eq := h.next_eq
  pos_eq := h.pos_eq
  active_eq := h.active_eq
  suffix := h.suffix
  frame_le := h.frame_le
  cover := by
    intro x
    have hx := h.cover x
    have : cell r n x ≤ cell r k x := cell_le_of_within (le_refl _) (by omega)
    omega

theorem alignedSize_eq_some {m a : ℕ} (ha : 0 < a) (h : alignedSize n a = some m) :
    a ∣ m ∧ n ≤ m := by
  unfold alignedSize at h
  simp only [Option.map_eq_some_iff] at h
  obtain ⟨c, hc, rfl⟩ := h
  obtain ⟨_, rfl⟩ := add32_eq_some.mp hc
  refine ⟨Nat.dvd_mul_left _ _, ?_⟩
  have hdiv := Nat.div_add_mod (n + (a - 1)) a
  have hmod := Nat.mod_lt (n + (a - 1)) ha
  rw [Nat.mul_comm] at hdiv
  omega

/-- A big slot, too, is carved out of what was free. -/
theorem allocateBigSpillSlot_carve (h : Free wide s F)
    (ha : allocateBigSpillSlot wide n s = some (r, t)) :
    ∃ G, Carve wide s F r n t G ∧ natural wide n ∣ r := by
  have hsmall : ∀ size : SlotSize, n ≤ size.bytes → natural wide n = align wide size →
      allocateSmallSpillSlot wide size s = some (r, t) →
      ∃ G, Carve wide s F r n t G ∧ natural wide n ∣ r := by
    intro size hn hal ha
    obtain ⟨G, hG, hdvd⟩ := allocateSmallSpillSlot_carve h ha
    exact ⟨G, hG.shrink hn, hal ▸ hdvd⟩
  unfold allocateBigSpillSlot at ha
  split at ha
  · simp only [Option.some.injEq, Prod.mk.injEq] at ha
    obtain ⟨rfl, rfl⟩ := ha
    refine ⟨F, ⟨h, rfl, rfl, rfl, fun k => List.suffix_rfl, le_refl _, fun x => ?_⟩, Nat.dvd_zero _⟩
    simp
  · exact hsmall .one (by decide) (by cases wide <;> rfl) ha
  · exact hsmall .two (by decide) (by cases wide <;> rfl) ha
  · exact hsmall .four (by decide) (by cases wide <;> rfl) ha
  · exact hsmall .four (by decide) (by cases wide <;> rfl) ha
  · exact hsmall .eight (by decide) (by cases wide <;> rfl) ha
  · exact hsmall .eight (by decide) (by cases wide <;> rfl) ha
  · exact hsmall .eight (by decide) (by cases wide <;> rfl) ha
  · exact hsmall .eight (by decide) (by cases wide <;> rfl) ha
  · rename_i h0 h1 h2 h3 h4 h5 h6 h7 h8
    simp only [Option.bind_eq_bind, Option.bind_eq_some_iff, Option.some.injEq, Prod.mk.injEq] at ha
    obtain ⟨ret, hret, m, hm, f, hf, rfl, rfl⟩ := ha
    obtain ⟨h16, hle⟩ := alignedSize_eq_some (by omega) hret
    obtain ⟨hm8, hnm⟩ := alignedSize_eq_some (by omega) hm
    obtain ⟨_, rfl⟩ := add32_eq_some.mp hf
    have hn8 : 8 < n := by
      simp only [imp_false] at h0 h1 h2 h3 h4 h5 h6 h7 h8
      omega
    have hfr : align wide .eight ∣ ret + m := by
      have h8 : align wide .eight ∣ 8 := by cases wide <;> decide
      exact Nat.dvd_trans h8 (Nat.dvd_add (Nat.dvd_trans (by decide) h16) hm8)
    refine ⟨F, (carve_fresh h hle (le_refl _) hfr).shrink hnm, ?_⟩
    have hnat : natural wide n = 16 := by
      unfold natural
      rw [if_neg (by omega), if_neg (by omega), if_neg (by omega), if_neg (by omega)]
    rw [hnat]
    exact h16

theorem alignedSize_total {a : ℕ} (h : n + (a - 1) < 2 ^ 31) :
    ∃ m, alignedSize n a = some m ∧ m ≤ n + (a - 1) := by
  have hadd : add32 n (a - 1) = some (n + (a - 1)) := if_pos h
  refine ⟨_, by rw [alignedSize, hadd]; rfl, ?_⟩
  exact Nat.div_mul_le_self _ _

theorem allocateBigSpillSlot_total (wide : Bool) (n : ℕ) (hf : s.frame + (n + 22) < 2 ^ 31) :
    ∃ r t, allocateBigSpillSlot wide n s = some (r, t) ∧ t.frame ≤ s.frame + (n + 22) := by
  have hsmall : ∀ size, ∃ r t, allocateSmallSpillSlot wide size s = some (r, t) ∧
      t.frame ≤ s.frame + (n + 22) := by
    intro size
    obtain ⟨r, t, h, hle⟩ := allocateSmallSpillSlot_total (s := s) wide size (by omega)
    exact ⟨r, t, h, by omega⟩
  unfold allocateBigSpillSlot
  split
  · exact ⟨0, s, rfl, by omega⟩
  · exact hsmall .one
  · exact hsmall .two
  · exact hsmall .four
  · exact hsmall .four
  · exact hsmall .eight
  · exact hsmall .eight
  · exact hsmall .eight
  · exact hsmall .eight
  · obtain ⟨ret, hret, hle⟩ := alignedSize_total (n := s.frame) (a := 16) (by omega)
    obtain ⟨m, hm, hmle⟩ := alignedSize_total (n := n) (a := 8) (by omega)
    have hadd : add32 ret m = some (ret + m) := if_pos (by omega)
    refine ⟨ret, { s with frame := ret + m }, ?_, ?_⟩
    · simp only [hret, hm, hadd, Option.bind_eq_bind, Option.bind_some]
    · simp only
      omega

end Allocate

end IrJit.Ra.Spill
