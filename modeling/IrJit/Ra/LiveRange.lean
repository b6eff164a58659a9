import Mathlib.Order.Basic
import Mathlib.Data.List.Pairwise
import Mathlib.Tactic.Common

/-!
# Ra.LiveRange — the ranges of a live interval (`ir_add_live_range`)

An interval is the list of its ranges, in ascending order and with gaps between them (`Asc`); the
empty list is an interval that does not exist yet.  A range is closed on the left and open on the
right.
-/

namespace IrJit.Ra

/-- `ir_live_range`: start and end. -/
abbrev Range := ℕ × ℕ

/-- The end of `ir_add_live_range`: the range `[a, b)` swallows those that it reaches. -/
def absorb (a b : ℕ) : List Range → List Range
  | [] => [(a, b)]
  | n :: ns => if n.1 ≤ b then absorb a (max b n.2) ns else (a, b) :: n :: ns

/-- `ir_add_live_range`. -/
def addLiveRange (start stop : ℕ) : List Range → List Range
  | [] => [(start, stop)]
  | p :: rest =>
    if p.1 ≤ stop then
      if start ≤ p.2 then
        if p.2 < stop then absorb (min start p.1) stop rest else (min start p.1, p.2) :: rest
      else p :: addLiveRange start stop rest
    else (start, stop) :: p :: rest

/-- `ir_add_prev_live_range`. -/
def addPrevLiveRange (start stop : ℕ) : List Range → List Range
  | [] => addLiveRange start stop []
  | p :: rest => if p.1 = stop then (start, p.2) :: rest else addLiveRange start stop (p :: rest)

/-- `ir_fix_live_range`; an interval that does not exist has no first range. -/
def fixLiveRange (newStart : ℕ) : List Range → Option (List Range)
  | [] => none
  | p :: rest => some ((newStart, p.2) :: rest)

/-- A position belongs to the interval. -/
def Covers (rs : List Range) (q : ℕ) : Prop := ∃ r ∈ rs, r.1 ≤ q ∧ q < r.2

/-- Ascending, with gaps. -/
structure Asc (rs : List Range) : Prop where
  gaps : rs.Pairwise fun a b => a.2 < b.1
  le : ∀ r ∈ rs, r.1 ≤ r.2

theorem covers_nil (q : ℕ) : ¬ Covers [] q := by
  rintro ⟨r, hr, -⟩
  exact absurd hr (by simp)

theorem covers_cons {p : Range} {rs : List Range} {q : ℕ} :
    Covers (p :: rs) q ↔ (p.1 ≤ q ∧ q < p.2) ∨ Covers rs q := by
  simp [Covers]

theorem Asc.nil : Asc [] := ⟨List.Pairwise.nil, by simp⟩

theorem Asc.cons {p : Range} {rs : List Range} (h : Asc rs) (hp : p.1 ≤ p.2)
    (hlt : ∀ r ∈ rs, p.2 < r.1) : Asc (p :: rs) :=
  ⟨List.Pairwise.cons hlt h.gaps, List.forall_mem_cons.mpr ⟨hp, h.le⟩⟩

theorem Asc.tail {p : Range} {rs : List Range} (h : Asc (p :: rs)) : Asc rs :=
  ⟨(List.pairwise_cons.mp h.gaps).2, fun r hr => h.le r (List.mem_cons_of_mem p hr)⟩

theorem Asc.lt_of_mem {p : Range} {rs : List Range} (h : Asc (p :: rs)) : ∀ r ∈ rs, p.2 < r.1 :=
  (List.pairwise_cons.mp h.gaps).1

/-- The first range starts first. -/
theorem Asc.head_le {p : Range} {rs : List Range} (h : Asc (p :: rs)) :
    ∀ r ∈ p :: rs, p.1 ≤ r.1 := by
  intro r hr
  rcases List.mem_cons.mp hr with rfl | hr
  · exact Nat.le_refl _
  · have h1 := h.lt_of_mem r hr
    have h2 := h.le p List.mem_cons_self
    omega

theorem absorb_spec : ∀ (ns : List Range) (a b : ℕ), a ≤ b → (∀ n ∈ ns, a ≤ n.1) → Asc ns →
    Asc (absorb a b ns) ∧ (∀ q, Covers (absorb a b ns) q ↔ (a ≤ q ∧ q < b) ∨ Covers ns q) ∧
      ∀ r ∈ absorb a b ns, a ≤ r.1 := by
  intro ns
  induction ns with
  | nil =>
    intro a b hab _ _
    exact ⟨Asc.nil.cons hab (by simp), fun q => by simp [absorb, covers_cons], by simp [absorb]⟩
  | cons n ns ih =>
    intro a b hab hns hasc
    have hn := hns n List.mem_cons_self
    have hnle := hasc.le n List.mem_cons_self
    unfold absorb
    split_ifs with hle
    · obtain ⟨h1, h2, h3⟩ := ih a (max b n.2) (by omega) (fun m hm => hns m (List.mem_cons_of_mem n hm))
        hasc.tail
      refine ⟨h1, fun q => ?_, h3⟩
      rw [h2 q, covers_cons]
      constructor
      · rintro (hq | hq)
        · by_cases hqb : q < b
          · exact Or.inl ⟨hq.1, hqb⟩
          · exact Or.inr (Or.inl ⟨by omega, by omega⟩)
        · exact Or.inr (Or.inr hq)
      · rintro (hq | hq | hq)
        · exact Or.inl ⟨hq.1, by omega⟩
        · exact Or.inl ⟨by omega, by omega⟩
        · exact Or.inr hq
    · have hlt : ∀ r ∈ n :: ns, b < r.1 := fun r hr => by
        have h := hasc.head_le r hr
        omega
      refine ⟨hasc.cons hab hlt, fun q => covers_cons, fun r hr => ?_⟩
      rcases List.mem_cons.mp hr with rfl | hr
      · exact Nat.le_refl _
      · exact hns r hr

/-- **`ir_add_live_range`** adds the positions of the range and nothing else. -/
theorem addLiveRange_spec {start stop : ℕ} (hse : start ≤ stop) : ∀ rs : List Range, Asc rs →
    Asc (addLiveRange start stop rs) ∧
      (∀ q, Covers (addLiveRange start stop rs) q ↔ (start ≤ q ∧ q < stop) ∨ Covers rs q) ∧
      ∀ m, m ≤ start → (∀ r ∈ rs, m ≤ r.1) → ∀ r ∈ addLiveRange start stop rs, m ≤ r.1 := by
  intro rs
  induction rs with
  | nil =>
    intro _
    refine ⟨Asc.nil.cons hse (by simp), fun q => by simp [addLiveRange, covers_cons], ?_⟩
    intro m hm _ r hr
    obtain rfl : r = (start, stop) := by simpa [addLiveRange] using hr
    exact hm
  | cons p rest ih =>
    intro hasc
    have hple := hasc.le p List.mem_cons_self
    have hgap := hasc.lt_of_mem
    unfold addLiveRange
    split_ifs with hstop hstart hend
    · -- `p` grows on both sides
      obtain ⟨h1, h2, h3⟩ := absorb_spec rest (min start p.1) stop (by omega)
        (fun n hn => by have h := hgap n hn; omega) hasc.tail
      refine ⟨h1, fun q => ?_, fun m hm hall r hr => ?_⟩
      · rw [h2 q, covers_cons]
        constructor
        · rintro (hq | hq)
          · by_cases hqs : start ≤ q
            · exact Or.inl ⟨hqs, hq.2⟩
            · exact Or.inr (Or.inl ⟨by omega, by omega⟩)
          · exact Or.inr (Or.inr hq)
        · rintro (hq | hq | hq)
          · exact Or.inl ⟨by omega, hq.2⟩
          · exact Or.inl ⟨by omega, by omega⟩
          · exact Or.inr hq
      · have h := h3 r hr
        have hp := hall p List.mem_cons_self
        omega
    · -- `p` grows to the left
      refine ⟨hasc.tail.cons (by show min start p.1 ≤ p.2; omega) hgap, fun q => ?_, fun m hm hall r hr => ?_⟩
      · rw [covers_cons, covers_cons]
        constructor
        · rintro (hq | hq)
          · by_cases hqs : start ≤ q ∧ q < stop
            · exact Or.inl hqs
            · exact Or.inr (Or.inl ⟨by omega, hq.2⟩)
          · exact Or.inr (Or.inr hq)
        · rintro (hq | hq | hq)
          · exact Or.inl ⟨by omega, by omega⟩
          · exact Or.inl ⟨by omega, hq.2⟩
          · exact Or.inr hq
      · have hp := hall p List.mem_cons_self
        rcases List.mem_cons.mp hr with rfl | hr
        · show m ≤ min start p.1
          omega
        · exact hall r (List.mem_cons_of_mem p hr)
    · obtain ⟨h1, h2, h3⟩ := ih hasc.tail
      refine ⟨h1.cons hple (h3 (p.2 + 1) (by omega) fun r hr => hgap r hr), fun q => ?_, fun m hm hall r hr => ?_⟩
      · rw [covers_cons, h2 q, covers_cons]
        tauto
      · rcases List.mem_cons.mp hr with rfl | hr
        · exact hall r List.mem_cons_self
        · exact h3 m hm (fun r hr => hall r (List.mem_cons_of_mem p hr)) r hr
    · have hlt : ∀ r ∈ p :: rest, stop < r.1 := fun r hr => by
        have h := hasc.head_le r hr
        omega
      refine ⟨hasc.cons hse hlt, fun q => covers_cons, fun m hm hall r hr => ?_⟩
      rcases List.mem_cons.mp hr with rfl | hr
      · exact hm
      · exact hall r hr

theorem addPrevLiveRange_spec {start stop : ℕ} (hse : start ≤ stop) {rs : List Range} (hasc : Asc rs) :
    Asc (addPrevLiveRange start stop rs) ∧
      (∀ q, Covers (addPrevLiveRange start stop rs) q ↔ (start ≤ q ∧ q < stop) ∨ Covers rs q) ∧
      ∀ m, m ≤ start → (∀ r ∈ rs, m ≤ r.1) → ∀ r ∈ addPrevLiveRange start stop rs, m ≤ r.1 := by
  cases rs with
  | nil => exact addLiveRange_spec hse [] hasc
  | cons p rest =>
    simp only [addPrevLiveRange]
    split_ifs with hp
    · have hple := hasc.le p List.mem_cons_self
      refine ⟨hasc.tail.cons (by show start ≤ p.2; omega) hasc.lt_of_mem, fun q => ?_, fun m hm hall r hr => ?_⟩
      · rw [covers_cons, covers_cons]
        constructor
        · rintro (hq | hq)
          · by_cases hqs : q < stop
            · exact Or.inl ⟨hq.1, hqs⟩
            · exact Or.inr (Or.inl ⟨by omega, hq.2⟩)
          · exact Or.inr (Or.inr hq)
        · rintro (hq | hq | hq)
          · exact Or.inl ⟨hq.1, by show q < p.2; omega⟩
          · exact Or.inl ⟨by show start ≤ q; omega, hq.2⟩
          · exact Or.inr hq
      · rcases List.mem_cons.mp hr with rfl | hr
        · exact hm
        · exact hall r (List.mem_cons_of_mem p hr)
    · exact addLiveRange_spec hse (p :: rest) hasc

/-- Ranges do not vanish. -/
theorem addLiveRange_ne_nil (start stop : ℕ) (rs : List Range) : addLiveRange start stop rs ≠ [] := by
  have habs : ∀ (ns : List Range) (a b : ℕ), absorb a b ns ≠ [] := by
    intro ns
    induction ns with
    | nil => simp [absorb]
    | cons n ns ih =>
      intro a b
      unfold absorb
      split_ifs
      · exact ih a _
      · simp
  cases rs with
  | nil => simp [addLiveRange]
  | cons p rest =>
    unfold addLiveRange
    split_ifs
    · exact habs _ _ _
    all_goals simp

theorem addPrevLiveRange_ne_nil (start stop : ℕ) (rs : List Range) :
    addPrevLiveRange start stop rs ≠ [] := by
  cases rs with
  | nil => exact addLiveRange_ne_nil start stop []
  | cons p rest =>
    simp only [addPrevLiveRange]
    split_ifs
    · simp
    · exact addLiveRange_ne_nil start stop (p :: rest)

end IrJit.Ra
