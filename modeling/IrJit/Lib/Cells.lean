import Mathlib

/-!
# Lib.Cells — counting which byte ranges cover a byte

`cell p k x` is `1` when the range of `k` bytes at `p` covers byte `x` and `0` otherwise.  Ranges are
disjoint when no byte is covered twice; cutting a range in two keeps the count.
-/

namespace IrJit

/-- Does the range of `k` bytes at `p` cover `x`? -/
def cell (p k x : ℕ) : ℕ := if p ≤ x ∧ x < p + k then 1 else 0

/-- The number of ranges `(p, k)` of a list that cover `x`. -/
def cover (l : List (ℕ × ℕ)) (x : ℕ) : ℕ := (l.map fun r => cell r.1 r.2 x).sum

/-- No byte is in both ranges. -/
def Apart (r t : ℕ × ℕ) : Prop := ∀ x, cell r.1 r.2 x + cell t.1 t.2 x ≤ 1

section Cells

variable {p q k m f x : ℕ} {l : List (ℕ × ℕ)}

theorem cell_split (p a b x : ℕ) : cell p (a + b) x = cell p a x + cell (p + a) b x := by
  unfold cell
  split_ifs <;> omega

theorem cell_le_of_within (hlo : q ≤ p) (hhi : p + k ≤ q + m) : cell p k x ≤ cell q m x := by
  unfold cell
  split_ifs <;> omega

theorem cell_le_one (p k x : ℕ) : cell p k x ≤ 1 := by
  unfold cell
  split_ifs <;> omega

theorem cell_eq_one (hlo : p ≤ x) (hhi : x < p + k) : cell p k x = 1 := if_pos ⟨hlo, hhi⟩

@[simp] theorem cell_zero (p x : ℕ) : cell p 0 x = 0 := if_neg (by omega)

/-- Growing a range at its end. -/
theorem cell_grow {f f' : ℕ} (h : f ≤ f') (x : ℕ) :
    cell 0 f' x = cell 0 f x + cell f (f' - f) x := by
  have hsplit := cell_split 0 f (f' - f) x
  rw [Nat.zero_add, Nat.add_sub_cancel' h] at hsplit
  exact hsplit

/-- A range that only covers bytes before `f` ends there. -/
theorem le_of_cell_le (hk : 0 < k) (h : ∀ x, cell p k x ≤ cell 0 f x) : p + k ≤ f := by
  have hlast := h (p + k - 1)
  rw [cell_eq_one (by omega) (by omega)] at hlast
  unfold cell at hlast
  split_ifs at hlast <;> omega

@[simp] theorem cover_nil (x : ℕ) : cover [] x = 0 := rfl

@[simp] theorem cover_cons (r : ℕ × ℕ) (l : List (ℕ × ℕ)) (x : ℕ) :
    cover (r :: l) x = cell r.1 r.2 x + cover l x := by
  simp [cover]

@[simp] theorem cover_append (l₁ l₂ : List (ℕ × ℕ)) (x : ℕ) :
    cover (l₁ ++ l₂) x = cover l₁ x + cover l₂ x := by
  simp [cover]

theorem cell_le_cover {r : ℕ × ℕ} (h : r ∈ l) (x : ℕ) : cell r.1 r.2 x ≤ cover l x := by
  induction l with
  | nil => simp at h
  | cons t l ih =>
    rw [cover_cons]
    rcases List.mem_cons.mp h with rfl | h
    · omega
    · have := ih h
      omega

theorem Apart.symm {r t : ℕ × ℕ} (h : Apart r t) : Apart t r := by
  intro x
  have := h x
  omega

/-- Where no byte is covered twice, the ranges are pairwise apart. -/
theorem pairwise_apart (h : ∀ x, cover l x ≤ 1) : l.Pairwise Apart := by
  induction l with
  | nil => exact List.Pairwise.nil
  | cons r l ih =>
    refine List.pairwise_cons.mpr ⟨fun t ht x => ?_, ih fun x => ?_⟩
    · have hx := h x
      have := cell_le_cover ht x
      rw [cover_cons] at hx
      omega
    · have hx := h x
      rw [cover_cons] at hx
      omega

end Cells

end IrJit
