import Mathlib.Data.List.Count
import Mathlib.Data.Nat.Basic
import Mathlib.Logic.Function.Basic
import Mathlib.Tactic.Common

/-!
# Lib.Slice — runs of cells of an array

`slice e a n` lists the cells `a, …, a + n - 1` of the array `e`.  A write outside the run does
not change it.
-/

namespace IrJit

/-- The cells `a, …, a + n - 1` of `e`. -/
def slice {α : Type} (e : ℕ → α) (a n : ℕ) : List α := (List.range' a n).map e

namespace Slice

variable {α : Type} {e e' : ℕ → α} {a n : ℕ}

@[simp] theorem slice_zero (e : ℕ → α) (a : ℕ) : slice e a 0 = [] := rfl

@[simp] theorem length_slice (e : ℕ → α) (a n : ℕ) : (slice e a n).length = n := by
  simp [slice]

theorem slice_succ (e : ℕ → α) (a n : ℕ) : slice e a (n + 1) = e a :: slice e (a + 1) n := rfl

theorem slice_concat (e : ℕ → α) (a n : ℕ) : slice e a (n + 1) = slice e a n ++ [e (a + n)] := by
  simp [slice, List.range'_1_concat]

theorem slice_append (e : ℕ → α) (a m n : ℕ) :
    slice e a (m + n) = slice e a m ++ slice e (a + m) n := by
  simp [slice, ← List.map_append, List.range'_append_1]

theorem mem_slice {x : α} : x ∈ slice e a n ↔ ∃ i, a ≤ i ∧ i < a + n ∧ e i = x := by
  simp [slice, List.mem_range'_1, and_assoc]

theorem slice_congr (h : ∀ i, a ≤ i → i < a + n → e' i = e i) : slice e' a n = slice e a n := by
  apply List.map_congr_left
  intro i hi
  obtain ⟨hle, hlt⟩ := List.mem_range'_1.mp hi
  exact h i hle hlt

/-- Shifting the array and the run. -/
theorem slice_shift {b : ℕ} (h : ∀ i, i < n → e' (b + i) = e (a + i)) :
    slice e' b n = slice e a n := by
  induction n with
  | zero => rfl
  | succ n ih =>
    rw [slice_concat, slice_concat, ih fun i hi => h i (Nat.lt_succ_of_lt hi), h n (Nat.lt_succ_self n)]

theorem slice_update_of_out {i : ℕ} {x : α} (h : i < a ∨ a + n ≤ i) :
    slice (Function.update e i x) a n = slice e a n :=
  slice_congr fun j hj hlt => Function.update_of_ne (by omega) _ _

theorem slice_update {i : ℕ} {x : α} (h : i < n) :
    slice (Function.update e (a + i) x) a n = (slice e a n).set i x := by
  induction n generalizing a i with
  | zero => omega
  | succ n ih =>
    cases i with
    | zero => rw [slice_succ, slice_succ, Nat.add_zero, Function.update_self,
        slice_update_of_out (by omega), List.set_cons_zero]
    | succ i =>
      rw [slice_succ, slice_succ, Function.update_of_ne (by omega), List.set_cons_succ,
        show a + (i + 1) = a + 1 + i by omega, ih (by omega)]

@[simp] theorem getElem_slice {i : ℕ} (h : i < (slice e a n).length) :
    (slice e a n)[i] = e (a + i) := by
  simp [slice]

end Slice

end IrJit
