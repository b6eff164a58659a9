import Mathlib.Data.Finset.Card
import Mathlib.Data.Finset.Range
import Mathlib.Logic.Function.Iterate
import Mathlib.Order.Lattice.Nat
import Mathlib.Data.Nat.Basic

/-!
# Lib.Chase — following pointers to their end

A function `f` on numbers moves each point to one with a smaller measure, or leaves it.  The points
it moves to are below `n`, so `n` steps are enough to come to rest.
-/

namespace IrJit

/-- Points that all lie below `n` are not all different: the way comes to a point that it returns to. -/
theorem exists_iterate_periodic {f : ℕ → ℕ} {x n : ℕ} (h : ∀ j, f^[j] x < n) :
    ∃ i k, 0 < k ∧ f^[k] (f^[i] x) = f^[i] x := by
  have hmaps : ∀ j ∈ Finset.range (n + 1), f^[j] x ∈ Finset.range n := fun j _ => Finset.mem_range.mpr (h j)
  obtain ⟨i, -, j, -, hij, heq⟩ := Finset.exists_ne_map_eq_of_card_lt_of_maps_to
    (by simp : (Finset.range n).card < (Finset.range (n + 1)).card) hmaps
  have hback : ∀ a b, a < b → f^[a] x = f^[b] x → f^[b - a] (f^[a] x) = f^[a] x := by
    intro a b hab he
    rw [← Function.iterate_add_apply, Nat.sub_add_cancel hab.le, he]
  rcases Nat.lt_or_gt_of_ne hij with hlt | hlt
  · exact ⟨i, j - i, by omega, hback i j hlt heq⟩
  · exact ⟨j, i - j, by omega, hback j i hlt heq.symm⟩

/-- `f` moves points down a measure, and to numbers below `n`. -/
structure Settles (f : ℕ → ℕ) (n : ℕ) : Prop where
  down : ∃ d : ℕ → ℕ, ∀ x, f x ≠ x → d (f x) < d x
  lt : ∀ x, f x ≠ x → f x < n

namespace Settles

variable {f : ℕ → ℕ} {n : ℕ}

theorem iterate_of_rest {x : ℕ} (h : f x = x) (k : ℕ) : f^[k] x = x := Function.iterate_fixed h k

theorem rest_mono {x j k : ℕ} (h : f (f^[j] x) = f^[j] x) (hjk : j ≤ k) : f^[k] x = f^[j] x := by
  obtain ⟨i, rfl⟩ := Nat.exists_eq_add_of_le hjk
  rw [Nat.add_comm, Function.iterate_add_apply]
  exact iterate_of_rest h i

theorem iterate_rest (S : Settles f n) (x : ℕ) : f (f^[n] x) = f^[n] x := by
  obtain ⟨d, hd⟩ := S.down
  by_contra hne
  -- none of the first points is at rest, so they are all different
  have hmoved : ∀ j, j ≤ n → f (f^[j] x) ≠ f^[j] x := by
    intro j hj h
    rw [rest_mono h hj] at hne
    exact hne h
  have hlt : ∀ j i, i < j → j ≤ n + 1 → d (f^[j] x) < d (f^[i] x) := by
    intro j
    induction j with
    | zero => intro i hi; omega
    | succ j ih =>
      intro i hij hj
      have hstep : d (f^[j + 1] x) < d (f^[j] x) := by
        rw [Function.iterate_succ_apply']
        exact hd _ (hmoved j (by omega))
      rcases Nat.lt_succ_iff_lt_or_eq.mp hij with h | rfl
      · exact lt_trans hstep (ih i h (by omega))
      · exact hstep
  have hmaps : ∀ j ∈ Finset.range (n + 1), f^[j + 1] x ∈ Finset.range n := by
    intro j hj
    rw [Finset.mem_range] at hj ⊢
    rw [Function.iterate_succ_apply']
    exact S.lt _ (hmoved j (by omega))
  obtain ⟨i, hi, j, hj, hij, heq⟩ := Finset.exists_ne_map_eq_of_card_lt_of_maps_to
    (by simp : (Finset.range n).card < (Finset.range (n + 1)).card) hmaps
  rw [Finset.mem_range] at hi hj
  rcases Nat.lt_or_gt_of_ne hij with h | h
  · have := hlt (j + 1) (i + 1) (by omega) (by omega)
    rw [heq] at this
    omega
  · have := hlt (i + 1) (j + 1) (by omega) (by omega)
    rw [heq] at this
    omega

/-- The end of `x` is the end of the next point. -/
theorem iterate_next (S : Settles f n) (x : ℕ) : f^[n] (f x) = f^[n] x := by
  rw [← Function.iterate_succ_apply, Function.iterate_succ_apply']
  exact S.iterate_rest x

/-- Induction along the pointers. -/
theorem induct (S : Settles f n) {motive : ℕ → Prop} (rest : ∀ x, f x = x → motive x)
    (move : ∀ x, f x ≠ x → motive (f x) → motive x) (x : ℕ) : motive x := by
  obtain ⟨d, hd⟩ := S.down
  induction hm : d x using Nat.strong_induction_on generalizing x with
  | _ m ih =>
    by_cases h : f x = x
    · exact rest x h
    · exact move x h (ih (d (f x)) (hm ▸ hd x h) (f x) rfl)

end Settles

end IrJit
