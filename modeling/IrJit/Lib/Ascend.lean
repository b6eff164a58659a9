import Mathlib.Data.Nat.Init
import Mathlib.Tactic.Common

/-!
# Lib.Ascend — counting loops whose body may fail

`ascend f k lo s` is `for (b = lo; b < lo + k; b++) s = f(b, s)`, given up when a body gives up.
-/

namespace IrJit

variable {σ : Type}

/-- The body for `lo`, `lo + 1`, …, `k` times. -/
def ascend (f : ℕ → σ → Option σ) : ℕ → ℕ → σ → Option σ
  | 0, _, s => some s
  | k + 1, lo, s => (f lo s).bind (ascend f k (lo + 1))

/-- A body that finishes and moves the invariant on by one gives a loop that finishes. -/
theorem ascend_spec {f : ℕ → σ → Option σ} (I : ℕ → σ → Prop) {k lo : ℕ} {s : σ} (h : I lo s)
    (hstep : ∀ b s, lo ≤ b → b < lo + k → I b s → ∃ s', f b s = some s' ∧ I (b + 1) s') :
    ∃ s', ascend f k lo s = some s' ∧ I (lo + k) s' := by
  induction k generalizing lo s with
  | zero => exact ⟨s, rfl, h⟩
  | succ k ih =>
    obtain ⟨s₁, hs₁, h₁⟩ := hstep lo s (Nat.le_refl lo) (by omega) h
    obtain ⟨s', hs', h'⟩ := ih h₁ fun b t hlo hlt => hstep b t (by omega) (by omega)
    refine ⟨s', ?_, ?_⟩
    · rw [ascend, hs₁]
      exact hs'
    · rw [show lo + (k + 1) = lo + 1 + k by omega]
      exact h'

end IrJit
