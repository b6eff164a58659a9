import Mathlib.Data.List.Basic
import Mathlib.Algebra.Order.Group.Nat
import Mathlib.Data.Nat.Init

/-!
# Lib.Walk — loops that thread a state over a list

A step takes the state and an element to a new state and an output.  Two loops over the same list are
compared by a relation on their states.
-/

namespace IrJit

variable {σ τ α α' β γ : Type}

/-- The state after a list. -/
def endState (step : σ → α → σ × β) (s : σ) (l : List α) : σ := l.foldl (fun s a => (step s a).1) s

/-- What a loop puts out, element by element. -/
def walk (step : σ → α → σ × β) : σ → List α → List β
  | _, [] => []
  | s, a :: l => (step s a).2 :: walk step (step s a).1 l

namespace Walk

variable {step : σ → α → σ × β} {step' : τ → α' → τ × γ} {s : σ} {t : τ} {l : List α}

@[simp] theorem endState_nil : endState step s [] = s := rfl

@[simp] theorem endState_cons (a : α) :
    endState step s (a :: l) = endState step (step s a).1 l := rfl

/-- The output for an element comes from the state before it. -/
theorem getElem?_walk (j : ℕ) :
    (walk step s l)[j]? = l[j]?.map fun a => (step (endState step s (l.take j)) a).2 := by
  induction l generalizing s j with
  | nil => rfl
  | cons a l ih =>
    cases j with
    | zero => rfl
    | succ j => exact ih j

/-- The state after one more element. -/
theorem endState_take_succ {j : ℕ} {a : α} (h : l[j]? = some a) :
    endState step s (l.take (j + 1)) = (step (endState step s (l.take j)) a).1 := by
  unfold endState
  rw [List.take_add_one, h, List.foldl_append]
  rfl

theorem endState_map (f : α → α') (t : τ) (l : List α) :
    endState step' t (l.map f) = endState (fun t a => step' t (f a)) t l := by
  unfold endState
  rw [List.foldl_map]

/-- A relation that the steps keep holds after any list. -/
theorem endState_rel {step' : τ → α → τ × γ} {R : σ → τ → Prop}
    (h : ∀ s t, ∀ a ∈ l, R s t → R (step s a).1 (step' t a).1) (h0 : R s t) :
    R (endState step s l) (endState step' t l) := by
  induction l generalizing s t with
  | nil => exact h0
  | cons a l ih =>
    have hrest : ∀ s t, ∀ b ∈ l, R s t → R (step s b).1 (step' t b).1 := fun s t b hb =>
      h s t b (List.mem_cons_of_mem a hb)
    exact ih hrest (h s t a List.mem_cons_self h0)

/-- A key of the state that no step lowers. -/
theorem key_mono {κ : Type} [Preorder κ] (key : σ → κ) (h : ∀ s a, key s ≤ key (step s a).1)
    {i j : ℕ} (hij : i ≤ j) :
    key (endState step s (l.take i)) ≤ key (endState step s (l.take j)) := by
  induction j, hij using Nat.le_induction with
  | base => exact le_rfl
  | succ j hij ih =>
    refine ih.trans ?_
    rcases hl : l[j]? with _ | a
    · rw [List.take_add_one, hl, Option.toList_none, List.append_nil]
    · rw [endState_take_succ hl]
      exact h _ a

theorem key_le_end {κ : Type} [Preorder κ] (key : σ → κ) (h : ∀ s a, key s ≤ key (step s a).1)
    (j : ℕ) : key (endState step s (l.take j)) ≤ key (endState step s l) := by
  rcases le_total j l.length with hj | hj
  · have hm := key_mono (l := l) (s := s) key h hj
    rwa [List.take_length] at hm
  · rw [List.take_of_length_le hj]

end Walk

end IrJit
