import Mathlib.Algebra.BigOperators.Group.List.Basic
import Mathlib.Algebra.Order.Ring.Nat
import Mathlib.Data.List.Basic
import Mathlib.Logic.Relation
import Mathlib.Tactic.Ring

/-!
# Lib.Worklist — draining a stack over an acyclic relation

A loop pops an element, collects what the element yields and pushes its successors; there are no
marks, an element reached twice is processed twice.
-/

namespace IrJit

section

variable {α β : Type*} (succ : α → List α) (out : α → List β)

/-- The loop; the top of the stack is the head of the list, successors are pushed in order. -/
def drain : ℕ → List α → Option (List β)
  | _, [] => some []
  | 0, _ :: _ => none
  | fuel + 1, x :: rest => (drain fuel ((succ x).reverse ++ rest)).map (out x ++ ·)

/-- `y` is `x` or comes after it. -/
abbrev Below (x y : α) : Prop := Relation.ReflTransGen (fun a b => b ∈ succ a) x y

variable {succ out}

theorem mem_drain {b : β} :
    ∀ {fuel : ℕ} {ws : List α} {l : List β}, drain succ out fuel ws = some l →
      (b ∈ l ↔ ∃ x ∈ ws, ∃ y, Below succ x y ∧ b ∈ out y)
  | 0, [], l, h => by
    simp only [drain, Option.some.injEq] at h
    simp [← h]
  | fuel + 1, [], l, h => by
    simp only [drain, Option.some.injEq] at h
    simp [← h]
  | fuel + 1, x :: rest, l, h => by
    simp only [drain, Option.map_eq_some_iff] at h
    obtain ⟨l', hl', rfl⟩ := h
    rw [List.mem_append, mem_drain hl']
    constructor
    · rintro (hb | ⟨z, hz, y, hzy, hb⟩)
      · exact ⟨x, List.mem_cons_self, x, Relation.ReflTransGen.refl, hb⟩
      · rcases List.mem_append.mp hz with hz | hz
        · exact ⟨x, List.mem_cons_self, y, Relation.ReflTransGen.head (List.mem_reverse.mp hz) hzy, hb⟩
        · exact ⟨z, List.mem_cons_of_mem x hz, y, hzy, hb⟩
    · rintro ⟨z, hz, y, hzy, hb⟩
      rcases List.mem_cons.mp hz with rfl | hz
      · rcases Relation.ReflTransGen.cases_head hzy with rfl | ⟨w, hw, hwy⟩
        · exact Or.inl hb
        · exact Or.inr ⟨w, List.mem_append.mpr (Or.inl (List.mem_reverse.mpr hw)), y, hwy, hb⟩
      · exact Or.inr ⟨z, List.mem_append.mpr (Or.inr hz), y, hzy, hb⟩

/-- The weight of a stack. -/
def weight (K : ℕ) (μ : α → ℕ) (ws : List α) : ℕ := (ws.map fun x => (K + 1) ^ μ x).sum

theorem weight_succ_lt {K : ℕ} {μ : α → ℕ} {x : α} (hμ : ∀ y ∈ succ x, μ y < μ x)
    (hK : (succ x).length ≤ K) : weight K μ (succ x).reverse < (K + 1) ^ μ x := by
  have hsum : ∀ l : List α, (∀ y ∈ l, μ y < μ x) → (K + 1) * weight K μ l ≤ l.length * (K + 1) ^ μ x := by
    intro l
    induction l with
    | nil => simp [weight]
    | cons y l ih =>
      intro hl
      have hy : (K + 1) * (K + 1) ^ μ y ≤ (K + 1) ^ μ x := by
        rw [← pow_succ']
        exact Nat.pow_le_pow_right (Nat.succ_pos K) (hl y List.mem_cons_self)
      have hrest := ih fun z hz => hl z (List.mem_cons_of_mem y hz)
      have hcons : weight K μ (y :: l) = (K + 1) ^ μ y + weight K μ l := by simp [weight]
      have hlen : (y :: l).length = l.length + 1 := rfl
      rw [hcons, hlen]
      calc (K + 1) * ((K + 1) ^ μ y + weight K μ l)
          = (K + 1) * (K + 1) ^ μ y + (K + 1) * weight K μ l := by ring
        _ ≤ (K + 1) ^ μ x + l.length * (K + 1) ^ μ x := Nat.add_le_add hy hrest
        _ = (l.length + 1) * (K + 1) ^ μ x := by ring
  have hle := hsum (succ x).reverse fun y hy => hμ y (List.mem_reverse.mp hy)
  rw [List.length_reverse] at hle
  have hpos : 0 < (K + 1) ^ μ x := Nat.pow_pos (Nat.succ_pos K)
  have hmul : (K + 1) * weight K μ (succ x).reverse < (K + 1) * (K + 1) ^ μ x :=
    lt_of_le_of_lt hle (Nat.mul_lt_mul_of_pos_right (Nat.lt_succ_of_le hK) hpos)
  exact lt_of_mul_lt_mul_left hmul (Nat.zero_le _)

theorem drain_isSome (succ : α → List α) (out : α → List β) (K : ℕ) (μ : α → ℕ) (Q : α → Prop) (hQ : ∀ x, Q x → ∀ y ∈ succ x, Q y)
    (hμ : ∀ x, Q x → ∀ y ∈ succ x, μ y < μ x) (hK : ∀ x, Q x → (succ x).length ≤ K) :
    ∀ (fuel : ℕ) (ws : List α), (∀ x ∈ ws, Q x) → weight K μ ws ≤ fuel →
      ∃ l, drain succ out fuel ws = some l := by
  intro fuel
  induction fuel with
  | zero =>
    intro ws _ hw
    cases ws with
    | nil => exact ⟨[], rfl⟩
    | cons x rest =>
      have hpos : 0 < (K + 1) ^ μ x := Nat.pow_pos (Nat.succ_pos K)
      simp only [weight, List.map_cons, List.sum_cons] at hw
      omega
  | succ fuel ih =>
    intro ws hws hw
    cases ws with
    | nil => exact ⟨[], rfl⟩
    | cons x rest =>
      have hx := hws x List.mem_cons_self
      have hlt := weight_succ_lt (hμ x hx) (hK x hx)
      have hsplit : weight K μ ((succ x).reverse ++ rest) =
          weight K μ (succ x).reverse + weight K μ rest := by
        simp [weight]
      have hcons : weight K μ (x :: rest) = (K + 1) ^ μ x + weight K μ rest := by simp [weight]
      obtain ⟨l, hl⟩ := ih ((succ x).reverse ++ rest)
        (fun y hy => by
          rcases List.mem_append.mp hy with h | h
          · exact hQ x hx y (List.mem_reverse.mp h)
          · exact hws y (List.mem_cons_of_mem x h))
        (by omega)
      exact ⟨out x ++ l, by simp [drain, hl]⟩

end

end IrJit
