import Mathlib.Data.List.Nodup
import Mathlib.Logic.Function.Basic
import Mathlib.Tactic.Common

/-!
# Lib.Rings — doubly linked circular lists

`Seg next prev a l b`: starting at `a` and following `next`, the points visited are `l`, arriving at `b`, and
`prev` leads back.  A ring is a segment that arrives where it starts.
-/

namespace IrJit

variable {α : Type*}

/-- The points from `a` on are `l`, and `b` comes after them. -/
def Seg (next prev : α → α) : α → List α → α → Prop
  | a, [], b => a = b
  | a, x :: l, b => a = x ∧ prev (next x) = x ∧ Seg next prev (next x) l b

/-- The points of `l` in a circle. -/
def Ring (next prev : α → α) (l : List α) : Prop := ∃ h t, l = h :: t ∧ Seg next prev h l h

namespace Seg

variable {next prev next' prev' : α → α} {a b c x z : α} {l l₁ l₂ : List α}

theorem append (h₁ : Seg next prev a l₁ b) (h₂ : Seg next prev b l₂ c) : Seg next prev a (l₁ ++ l₂) c := by
  induction l₁ generalizing a with
  | nil =>
    obtain rfl : a = b := h₁
    exact h₂
  | cons x l₁ ih =>
    obtain ⟨rfl, hprev, hrest⟩ := h₁
    exact ⟨rfl, hprev, ih hrest⟩

theorem split {p q : List α} (h : Seg next prev a (p ++ q) c) : ∃ b, Seg next prev a p b ∧ Seg next prev b q c := by
  induction p generalizing a with
  | nil => exact ⟨a, rfl, h⟩
  | cons x p ih =>
    obtain ⟨rfl, hprev, hrest⟩ := h
    obtain ⟨b, h₁, h₂⟩ := ih hrest
    exact ⟨b, ⟨rfl, hprev, h₁⟩, h₂⟩

/-- The last point and the one after it. -/
theorem last (h : Seg next prev a (l ++ [z]) b) : next z = b ∧ prev b = z := by
  obtain ⟨y, _, rfl, hprev, rfl⟩ := h.split
  exact ⟨rfl, hprev⟩

/-- A segment only depends on the pointers of its points. -/
theorem congr (h : Seg next prev a l b) (hnext : ∀ x ∈ l, next' x = next x)
    (hprev : ∀ x ∈ l, prev' (next x) = prev (next x)) : Seg next' prev' a l b := by
  induction l generalizing a with
  | nil => exact h
  | cons x l ih =>
    obtain ⟨rfl, hback, hrest⟩ := h
    have hx := hnext a List.mem_cons_self
    refine ⟨rfl, ?_, ?_⟩
    · rw [hx, hprev a List.mem_cons_self, hback]
    · rw [hx]
      exact ih hrest (fun y hy => hnext y (List.mem_cons_of_mem a hy))
        fun y hy => hprev y (List.mem_cons_of_mem a hy)

/-- The last point gets another next one. -/
theorem redirect (h : Seg next prev a (l ++ [z]) b) (hnodup : (l ++ [z]).Nodup)
    (hnext : ∀ x ∈ l, next' x = next x) (hprev : ∀ x ∈ l ++ [z], x ≠ a → prev' x = prev x)
    (hz : next' z = c) (hc : prev' c = z) : Seg next' prev' a (l ++ [z]) c := by
  induction l generalizing a with
  | nil =>
    obtain ⟨rfl, _, _⟩ := h
    exact ⟨rfl, hz ▸ hc, hz⟩
  | cons x l ih =>
    obtain ⟨rfl, hback, hrest⟩ := h
    obtain ⟨hnot, hnodup'⟩ := List.nodup_cons.mp hnodup
    have hx := hnext a List.mem_cons_self
    have hmem : next a ∈ l ++ [z] := by
      rcases l with _ | ⟨y, l⟩
      · rw [show next a = z from hrest.1]
        simp
      · rw [show next a = y from hrest.1]
        simp
    refine ⟨rfl, ?_, ?_⟩
    · rw [hx, hprev _ (List.mem_cons_of_mem a hmem) fun e => hnot (e ▸ hmem), hback]
    · rw [hx]
      refine ih hrest hnodup' (fun y hy => hnext y (List.mem_cons_of_mem a hy)) fun y hy _ => ?_
      exact hprev y (List.mem_cons_of_mem a hy) fun e => hnot (e ▸ hy)

/-- The point after a point is further on. -/
theorem next_mem (h : Seg next prev a l b) (hnodup : (l ++ [b]).Nodup) (hx : x ∈ l) :
    next x ∈ l ++ [b] ∧ next x ≠ a := by
  induction l generalizing a with
  | nil => simp at hx
  | cons y l ih =>
    obtain ⟨rfl, _, hrest⟩ := h
    obtain ⟨hnot, hnodup'⟩ := List.nodup_cons.mp hnodup
    have hmem : next x ∈ l ++ [b] := by
      rcases List.mem_cons.mp hx with rfl | hx
      · rcases l with _ | ⟨y, l⟩
        · rw [show next x = b from hrest]
          simp
        · rw [show next x = y from hrest.1]
          simp
      · exact (ih hrest hnodup' hx).1
    exact ⟨List.mem_cons_of_mem a hmem, fun heq => hnot (heq ▸ hmem)⟩

end Seg

namespace Ring

variable {next prev next' prev' : α → α} {h z : α} {l l₁ l₂ : List α}

theorem seg (R : Ring next prev (h :: l)) : Seg next prev h (h :: l) h := by
  obtain ⟨h', t, heq, hseg⟩ := R
  obtain ⟨rfl, rfl⟩ := List.cons.inj heq
  exact hseg

/-- A point alone. -/
theorem single (hnext : next h = h) (hprev : prev h = h) : Ring next prev [h] :=
  ⟨h, [], rfl, rfl, by rw [hnext, hprev], hnext⟩

/-- The ring from another point on. -/
theorem rotate {p q : List α} (R : Ring next prev (p ++ q)) (hne : q ≠ []) : Ring next prev (q ++ p) := by
  obtain ⟨h, t, _, hseg⟩ := R
  obtain ⟨b, h₁, h₂⟩ := hseg.split
  rcases q with _ | ⟨y, q⟩
  · exact absurd rfl hne
  · obtain rfl : b = y := h₂.1
    exact ⟨b, q ++ p, rfl, h₂.append h₁⟩

/-- The point after a point of the ring is in the ring, and `prev` leads back. -/
theorem next_mem (R : Ring next prev l) {x : α} (hx : x ∈ l) : next x ∈ l ∧ prev (next x) = x := by
  obtain ⟨h, t, rfl, hseg⟩ := R
  obtain ⟨l₁, l₂, heq⟩ := List.append_of_mem hx
  rw [heq] at hseg
  obtain ⟨_, _, _, hprev, hrest⟩ := hseg.split
  refine ⟨?_, hprev⟩
  rcases l₂ with _ | ⟨y, l₂⟩
  · rw [show next x = h from hrest]
    exact List.mem_cons_self
  · rw [show next x = y from hrest.1, heq]
    simp

/-- Pointers of other points do not matter. -/
theorem congr (R : Ring next prev l) (hnext : ∀ x ∈ l, next' x = next x) (hprev : ∀ x ∈ l, prev' x = prev x) :
    Ring next' prev' l := by
  have hmem := fun x hx => (R.next_mem (x := x) hx).1
  obtain ⟨h, t, rfl, hseg⟩ := R
  exact ⟨h, t, rfl, hseg.congr hnext fun x hx => hprev _ (hmem x hx)⟩

/-- The last point is before the first. -/
theorem last (R : Ring next prev (h :: t)) {l : List α} (hl : h :: t = l ++ [z]) : next z = h ∧ prev h = z := by
  have hseg := R.seg
  rw [hl] at hseg
  exact hseg.last

/-- A new point before the first. -/
theorem insert {c y : α} {s : List α} (R : Ring next prev (s ++ [y])) (hh : (s ++ [y]).head? = some h)
    (hnodup : (s ++ [y]).Nodup) (hnext : ∀ x ∈ s, next' x = next x)
    (hprev : ∀ x ∈ s ++ [y], x ≠ h → prev' x = prev x)
    (hc : next' c = h) (hback : prev' h = c) (hy : next' y = c) (hcp : prev' c = y) :
    Ring next' prev' (c :: (s ++ [y])) := by
  obtain ⟨h', t, heq, hseg⟩ := R
  rw [heq, List.head?_cons, Option.some.injEq] at hh
  subst hh
  refine ⟨c, s ++ [y], rfl, rfl, by rw [hc, hback], ?_⟩
  rw [hc]
  exact hseg.redirect hnodup hnext hprev hy hcp

/-- The first point leaves. -/
theorem tail {x y : α} {s : List α} (R : Ring next prev (x :: (s ++ [y]))) (hnodup : (x :: (s ++ [y])).Nodup)
    (hnext : ∀ w ∈ s, next' w = next w) (hprev : ∀ w ∈ s ++ [y], w ≠ next x → prev' w = prev w)
    (hy : next' y = next x) (hx : prev' (next x) = y) : Ring next' prev' (s ++ [y]) := by
  obtain ⟨-, -, hseg⟩ := R.seg
  have hs := (List.nodup_cons.mp hnodup).2
  have hloop := hseg.redirect hs hnext hprev hy hx
  rcases s with _ | ⟨w, s⟩
  · exact ⟨y, [], rfl, by rwa [show next x = y from hseg.1] at hloop⟩
  · exact ⟨w, s ++ [y], rfl, by rwa [show next x = w from hseg.1] at hloop⟩

/-- A point leaves: its neighbours are linked. -/
theorem remove {x : α} {p q : List α} (R : Ring next prev (p ++ x :: q)) (hnodup : (p ++ x :: q).Nodup)
    (hne : p ≠ []) (hnext : ∀ w ∈ p ++ q, w ≠ prev x → next' w = next w)
    (hprev : ∀ w ∈ p ++ q, w ≠ next x → prev' w = prev w)
    (hp : next' (prev x) = next x) (hn : prev' (next x) = prev x) : Ring next' prev' (p ++ q) := by
  have hrot := R.rotate (List.cons_ne_nil x q)
  have hperm : (x :: (q ++ p)).Nodup := (List.perm_append_comm (α := α)).nodup_iff.mp hnodup
  obtain ⟨s, y, hs⟩ : ∃ s y, q ++ p = s ++ [y] :=
    ⟨_, _, (List.dropLast_append_getLast (List.append_ne_nil_of_right_ne_nil q hne)).symm⟩
  rw [List.cons_append, hs] at hrot
  rw [hs] at hperm
  obtain ⟨-, hback⟩ := hrot.last (List.cons_append (a := x)).symm
  have hmem : ∀ w, w ∈ s ++ [y] → w ∈ p ++ q := by
    intro w hw
    rw [← hs] at hw
    exact (List.perm_append_comm.mem_iff).mp hw
  have hy : y ∉ s := by
    have hnd := (List.nodup_cons.mp hperm).2
    rw [List.nodup_append] at hnd
    exact fun hy => hnd.2.2 y hy y (List.mem_singleton_self y) rfl
  have hring : Ring next' prev' (s ++ [y]) := by
    refine hrot.tail hperm (fun w hw => ?_) (fun w hw hw' => hprev w (hmem w hw) hw') (hback ▸ hp) (hback ▸ hn)
    refine hnext w (hmem w (List.mem_append_left _ hw)) ?_
    rw [hback]
    exact fun heq => hy (heq ▸ hw)
  rw [← hs] at hring
  exact hring.rotate hne

/-- A segment is closed by a point. -/
theorem close {x a : α} (S : Seg next prev a l z) (hnodup : (l ++ [z]).Nodup)
    (hnext : ∀ w ∈ l, next' w = next w) (hprev : ∀ w ∈ l ++ [z], w ≠ a → prev' w = prev w)
    (hx : next' x = a) (ha : prev' a = x) (hz : next' z = x) (hback : prev' x = z) :
    Ring next' prev' (x :: (l ++ [z])) := by
  refine ⟨x, l ++ [z], rfl, rfl, by rw [hx, ha], ?_⟩
  rw [hx]
  refine (S.congr hnext fun w hw => ?_).append ⟨rfl, by rw [hz, hback], hz⟩
  obtain ⟨hmem, hne⟩ := S.next_mem hnodup hw
  exact hprev _ hmem hne

end Ring

end IrJit
