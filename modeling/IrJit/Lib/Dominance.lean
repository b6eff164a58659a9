import Mathlib.Logic.Equiv.Defs
import Mathlib.Logic.Relation
import Mathlib.Tactic.Common

/-!
# Lib.Dominance — dominators of a rooted graph

`Dom E r d b` says that every path of `E` from `r` to `b` goes through `d`.  A path that avoids `d`
starts at some `r ≠ d` and never steps onto `d`.
-/

namespace IrJit.Dominance

variable {α : Type} {E : α → α → Prop} {r d e b p : α}

/-- Some path from `r` to `b` avoids `d`. -/
def Avoids (E : α → α → Prop) (r d b : α) : Prop :=
  r ≠ d ∧ Relation.ReflTransGen (fun x y => E x y ∧ y ≠ d) r b

/-- Every path from `r` to `b` goes through `d`. -/
def Dom (E : α → α → Prop) (r d b : α) : Prop := ¬ Avoids E r d b

/-- `d` is the immediate dominator of `b`: a strict dominator that all the others dominate. -/
def IsIdom (E : α → α → Prop) (r d b : α) : Prop :=
  d ≠ b ∧ Dom E r d b ∧ ∀ e, e ≠ b → Dom E r e b → Dom E r e d

theorem Avoids.step (h : Avoids E r d p) (he : E p b) (hb : b ≠ d) : Avoids E r d b :=
  ⟨h.1, h.2.tail ⟨he, hb⟩⟩

/-- Only the root dominates the root. -/
theorem Dom.eq_root (h : Dom E r d r) : d = r := by
  by_contra hne
  exact h ⟨Ne.symm hne, Relation.ReflTransGen.refl⟩

/-- A strict dominator dominates every predecessor. -/
theorem Dom.pred (h : Dom E r d b) (hd : d ≠ b) (he : E p b) : Dom E r d p :=
  fun hp => h (hp.step he hd.symm)

/-- A dominator of the end of a path that avoids it dominates the start of the path. -/
theorem Dom.of_path (h : Dom E r d b) (hpath : Relation.ReflTransGen (fun x y => E x y ∧ y ≠ d) p b) :
    Dom E r d p :=
  fun hp => h ⟨hp.1, hp.2.trans hpath⟩

/-- A set of vertices of each block that shrinks along edges, and is no more than `{r}` at the
root, holds dominators only. -/
theorem dom_of_closed {A : α → α → Prop} (hroot : ∀ d, A d r → d = r)
    (hstep : ∀ d p b, E p b → A d b → d = b ∨ A d p) (h : A d b) : Dom E r d b := by
  rintro ⟨hr, hpath⟩
  induction hpath with
  | refl => exact hr (hroot d h).symm
  | tail _ he ih =>
    rcases hstep d _ _ he.1 h with rfl | h
    · exact he.2 rfl
    · exact ih h

theorem Dom.refl (E : α → α → Prop) (r d : α) : Dom E r d d := by
  rintro ⟨hr, hpath⟩
  rcases Relation.ReflTransGen.cases_tail hpath with h | ⟨p, -, hstep⟩
  · exact hr h.symm
  · exact hstep.2 rfl

/-- A path that avoids `d` avoids `e` too, or leads to `e`. -/
theorem Avoids.or_avoids (h : Avoids E r d b) (e : α) : Avoids E r e b ∨ Avoids E r d e := by
  obtain ⟨hr, hpath⟩ := h
  induction hpath with
  | refl =>
    by_cases he : r = e
    · exact Or.inr ⟨hr, he ▸ Relation.ReflTransGen.refl⟩
    · exact Or.inl ⟨he, Relation.ReflTransGen.refl⟩
  | @tail u v hpath hstep ih =>
    rcases ih with ih | ih
    · by_cases hv : v = e
      · exact Or.inr ⟨hr, hv ▸ hpath.tail hstep⟩
      · exact Or.inl (ih.step hstep.1 hv)
    · exact Or.inr ih

theorem Dom.trans (h : Dom E r d e) (h' : Dom E r e b) : Dom E r d b := fun hav =>
  (hav.or_avoids e).elim h' h

section Reach

variable (hb : Relation.ReflTransGen E r b)

include hb

/-- Two dominators of one vertex dominate each other, one way or the other. -/
theorem Dom.total (hd : Dom E r d b) (he : Dom E r e b) : Dom E r d e ∨ Dom E r e d := by
  by_contra hno
  rw [not_or, Dom, Dom, not_not, not_not] at hno
  obtain ⟨hde, hed⟩ := hno
  induction hb with
  | refl => exact hde.1 hd.eq_root.symm
  | @tail u v _ hstep ih =>
    by_cases hvd : d = v
    · exact he (hvd ▸ hed)
    · by_cases hve : e = v
      · exact hd (hve ▸ hde)
      · exact ih (hd.pred hvd hstep) (he.pred hve hstep)

theorem Dom.antisymm (hd : Dom E r d b) (hbd : Dom E r b d) : d = b := by
  by_contra hne
  have key : ∀ x, Relation.ReflTransGen E r x → Avoids E r d x ∧ Avoids E r b x := by
    intro x hx
    induction hx with
    | refl =>
      refine ⟨⟨fun heq => ?_, Relation.ReflTransGen.refl⟩, ⟨fun heq => ?_, Relation.ReflTransGen.refl⟩⟩
      · subst heq
        exact hne hbd.eq_root.symm
      · subst heq
        exact hne hd.eq_root
    | @tail u v _ hstep ih =>
      refine ⟨ih.1.step hstep fun hv => ?_, ih.2.step hstep fun hv => ?_⟩
      · subst hv
        exact hbd (ih.2.step hstep hne)
      · subst hv
        exact hd (ih.1.step hstep (Ne.symm hne))
  exact Dom.refl E r b (key b hb).2

end Reach

section Map

variable {β : Type} {E' : β → β → Prop}

/-- The image of a path that avoids a vertex avoids its image. -/
theorem Avoids.map {f : α → β} (hf : Function.Injective f) (hE : ∀ p b, E p b → E' (f p) (f b))
    (h : Avoids E r d b) : Avoids E' (f r) (f d) (f b) := by
  obtain ⟨hr, hpath⟩ := h
  refine ⟨fun heq => hr (hf heq), ?_⟩
  induction hpath with
  | refl => exact Relation.ReflTransGen.refl
  | tail _ hstep ih => exact ih.tail ⟨hE _ _ hstep.1, fun heq => hstep.2 (hf heq)⟩

variable (e : α ≃ β) (hE : ∀ p b, E' (e p) (e b) ↔ E p b)

include hE

/-- Dominators do not depend on the names of the vertices. -/
theorem dom_equiv : Dom E' (e r) (e d) (e b) ↔ Dom E r d b := by
  refine not_congr ⟨fun h => ?_, fun h => h.map e.injective fun p b => (hE p b).2⟩
  have hedge : ∀ p b, E' p b → E (e.symm p) (e.symm b) := by
    intro p b hpb
    rw [← hE, e.apply_symm_apply, e.apply_symm_apply]
    exact hpb
  have hback := h.map e.symm.injective hedge
  rwa [e.symm_apply_apply, e.symm_apply_apply, e.symm_apply_apply] at hback

theorem isIdom_equiv : IsIdom E' (e r) (e d) (e b) ↔ IsIdom E r d b := by
  refine and_congr e.injective.ne_iff (and_congr (dom_equiv e hE) ?_)
  constructor
  · intro h x hx hdom
    exact (dom_equiv e hE).1 (h (e x) (e.injective.ne hx) ((dom_equiv e hE).2 hdom))
  · intro h x hx hdom
    obtain ⟨x, rfl⟩ := e.surjective x
    exact (dom_equiv e hE).2 (h x (fun heq => hx (congrArg e heq)) ((dom_equiv e hE).1 hdom))

end Map

end IrJit.Dominance
