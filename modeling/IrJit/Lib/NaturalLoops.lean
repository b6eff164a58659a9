import IrJit.Lib.Dominance

/-!
# Lib.NaturalLoops — the natural loops of a rooted graph

A back edge leads to a dominator of its source.  The loop of a header holds the header and what reaches the
source of one of its back edges without passing it; back edges to one header make one loop.

Two loops with different headers that share a vertex are nested (`InLoop.nested`).
-/

namespace IrJit.NaturalLoops

open Dominance

variable {α : Type} {E : α → α → Prop} {r g h p x y : α}

/-- The edge from `p` to `h` leads to a dominator. -/
def BackEdge (E : α → α → Prop) (r p h : α) : Prop := E p h ∧ Dom E r h p

/-- `h` is the target of a back edge. -/
def IsHead (E : α → α → Prop) (r h : α) : Prop := ∃ p, BackEdge E r p h

/-- `x` belongs to the loop of `h`. -/
def InLoop (E : α → α → Prop) (r h x : α) : Prop :=
  ∃ p, BackEdge E r p h ∧ (x = h ∨ x ≠ h ∧ Relation.ReflTransGen (fun u v => E u v ∧ v ≠ h) x p)

theorem InLoop.isHead (hx : InLoop E r h x) : IsHead E r h := by
  obtain ⟨p, hp, -⟩ := hx
  exact ⟨p, hp⟩

theorem IsHead.inLoop (hh : IsHead E r h) : InLoop E r h h := by
  obtain ⟨p, hp⟩ := hh
  exact ⟨p, hp, Or.inl rfl⟩

theorem BackEdge.inLoop (hp : BackEdge E r p h) : InLoop E r h p := by
  by_cases hph : p = h
  · exact ⟨p, hp, Or.inl hph⟩
  · exact ⟨p, hp, Or.inr ⟨hph, Relation.ReflTransGen.refl⟩⟩

/-- The header dominates the loop. -/
theorem InLoop.dom (hx : InLoop E r h x) : Dom E r h x := by
  obtain ⟨p, hp, rfl | ⟨-, hpath⟩⟩ := hx
  · exact Dom.refl E r x
  · exact hp.2.of_path hpath

/-- The loop is entered at its header only. -/
theorem InLoop.pred (hx : InLoop E r h x) (hne : x ≠ h) (he : E y x) : InLoop E r h y := by
  obtain ⟨p, hp, rfl | ⟨-, hpath⟩⟩ := hx
  · exact absurd rfl hne
  · by_cases hy : y = h
    · exact ⟨p, hp, Or.inl hy⟩
    · exact ⟨p, hp, Or.inr ⟨hy, hpath.head ⟨he, hne⟩⟩⟩

/-- The header reaches the loop within the loop. -/
theorem InLoop.reach (hx : InLoop E r h x) (hreach : Relation.ReflTransGen E r x) :
    Relation.ReflTransGen (fun u v => E u v ∧ InLoop E r h v) h x := by
  induction hreach with
  | refl =>
    rw [hx.dom.eq_root]
  | @tail u v _ hstep ih =>
    by_cases hv : v = h
    · rw [hv]
    · exact (ih (hx.pred hv hstep)).tail ⟨hstep, hx⟩

section Nested

variable (hreach : ∀ z, InLoop E r h z → Relation.ReflTransGen E r z)

include hreach

/-- The loop of a header that is strictly dominated by another one, and shares a vertex with its loop, lies
in that loop. -/
theorem InLoop.nested (hgx : InLoop E r g x) (hhx : InLoop E r h x) (hdom : Dom E r g h) (hne : g ≠ h)
    (hy : InLoop E r h y) : InLoop E r g y := by
  have hout : ¬InLoop E r h g := fun hin =>
    hne (hdom.antisymm (hreach h hhx.isHead.inLoop) hin.dom)
  have hin : ∀ z, InLoop E r h z → z ≠ g := fun z hz heq => hout (heq ▸ hz)
  -- down from `y` to the header `h`
  have hyh : Relation.ReflTransGen (fun u v => E u v ∧ v ≠ g) y h := by
    obtain ⟨p, hp, rfl | ⟨hyne, hpath⟩⟩ := hy
    · exact Relation.ReflTransGen.refl
    · have hwithin : ∀ z, Relation.ReflTransGen (fun u v => E u v ∧ v ≠ h) z p → z ≠ h →
          Relation.ReflTransGen (fun u v => E u v ∧ v ≠ g) z p := by
        intro z hz
        induction hz using Relation.ReflTransGen.head_induction_on with
        | refl => exact fun _ => Relation.ReflTransGen.refl
        | @head u v hstep hrest ih =>
          exact fun _ => (ih hstep.2).head ⟨hstep.1, hin v ⟨p, hp, Or.inr ⟨hstep.2, hrest⟩⟩⟩
      exact (hwithin y hpath hyne).tail ⟨hp.1, hne.symm⟩
  -- from there within the loop to the shared vertex
  have hhx' : ∀ z, Relation.ReflTransGen (fun u v => E u v ∧ InLoop E r h v) h z →
      Relation.ReflTransGen (fun u v => E u v ∧ v ≠ g) h z := by
    intro z hz
    induction hz with
    | refl => exact Relation.ReflTransGen.refl
    | tail _ hstep ih => exact ih.tail ⟨hstep.1, hin _ hstep.2⟩
  have hpath' := hhx' x (hhx.reach (hreach x hhx))
  obtain ⟨p, hp, rfl | ⟨-, hpath⟩⟩ := hgx
  · exact absurd hhx hout
  · exact ⟨p, hp, Or.inr ⟨hin y hy, (hyh.trans hpath').trans hpath⟩⟩

/-- A header around a header is around its loop. -/
theorem InLoop.trans (hgh : InLoop E r g h) (hhy : InLoop E r h y) : InLoop E r g y := by
  by_cases hne : g = h
  · rw [hne]
    exact hhy
  · exact hgh.nested hreach hhy.isHead.inLoop hgh.dom hne hhy

/-- Of two headers around a vertex the one that dominates the other is around it. -/
theorem InLoop.around (hgx : InLoop E r g x) (hhx : InLoop E r h x) (hdom : Dom E r g h) : InLoop E r g h := by
  by_cases hne : g = h
  · rw [hne]
    exact hhx.isHead.inLoop
  · exact hgx.nested hreach hhx hdom hne hhx.isHead.inLoop

end Nested

/-- A path from outside a set into it enters it at some edge for the first time. -/
theorem exists_entry {S : α → Prop} (hpath : Relation.ReflTransGen E r y) (hr : ¬S r) (hy : S y) :
    ∃ u v, E u v ∧ S v ∧ ¬S u ∧ Avoids E r v u := by
  have key : ∀ z, Relation.ReflTransGen E r z →
      (∃ u v, E u v ∧ S v ∧ ¬S u ∧ Avoids E r v u) ∨
        ¬S z ∧ Relation.ReflTransGen (fun u v => E u v ∧ ¬S v) r z := by
    intro z hz
    induction hz with
    | refl => exact Or.inr ⟨hr, Relation.ReflTransGen.refl⟩
    | @tail u v hfirst hstep ih =>
      rcases ih with ih | ⟨hu, hrest⟩
      · exact Or.inl ih
      · by_cases hv : S v
        · refine Or.inl ⟨u, v, hstep, hv, hu, fun heq => hr (heq ▸ hv), ?_⟩
          clear hstep hu hfirst
          induction hrest with
          | refl => exact Relation.ReflTransGen.refl
          | tail _ hstep ih => exact ih.tail ⟨hstep.1, fun heq => hstep.2 (heq ▸ hv)⟩
        · exact Or.inr ⟨hv, hrest.tail ⟨hstep, hv⟩⟩
  exact (key y hpath).resolve_right fun h => h.1 hy

end IrJit.NaturalLoops
