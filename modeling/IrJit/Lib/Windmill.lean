import Mathlib.Data.Finset.Card
import Mathlib.Data.Finset.Image

/-!
# Lib.Windmill — parallel copies done one at a time

Every destination of `D` is to take a value from its source `pred d`.  `T` are the destinations that
wait, `loc s` is the place where the value of the source `s` is found.  `Need s v` says that `v` still
serves the readers of `s`, `Done d v` that `v` is what the destination `d` has to hold.
-/

namespace IrJit

variable {ι V : Type} {pred : ι → ι} {Need Done : ι → V → Prop} {D T : Finset ι} {loc : ι → ι} {σ : ι → V}

/-- The invariant of a parallel copy. -/
structure Copies (pred : ι → ι) (Need Done : ι → V → Prop) (D T : Finset ι) (loc : ι → ι) (σ : ι → V) :
    Prop where
  sub : T ⊆ D
  done : ∀ d ∈ D, d ∉ T → Done d (σ d)
  need : ∀ d ∈ T, Need (pred d) (σ (loc (pred d)))
  /-- the value of a source is at the source, in a finished destination, or put aside -/
  loc : ∀ d ∈ D, (loc (pred d) = pred d ∧ (pred d ∈ D → pred d ∈ T) ∧
      ∀ d' ∈ D, pred d' = pred d → d' ∈ T) ∨
    (loc (pred d) ∈ D ∧ loc (pred d) ∉ T ∧ pred (loc (pred d)) = pred d) ∨ loc (pred d) ∉ D

namespace Copies

/-- Before the first copy everything is in its place. -/
theorem start (hneed : ∀ d ∈ D, Need (pred d) (σ (pred d))) (hloc : ∀ d ∈ D, loc (pred d) = pred d) :
    Copies pred Need Done D D loc σ where
  sub := Finset.Subset.refl D
  done d hd hn := absurd hd hn
  need d hd := by
    rw [hloc d hd]
    exact hneed d hd
  loc d hd := Or.inl ⟨hloc d hd, id, fun d' hd' _ => hd'⟩

/-- A destination that still holds the value of its readers waits. -/
theorem waits (I : Copies pred Need Done D T loc σ) (hne : ∀ d ∈ D, pred d ≠ d) {d : ι} (hd : d ∈ D)
    (h : loc (pred d) = pred d) (hD : pred d ∈ D) : pred d ∈ T := by
  rcases I.loc d hd with ⟨-, h2, -⟩ | ⟨-, -, h3⟩ | h1
  · exact h2 hD
  · rw [h] at h3
    exact absurd h3 (hne (pred d) hD)
  · exact absurd hD (h ▸ h1)

variable [DecidableEq ι]

/-- **One copy.**  The destination waits and is not read at its own place. -/
theorem step (I : Copies pred Need Done D T loc σ) {dst : ι} {v : V} (hdst : dst ∈ T)
    (hfree : ∀ d ∈ D, pred d = dst → loc dst ≠ dst) (hdone : Done dst v) (hneed : Need (pred dst) v) :
    Copies pred Need Done D (T.erase dst) (Function.update loc (pred dst) dst) (Function.update σ dst v) where
  sub := (Finset.erase_subset dst T).trans I.sub
  done d hd hn := by
    by_cases h : d = dst
    · subst h
      rwa [Function.update_self]
    · rw [Function.update_of_ne h]
      exact I.done d hd (fun hT => hn (Finset.mem_erase.mpr ⟨h, hT⟩))
  need d hd := by
    obtain ⟨hne, hT⟩ := Finset.mem_erase.mp hd
    by_cases h : pred d = pred dst
    · rw [h, Function.update_self, Function.update_self]
      exact hneed
    · rw [Function.update_of_ne h]
      have hplace : loc (pred d) ≠ dst := by
        intro hl
        rcases I.loc d (I.sub hT) with ⟨h1, -, -⟩ | ⟨-, h2, -⟩ | h3
        · exact hfree d (I.sub hT) (h1 ▸ hl) (by rw [← hl, h1, h1])
        · exact h2 (hl ▸ hdst)
        · exact h3 (hl ▸ I.sub hdst)
      rw [Function.update_of_ne hplace]
      exact I.need d hT
  loc d hd := by
    by_cases h : pred d = pred dst
    · rw [h, Function.update_self]
      exact Or.inr (Or.inl ⟨I.sub hdst, Finset.notMem_erase dst T, rfl⟩)
    · rw [Function.update_of_ne h]
      rcases I.loc d hd with ⟨h1, h2, h3⟩ | ⟨h1, h2, h3⟩ | h1
      · refine Or.inl ⟨h1, fun hD => Finset.mem_erase.mpr ⟨?_, h2 hD⟩,
          fun d' hd' hp => Finset.mem_erase.mpr ⟨?_, h3 d' hd' hp⟩⟩
        · intro hp
          exact hfree d hd hp (by rw [← hp, h1])
        · rintro rfl
          exact h hp.symm
      · exact Or.inr (Or.inl ⟨h1, fun hm => h2 (Finset.mem_of_mem_erase hm), h3⟩)
      · exact Or.inr (Or.inr h1)

variable {Need' Done' : ι → V → Prop}

/-- **Putting aside.**  Nobody that waits reads the place `tmp`; the readers of `b` are served by what is
put there. -/
theorem save (I : Copies pred Need Done D T loc σ) {b tmp : ι} {v : V} (htmp : tmp ∉ D)
    (hread : ∀ d ∈ T, loc (pred d) ≠ tmp) (hneed : ∀ d ∈ T, pred d = b → Need' b v)
    (hNeed : ∀ d ∈ T, pred d ≠ b → ∀ w, Need (pred d) w → Need' (pred d) w)
    (hDone : ∀ d ∈ D, d ∉ T → ∀ w, Done d w → Done' d w) :
    Copies pred Need' Done' D T (Function.update loc b tmp) (Function.update σ tmp v) where
  sub := I.sub
  done d hd hn := by
    have hne : d ≠ tmp := by
      rintro rfl
      exact htmp hd
    rw [Function.update_of_ne hne]
    exact hDone d hd hn _ (I.done d hd hn)
  need d hd := by
    by_cases h : pred d = b
    · rw [h, Function.update_self, Function.update_self]
      exact hneed d hd h
    · rw [Function.update_of_ne h, Function.update_of_ne (hread d hd)]
      exact hNeed d hd h _ (I.need d hd)
  loc d hd := by
    by_cases h : pred d = b
    · rw [h, Function.update_self]
      exact Or.inr (Or.inr htmp)
    · rw [Function.update_of_ne h]
      exact I.loc d hd

/-- **Swapping.**  Two waiting destinations read each other, and nobody else reads them. -/
theorem swap (I : Copies pred Need Done D T loc σ) {a b : ι} {va vb : V} (ha : a ∈ T) (hb : b ∈ T)
    (hab : pred a = b) (hba : pred b = a) (hne : a ≠ b) (hreada : ∀ d ∈ D, pred d = a → d = b)
    (hreadb : ∀ d ∈ D, pred d = b → d = a) (hdonea : Done' a va) (hdoneb : Done' b vb)
    (hNeed : ∀ d ∈ T, d ≠ a → d ≠ b → ∀ w, Need (pred d) w → Need' (pred d) w)
    (hDone : ∀ d ∈ D, d ∉ T → ∀ w, Done d w → Done' d w) :
    Copies pred Need' Done' D ((T.erase a).erase b) (Function.update (Function.update loc a b) b a)
      (Function.update (Function.update σ a va) b vb) where
  sub := ((Finset.erase_subset b _).trans (Finset.erase_subset a T)).trans I.sub
  done d hd hn := by
    by_cases hdb : d = b
    · rw [hdb, Function.update_self]
      exact hdoneb
    · rw [Function.update_of_ne hdb]
      by_cases hda : d = a
      · rw [hda, Function.update_self]
        exact hdonea
      · rw [Function.update_of_ne hda]
        refine hDone d hd ?_ _ (I.done d hd ?_)
        all_goals exact fun hT => hn (Finset.mem_erase.mpr ⟨hdb, Finset.mem_erase.mpr ⟨hda, hT⟩⟩)
  need d hd := by
    obtain ⟨hdb, hd⟩ := Finset.mem_erase.mp hd
    obtain ⟨hda, hT⟩ := Finset.mem_erase.mp hd
    have hD := I.sub hT
    have hpa : pred d ≠ a := fun h => hdb (hreada d hD h)
    have hpb : pred d ≠ b := fun h => hda (hreadb d hD h)
    -- what is still read is at its own place, or no waiting destination
    have hplace : ∀ x ∈ T, pred d ≠ x → loc (pred d) ≠ x := by
      rintro x hx hpx rfl
      rcases I.loc d hD with ⟨h, -, -⟩ | ⟨-, h, -⟩ | h
      · exact hpx h.symm
      · exact h hx
      · exact h (I.sub hx)
    rw [Function.update_of_ne hpb, Function.update_of_ne hpa, Function.update_of_ne (hplace b hb hpb),
      Function.update_of_ne (hplace a ha hpa)]
    exact hNeed d hT hda hdb _ (I.need d hT)
  loc d hd := by
    have haT : a ∉ (T.erase a).erase b := fun h => Finset.notMem_erase a T (Finset.mem_of_mem_erase h)
    have hbT : b ∉ (T.erase a).erase b := Finset.notMem_erase b _
    by_cases hpb : pred d = b
    · rw [hpb, Function.update_self]
      exact Or.inr (Or.inl ⟨I.sub ha, haT, hab⟩)
    · rw [Function.update_of_ne hpb]
      by_cases hpa : pred d = a
      · rw [hpa, Function.update_self]
        exact Or.inr (Or.inl ⟨I.sub hb, hbT, hba⟩)
      · rw [Function.update_of_ne hpa]
        rcases I.loc d hd with ⟨h1, h2, h3⟩ | ⟨h1, h2, h3⟩ | h1
        · refine Or.inl ⟨h1, fun hD => ?_, fun d' hd' hp => ?_⟩
          · exact Finset.mem_erase.mpr ⟨hpb, Finset.mem_erase.mpr ⟨hpa, h2 hD⟩⟩
          · refine Finset.mem_erase.mpr ⟨?_, Finset.mem_erase.mpr ⟨?_, h3 d' hd' hp⟩⟩
            · rintro rfl
              exact hpa (hp.symm.trans hba)
            · rintro rfl
              exact hpb (hp.symm.trans hab)
        · exact Or.inr (Or.inl ⟨h1, fun h => h2 (Finset.mem_of_mem_erase (Finset.mem_of_mem_erase h)), h3⟩)
        · exact Or.inr (Or.inr h1)

/-- Every waiting destination stands in its own place and is read: the sources are waiting ones too. -/
theorem pred_mem_of_stuck (hstuck : ∀ b ∈ T, ∃ d ∈ T, pred d = b) : ∀ d ∈ T, pred d ∈ T := by
  have hsub : T ⊆ T.image pred := by
    intro b hb
    obtain ⟨d, hd, hp⟩ := hstuck b hb
    exact Finset.mem_image.mpr ⟨d, hd, hp⟩
  have himage : T = T.image pred := Finset.eq_of_subset_of_card_le hsub Finset.card_image_le
  intro d hd
  rw [himage]
  exact Finset.mem_image_of_mem pred hd

/-- …and no two of them have the same source. -/
theorem pred_inj_of_stuck (hstuck : ∀ b ∈ T, ∃ d ∈ T, pred d = b) : Set.InjOn pred T := by
  have hsub : T ⊆ T.image pred := by
    intro b hb
    obtain ⟨d, hd, hp⟩ := hstuck b hb
    exact Finset.mem_image.mpr ⟨d, hd, hp⟩
  exact Finset.card_image_iff.mp (le_antisymm Finset.card_image_le (Finset.card_le_card hsub))

end Copies

end IrJit
