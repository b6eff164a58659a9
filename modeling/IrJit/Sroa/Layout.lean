import Mathlib.Data.Finset.Range
import Mathlib.Data.Finset.Card
import Mathlib.Tactic.Common

/-!
# Sroa.Layout — the table of accessed parts of an aggregate (`ir_mem2ssa.c`)

`sizes` has, for every offset at which the object is accessed, the number of bytes.  The table is cleared
when the first access comes, and a new access is compared with the entries it may overlap: those inside it,
and those that start at most seven bytes before it.
-/

namespace IrJit.Sroa

/-- `ir_mem2ssa_split_layout`. -/
structure Layout where
  size : ℕ
  count : ℕ
  sizes : ℕ → ℕ

/-- `ir_mem2ssa_add_split_var`; `none` when it returns `0`. -/
def addSplitVar (L : Layout) (offset size : ℕ) : Option Layout :=
  if offset + size > L.size then none
  else if L.count = 0 then
    some { L with
      count := L.count + 1
      sizes := Function.update (fun i => if i < L.size then 0 else L.sizes i) offset size }
  else if L.sizes offset ≠ 0 then if L.sizes offset = size then some L else none
  else if (List.range' (offset + 1) (size - 1)).any fun i => L.sizes i ≠ 0 then none
  else if (List.range' 1 (min offset 7)).any fun i => L.sizes (offset - i) > i then none
  else some { L with
      count := L.count + 1
      sizes := Function.update L.sizes offset size }

namespace Layout

/-- The offsets with an entry, in order. -/
def offsets (L : Layout) : List ℕ := (List.range L.size).filter fun o => L.sizes o ≠ 0

/-- The table has the accesses `acc` and nothing else, and they do not overlap. -/
structure Fits (L : Layout) (acc : ℕ → ℕ → Prop) : Prop where
  entry : ∀ o s, acc o s → (0 < s ∧ s ≤ 8) ∧ o + s ≤ L.size ∧ L.count ≠ 0 ∧ L.sizes o = s
  access : L.count ≠ 0 → ∀ o ∈ L.offsets, acc o (L.sizes o)
  apart : L.count ≠ 0 → ∀ o ∈ L.offsets, ∀ o' ∈ L.offsets, o < o' → o + L.sizes o ≤ o'
  count : L.count ≠ 0 → L.count = L.offsets.length

variable {L L' : Layout} {acc : ℕ → ℕ → Prop} {offset size : ℕ}

theorem mem_offsets {o : ℕ} : o ∈ L.offsets ↔ o < L.size ∧ L.sizes o ≠ 0 := by simp [offsets]

theorem length_offsets (L : Layout) :
    L.offsets.length = ((Finset.range L.size).filter fun o => L.sizes o ≠ 0).card := by
  have hnodup : L.offsets.Nodup := List.nodup_range.filter _
  rw [← List.toFinset_card_of_nodup hnodup]
  congr 1
  ext o
  simp [mem_offsets]

/-- An access is equal to every other one or shares no byte with it. -/
theorem Fits.equal_or_apart (h : L.Fits acc) {o s o' s' : ℕ} (ho : acc o s) (ho' : acc o' s') :
    (o = o' ∧ s = s') ∨ o + s ≤ o' ∨ o' + s' ≤ o := by
  obtain ⟨⟨hs0, _⟩, hin, hcount, hs⟩ := h.entry o s ho
  obtain ⟨⟨hs0', _⟩, hin', _, hs'⟩ := h.entry o' s' ho'
  have hmem : o ∈ L.offsets := mem_offsets.mpr ⟨by omega, by omega⟩
  have hmem' : o' ∈ L.offsets := mem_offsets.mpr ⟨by omega, by omega⟩
  rcases Nat.lt_trichotomy o o' with hlt | rfl | hlt
  · have := h.apart hcount o hmem o' hmem' hlt
    omega
  · exact Or.inl ⟨rfl, by omega⟩
  · have := h.apart hcount o' hmem' o hmem hlt
    omega

/-- The table is empty at the start, whatever it holds. -/
theorem fits_empty (size : ℕ) (sizes : ℕ → ℕ) : Fits ⟨size, 0, sizes⟩ fun _ _ => False where
  entry _ _ h := h.elim
  access h := absurd rfl h
  apart h := absurd rfl h
  count h := absurd rfl h

/-- A new entry where nothing overlaps it. -/
theorem Fits.addEntry (h : L.Fits acc) (hcount : L.count ≠ 0) (hs : 0 < size ∧ size ≤ 8)
    (hin : offset + size ≤ L.size) (hnew : L.sizes offset = 0)
    (hafter : ∀ i, offset < i → i < offset + size → L.sizes i = 0)
    (hbefore : ∀ i, i < offset → offset < i + 8 → i + L.sizes i ≤ offset) :
    Fits { L with count := L.count + 1, sizes := Function.update L.sizes offset size }
      fun o s => acc o s ∨ o = offset ∧ s = size := by
  set L' : Layout := { L with count := L.count + 1, sizes := Function.update L.sizes offset size } with hL'
  have hself : L'.sizes offset = size := Function.update_self _ _ _
  have hother : ∀ o, o ≠ offset → L'.sizes o = L.sizes o := fun o ho => Function.update_of_ne ho _ _
  have hmem : ∀ o, o ∈ L'.offsets ↔ o ∈ L.offsets ∨ o = offset := by
    intro o
    rw [mem_offsets, mem_offsets]
    by_cases ho : o = offset
    · subst ho
      rw [hself]
      exact ⟨fun _ => Or.inr rfl, fun _ => ⟨show o < L.size by omega, by omega⟩⟩
    · rw [hother o ho]
      exact ⟨fun h => Or.inl h, fun h => h.resolve_right ho⟩
  have hne : ∀ o ∈ L.offsets, o ≠ offset := by
    rintro o ho rfl
    exact (mem_offsets.mp ho).2 hnew
  refine ⟨?_, ?_, ?_, ?_⟩
  · rintro o s (ho | ⟨rfl, rfl⟩)
    · obtain ⟨hs, hin, _, hsz⟩ := h.entry o s ho
      have hne' : o ≠ offset := by
        rintro rfl
        omega
      exact ⟨hs, hin, Nat.succ_ne_zero _, by rw [hother o hne', hsz]⟩
    · exact ⟨hs, hin, Nat.succ_ne_zero _, hself⟩
  · intro _ o ho
    rcases (hmem o).mp ho with ho | rfl
    · rw [hother o (hne o ho)]
      exact Or.inl (h.access hcount o ho)
    · exact Or.inr ⟨rfl, hself⟩
  · intro _ o ho o' ho' hlt
    rcases (hmem o).mp ho with ho | rfl
    · rw [hother o (hne o ho)]
      rcases (hmem o').mp ho' with ho' | rfl
      · exact h.apart hcount o ho o' ho' hlt
      · have hsz := h.entry o _ (h.access hcount o ‹o ∈ L.offsets›)
        by_cases hclose : o' < o + 8
        · exact hbefore o hlt hclose
        · omega
    · rw [hself]
      rcases (hmem o').mp ho' with ho' | rfl
      · by_contra hover
        exact (mem_offsets.mp ho').2 (hafter o' hlt (by omega))
      · omega
  · intro _
    have hcard : (Finset.range L'.size).filter (fun o => L'.sizes o ≠ 0) =
        insert offset ((Finset.range L.size).filter fun o => L.sizes o ≠ 0) := by
      ext o
      have := hmem o
      rw [mem_offsets, mem_offsets] at this
      simp only [Finset.mem_filter, Finset.mem_range, Finset.mem_insert]
      tauto
    have hold := h.count hcount
    rw [length_offsets] at hold
    rw [length_offsets, hcard, Finset.card_insert_of_notMem (by simp [hnew]), ← hold]

/-- A new access is refused or enters the table. -/
theorem Fits.add (h : L.Fits acc) (hs : 0 < size ∧ size ≤ 8) (hadd : addSplitVar L offset size = some L') :
    L'.size = L.size ∧ L'.count ≠ 0 ∧ L'.Fits fun o s => acc o s ∨ o = offset ∧ s = size := by
  unfold addSplitVar at hadd
  split_ifs at hadd with hin hzero hsome heq hafter hbefore
  · -- the first access clears the table
    simp only [Option.some.injEq] at hadd
    have hsize : L'.size = L.size := by rw [← hadd]
    have hcount : L'.count = 1 := by rw [← hadd, hzero]
    have hself : L'.sizes offset = size := by
      rw [← hadd]
      simp only [Function.update_self]
    have hother : ∀ o < L.size, o ≠ offset → L'.sizes o = 0 := by
      intro o hlt ho
      rw [← hadd]
      simp only [Function.update_of_ne ho, if_pos hlt]
    have hmem : ∀ o, o ∈ L'.offsets ↔ o = offset := by
      intro o
      rw [mem_offsets, hsize]
      constructor
      · rintro ⟨hlt, hsz⟩
        by_contra ho
        exact hsz (hother o hlt ho)
      · rintro rfl
        omega
    refine ⟨hsize, by omega, ⟨?_, ?_, ?_, ?_⟩⟩
    · rintro o s (ho | ⟨rfl, rfl⟩)
      · exact absurd hzero (h.entry o s ho).2.2.1
      · exact ⟨hs, by omega, by omega, hself⟩
    · intro _ o ho
      obtain rfl := (hmem o).mp ho
      exact Or.inr ⟨rfl, hself⟩
    · intro _ o ho o' ho' hlt
      rw [(hmem o).mp ho, (hmem o').mp ho'] at hlt
      omega
    · intro _
      have hcard : (Finset.range L'.size).filter (fun o => L'.sizes o ≠ 0) = {offset} := by
        ext o
        have := hmem o
        rw [mem_offsets] at this
        simpa only [Finset.mem_filter, Finset.mem_range, Finset.mem_singleton] using this
      rw [length_offsets, hcard, Finset.card_singleton, hcount]
  · -- an access that is there
    simp only [Option.some.injEq] at hadd
    subst hadd
    have hmem : offset ∈ L.offsets := mem_offsets.mpr ⟨by omega, hsome⟩
    have hacc := h.access hzero offset hmem
    rw [heq] at hacc
    refine ⟨rfl, hzero, ⟨?_, fun hc o ho => Or.inl (h.access hc o ho), h.apart, h.count⟩⟩
    rintro o s (ho | ⟨rfl, rfl⟩)
    · exact h.entry o s ho
    · exact h.entry _ _ hacc
  · simp only [Option.some.injEq] at hadd
    subst hadd
    simp only [List.any_eq_true, List.mem_range'_1, decide_eq_true_eq, not_exists, not_and] at hafter hbefore
    refine ⟨rfl, Nat.succ_ne_zero _, h.addEntry hzero hs (by omega) (not_ne_iff.mp hsome) ?_ ?_⟩
    · intro i hlt hlt'
      exact not_ne_iff.mp (hafter i (by omega))
    · intro i hlt hclose
      have := hbefore (offset - i) (by omega)
      rw [show offset - (offset - i) = i by omega] at this
      omega

end Layout

end IrJit.Sroa
