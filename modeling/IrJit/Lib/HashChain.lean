import Mathlib

/-!
# Lib.HashChain — hash buckets chained through the entries themselves

`heads h` is the first entry of bucket `h` and `prev r` the entry after `r`; entry `0` ends a
chain.  `Chained heads prev bucket linked` says that every bucket chains exactly the entries of
`linked` that hash to it, in the order of `linked`: the newest entry stands first.
-/

namespace IrJit.HashChain

variable {α : Type} [Zero α]

/-- `Chain prev r l`: following `prev` from `r` visits `l` and then ends. -/
def Chain (prev : α → α) : α → List α → Prop
  | r, [] => r = 0
  | r, x :: l => r = x ∧ x ≠ 0 ∧ Chain prev (prev x) l

/-- The loop `while (r) { if (p(r)) return r; r = prev(r); }`; `0` when no entry passes, `none`
when the fuel runs out. -/
def walk [DecidableEq α] (prev : α → α) (p : α → Bool) : ℕ → α → Option α
  | 0, _ => none
  | n + 1, r => if r = 0 then some 0 else if p r then some r else walk prev p n (prev r)

/-- Every bucket chains the entries of `linked` that belong to it. -/
def Chained (heads : ℕ → α) (prev : α → α) (bucket : α → ℕ) (linked : List α) : Prop :=
  ∀ h, Chain prev (heads h) (linked.filter fun r => bucket r = h)

section Chain

variable {prev prev' : α → α} {r : α} {l : List α}

theorem Chain.congr (h : Chain prev r l) (hp : ∀ x ∈ l, prev' x = prev x) : Chain prev' r l := by
  induction l generalizing r with
  | nil => exact h
  | cons x l ih =>
    obtain ⟨hr, hx, hl⟩ := h
    refine ⟨hr, hx, ?_⟩
    rw [hp x (by simp)]
    exact ih hl fun y hy => hp y (by simp [hy])

theorem Chain.ne_zero (h : Chain prev r l) {x : α} (hx : x ∈ l) : x ≠ 0 := by
  induction l generalizing r with
  | nil => simp at hx
  | cons y l ih =>
    rcases List.mem_cons.mp hx with rfl | hx
    · exact h.2.1
    · exact ih h.2.2 hx

/-- The walk over a chain returns its first entry that passes. -/
theorem walk_eq [DecidableEq α] (h : Chain prev r l) (p : α → Bool) {n : ℕ} (hn : l.length < n) :
    walk prev p n r = some ((l.find? p).getD 0) := by
  induction l generalizing r n with
  | nil =>
    obtain ⟨n, rfl⟩ := Nat.exists_eq_add_of_lt hn
    have hr : r = 0 := h
    simp [walk, hr]
  | cons x l ih =>
    obtain ⟨hr, hx, hl⟩ := h
    subst hr
    obtain ⟨n, rfl⟩ : ∃ m, n = m + 1 := ⟨n - 1, by omega⟩
    rw [walk, if_neg hx]
    by_cases hp : p r = true
    · simp [hp]
    · have hlen : l.length < n := by simpa using hn
      rw [if_neg hp, ih hl hlen, List.find?_cons_of_neg hp]

end Chain

section Chained

variable {heads : ℕ → α} {prev prev' : α → α} {bucket bucket' : α → ℕ} {linked : List α}

/-- Empty buckets chain nothing. -/
theorem chained_nil : Chained (fun _ => 0) prev bucket [] := fun _ => rfl

theorem Chained.congr (h : Chained heads prev bucket linked)
    (hp : ∀ x ∈ linked, prev' x = prev x) (hb : ∀ x ∈ linked, bucket' x = bucket x) :
    Chained heads prev' bucket' linked := by
  intro i
  have hfilter : (linked.filter fun r => bucket' r = i) = linked.filter fun r => bucket r = i := by
    apply List.filter_congr
    intro x hx
    rw [hb x hx]
  rw [hfilter]
  exact (h i).congr fun x hx => hp x (List.mem_filter.mp hx).1

/-- Putting a new entry in front of its bucket. -/
theorem Chained.push [DecidableEq α] (h : Chained heads prev bucket linked) {r : α} (hr : r ≠ 0)
    (hnew : r ∉ linked) :
    Chained (Function.update heads (bucket r) r) (Function.update prev r (heads (bucket r))) bucket
      (r :: linked) := by
  have hold : ∀ i, Chain (Function.update prev r (heads (bucket r))) (heads i)
      (linked.filter fun x => bucket x = i) := by
    intro i
    refine (h i).congr fun x hx => Function.update_of_ne ?_ _ _
    rintro rfl
    exact hnew (List.mem_filter.mp hx).1
  intro i
  by_cases hi : bucket r = i
  · subst hi
    rw [Function.update_self, List.filter_cons_of_pos (by simp)]
    refine ⟨rfl, hr, ?_⟩
    rw [Function.update_self]
    exact hold _
  · rw [Function.update_of_ne (Ne.symm hi), List.filter_cons_of_neg (by simpa using hi)]
    exact hold i

/-- Looking up in the bucket of the entries sought returns the newest linked one. -/
theorem Chained.walk_eq [DecidableEq α] (h : Chained heads prev bucket linked) (p : α → Bool) {i n : ℕ}
    (hp : ∀ x ∈ linked, p x = true → bucket x = i) (hn : linked.length < n) :
    walk prev p n (heads i) = some ((linked.find? p).getD 0) := by
  have hlen : (linked.filter fun x => bucket x = i).length < n :=
    lt_of_le_of_lt (List.length_filter_le _ _) hn
  rw [HashChain.walk_eq (h i) p hlen, List.find?_filter]
  congr 2
  apply List.find?_congr
  intro x hx
  by_cases hpx : p x = true
  · simp [hpx, hp x hx hpx]
  · simp [hpx]

end Chained

end IrJit.HashChain
