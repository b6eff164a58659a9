import Mathlib.Logic.Function.Basic
import Mathlib.Tactic.Common

/-!
# Lib.TwoSlot — a table where an item goes to its slot or to the next one

`home x` is the slot of `x`; a slot is free when it has `0`.  An item whose slot and the one behind it are both
taken has no place.
-/

namespace IrJit.TwoSlot

variable {α : Type} [Zero α] [DecidableEq α] {home : α → ℕ}

/-- The slots, and whether an item was moved to the next one. -/
structure Slots (α : Type) where
  hash : ℕ → α
  moved : Bool

/-- Free slots. -/
def empty : Slots α := ⟨fun _ => 0, false⟩

/-- One item. -/
def store (home : α → ℕ) (S : Slots α) (x : α) : Option (Slots α) :=
  let h := home x
  if S.hash h ≠ 0 then
    if S.hash (h + 1) = 0 then some ⟨Function.update S.hash (h + 1) x, true⟩ else none
  else some { S with hash := Function.update S.hash h x }

/-- The items in turn, up to the first that has no place; do all have one? -/
def storeAll (home : α → ℕ) (S : Slots α) : List α → Slots α × Bool
  | [] => (S, true)
  | x :: l =>
    match store home S x with
    | some S => storeAll home S l
    | none => (S, false)

/-- Some item comes to slot `j` when it is taken, and goes on to the next one. -/
def Moves (home : α → ℕ) (l : List α) (j : ℕ) : Prop :=
  ∃ pre x post, l = pre ++ x :: post ∧ home x = j ∧ (storeAll home empty pre).1.hash j ≠ 0

/-! ## One item -/

section Store

variable {S S' T : Slots α} {x : α}

/-- The item goes to its slot, or to the next one. -/
theorem store_cases (h : store home S x = some S') :
    (S.hash (home x) = 0 ∧ S' = { S with hash := Function.update S.hash (home x) x }) ∨
    (S.hash (home x) ≠ 0 ∧ S.hash (home x + 1) = 0 ∧
      S' = ⟨Function.update S.hash (home x + 1) x, true⟩) := by
  unfold store at h
  dsimp only at h
  split_ifs at h with htaken hfree
  · exact Or.inr ⟨htaken, hfree, (Option.some.inj h).symm⟩
  · exact Or.inl ⟨not_not.1 htaken, (Option.some.inj h).symm⟩

theorem store_of_free (h : S.hash (home x) = 0) :
    store home S x = some { S with hash := Function.update S.hash (home x) x } := by
  unfold store
  rw [if_neg (not_not.2 h)]

theorem store_of_taken (h : S.hash (home x) ≠ 0) (hnext : S.hash (home x + 1) = 0) :
    store home S x = some ⟨Function.update S.hash (home x + 1) x, true⟩ := by
  unfold store
  rw [if_pos h, if_pos hnext]

/-- A taken slot keeps its item. -/
theorem store_kept (h : store home S x = some S') {j : ℕ} (hj : S.hash j ≠ 0) : S'.hash j = S.hash j := by
  rcases store_cases h with ⟨hfree, rfl⟩ | ⟨-, hfree, rfl⟩
  · refine Function.update_of_ne ?_ _ _
    rintro rfl
    exact hj hfree
  · refine Function.update_of_ne ?_ _ _
    rintro rfl
    exact hj hfree

/-- What is new in a slot is the item, and the slot is its own or the next one. -/
theorem store_origin (h : store home S x = some S') (j : ℕ) :
    S'.hash j = S.hash j ∨ S'.hash j = x ∧ (home x = j ∨ home x + 1 = j ∧ S.hash (home x) ≠ 0) := by
  rcases store_cases h with ⟨-, rfl⟩ | ⟨htaken, -, rfl⟩
  · by_cases hj : j = home x
    · subst hj
      exact Or.inr ⟨Function.update_self _ _ _, Or.inl rfl⟩
    · exact Or.inl (Function.update_of_ne hj _ _)
  · by_cases hj : j = home x + 1
    · subst hj
      exact Or.inr ⟨Function.update_self _ _ _, Or.inr ⟨rfl, htaken⟩⟩
    · exact Or.inl (Function.update_of_ne hj _ _)

theorem store_moved (h : store home S x = some S') (hmoved : S.moved = true) : S'.moved = true := by
  rcases store_cases h with ⟨-, rfl⟩ | ⟨-, -, rfl⟩
  · exact hmoved
  · rfl

/-- The slots up to `n` are the same, and slot `n` is free in `T` if it is in `S`. -/
def Below (n : ℕ) (S T : Slots α) : Prop := (∀ j < n, T.hash j = S.hash j) ∧ (S.hash n = 0 → T.hash n = 0)

/-- An item that has a place in `S` has the same in `T`. -/
theorem Below.store {n : ℕ} (hb : Below n S T) (hx : home x < n) (h : store home S x = some S') :
    ∃ T', TwoSlot.store home T x = some T' ∧ Below n S' T' := by
  have hhome := hb.1 _ hx
  rcases store_cases h with ⟨hfree, rfl⟩ | ⟨htaken, hnext, rfl⟩
  · refine ⟨_, store_of_free (hhome.trans hfree), fun j hj => ?_, fun hn => ?_⟩
    · show Function.update T.hash (home x) x j = Function.update S.hash (home x) x j
      by_cases hjx : j = home x
      · rw [hjx, Function.update_self, Function.update_self]
      · rw [Function.update_of_ne hjx, Function.update_of_ne hjx, hb.1 j hj]
    · show Function.update T.hash (home x) x n = 0
      have hn : Function.update S.hash (home x) x n = 0 := hn
      rw [Function.update_of_ne (by omega)] at hn ⊢
      exact hb.2 hn
  · have hnextT : T.hash (home x + 1) = 0 := by
      rcases Nat.lt_or_ge (home x + 1) n with hlt | hge
      · exact (hb.1 _ hlt).trans hnext
      · have heq : home x + 1 = n := by omega
        rw [heq] at hnext ⊢
        exact hb.2 hnext
    refine ⟨_, store_of_taken (hhome.trans_ne htaken) hnextT, fun j hj => ?_, fun hn => ?_⟩
    · show Function.update T.hash (home x + 1) x j = Function.update S.hash (home x + 1) x j
      by_cases hjx : j = home x + 1
      · rw [hjx, Function.update_self, Function.update_self]
      · rw [Function.update_of_ne hjx, Function.update_of_ne hjx, hb.1 j hj]
    · show Function.update T.hash (home x + 1) x n = 0
      have hn : Function.update S.hash (home x + 1) x n = 0 := hn
      by_cases hnx : n = home x + 1
      · rw [hnx, Function.update_self] at hn ⊢
        exact hn
      · rw [Function.update_of_ne hnx] at hn ⊢
        exact hb.2 hn

end Store

/-! ## All items -/

section StoreAll

variable {S S' T : Slots α} {l : List α}

theorem storeAll_cons {x : α} (h : storeAll home S (x :: l) = (S', true)) :
    ∃ S₁, store home S x = some S₁ ∧ storeAll home S₁ l = (S', true) := by
  rw [storeAll] at h
  cases hstore : store home S x with
  | none =>
    rw [hstore] at h
    exact absurd (congrArg Prod.snd h) Bool.false_ne_true
  | some S₁ =>
    rw [hstore] at h
    exact ⟨S₁, rfl, h⟩

/-- A taken slot keeps its item. -/
theorem storeAll_kept (h : storeAll home S l = (S', true)) {j : ℕ} (hj : S.hash j ≠ 0) :
    S'.hash j = S.hash j := by
  induction l generalizing S with
  | nil =>
    have hS : S = S' := congrArg Prod.fst h
    rw [hS]
  | cons x l ih =>
    obtain ⟨S₁, hstore, hrest⟩ := storeAll_cons h
    have hkept := store_kept hstore hj
    rw [ih hrest (hkept.trans_ne hj), hkept]

theorem storeAll_moved (h : storeAll home S l = (S', true)) (hmoved : S.moved = true) : S'.moved = true := by
  induction l generalizing S with
  | nil =>
    have hS : S = S' := congrArg Prod.fst h
    rwa [← hS]
  | cons x l ih =>
    obtain ⟨S₁, hstore, hrest⟩ := storeAll_cons h
    exact ih hrest (store_moved hstore hmoved)

/-- Where the items are. -/
structure Placed (home : α → ℕ) (S S' : Slots α) (l : List α) : Prop where
  origin : ∀ j, S'.hash j = S.hash j ∨ S'.hash j ∈ l
  stored : ∀ x ∈ l, S'.hash (home x) = x ∨
    S'.hash (home x + 1) = x ∧ S'.hash (home x) ≠ 0 ∧ S'.moved = true

theorem storeAll_placed (hne : ∀ x ∈ l, x ≠ 0) (h : storeAll home S l = (S', true)) : Placed home S S' l := by
  induction l generalizing S with
  | nil =>
    have hS : S = S' := congrArg Prod.fst h
    subst hS
    exact ⟨fun j => Or.inl rfl, fun x hx => absurd hx List.not_mem_nil⟩
  | cons x l ih =>
    obtain ⟨S₁, hstore, hrest⟩ := storeAll_cons h
    have hplaced := ih (fun y hy => hne y (List.mem_cons_of_mem x hy)) hrest
    have hx := hne x List.mem_cons_self
    refine ⟨fun j => ?_, fun y hy => ?_⟩
    · rcases hplaced.origin j with hold | hnew
      · rcases store_origin hstore j with hold' | ⟨hitem, -⟩
        · exact Or.inl (hold.trans hold')
        · right
          rw [hold, hitem]
          exact List.mem_cons_self
      · exact Or.inr (List.mem_cons_of_mem x hnew)
    · rcases List.mem_cons.1 hy with rfl | hy
      · rcases store_cases hstore with ⟨-, rfl⟩ | ⟨htaken, hfree, rfl⟩
        · left
          have hself : Function.update S.hash (home y) y (home y) = y := Function.update_self _ _ _
          exact (storeAll_kept hrest (hself.trans_ne hx)).trans hself
        · right
          have hself : Function.update S.hash (home y + 1) y (home y + 1) = y := Function.update_self _ _ _
          have hother : Function.update S.hash (home y + 1) y (home y) = S.hash (home y) :=
            Function.update_of_ne (by omega) _ _
          refine ⟨(storeAll_kept hrest (hself.trans_ne hx)).trans hself, ?_, storeAll_moved hrest rfl⟩
          exact (storeAll_kept hrest (hother.trans_ne htaken)).trans hother |>.trans_ne htaken
      · exact hplaced.stored y hy

/-- What was in the slots from `n` on, but whether slot `n` is free, does not matter. -/
theorem Below.storeAll {n : ℕ} (hb : Below n S T) (hl : ∀ x ∈ l, home x < n)
    (h : storeAll home S l = (S', true)) : ∃ T', TwoSlot.storeAll home T l = (T', true) ∧ Below n S' T' := by
  induction l generalizing S T with
  | nil =>
    have hS : S = S' := congrArg Prod.fst h
    subst hS
    exact ⟨T, rfl, hb⟩
  | cons x l ih =>
    obtain ⟨S₁, hstore, hrest⟩ := storeAll_cons h
    obtain ⟨T₁, hstoreT, hb₁⟩ := hb.store (hl x List.mem_cons_self) hstore
    obtain ⟨T', hrestT, hb'⟩ := ih hb₁ (fun y hy => hl y (List.mem_cons_of_mem x hy)) hrest
    refine ⟨T', ?_, hb'⟩
    rw [TwoSlot.storeAll, hstoreT]
    exact hrestT

theorem storeAll_append {l₁ l₂ : List α} (h : storeAll home S (l₁ ++ l₂) = (S', true)) :
    ∃ S₁, storeAll home S l₁ = (S₁, true) ∧ storeAll home S₁ l₂ = (S', true) := by
  induction l₁ generalizing S with
  | nil => exact ⟨S, rfl, h⟩
  | cons x l₁ ih =>
    obtain ⟨S₁, hstore, hrest⟩ := storeAll_cons h
    obtain ⟨S₂, hfirst, hlast⟩ := ih hrest
    refine ⟨S₂, ?_, hlast⟩
    rw [storeAll, hstore]
    exact hfirst

/-- A slot that is taken at last is taken before, or gets an item. -/
theorem storeAll_gets (h : storeAll home S l = (S', true)) {j : ℕ} (hj : S'.hash j ≠ 0) (hfree : S.hash j = 0) :
    ∃ pre x post S₁, l = pre ++ x :: post ∧ storeAll home S pre = (S₁, true) ∧
      (home x = j ∨ home x + 1 = j ∧ S₁.hash (home x) ≠ 0) := by
  induction l generalizing S with
  | nil =>
    have hS : S = S' := congrArg Prod.fst h
    rw [← hS] at hj
    exact absurd hfree hj
  | cons x l ih =>
    obtain ⟨S₁, hstore, hrest⟩ := storeAll_cons h
    by_cases hfree₁ : S₁.hash j = 0
    · obtain ⟨pre, y, post, S₂, rfl, hpre, hy⟩ := ih hrest hfree₁
      refine ⟨x :: pre, y, post, S₂, rfl, ?_, hy⟩
      rw [storeAll, hstore]
      exact hpre
    · rcases store_origin hstore j with hold | ⟨-, hx⟩
      · exact absurd (hold.trans hfree) hfree₁
      · exact ⟨[], x, l, S, rfl, rfl, hx⟩

/-- A slot gets the items that belong there and those that are moved from the one before. -/
theorem storeAll_taken (hne : ∀ x ∈ l, x ≠ 0) (h : storeAll home empty l = (S', true)) {j : ℕ} :
    S'.hash (j + 1) ≠ 0 ↔ (∃ x ∈ l, home x = j + 1) ∨ Moves home l j := by
  constructor
  · intro hj
    obtain ⟨pre, x, post, S₁, rfl, hpre, hx | ⟨hx, htaken⟩⟩ := storeAll_gets h hj rfl
    · exact Or.inl ⟨x, by simp, hx⟩
    · have hhome : home x = j := by omega
      refine Or.inr ⟨pre, x, post, rfl, hhome, ?_⟩
      rw [hpre, ← hhome]
      exact htaken
  · rintro (⟨x, hx, hhome⟩ | ⟨pre, x, post, rfl, hhome, htaken⟩)
    · rw [← hhome]
      rcases (storeAll_placed hne h).stored x hx with hself | ⟨-, htaken, -⟩
      · rw [hself]
        exact hne x hx
      · exact htaken
    · obtain ⟨S₁, hpre, hrest⟩ := storeAll_append h
      obtain ⟨S₂, hstore, hpost⟩ := storeAll_cons hrest
      rw [hpre, ← hhome] at htaken
      have hx := hne x (by simp)
      rcases store_cases hstore with ⟨hfree, -⟩ | ⟨-, -, rfl⟩
      · exact absurd hfree htaken
      · have hself : Function.update S₁.hash (home x + 1) x (home x + 1) = x := Function.update_self _ _ _
        rw [← hhome, storeAll_kept hpost (hself.trans_ne hx)]
        exact hself.trans_ne hx

theorem storeAll_taken_zero (hne : ∀ x ∈ l, x ≠ 0) (h : storeAll home empty l = (S', true)) :
    S'.hash 0 ≠ 0 ↔ ∃ x ∈ l, home x = 0 := by
  constructor
  · intro hj
    obtain ⟨pre, x, post, S₁, rfl, hpre, hx | ⟨hx, -⟩⟩ := storeAll_gets h hj rfl
    · exact ⟨x, by simp, hx⟩
    · omega
  · rintro ⟨x, hx, hhome⟩
    rw [← hhome]
    rcases (storeAll_placed hne h).stored x hx with hself | ⟨-, htaken, -⟩
    · rw [hself]
      exact hne x hx
    · exact htaken

/-- An item is moved if it is not in its slot. -/
theorem moves_iff (hne : ∀ x ∈ l, x ≠ 0) (hnodup : l.Nodup) (h : storeAll home empty l = (S', true)) {j : ℕ} :
    Moves home l j ↔ ∃ x ∈ l, home x = j ∧ S'.hash j ≠ x := by
  constructor
  · rintro ⟨pre, x, post, rfl, hhome, htaken⟩
    obtain ⟨S₁, hpre, hrest⟩ := storeAll_append h
    rw [hpre] at htaken
    refine ⟨x, by simp, hhome, fun hx => ?_⟩
    have hkept := storeAll_kept hrest htaken
    have hmem : S₁.hash j ∈ pre := by
      rcases (storeAll_placed (fun y hy => hne y (by simp [hy])) hpre).origin j with hold | hnew
      · exact absurd hold htaken
      · exact hnew
    rw [← hkept, hx] at hmem
    exact (List.nodup_append.1 hnodup).2.2 x hmem x List.mem_cons_self rfl
  · rintro ⟨x, hx, hhome, hnot⟩
    obtain ⟨pre, post, rfl⟩ := List.append_of_mem hx
    obtain ⟨S₁, hpre, hrest⟩ := storeAll_append h
    obtain ⟨S₂, hstore, hpost⟩ := storeAll_cons hrest
    refine ⟨pre, x, post, rfl, hhome, ?_⟩
    rw [hpre, ← hhome]
    rcases store_cases hstore with ⟨-, rfl⟩ | ⟨htaken, -, -⟩
    · have hself : Function.update S₁.hash (home x) x (home x) = x := Function.update_self _ _ _
      have hstays := (storeAll_kept hpost (hself.trans_ne (hne x hx))).trans hself
      exact absurd (hhome ▸ hstays) hnot
    · exact htaken

end StoreAll

end IrJit.TwoSlot
