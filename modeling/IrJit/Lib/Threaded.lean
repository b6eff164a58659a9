import IrJit.Lib.HashChain

/-!
# Lib.Threaded — several lists that share one link field

Nodes carry a single field `next`; every list `i` starts at `head i`.  `Threaded next head L` says that
the lists are the `L i` and that no node is in two of them, so that relinking a node of one list leaves
the others alone.
-/

namespace IrJit.HashChain

section Chain

variable {α : Type} [Zero α] {next : α → α} {r x p : α} {l l₁ l₂ : List α}

theorem Chain.eq_nil_iff (h : Chain next r l) : r = 0 ↔ l = [] := by
  rcases l with _ | ⟨y, l⟩
  · exact iff_of_true h rfl
  · exact iff_of_false (h.1 ▸ h.2.1) (List.cons_ne_nil y l)

/-- The rest of a list starts where its last node before it points. -/
theorem Chain.of_append_cons (h : Chain next r (l₁ ++ p :: l₂)) : Chain next (next p) l₂ := by
  induction l₁ generalizing r with
  | nil => exact h.2.2
  | cons y l₁ ih => exact ih h.2.2

variable [DecidableEq α]

theorem Chain.push (h : Chain next r l) (hx : x ≠ 0) (hnew : x ∉ l) :
    Chain (Function.update next x r) x (x :: l) := by
  refine ⟨rfl, hx, ?_⟩
  rw [Function.update_self]
  exact h.congr fun y hy => Function.update_of_ne (ne_of_mem_of_not_mem hy hnew) _ _

/-- Redirecting the link of a node replaces what follows it. -/
theorem Chain.relink {q : α} (h : Chain next r (l₁ ++ p :: l₂)) (hp : p ∉ l₁) {l : List α}
    (hl : Chain (Function.update next p q) q l) :
    Chain (Function.update next p q) r (l₁ ++ p :: l) := by
  induction l₁ generalizing r with
  | nil =>
    refine ⟨h.1, h.2.1, ?_⟩
    rw [Function.update_self]
    exact hl
  | cons y l₁ ih =>
    have hyp : y ≠ p := fun e => hp (by simp [e])
    refine ⟨h.1, h.2.1, ?_⟩
    rw [Function.update_of_ne hyp]
    exact ih h.2.2 fun hmem => hp (by simp [hmem])

/-- A new node after `p`. -/
theorem Chain.insert (h : Chain next r (l₁ ++ p :: l₂)) (hnd : (l₁ ++ p :: l₂).Nodup) (hx : x ≠ 0)
    (hnew : x ∉ l₁ ++ p :: l₂) :
    Chain (Function.update (Function.update next x (next p)) p x) r (l₁ ++ p :: x :: l₂) := by
  have hparts := List.nodup_append.mp hnd
  have hp₁ : p ∉ l₁ := fun hmem => hparts.2.2 p hmem p (by simp) rfl
  have hp₂ : p ∉ l₂ := (List.nodup_cons.mp hparts.2.1).1
  have hxp : x ≠ p := fun e => hnew (by simp [e])
  have hx₂ : x ∉ l₂ := fun hmem => hnew (by simp [hmem])
  have hnext : Chain (Function.update next x (next p)) r (l₁ ++ p :: l₂) :=
    h.congr fun y hy => Function.update_of_ne (ne_of_mem_of_not_mem hy hnew) _ _
  refine hnext.relink hp₁ ?_
  have hrest : Chain (Function.update next x (next p)) x (x :: l₂) := h.of_append_cons.push hx hx₂
  refine hrest.congr fun y hy => Function.update_of_ne ?_ _ _
  rcases List.mem_cons.mp hy with rfl | hy
  · exact hxp
  · exact ne_of_mem_of_not_mem hy hp₂

end Chain

section Threaded

variable {α ι : Type} [Zero α] {next : α → α} {head : ι → α} {L : ι → List α} {i : ι} {x p : α}

/-- The lists `L i` run through `next` from `head i`, and share no node. -/
structure Threaded (next : α → α) (head : ι → α) (L : ι → List α) : Prop where
  chain : ∀ i, Chain next (head i) (L i)
  nodup : ∀ i, (L i).Nodup
  disjoint : ∀ i j x, x ∈ L i → x ∈ L j → i = j

theorem Threaded.ne_zero (h : Threaded next head L) (hx : x ∈ L i) : x ≠ 0 := (h.chain i).ne_zero hx

variable [DecidableEq α] [DecidableEq ι]

/-- A new node in front of list `i`. -/
theorem Threaded.push (h : Threaded next head L) (hx : x ≠ 0) (hnew : ∀ j, x ∉ L j) (i : ι) :
    Threaded (Function.update next x (head i)) (Function.update head i x)
      (Function.update L i (x :: L i)) where
  chain := by
    intro j
    by_cases hj : j = i
    · subst hj
      simp only [Function.update_self]
      exact (h.chain j).push hx (hnew j)
    · simp only [Function.update_of_ne hj]
      exact (h.chain j).congr fun y hy => Function.update_of_ne (ne_of_mem_of_not_mem hy (hnew j)) _ _
  nodup := by
    intro j
    by_cases hj : j = i
    · subst hj
      rw [Function.update_self]
      exact List.nodup_cons.mpr ⟨hnew j, h.nodup j⟩
    · rw [Function.update_of_ne hj]
      exact h.nodup j
  disjoint := by
    have hmem : ∀ j y, y ∈ Function.update L i (x :: L i) j → y = x ∧ j = i ∨ y ≠ x ∧ y ∈ L j := by
      intro j y hy
      by_cases hj : j = i
      · subst hj
        rw [Function.update_self] at hy
        rcases List.mem_cons.mp hy with rfl | hy
        · exact Or.inl ⟨rfl, rfl⟩
        · exact Or.inr ⟨fun e => hnew j (e ▸ hy), hy⟩
      · rw [Function.update_of_ne hj] at hy
        exact Or.inr ⟨fun e => hnew j (e ▸ hy), hy⟩
    intro j k y hyj hyk
    rcases hmem j y hyj with ⟨hyx, rfl⟩ | ⟨hyx, hyj⟩
    · rcases hmem k y hyk with ⟨_, rfl⟩ | ⟨hyx', _⟩
      · rfl
      · exact absurd hyx hyx'
    · rcases hmem k y hyk with ⟨hyx', _⟩ | ⟨_, hyk⟩
      · exact absurd hyx' hyx
      · exact h.disjoint j k y hyj hyk

omit [DecidableEq α] [DecidableEq ι] in
/-- Lists that lose nodes still share none. -/
theorem Threaded.sub {next' : α → α} {head' : ι → α} {L' : ι → List α} (h : Threaded next head L)
    (hchain : ∀ j, Chain next' (head' j) (L' j)) (hsub : ∀ j, (L' j).Sublist (L j)) :
    Threaded next' head' L' where
  chain := hchain
  nodup := fun j => (h.nodup j).sublist (hsub j)
  disjoint := fun j k x hj hk => h.disjoint j k x ((hsub j).subset hj) ((hsub k).subset hk)

omit [DecidableEq α] in
/-- The first node of list `i` is taken off. -/
theorem Threaded.pop (h : Threaded next head L) {l : List α} (hl : L i = x :: l) :
    Threaded next (Function.update head i (next x)) (Function.update L i l) := by
  have hi := h.chain i
  rw [hl] at hi
  refine h.sub (fun j => ?_) fun j => ?_
  · by_cases hj : j = i
    · subst hj
      simp only [Function.update_self]
      exact hi.2.2
    · simp only [Function.update_of_ne hj]
      exact h.chain j
  · by_cases hj : j = i
    · subst hj
      rw [Function.update_self, hl]
      exact List.sublist_cons_self x l
    · rw [Function.update_of_ne hj]

/-- The node after `p` is taken out of list `i`. -/
theorem Threaded.unlink (h : Threaded next head L) {l₁ l₂ : List α}
    (hl : L i = l₁ ++ p :: x :: l₂) :
    Threaded (Function.update next p (next x)) head (Function.update L i (l₁ ++ p :: l₂)) := by
  have hi := h.chain i
  have hnd := h.nodup i
  rw [hl] at hi hnd
  have hp : p ∉ l₁ ∧ p ∉ l₂ := by
    have := List.nodup_append.mp hnd
    refine ⟨fun hmem => this.2.2 p hmem p (by simp) rfl, fun hmem => ?_⟩
    exact (List.nodup_cons.mp this.2.1).1 (by simp [hmem])
  refine h.sub (fun j => ?_) fun j => ?_
  · by_cases hj : j = i
    · subst hj
      rw [Function.update_self]
      refine hi.relink hp.1 ?_
      have hrest : Chain next (next x) l₂ := hi.of_append_cons.2.2
      exact hrest.congr fun y hy => Function.update_of_ne (ne_of_mem_of_not_mem hy hp.2) _ _
    · rw [Function.update_of_ne hj]
      refine (h.chain j).congr fun y hy => Function.update_of_ne (fun e => hj ?_) _ _
      exact h.disjoint j i p (e ▸ hy) (by simp [hl])
  · by_cases hj : j = i
    · subst hj
      rw [Function.update_self, hl]
      exact ((List.sublist_cons_self x l₂).cons_cons p).append_left l₁
    · rw [Function.update_of_ne hj]

end Threaded

end IrJit.HashChain
