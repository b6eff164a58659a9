import Mathlib

/-!
# Lib.DepthFirst — depth-first search with an explicit stack

The stack holds the vertices on the way to the top, each with the successors that have not been looked
at; finished vertices are listed with the last one first, which is the reverse post-order.

Stack and finished vertices form one line, from the bottom of the stack to the vertex that finished first.
A search only ever inserts into the line, between the top and the finished vertices, so that what is
known about the order of two vertices stays true:

* `dfs_spec`: the search ends; an edge leads to a vertex that comes later in the line, or back along a
  path whose vertices come one after the other in it.
-/

namespace IrJit.DepthFirst

variable {α : Type} [DecidableEq α]

/-- The stack, the vertices that have been pushed and those that have been popped. -/
structure Search (α : Type) where
  stack : List (α × List α)
  visited : List α
  order : List α

/-- The search from `r`. -/
def start (succ : α → List α) (r : α) : Search α := ⟨[(r, succ r)], [r], []⟩

/-- The vertices in the order in which they finish, the last one first; `none` when the fuel runs out. -/
def dfs (succ : α → List α) : ℕ → Search α → Option (List α)
  | 0, _ => none
  | fuel + 1, ⟨stack, visited, order⟩ =>
    match stack with
    | [] => some order
    | (b, y :: ys) :: rest =>
      if y ∈ visited then dfs succ fuel ⟨(b, ys) :: rest, visited, order⟩
      else dfs succ fuel ⟨(y, succ y) :: (b, ys) :: rest, y :: visited, order⟩
    | (b, []) :: rest => dfs succ fuel ⟨rest, visited, b :: order⟩

/-- The bottom of the stack first, then the top, then what has finished. -/
def Search.line (s : Search α) : List α := (s.stack.map Prod.fst).reverse ++ s.order

/-- `a` comes before `b`. -/
def Before (l : List α) (a b : α) : Prop := [a, b].Sublist l

/-- A path whose vertices come one after the other. -/
def Path (succ : α → List α) (l : List α) : α → α → Prop :=
  Relation.ReflTransGen fun u v => v ∈ succ u ∧ Before l u v

/-- The edge from `b` to `y` leads forward, or back along a path. -/
def Good (succ : α → List α) (l : List α) (b y : α) : Prop :=
  y ∈ l ∧ (Before l b y ∨ Path succ l y b)

section Line

variable {succ : α → List α} {l l' : List α} {a b y : α}

omit [DecidableEq α]

theorem Before.mono (h : Before l a b) (hl : l.Sublist l') : Before l' a b := h.trans hl

theorem Path.mono (h : Path succ l a b) (hl : l.Sublist l') : Path succ l' a b := by
  induction h with
  | refl => exact Relation.ReflTransGen.refl
  | tail _ hstep ih => exact ih.tail ⟨hstep.1, hstep.2.mono hl⟩

theorem Good.mono (h : Good succ l b y) (hl : l.Sublist l') : Good succ l' b y :=
  ⟨hl.subset h.1, h.2.imp (fun h => h.mono hl) fun h => h.mono hl⟩

theorem before_append (ha : a ∈ l) (hb : b ∈ l') : Before (l ++ l') a b :=
  (List.singleton_sublist.2 ha).append (List.singleton_sublist.2 hb)

/-- The vertices of a stack reach its top. -/
theorem path_of_stack {names : List α} (hc : names.IsChain fun u v => u ∈ succ v)
    (hl : names.reverse.Sublist l) (hb : names.head? = some b) (hy : y ∈ names) : Path succ l y b := by
  induction names generalizing b with
  | nil => cases hy
  | cons x names ih =>
    obtain rfl : x = b := Option.some.inj hb
    rcases List.mem_cons.1 hy with rfl | hy
    · exact Relation.ReflTransGen.refl
    · cases names with
      | nil => cases hy
      | cons z names =>
        have hsub : (z :: names).reverse.Sublist l := by
          refine List.Sublist.trans ?_ hl
          rw [List.reverse_cons (a := x)]
          exact List.sublist_append_left _ _
        have hedge := (List.isChain_cons_cons.1 hc).1
        refine (ih (List.isChain_cons_cons.1 hc).2 hsub rfl hy).tail ⟨hedge, ?_⟩
        refine Before.mono ?_ hl
        rw [List.reverse_cons (a := x)]
        exact before_append (by simp) (by simp)

end Line

/-- What the search keeps. -/
structure Inv (succ : α → List α) (r : α) (s : Search α) : Prop where
  nodup : s.line.Nodup
  visited : ∀ x, x ∈ s.visited ↔ x ∈ s.line
  root : s.line.head? = some r
  chain : (s.stack.map Prod.fst).IsChain fun u v => u ∈ succ v
  parent : ∀ x ∈ s.line, x ≠ r → ∃ p, x ∈ succ p ∧ Before s.line p x
  rest : ∀ b ys, (b, ys) ∈ s.stack → ∀ y ∈ ys, y ∈ succ b
  looked : ∀ b ys, (b, ys) ∈ s.stack → ∀ y ∈ succ b, y ∈ ys ∨ Good succ s.line b y
  finished : ∀ b ∈ s.order, ∀ y ∈ succ b, Good succ s.line b y

/-- The steps that are left at most. -/
def potential (succ : α → List α) (U : Finset α) (s : Search α) : ℕ :=
  ∑ x ∈ U.filter (· ∉ s.visited), ((succ x).length + 1) + (s.stack.map fun e => e.2.length + 1).sum

section Steps

variable {succ : α → List α} {r b y : α} {ys : List α} {rest : List (α × List α)} {visited order : List α}

omit [DecidableEq α] in
theorem inv_start (succ : α → List α) (r : α) : Inv succ r (start succ r) where
  nodup := List.nodup_singleton r
  visited _ := Iff.rfl
  root := rfl
  chain := List.isChain_singleton r
  parent x hx hne := absurd (List.mem_singleton.1 hx) hne
  rest b ys h := by
    obtain ⟨rfl, rfl⟩ := Prod.mk.inj (List.mem_singleton.1 h)
    exact fun _ h => h
  looked b ys h := by
    obtain ⟨rfl, rfl⟩ := Prod.mk.inj (List.mem_singleton.1 h)
    exact fun _ h => Or.inl h
  finished b h := by cases h

omit [DecidableEq α] in
/-- The successor has been visited. -/
theorem Inv.skip (h : Inv succ r ⟨(b, y :: ys) :: rest, visited, order⟩) (hy : y ∈ visited) :
    Inv succ r ⟨(b, ys) :: rest, visited, order⟩ where
  nodup := h.nodup
  visited := h.visited
  root := h.root
  chain := h.chain
  parent := h.parent
  rest b' ys' hm z hz := by
    rcases List.mem_cons.1 hm with heq | hm
    · obtain ⟨rfl, rfl⟩ := Prod.mk.inj heq
      exact h.rest b' (y :: ys') (by simp) z (by simp [hz])
    · exact h.rest b' ys' (by simp [hm]) z hz
  looked b' ys' hm z hz := by
    rcases List.mem_cons.1 hm with heq | hm
    · obtain ⟨rfl, rfl⟩ := Prod.mk.inj heq
      rcases h.looked b' (y :: ys') (by simp) z hz with hz' | hz'
      · rcases List.mem_cons.1 hz' with rfl | hz'
        · right
          have hline := (h.visited z).1 hy
          refine ⟨hline, ?_⟩
          rcases List.mem_append.1 hline with hst | hord
          · exact Or.inr (path_of_stack h.chain (List.sublist_append_left _ _) rfl
              (List.mem_reverse.1 hst))
          · exact Or.inl (before_append (by simp) hord)
        · exact Or.inl hz'
      · exact Or.inr hz'
    · exact h.looked b' ys' (by simp [hm]) z hz
  finished := h.finished

omit [DecidableEq α] in
/-- The successor goes onto the stack. -/
theorem Inv.push (h : Inv succ r ⟨(b, y :: ys) :: rest, visited, order⟩) (hy : y ∉ visited) :
    Inv succ r ⟨(y, succ y) :: (b, ys) :: rest, y :: visited, order⟩ := by
  have hline : (Search.mk ((y, succ y) :: (b, ys) :: rest) (y :: visited) order).line =
      (rest.map Prod.fst).reverse ++ [b] ++ [y] ++ order := by
    simp [Search.line]
  have hold : (Search.mk ((b, y :: ys) :: rest) visited order).line =
      (rest.map Prod.fst).reverse ++ [b] ++ order := by
    simp [Search.line]
  have hsub : (Search.mk ((b, y :: ys) :: rest) visited order).line.Sublist
      (Search.mk ((y, succ y) :: (b, ys) :: rest) (y :: visited) order).line := by
    rw [hline, hold]
    exact (List.sublist_append_left _ _).append (List.Sublist.refl _)
  have hby : Before (Search.mk ((y, succ y) :: (b, ys) :: rest) (y :: visited) order).line b y := by
    rw [hline]
    exact Before.mono (before_append (by simp) (by simp)) (List.sublist_append_left _ _)
  have hedge : y ∈ succ b := h.rest b (y :: ys) (by simp) y (by simp)
  have hmem : ∀ x, x ∈ (Search.mk ((y, succ y) :: (b, ys) :: rest) (y :: visited) order).line ↔
      x = y ∨ x ∈ (Search.mk ((b, y :: ys) :: rest) visited order).line := fun x => by
    rw [hline, hold]
    simp only [List.mem_append, List.mem_singleton]
    tauto
  refine ⟨?_, fun x => ?_, ?_, ?_, fun x hx hne => ?_, fun b' ys' hm z hz => ?_,
    fun b' ys' hm z hz => ?_, fun b' hb' z hz => (h.finished b' hb' z hz).mono hsub⟩
  · have hnot : y ∉ (Search.mk ((b, y :: ys) :: rest) visited order).line :=
      fun hin => hy ((h.visited y).2 hin)
    have hperm : (Search.mk ((y, succ y) :: (b, ys) :: rest) (y :: visited) order).line.Perm
        (y :: (Search.mk ((b, y :: ys) :: rest) visited order).line) := by
      rw [hline, hold, List.append_assoc]
      exact List.perm_middle
    exact hperm.nodup_iff.2 (List.nodup_cons.2 ⟨hnot, h.nodup⟩)
  · rw [hmem, ← h.visited]
    exact List.mem_cons
  · have hroot := h.root
    rw [hold] at hroot
    rw [hline]
    cases hrest : (rest.map Prod.fst).reverse with
    | nil =>
      rw [hrest] at hroot
      exact hroot
    | cons z zs =>
      rw [hrest] at hroot
      exact hroot
  · exact List.isChain_cons_cons.2 ⟨hedge, h.chain⟩
  · rcases (hmem x).1 hx with rfl | hx
    · exact ⟨b, hedge, hby⟩
    · obtain ⟨p, hp, hbefore⟩ := h.parent x hx hne
      exact ⟨p, hp, hbefore.mono hsub⟩
  · rcases List.mem_cons.1 hm with heq | hm
    · obtain ⟨rfl, rfl⟩ := Prod.mk.inj heq
      exact hz
    · rcases List.mem_cons.1 hm with heq | hm
      · obtain ⟨rfl, rfl⟩ := Prod.mk.inj heq
        exact h.rest b' (y :: ys') (by simp) z (by simp [hz])
      · exact h.rest b' ys' (by simp [hm]) z hz
  · rcases List.mem_cons.1 hm with heq | hm
    · obtain ⟨rfl, rfl⟩ := Prod.mk.inj heq
      exact Or.inl hz
    · rcases List.mem_cons.1 hm with heq | hm
      · obtain ⟨rfl, rfl⟩ := Prod.mk.inj heq
        rcases h.looked b' (y :: ys') (by simp) z hz with hz' | hz'
        · rcases List.mem_cons.1 hz' with rfl | hz'
          · exact Or.inr ⟨(hmem z).2 (Or.inl rfl), Or.inl hby⟩
          · exact Or.inl hz'
        · exact Or.inr (hz'.mono hsub)
      · exact (h.looked b' ys' (by simp [hm]) z hz).imp_right fun hg => hg.mono hsub

omit [DecidableEq α] in
/-- The top has no more successors. -/
theorem Inv.finish (h : Inv succ r ⟨(b, []) :: rest, visited, order⟩) :
    Inv succ r ⟨rest, visited, b :: order⟩ := by
  have hline : (Search.mk rest visited (b :: order)).line =
      (Search.mk ((b, []) :: rest) visited order).line := by
    simp [Search.line]
  refine ⟨hline ▸ h.nodup, hline ▸ h.visited, hline ▸ h.root, ?_, hline ▸ h.parent,
    fun b' ys' hm => h.rest b' ys' (by simp [hm]), fun b' ys' hm => ?_, fun b' hb' z hz => ?_⟩
  · exact h.chain.tail
  · rw [hline]
    exact h.looked b' ys' (by simp [hm])
  · rw [hline]
    rcases List.mem_cons.1 hb' with rfl | hb'
    · exact (h.looked b' [] (by simp) z hz).resolve_left (by simp)
    · exact h.finished b' hb' z hz

end Steps

section Run

variable {succ : α → List α} {r : α} {U : Finset α}

/-- A vertex that is pushed takes its steps along. -/
theorem potential_push {b y : α} {ys : List α} {rest : List (α × List α)} {visited order : List α}
    (hU : y ∈ U) (hy : y ∉ visited) :
    potential succ U ⟨(y, succ y) :: (b, ys) :: rest, y :: visited, order⟩ + 1 =
      potential succ U ⟨(b, y :: ys) :: rest, visited, order⟩ := by
  have hfilter : U.filter (· ∉ visited) = insert y (U.filter (· ∉ y :: visited)) := by
    ext x
    simp only [Finset.mem_filter, Finset.mem_insert, List.mem_cons, not_or]
    by_cases hx : x = y
    · subst hx
      simp [hU, hy]
    · simp [hx]
  have hnot : y ∉ U.filter (· ∉ y :: visited) := by simp
  unfold potential
  dsimp only
  rw [hfilter, Finset.sum_insert hnot]
  simp only [List.map_cons, List.sum_cons, List.length_cons]
  omega

/-- A search that has kept the invariant ends, and finishes everything. -/
theorem dfs_of_inv (hU : ∀ x ∈ U, ∀ y ∈ succ x, y ∈ U) {fuel : ℕ} {s : Search α} (h : Inv succ r s)
    (hs : ∀ x ∈ s.line, x ∈ U) (hf : potential succ U s < fuel) :
    ∃ order visited, dfs succ fuel s = some order ∧ Inv succ r ⟨[], visited, order⟩ ∧
      ∀ x ∈ order, x ∈ U := by
  induction fuel generalizing s with
  | zero => omega
  | succ fuel ih =>
    obtain ⟨stack, visited, order⟩ := s
    rcases stack with _ | ⟨⟨b, _ | ⟨y, ys⟩⟩, rest⟩
    · exact ⟨order, visited, rfl, h, hs⟩
    · have hpot : potential succ U ⟨rest, visited, b :: order⟩ < fuel := by
        have hval : potential succ U ⟨(b, []) :: rest, visited, order⟩ =
            potential succ U ⟨rest, visited, b :: order⟩ + 1 := by
          simp [potential]
          omega
        omega
      refine ih h.finish (fun x hx => hs x ?_) hpot
      simpa [Search.line] using hx
    · have hb : b ∈ U := hs b (by simp [Search.line])
      have hedge : y ∈ succ b := h.rest b (y :: ys) (by simp) y (by simp)
      have hyU := hU b hb y hedge
      rw [dfs]
      split_ifs with hy
      · have hpot : potential succ U ⟨(b, ys) :: rest, visited, order⟩ < fuel := by
          have hval : potential succ U ⟨(b, y :: ys) :: rest, visited, order⟩ =
              potential succ U ⟨(b, ys) :: rest, visited, order⟩ + 1 := by
            simp [potential]
            omega
          omega
        exact ih (h.skip hy) hs hpot
      · have hpot : potential succ U ⟨(y, succ y) :: (b, ys) :: rest, y :: visited, order⟩ + 1 =
            potential succ U ⟨(b, y :: ys) :: rest, visited, order⟩ := potential_push hyU hy
        refine ih (h.push hy) (fun x hx => ?_) (by omega)
        have hmem : x = y ∨ x ∈ (Search.mk ((b, y :: ys) :: rest) visited order).line := by
          simp only [Search.line, List.map_cons, List.reverse_cons, List.mem_append, List.mem_reverse,
            List.mem_singleton] at hx ⊢
          tauto
        rcases hmem with rfl | hx
        · exact hyU
        · exact hs x hx

/-- The finished vertices of a search from `r`. -/
structure Postorder (succ : α → List α) (r : α) (order : List α) : Prop where
  nodup : order.Nodup
  root : order.head? = some r
  parent : ∀ x ∈ order, x ≠ r → ∃ p, x ∈ succ p ∧ Before order p x
  edge : ∀ b ∈ order, ∀ y ∈ succ b, Good succ order b y

theorem dfs_spec (hr : r ∈ U) (hU : ∀ x ∈ U, ∀ y ∈ succ x, y ∈ U) {fuel : ℕ}
    (hf : ∑ x ∈ U, ((succ x).length + 1) < fuel) :
    ∃ order, dfs succ fuel (start succ r) = some order ∧ Postorder succ r order ∧ ∀ x ∈ order, x ∈ U := by
  have hpot : potential succ U (start succ r) = ∑ x ∈ U, ((succ x).length + 1) := by
    have herase : ∑ x ∈ U.filter (· ∉ (start succ r).visited), ((succ x).length + 1) =
        ∑ x ∈ U.erase r, ((succ x).length + 1) := by
      refine Finset.sum_congr ?_ fun _ _ => rfl
      ext x
      simp only [start, Finset.mem_filter, Finset.mem_erase, List.mem_singleton]
      tauto
    rw [← Finset.add_sum_erase U _ hr, potential, herase]
    simp only [start, List.map_cons, List.map_nil, List.sum_cons, List.sum_nil]
    omega
  obtain ⟨order, visited, hdfs, hinv, hsub⟩ := dfs_of_inv hU (inv_start succ r)
    (fun x hx => by rwa [List.mem_singleton.1 hx]) (hpot ▸ hf)
  exact ⟨order, hdfs, ⟨hinv.nodup, hinv.root, hinv.parent, hinv.finished⟩, hsub⟩

omit [DecidableEq α] in
/-- Everything that can be reached is finished. -/
theorem Postorder.mem_of_reach {order : List α} (h : Postorder succ r order) {x : α}
    (hx : Relation.ReflTransGen (fun u v => v ∈ succ u) r x) : x ∈ order := by
  induction hx with
  | refl => exact List.mem_of_mem_head? (by rw [h.root]; rfl)
  | tail _ hstep ih => exact (h.edge _ ih _ hstep).1

end Run

end IrJit.DepthFirst
