import IrJit.Cfg.Loops
import IrJit.Cfg.SlowDominators

/-!
# Cfg.LoopOrder — times, levels and `ir_dominates`

The stack of the search is a path from the first block, so the dominators of a block are entered before it
and left after it (`times_spec`).  The sorted blocks go down the dominator tree (`sortBlocks_spec`).
-/

namespace IrJit.Cfg

open DepthFirst Dominance DomTable

/-- `b` is the number of a block. -/
def Graph.Block (c : Graph) (b : ℕ) : Prop := 1 ≤ b ∧ b ≤ c.blocksCount

section Reach

variable {c : Graph} {b d p : ℕ}

theorem Graph.block_pred (hp : p ∈ c.predecessors b) : c.Block p := (c.pred_range b p hp).1

theorem Graph.block_of_pred (hp : p ∈ c.predecessors b) : c.Block b := (c.pred_range b p hp).2

theorem Graph.Reachable.reach (hr : c.Reachable) (hb : c.Block b) :
    Relation.ReflTransGen (Edge c.predecessors) 1 b := by
  have hpath := hr b hb.1 hb.2
  clear hb
  induction hpath with
  | refl => exact Relation.ReflTransGen.refl
  | tail _ hstep ih => exact ih.tail ((c.mem_successors _ _).1 hstep)

/-- Dominators are blocks. -/
theorem Graph.Reachable.dom_block (hr : c.Reachable) (hb : c.Block b) (h : Dom (Edge c.predecessors) 1 d b) :
    c.Block d := by
  by_contra hd
  have h1 : c.Block 1 := ⟨le_rfl, hb.1.trans hb.2⟩
  have hpath := hr.reach hb
  apply h
  refine ⟨fun heq => hd (heq ▸ h1), ?_⟩
  clear h hb
  induction hpath with
  | refl => exact Relation.ReflTransGen.refl
  | tail _ hstep ih => exact ih.tail ⟨hstep, fun heq => hd (heq ▸ c.block_of_pred hstep)⟩

end Reach

/-! ## Times -/

section Times

variable {c : Graph} {succ : ℕ → List ℕ} {fuel b : ℕ} {ys : List ℕ} {rest : List (ℕ × List ℕ)}
  {visited order : List ℕ} {s : Search ℕ} {k k' : Clock}

/-- The times cost the search no steps. -/
theorem exists_times (h : dfs succ fuel s = some order) (k : Clock) : ∃ k', dfsTimes succ fuel s k = some k' := by
  induction fuel generalizing s k with
  | zero => cases h
  | succ fuel ih =>
    obtain ⟨stack, visited, finished⟩ := s
    rcases stack with _ | ⟨⟨b, _ | ⟨y, ys⟩⟩, rest⟩
    · exact ⟨k, rfl⟩
    · exact ih h _
    · rw [dfs] at h
      rw [dfsTimes]
      by_cases hy : y ∈ visited
      · rw [if_pos hy] at h ⊢
        exact ih h _
      · rw [if_neg hy] at h ⊢
        exact ih h _

/-- A vertex that is not on the stack does not dominate its top. -/
theorem mem_of_dom_top {names : List ℕ} {r d : ℕ} {E : ℕ → ℕ → Prop} (hE : ∀ u v, v ∈ succ u → E u v)
    (hc : names.IsChain fun u v => u ∈ succ v) (hlast : names.getLast? = some r) (hb : names.head? = some b)
    (hdom : Dom E r d b) : d ∈ names := by
  by_contra hd
  apply hdom
  clear hdom
  induction names generalizing b with
  | nil => cases hb
  | cons x names ih =>
    obtain rfl : x = b := Option.some.inj hb
    cases names with
    | nil =>
      obtain rfl : x = r := Option.some.inj hlast
      exact ⟨fun heq => hd (heq ▸ List.mem_singleton_self x), Relation.ReflTransGen.refl⟩
    | cons z names =>
      obtain ⟨hedge, hc⟩ := List.isChain_cons_cons.1 hc
      rw [List.getLast?_cons_cons] at hlast
      have hz := ih hc hlast rfl fun hmem => hd (List.mem_cons_of_mem x hmem)
      exact hz.step (hE z x hedge) fun heq => hd (heq ▸ List.mem_cons_self)

/-- What the clock tells about dominators. -/
structure TimesInv (c : Graph) (s : Search ℕ) (k : Clock) : Prop where
  entry_lt : ∀ x ∈ s.visited, k.entry x < k.time
  exit_lt : ∀ x ∈ s.order, k.exit x < k.time
  entry_le : ∀ x ∈ s.visited, ∀ d, Dom (Edge c.predecessors) 1 d x → d ∈ s.visited ∧ k.entry d ≤ k.entry x
  exit_le : ∀ x ∈ s.order, ∀ d ∈ s.order, Dom (Edge c.predecessors) 1 d x → k.exit x ≤ k.exit d

theorem TimesInv.push {y : ℕ} (hi : TimesInv c ⟨(b, y :: ys) :: rest, visited, order⟩ k)
    (hb : b ∈ visited) (hedge : y ∈ c.successors b) (hy : y ∉ visited) :
    TimesInv c ⟨(y, c.successors y) :: (b, ys) :: rest, y :: visited, order⟩
      { k with entry := Function.update k.entry y k.time, time := k.time + 1 } := by
  have hold : ∀ x ∈ visited, Function.update k.entry y k.time x = k.entry x := fun x hx =>
    Function.update_of_ne (fun heq : x = y => hy (heq ▸ hx)) _ _
  refine ⟨fun x hx => ?_, fun x hx => (hi.exit_lt x hx).trans (Nat.lt_succ_self _), fun x hx d hd => ?_,
    hi.exit_le⟩
  · rcases List.mem_cons.1 hx with rfl | hx
    · show Function.update k.entry x k.time x < k.time + 1
      rw [Function.update_self]
      exact Nat.lt_succ_self _
    · show Function.update k.entry y k.time x < k.time + 1
      rw [hold x hx]
      exact (hi.entry_lt x hx).trans (Nat.lt_succ_self _)
  · show d ∈ y :: visited ∧ Function.update k.entry y k.time d ≤ Function.update k.entry y k.time x
    rcases List.mem_cons.1 hx with rfl | hx
    · by_cases hdx : d = x
      · exact ⟨hdx ▸ List.mem_cons_self, le_of_eq (by rw [hdx])⟩
      · have hpred := hd.pred hdx ((c.mem_successors b x).1 hedge)
        have hmem := (hi.entry_le b hb d hpred).1
        refine ⟨List.mem_cons_of_mem x hmem, ?_⟩
        rw [hold d hmem, Function.update_self]
        exact (hi.entry_lt d hmem).le
    · obtain ⟨hmem, hle⟩ := hi.entry_le x hx d hd
      refine ⟨List.mem_cons_of_mem y hmem, ?_⟩
      rw [hold d hmem, hold x hx]
      exact hle

theorem TimesInv.finish (h : Inv c.successors 1 ⟨(b, []) :: rest, visited, order⟩)
    (hi : TimesInv c ⟨(b, []) :: rest, visited, order⟩ k) :
    TimesInv c ⟨rest, visited, b :: order⟩
      { k with exit := Function.update k.exit b k.time, time := k.time + 1 } := by
  have hline : (Search.mk ((b, []) :: rest) visited order).line =
      (b :: rest.map Prod.fst).reverse ++ order := rfl
  have hnodup := h.nodup
  rw [hline] at hnodup
  have hnot : ∀ x ∈ order, x ∉ b :: rest.map Prod.fst := fun x hx hmem =>
    List.disjoint_of_nodup_append hnodup (List.mem_reverse.2 hmem) hx
  have hold : ∀ x ∈ order, Function.update k.exit b k.time x = k.exit x := fun x hx =>
    Function.update_of_ne (fun heq : x = b => hnot x hx (heq ▸ List.mem_cons_self)) _ _
  have htop : ∀ d, Dom (Edge c.predecessors) 1 d b → d ∈ b :: rest.map Prod.fst := by
    intro d hd
    have hroot := h.root
    rw [hline] at hroot
    have hlast : (b :: rest.map Prod.fst).getLast? = some 1 := by
      rw [List.head?_append, List.head?_reverse] at hroot
      cases hl : (b :: rest.map Prod.fst).getLast? with
      | none => simp at hl
      | some x => rwa [hl] at hroot
    exact mem_of_dom_top (fun u v hv => (c.mem_successors u v).1 hv) h.chain hlast rfl hd
  refine ⟨fun x hx => (hi.entry_lt x hx).trans (Nat.lt_succ_self _), fun x hx => ?_, hi.entry_le,
    fun x hx d hd hdom => ?_⟩
  · show Function.update k.exit b k.time x < k.time + 1
    rcases List.mem_cons.1 hx with rfl | hx
    · rw [Function.update_self]
      exact Nat.lt_succ_self _
    · rw [hold x hx]
      exact (hi.exit_lt x hx).trans (Nat.lt_succ_self _)
  · show Function.update k.exit b k.time x ≤ Function.update k.exit b k.time d
    rcases (List.mem_cons.1 hx : x = b ∨ x ∈ order) with rfl | hxo
    · rcases (List.mem_cons.1 hd : d = x ∨ d ∈ order) with rfl | hdo
      · exact le_rfl
      · exact absurd (htop d hdom) (hnot d hdo)
    · rcases (List.mem_cons.1 hd : d = b ∨ d ∈ order) with rfl | hdo
      · rw [hold x hxo, Function.update_self]
        exact (hi.exit_lt x hxo).le
      · rw [hold x hxo, hold d hdo]
        exact hi.exit_le x hxo d hdo hdom

theorem dfsTimes_spec (h : Inv c.successors 1 s) (hi : TimesInv c s k)
    (hk : dfsTimes c.successors fuel s k = some k') :
    ∃ visited order, Inv c.successors 1 ⟨[], visited, order⟩ ∧ TimesInv c ⟨[], visited, order⟩ k' := by
  induction fuel generalizing s k with
  | zero => cases hk
  | succ fuel ih =>
    obtain ⟨stack, visited, order⟩ := s
    rcases stack with _ | ⟨⟨b, _ | ⟨y, ys⟩⟩, rest⟩
    · obtain rfl := Option.some.inj hk
      exact ⟨visited, order, h, hi⟩
    · exact ih h.finish (hi.finish h) hk
    · rw [dfsTimes] at hk
      by_cases hy : y ∈ visited
      · rw [if_pos hy] at hk
        exact ih (h.skip hy) ⟨hi.entry_lt, hi.exit_lt, hi.entry_le, hi.exit_le⟩ hk
      · rw [if_neg hy] at hk
        have hb : b ∈ visited := (h.visited b).2 (by simp [Search.line])
        exact ih (h.push hy) (hi.push hb (h.rest b (y :: ys) (by simp) y (by simp)) hy) hk

/-- A dominator is entered before what it dominates, and left after it. -/
theorem times_spec (hr : c.Reachable) (h1 : 1 ≤ c.blocksCount) (hf : c.steps < fuel) :
    ∃ k, times fuel c = some k ∧
      ∀ b p, c.Block p → Dom (Edge c.predecessors) 1 b p → k.back p b = true := by
  have hclosed : ∀ x ∈ Finset.Icc 1 c.blocksCount, ∀ y ∈ c.successors x, y ∈ Finset.Icc 1 c.blocksCount :=
    fun x _ y hy => Finset.mem_Icc.2 (c.pred_range y x ((c.mem_successors x y).1 hy)).2
  unfold Graph.steps at hf
  obtain ⟨order, hdfs, -⟩ := dfs_spec (Finset.mem_Icc.2 ⟨le_rfl, h1⟩) hclosed (show _ < fuel by omega)
  obtain ⟨k, hk⟩ := exists_times hdfs
    { entry := Function.update (fun _ => 0) 1 1, exit := fun _ => 0, time := 2 }
  have hstart : TimesInv c (start c.successors 1)
      { entry := Function.update (fun _ => 0) 1 1, exit := fun _ => 0, time := 2 } := by
    refine ⟨fun x hx => ?_, fun x hx => absurd hx List.not_mem_nil, fun x hx d hd => ?_,
      fun x hx => absurd hx List.not_mem_nil⟩
    · obtain rfl := List.mem_singleton.1 hx
      show Function.update (fun _ => 0) 1 1 1 < 2
      rw [Function.update_self]
      exact Nat.lt_succ_self 1
    · obtain rfl := List.mem_singleton.1 hx
      rw [hd.eq_root]
      exact ⟨List.mem_singleton_self 1, le_rfl⟩
  obtain ⟨visited, order, hinv, htimes⟩ := dfsTimes_spec (inv_start c.successors 1) hstart hk
  have hpost : Postorder c.successors 1 order := ⟨hinv.nodup, hinv.root, hinv.parent, hinv.finished⟩
  refine ⟨k, hk, fun b p hp hdom => ?_⟩
  have hmem : ∀ x, c.Block x → x ∈ order := fun x hx => hpost.mem_of_reach (hr x hx.1 hx.2)
  have hpo := hmem p hp
  have hbo := hmem b (hr.dom_block hp hdom)
  have hentry := (htimes.entry_le p ((hinv.visited p).2 hpo) b hdom).2
  have hexit := htimes.exit_le p hpo b hbo hdom
  rw [Clock.back, Bool.and_eq_true]
  exact ⟨decide_eq_true hentry, decide_eq_true hexit⟩

end Times

/-! ## Levels -/

section Levels

variable {c : Graph} {t : DomTree} {fuel k i b d x : ℕ} {level : List ℕ}

theorem domChildren_eq {next : ℕ → ℕ} {child : ℕ} {l : List ℕ} (h : HashChain.Chain next child l)
    (hf : l.length < fuel) : domChildren next fuel child = some l := by
  induction l generalizing child fuel with
  | nil =>
    obtain ⟨fuel, rfl⟩ : ∃ m, fuel = m + 1 := ⟨fuel - 1, by simp only [List.length_nil] at hf; omega⟩
    have hzero : child = 0 := h
    rw [domChildren, if_pos hzero]
  | cons x l ih =>
    obtain ⟨rfl, hx, hl⟩ := h
    rw [List.length_cons] at hf
    obtain ⟨fuel, rfl⟩ : ∃ m, fuel = m + 1 := ⟨fuel - 1, by omega⟩
    rw [domChildren, if_neg hx, ih hl (by omega)]
    rfl

/-- The blocks with the immediate dominator `d`. -/
def children (c : Graph) (t : DomTree) (d : ℕ) : List ℕ :=
  (List.range' 2 (c.blocksCount - 1)).filter fun b => t.idom b = d

theorem mem_children : b ∈ children c t d ↔ (2 ≤ b ∧ b ≤ c.blocksCount) ∧ t.idom b = d := by
  rw [children, List.mem_filter, List.mem_range'_1, decide_eq_true_iff]
  omega

variable (ht : t.Correct c)

include ht

theorem nextLevel_eq (hf : c.blocksCount < fuel) (level : List ℕ) :
    nextLevel fuel t level = some (level.flatMap (children c t)) := by
  induction level with
  | nil => rfl
  | cons b level ih =>
    have hlen : (children c t b).length < fuel := by
      have := List.length_filter_le (fun x => decide (t.idom x = b)) (List.range' 2 (c.blocksCount - 1))
      rw [List.length_range'] at this
      unfold children
      omega
    rw [nextLevel, domChildren_eq (ht.children b) hlen, ih]
    rfl

variable (hr : c.Reachable)

include hr

theorem idom_block (h2 : 2 ≤ b) (hb : b ≤ c.blocksCount) : c.Block (t.idom b) :=
  hr.dom_block ⟨by omega, hb⟩ (ht.isIdom b h2 hb).2.1

/-- Dominators are higher up in the tree. -/
theorem depth_lt_of_dom (hb : c.Block b) (hdom : Dom (Edge c.predecessors) 1 d b) (hne : d ≠ b) :
    t.domDepth d < t.domDepth b := by
  induction hm : t.domDepth b generalizing b with
  | zero =>
    by_cases h1 : b = 1
    · subst h1
      exact absurd hdom.eq_root hne
    · have := ht.depth b (by have := hb.1; omega) hb.2
      omega
  | succ m ih =>
    have h2 : 2 ≤ b := by
      have := hb.1
      by_contra hlt
      obtain rfl : b = 1 := by omega
      rw [ht.depth_root] at hm
      omega
    have hdepth := ht.depth b h2 hb.2
    have hup := (ht.isIdom b h2 hb.2).2.2 d hne hdom
    by_cases hd : d = t.idom b
    · rw [hd]
      omega
    · have := ih (idom_block ht hr h2 hb.2) hup hd (by omega)
      omega

/-- Every smaller depth is taken. -/
theorem exists_depth (hx : c.Block x) (hi : i ≤ t.domDepth x) : ∃ y, c.Block y ∧ t.domDepth y = i := by
  induction hm : t.domDepth x generalizing x with
  | zero => exact ⟨x, hx, by omega⟩
  | succ m ih =>
    by_cases hlt : i = t.domDepth x
    · exact ⟨x, hx, hlt.symm⟩
    · have h2 : 2 ≤ x := by
        have := hx.1
        by_contra hlt
        obtain rfl : x = 1 := by omega
        rw [ht.depth_root] at hm
        omega
      have hdepth := ht.depth x h2 hx.2
      exact ih (idom_block ht hr h2 hx.2) (by omega) (by omega)

/-- The blocks of the next level are one level down. -/
theorem nextLevel_spec (hnd : level.Nodup) (hlevel : ∀ x, x ∈ level ↔ c.Block x ∧ t.domDepth x = i) :
    (level.flatMap (children c t)).Nodup ∧
      ∀ x, x ∈ level.flatMap (children c t) ↔ c.Block x ∧ t.domDepth x = i + 1 := by
  constructor
  · refine List.nodup_flatMap.2 ⟨fun d _ => List.Nodup.filter _ List.nodup_range', ?_⟩
    refine hnd.imp fun {a b} hab x ha hb => ?_
    exact hab ((mem_children.1 ha).2.symm.trans (mem_children.1 hb).2)
  · intro x
    rw [List.mem_flatMap]
    constructor
    · rintro ⟨d, hd, hx⟩
      obtain ⟨⟨h2, hn⟩, rfl⟩ := mem_children.1 hx
      have := (hlevel _).1 hd
      have := ht.depth x h2 hn
      exact ⟨⟨by omega, hn⟩, by omega⟩
    · rintro ⟨hx, hdepth⟩
      have h2 : 2 ≤ x := by
        have := hx.1
        by_contra hlt
        obtain rfl : x = 1 := by omega
        rw [ht.depth_root] at hdepth
        omega
      have hd := ht.depth x h2 hx.2
      exact ⟨t.idom x, (hlevel _).2 ⟨idom_block ht hr h2 hx.2, by omega⟩, mem_children.2 ⟨⟨h2, hx.2⟩, rfl⟩⟩

/-- The blocks from level `i` on. -/
def lower (c : Graph) (t : DomTree) (i : ℕ) : Finset ℕ := (Finset.Icc 1 c.blocksCount).filter fun x => i ≤ t.domDepth x

omit ht hr in
theorem mem_lower : x ∈ lower c t i ↔ c.Block x ∧ i ≤ t.domDepth x := by
  rw [lower, Finset.mem_filter, Finset.mem_Icc]
  rfl

theorem sortLevels (hf : c.blocksCount < fuel) (hnd : level.Nodup)
    (hlevel : ∀ x, x ∈ level ↔ c.Block x ∧ t.domDepth x = i) (hk : (lower c t i).card < k) :
    ∃ l, sortBlocks fuel t k level = some l ∧ l.Nodup ∧ (∀ x, x ∈ l ↔ c.Block x ∧ i ≤ t.domDepth x) ∧
      l.Pairwise fun x y => t.domDepth x ≤ t.domDepth y := by
  induction k generalizing i level with
  | zero => omega
  | succ k ih =>
    rw [sortBlocks]
    by_cases hnil : level = []
    · rw [if_pos hnil]
      refine ⟨[], rfl, List.nodup_nil, fun x => ?_, List.Pairwise.nil⟩
      refine iff_of_false List.not_mem_nil ?_
      rintro ⟨hx, hi⟩
      obtain ⟨y, hy⟩ := exists_depth ht hr hx hi
      have hmem := (hlevel y).2 hy
      rw [hnil] at hmem
      cases hmem
    · obtain ⟨hnd', hlevel'⟩ := nextLevel_spec ht hr hnd hlevel
      have hcard : (lower c t (i + 1)).card < (lower c t i).card := by
        refine Finset.card_lt_card ⟨fun x hx => ?_, fun hsub => ?_⟩
        · obtain ⟨hx, hi⟩ := mem_lower.1 hx
          exact mem_lower.2 ⟨hx, by omega⟩
        · obtain ⟨x, hx⟩ := List.exists_mem_of_ne_nil level hnil
          obtain ⟨hx, hi⟩ := (hlevel x).1 hx
          have := (mem_lower.1 (hsub (mem_lower.2 ⟨hx, hi.ge⟩))).2
          omega
      obtain ⟨l, hl, hlnd, hlmem, hlpair⟩ := ih hnd' hlevel' (by omega)
      rw [if_neg hnil, nextLevel_eq ht hf, Option.bind_some, hl]
      refine ⟨level ++ l, rfl, ?_, fun x => ?_, ?_⟩
      · refine hnd.append hlnd fun x hx hx' => ?_
        have := ((hlevel x).1 hx).2
        have := ((hlmem x).1 hx').2
        omega
      · rw [List.mem_append, hlevel, hlmem]
        constructor
        · rintro (⟨hx, hd⟩ | ⟨hx, hd⟩)
          · exact ⟨hx, hd.ge⟩
          · exact ⟨hx, by omega⟩
        · rintro ⟨hx, hd⟩
          by_cases heq : t.domDepth x = i
          · exact Or.inl ⟨hx, heq⟩
          · exact Or.inr ⟨hx, by omega⟩
      · refine List.pairwise_append.2 ⟨?_, hlpair, fun x hx y hy => ?_⟩
        · refine List.Pairwise.imp_of_mem ?_ hnd
          intro x y hx hy _
          rw [((hlevel x).1 hx).2, ((hlevel y).1 hy).2]
        · have := ((hlevel x).1 hx).2
          have := ((hlmem y).1 hy).2
          omega

/-- All blocks, down the dominator tree. -/
theorem sortBlocks_spec (h1 : 1 ≤ c.blocksCount) (hf : c.blocksCount < fuel) :
    ∃ l, sortBlocks fuel t fuel [1] = some l ∧ l.Nodup ∧ (∀ x, x ∈ l ↔ c.Block x) ∧
      l.Pairwise fun x y => t.domDepth x ≤ t.domDepth y := by
  have hlevel : ∀ x, x ∈ [1] ↔ c.Block x ∧ t.domDepth x = 0 := by
    intro x
    rw [List.mem_singleton]
    constructor
    · rintro rfl
      exact ⟨⟨le_rfl, h1⟩, ht.depth_root⟩
    · rintro ⟨hx, hd⟩
      by_contra hne
      have := ht.depth x (by have := hx.1; omega) hx.2
      omega
  have hcard : (lower c t 0).card < fuel := by
    have := Finset.card_filter_le (Finset.Icc 1 c.blocksCount) fun x => 0 ≤ t.domDepth x
    rw [Nat.card_Icc] at this
    unfold lower
    omega
  obtain ⟨l, hl, hnd, hmem, hpair⟩ := sortLevels ht hr hf (List.nodup_singleton 1) hlevel hcard
  exact ⟨l, hl, hnd, fun x => (hmem x).trans (and_iff_left (Nat.zero_le _)), hpair⟩

/-- `ir_dominates` walks up to the level of the first block. -/
theorem dominates_eq (hb : c.Block b) (hf : t.domDepth b < fuel) :
    ∃ r, dominates t d fuel b = some r ∧ (r = true ↔ Dom (Edge c.predecessors) 1 d b) := by
  induction fuel generalizing b with
  | zero => omega
  | succ fuel ih =>
    rw [dominates]
    by_cases hlt : t.domDepth b > t.domDepth d
    · have h2 : 2 ≤ b := by
        have := hb.1
        by_contra hlt'
        obtain rfl : b = 1 := by omega
        rw [ht.depth_root] at hlt
        omega
      have hdepth := ht.depth b h2 hb.2
      have hidom := ht.isIdom b h2 hb.2
      have hne : d ≠ b := fun heq => by
        rw [heq] at hlt
        omega
      obtain ⟨r, hr', hiff⟩ := ih (idom_block ht hr h2 hb.2) (by omega)
      rw [if_pos hlt]
      refine ⟨r, hr', hiff.trans ⟨fun h => h.trans hidom.2.1, fun h => hidom.2.2 d hne h⟩⟩
    · rw [if_neg hlt]
      refine ⟨_, rfl, ?_⟩
      rw [decide_eq_true_iff]
      constructor
      · rintro rfl
        exact Dom.refl _ _ d
      · intro h
        by_contra hne
        exact hlt (depth_lt_of_dom ht hr hb h hne)

theorem depth_lt (hb : c.Block b) : t.domDepth b < c.blocksCount := by
  have hcard : ∀ i, i ≤ t.domDepth b → i ∈ (Finset.Icc 1 c.blocksCount).image t.domDepth := by
    intro i hi
    obtain ⟨y, hy, hdepth⟩ := exists_depth ht hr hb hi
    exact Finset.mem_image.2 ⟨y, Finset.mem_Icc.2 hy, hdepth⟩
  have hsub : Finset.range (t.domDepth b + 1) ⊆ (Finset.Icc 1 c.blocksCount).image t.domDepth :=
    fun i hi => hcard i (Nat.lt_succ_iff.1 (Finset.mem_range.1 hi))
  have hle := (Finset.card_le_card hsub).trans Finset.card_image_le
  rw [Finset.card_range, Nat.card_Icc] at hle
  omega

end Levels

end IrJit.Cfg
