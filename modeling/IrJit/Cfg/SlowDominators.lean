import IrJit.Cfg.SeedRound
import IrJit.Lib.DepthFirst

/-!
# Cfg.SlowDominators — `ir_build_dominators_tree` for any numbering of the blocks

A block before all of its predecessors makes the single pass give up: with one predecessor it goes to
`slow_case`; with more of them the loop that skips the back edges tests its count only after it has
fetched the next entry, so it reads the entry behind the last predecessor (`Built.outside`).

`ir_build_dominators_tree_slow` numbers the blocks in post-order and repeats rounds in reverse post-order,
starting from the dominators that the single pass has left.

In reverse post-order every block has a predecessor before it, and an edge that leads back goes to the
start of an ascending path (`DepthFirst.Postorder`).  With the blocks renumbered in that order the slow
algorithm is the round algorithm of `Cfg.Dominators` (`slowBlock_eq`), and the table that the single pass
leaves is a `Seed`.
-/

namespace IrJit.Cfg

open DepthFirst

/-! ## The single pass -/

/-- Where the search for a predecessor before `b` ends. -/
inductive Scan
  | forward
  | slowCase
  | outside
  deriving DecidableEq, Repr

/-- `while (1) { k--; p++; idom = *p; … }` -/
def scanRest (b : ℕ) : ℕ → List ℕ → Scan
  | _, [] => .outside
  | k, p :: ps =>
    if p < b then .forward
    else if k - 1 = 0 then .slowCase
    else scanRest b (k - 1) ps

/-- The predecessors of `b` up to the first one before it. -/
def scan (b : ℕ) : List ℕ → Scan
  | [] => .outside
  | p :: ps =>
    if p < b then .forward
    else if ps.length + 1 ≤ 1 then .slowCase
    else scanRest b (ps.length + 1) ps

/-- How the single pass ends. -/
inductive PassEnd
  | done (s : Pass)
  | slow (s : Pass)
  | outside

/-- The single pass over `k` blocks from `b` on. -/
def fastPass (fuel : ℕ) (c : Graph) : ℕ → ℕ → Pass → Option PassEnd
  | 0, _, s => some (.done s)
  | k + 1, b, s =>
    match scan b (c.predecessors b) with
    | .forward => (passBlock fuel c b s).bind (fastPass fuel c k (b + 1))
    | .slowCase => some (.slow s)
    | .outside => some .outside

/-- What follows the single pass. -/
def afterPass (fuel : ℕ) (c : Graph) (s : Pass) : Option DomTree := do
  let s := { s with idom := Function.update s.idom 1 0 }
  let noLoops := s.worklist.isEmpty
  if ← complete fuel c s s.worklist then some (finish c s.idom s.domDepth noLoops)
  else buildDominatorsTreeIterative fuel c s.idom noLoops

/-! ## The slow algorithm -/

/-- `bb->postnum`; `order` is `rpo` from its end. -/
def postnum (order : List ℕ) (b : ℕ) : ℕ := order.length - order.idxOf b

/-- The two fingers; blocks with one number would make the loop spin. -/
def intersectPost (postnum idom : ℕ → ℕ) : ℕ → ℕ → ℕ → Option ℕ
  | 0, _, _ => none
  | fuel + 1, a, b =>
    if a = b then some a
    else if postnum b < postnum a then intersectPost postnum idom fuel a (idom b)
    else if postnum a < postnum b then intersectPost postnum idom fuel (idom a) b
    else none

/-- The loop over the remaining predecessors. -/
def intersectKnownPost (fuel : ℕ) (postnum idom : ℕ → ℕ) : List ℕ → ℕ → Option ℕ
  | [], d => some d
  | p :: ps, d =>
    if idom p > 0 then
      (intersectPost postnum idom fuel d p).bind (intersectKnownPost fuel postnum idom ps)
    else intersectKnownPost fuel postnum idom ps d

/-- One round at block `b`; the flag is `changed`. -/
def slowBlock (fuel : ℕ) (c : Graph) (postnum : ℕ → ℕ) (b : ℕ) (s : (ℕ → ℕ) × Bool) :
    Option ((ℕ → ℕ) × Bool) :=
  match c.predecessors b with
  | [p] => some (if s.1 p > 0 ∧ s.1 b ≠ p then (Function.update s.1 b p, true) else s)
  | preds =>
    match skipUnknown s.1 preds with
    | none => some s
    | some (d, ps) =>
      (intersectKnownPost fuel postnum s.1 ps d).bind fun d =>
        if s.1 b ≠ d then some (Function.update s.1 b d, true) else some s

/-- One round over blocks in reverse post-order. -/
def slowRound (fuel : ℕ) (c : Graph) (postnum : ℕ → ℕ) : List ℕ → (ℕ → ℕ) × Bool → Option ((ℕ → ℕ) × Bool)
  | [], s => some s
  | b :: bs, s => (slowBlock fuel c postnum b s).bind (slowRound fuel c postnum bs)

/-- Rounds until one changes nothing; the first of `order` is the root. -/
def slowRounds (fuel : ℕ) (c : Graph) (order : List ℕ) : ℕ → (ℕ → ℕ) → Option (ℕ → ℕ)
  | 0, _ => none
  | k + 1, idom =>
    (slowRound fuel c (postnum order) order.tail (idom, false)).bind fun s =>
      if s.2 then slowRounds fuel c order k s.1 else some s.1

/-- `while (idom) …`: up to a block whose depth is known. -/
def countDepth (idom depth : ℕ → ℕ) : ℕ → ℕ → ℕ → Option ℕ
  | 0, _, _ => none
  | fuel + 1, d, n =>
    if d = 0 then some n
    else if depth d > 0 then some (n + 1 + depth d)
    else countDepth idom depth fuel (idom d) (n + 1)

/-- The depths of all blocks. -/
def slowDepths (fuel : ℕ) (c : Graph) (idom : ℕ → ℕ) : Option (ℕ → ℕ) :=
  ascend (fun b depth => (countDepth idom depth fuel (idom b) 0).map (Function.update depth b))
    (c.blocksCount - 1) 2 fun _ => 0

/-- `ir_build_dominators_tree_slow`, started from the table of the single pass. -/
def buildDominatorsTreeSlow (fuel : ℕ) (c : Graph) (idom : ℕ → ℕ) : Option DomTree := do
  let order ← dfs c.successors fuel (start c.successors 1)
  let idom ← slowRounds fuel c order fuel (Function.update idom 1 1)
  let idom := Function.update idom 1 0
  let depth ← slowDepths fuel c idom
  some (finish c idom depth false)

/-! ## Both -/

/-- The tree, or a read behind the predecessors of a block. -/
inductive Built
  | tree (t : DomTree)
  | outside

/-- `ir_build_dominators_tree`. -/
def buildDominators (fuel : ℕ) (c : Graph) : Option Built := do
  match ← fastPass fuel c (c.blocksCount - 1) 2
      { idom := Function.update (fun _ => 0) 1 1, domDepth := fun _ => 0, worklist := [] } with
  | .done s => (afterPass fuel c s).map .tree
  | .slow s => (buildDominatorsTreeSlow fuel c s.idom).map .tree
  | .outside => some .outside

end IrJit.Cfg

namespace IrJit.Cfg

open ParentTree DomTable Dominance DepthFirst

/-! ## Numbers -/

/-- The list holds the blocks, each once. -/
structure Enumerates (order : List ℕ) (n : ℕ) : Prop where
  nodup : order.Nodup
  mem : ∀ x, x ∈ order ↔ 1 ≤ x ∧ x ≤ n

section Rank

variable {order : List ℕ} {n x y : ℕ}

/-- The place of a block in the list, from `1`. -/
def rank (order : List ℕ) (x : ℕ) : ℕ := if x ∈ order then order.idxOf x + 1 else x

/-- The block at a place of the list. -/
def blockAt (order : List ℕ) (r : ℕ) : ℕ := if 1 ≤ r ∧ r ≤ order.length then order.getD (r - 1) 0 else r

theorem Enumerates.length (h : Enumerates order n) : order.length = n := by
  have hset : order.toFinset = Finset.Icc 1 n := by
    ext x
    rw [List.mem_toFinset, Finset.mem_Icc]
    exact h.mem x
  rw [← List.toFinset_card_of_nodup h.nodup, hset, Nat.card_Icc]
  omega

theorem rank_of_mem (hx : x ∈ order) : rank order x = order.idxOf x + 1 := if_pos hx

theorem rank_range (h : Enumerates order n) (x : ℕ) : 1 ≤ rank order x ∧ rank order x ≤ n ↔ 1 ≤ x ∧ x ≤ n := by
  by_cases hx : x ∈ order
  · have hlt := List.idxOf_lt_length_iff.2 hx
    rw [h.length] at hlt
    rw [rank_of_mem hx]
    exact iff_of_true (by omega) ((h.mem x).1 hx)
  · unfold rank
    rw [if_neg hx]

/-- Renumbering in the order of the list. -/
def ranking (h : Enumerates order n) : ℕ ≃ ℕ where
  toFun := rank order
  invFun := blockAt order
  left_inv x := by
    by_cases hx : x ∈ order
    · have hlt := List.idxOf_lt_length_iff.2 hx
      unfold blockAt
      rw [rank_of_mem hx, if_pos (by omega), Nat.add_sub_cancel, List.getD_eq_getElem _ _ hlt]
      exact List.getElem_idxOf hlt
    · have hout : rank order x = x := if_neg hx
      unfold blockAt
      rw [hout, if_neg]
      rw [h.length, ← h.mem]
      exact hx
  right_inv r := by
    by_cases hr : 1 ≤ r ∧ r ≤ order.length
    · have hlt : r - 1 < order.length := by omega
      unfold blockAt
      rw [if_pos hr, List.getD_eq_getElem _ _ hlt, rank_of_mem (List.getElem_mem hlt),
        h.nodup.idxOf_getElem]
      omega
    · unfold blockAt
      rw [if_neg hr]
      refine if_neg fun hmem => hr ?_
      rw [h.length]
      exact (h.mem r).1 hmem

theorem ranking_zero (h : Enumerates order n) : ranking h 0 = 0 :=
  if_neg fun hmem => by
    have := (h.mem 0).1 hmem
    omega

theorem ranking_symm_range (h : Enumerates order n) {r : ℕ} (h1 : 1 ≤ r) (hn : r ≤ n) :
    1 ≤ (ranking h).symm r ∧ (ranking h).symm r ≤ n := by
  rw [← rank_range h]
  show 1 ≤ ranking h _ ∧ ranking h _ ≤ n
  rw [(ranking h).apply_symm_apply]
  exact ⟨h1, hn⟩

theorem ranking_root (h : Enumerates order n) (hroot : order.head? = some 1) : ranking h 1 = 1 := by
  obtain ⟨l, rfl⟩ : ∃ l, order = 1 :: l := by
    cases order with
    | nil => cases hroot
    | cons a l => exact ⟨l, by rw [Option.some.inj hroot]⟩
  show rank (1 :: l) 1 = 1
  rw [rank_of_mem (by simp), List.idxOf_cons_self]

theorem postnum_lt_iff (h : Enumerates order n) (hx : 1 ≤ x ∧ x ≤ n) (hy : 1 ≤ y ∧ y ≤ n) :
    postnum order y < postnum order x ↔ ranking h x < ranking h y := by
  have hx' := List.idxOf_lt_length_iff.2 ((h.mem x).2 hx)
  have hy' := List.idxOf_lt_length_iff.2 ((h.mem y).2 hy)
  show _ ↔ rank order x < rank order y
  rw [rank_of_mem ((h.mem x).2 hx), rank_of_mem ((h.mem y).2 hy)]
  unfold postnum
  omega

theorem rank_lt_of_before (hnd : order.Nodup) (h : Before order x y) : rank order x < rank order y := by
  obtain ⟨l, l', rfl, hx, hy⟩ := List.cons_sublist_iff.1 h
  have hy' : y ∈ l' := List.singleton_sublist.1 hy
  have hnot : y ∉ l := fun hyl => (List.nodup_append.1 hnd).2.2 y hyl y hy' rfl
  have hlt := List.idxOf_lt_length_iff.2 hx
  rw [rank_of_mem (by simp [hx]), rank_of_mem (by simp [hy']), List.idxOf_append_of_mem hx,
    List.idxOf_append_of_notMem hnot]
  omega

theorem tail_eq (h : Enumerates order n) : order.tail = (List.range' 2 (n - 1)).map (ranking h).symm := by
  refine List.ext_getElem ?_ fun i hi hi' => ?_
  · rw [List.length_tail, List.length_map, List.length_range', h.length]
  · rw [List.getElem_tail, List.getElem_map, List.getElem_range']
    show _ = blockAt order (2 + 1 * i)
    rw [List.length_tail] at hi
    unfold blockAt
    rw [if_pos (by omega), List.getD_eq_getElem _ _ (by omega)]
    congr 1
    omega

end Rank

/-! ## The renumbered graph -/

section Renumber

variable {order : List ℕ} {c : Graph}

/-- The graph with the blocks renumbered. -/
def Graph.renumber (c : Graph) (h : Enumerates order c.blocksCount) : Graph where
  blocksCount := c.blocksCount
  predecessors r := (c.predecessors ((ranking h).symm r)).map (ranking h)
  successors r := (c.successors ((ranking h).symm r)).map (ranking h)
  isEntry r := c.isEntry ((ranking h).symm r)
  pred_range b p hp := by
    obtain ⟨q, hq, rfl⟩ := List.mem_map.1 hp
    obtain ⟨hq1, hb⟩ := c.pred_range _ _ hq
    rw [← rank_range h] at hb
    have hb' : rank order ((ranking h).symm b) = b := (ranking h).apply_symm_apply b
    rw [hb'] at hb
    exact ⟨(rank_range h q).2 hq1, hb⟩
  mem_successors p b := by
    simp only [List.mem_map]
    constructor
    · rintro ⟨b', hb', rfl⟩
      refine ⟨(ranking h).symm p, ?_, (ranking h).apply_symm_apply p⟩
      rw [(ranking h).symm_apply_apply]
      exact (c.mem_successors _ _).1 hb'
    · rintro ⟨p', hp', rfl⟩
      refine ⟨(ranking h).symm b, ?_, (ranking h).apply_symm_apply b⟩
      rw [(ranking h).symm_apply_apply]
      exact (c.mem_successors _ _).2 hp'
  entry_pred b hb := by
    rw [List.length_map]
    exact c.entry_pred _ hb

variable (h : Enumerates order c.blocksCount)

theorem edge_renumber (p b : ℕ) :
    Edge (c.renumber h).predecessors (ranking h p) (ranking h b) ↔ Edge c.predecessors p b := by
  unfold Edge Graph.renumber
  dsimp only
  rw [(ranking h).symm_apply_apply, List.mem_map]
  constructor
  · rintro ⟨q, hq, heq⟩
    rwa [← (ranking h).injective heq]
  · exact fun hp => ⟨p, hp, rfl⟩

variable {h}

theorem ascends_of_path {x y : ℕ} (hpath : DepthFirst.Path c.successors order x y) :
    Ascends (c.renumber h).predecessors (ranking h x) (ranking h y) := by
  induction hpath with
  | refl => exact Relation.ReflTransGen.refl
  | tail _ hstep ih =>
    refine ih.tail ⟨?_, rank_lt_of_before h.nodup hstep.2⟩
    exact (edge_renumber h _ _).2 ((c.mem_successors _ _).1 hstep.1)

variable (hpost : Postorder c.successors 1 order)

include hpost

theorem renumber_inOrder : (c.renumber h).InOrder := by
  intro r h2 hn
  have hb := ranking_symm_range h (by omega : 1 ≤ r) hn
  have hne : (ranking h).symm r ≠ 1 := by
    intro heq
    have hr := ranking_root h hpost.root
    rw [← heq, (ranking h).apply_symm_apply] at hr
    omega
  obtain ⟨p, hp, hbefore⟩ := hpost.parent _ ((h.mem _).2 hb) hne
  refine ⟨ranking h p, List.mem_map.2 ⟨p, (c.mem_successors _ _).1 hp, rfl⟩, ?_⟩
  have hlt := rank_lt_of_before h.nodup hbefore
  have heq : rank order ((ranking h).symm r) = r := (ranking h).apply_symm_apply r
  rwa [heq] at hlt

theorem renumber_retreats : (c.renumber h).Retreats := by
  intro r q hq hle
  obtain ⟨p, hp, rfl⟩ := List.mem_map.1 hq
  have hedge : (ranking h).symm r ∈ c.successors p := (c.mem_successors _ _).2 hp
  have hpmem : p ∈ order := (h.mem p).2 (c.pred_range _ p hp).1
  have heq : rank order ((ranking h).symm r) = r := (ranking h).apply_symm_apply r
  rcases (hpost.edge p hpmem _ hedge).2 with hbefore | hpath
  · have hlt := rank_lt_of_before h.nodup hbefore
    rw [heq] at hlt
    exact absurd hle (not_le.2 hlt)
  · have hasc := ascends_of_path (h := h) hpath
    rwa [(ranking h).apply_symm_apply] at hasc

end Renumber

/-! ## The rounds -/

section Conj

variable {order : List ℕ} {c : Graph} {fuel : ℕ} {t : ℕ → ℕ} {a b x : ℕ}

/-- A table under other names. -/
def conj (e : ℕ ≃ ℕ) (t : ℕ → ℕ) (x : ℕ) : ℕ := e (t (e.symm x))

theorem conj_symm (e : ℕ ≃ ℕ) (t : ℕ → ℕ) : conj e.symm (conj e t) = t := by
  ext x
  unfold conj
  rw [e.symm_symm, e.symm_apply_apply, e.symm_apply_apply]

theorem conj_update (e : ℕ ≃ ℕ) (t : ℕ → ℕ) (x v : ℕ) :
    conj e (Function.update t x v) = Function.update (conj e t) (e x) (e v) := by
  ext y
  unfold conj
  by_cases hy : y = e x
  · subst hy
    rw [e.symm_apply_apply, Function.update_self, Function.update_self]
  · rw [Function.update_of_ne hy, Function.update_of_ne fun heq => hy (by rw [← heq, e.apply_symm_apply])]

/-- The blocks that have parents have parents that have parents. -/
structure Stays (n : ℕ) (t : ℕ → ℕ) : Prop where
  one : t 1 > 0
  up : ∀ x, 1 ≤ x → x ≤ n → t x > 0 → t x ≤ n ∧ t (t x) > 0

theorem stays_of_decreasing {n : ℕ} (hdec : Decreasing t n) (hone : t 1 = 1) (h1 : 1 ≤ n) : Stays n t := by
  have hpos : ∀ x, 1 ≤ x → x ≤ n → t x > 0 ∧ t x ≤ n := by
    intro x hx hn
    by_cases h2 : 2 ≤ x
    · have := hdec x h2 hn
      omega
    · obtain rfl : x = 1 := by omega
      omega
  exact ⟨(hpos 1 le_rfl h1).1, fun x hx hn _ => ⟨(hpos x hx hn).2, (hpos _ (hpos x hx hn).1 (hpos x hx hn).2).1⟩⟩

variable (h : Enumerates order c.blocksCount) (ht : Stays c.blocksCount t)

/-- The table of the blocks that belongs to a table of the numbers. -/
def blocks (h : Enumerates order c.blocksCount) (s : (ℕ → ℕ) × Bool) : (ℕ → ℕ) × Bool :=
  (conj (ranking h).symm s.1, s.2)

theorem conj_pos (x : ℕ) : conj (ranking h).symm t x > 0 ↔ t (ranking h x) > 0 := by
  have hzero : (ranking h).symm 0 = 0 := (ranking h).symm_apply_eq.2 (ranking_zero h).symm
  have hiff : (ranking h).symm (t (ranking h x)) = 0 ↔ t (ranking h x) = 0 := by
    rw [← hzero, (ranking h).symm.injective.eq_iff, hzero]
  show 0 < (ranking h).symm (t (ranking h x)) ↔ 0 < t (ranking h x)
  rw [Nat.pos_iff_ne_zero, Nat.pos_iff_ne_zero]
  exact not_congr hiff

include ht in
theorem intersect_stays (ha : 1 ≤ a ∧ a ≤ c.blocksCount) (hta : t a > 0) (hb : 1 ≤ b ∧ b ≤ c.blocksCount)
    (htb : t b > 0) {m : ℕ} (hm : intersect t fuel a b = some m) :
    (1 ≤ m ∧ m ≤ c.blocksCount) ∧ t m > 0 := by
  induction fuel generalizing a b with
  | zero => cases hm
  | succ fuel ih =>
    rw [intersect] at hm
    split_ifs at hm with heq hlt
    · obtain rfl := Option.some.inj hm
      exact ⟨ha, hta⟩
    · obtain ⟨hle, hup⟩ := ht.up b hb.1 hb.2 htb
      exact ih ha hta ⟨htb, hle⟩ hup hm
    · obtain ⟨hle, hup⟩ := ht.up a ha.1 ha.2 hta
      exact ih ⟨hta, hle⟩ hup hb htb hm

include ht in
/-- The fingers move by post-order numbers as they move by the new numbers. -/
theorem intersectPost_eq (ha : 1 ≤ a ∧ a ≤ c.blocksCount) (hta : t a > 0)
    (hb : 1 ≤ b ∧ b ≤ c.blocksCount) (htb : t b > 0) :
    intersectPost (postnum order) (conj (ranking h).symm t) fuel ((ranking h).symm a) ((ranking h).symm b) =
      (intersect t fuel a b).map (ranking h).symm := by
  induction fuel generalizing a b with
  | zero => rfl
  | succ fuel ih =>
    have hstep : ∀ x, conj (ranking h).symm t ((ranking h).symm x) = (ranking h).symm (t x) := fun x => by
      unfold conj
      rw [(ranking h).symm_symm, (ranking h).apply_symm_apply]
    have hsa := ranking_symm_range h ha.1 ha.2
    have hsb := ranking_symm_range h hb.1 hb.2
    have hne : a ≠ b → (ranking h).symm a ≠ (ranking h).symm b := (ranking h).symm.injective.ne
    have hab : postnum order ((ranking h).symm b) < postnum order ((ranking h).symm a) ↔ a < b := by
      rw [postnum_lt_iff h hsa hsb, (ranking h).apply_symm_apply, (ranking h).apply_symm_apply]
    have hba : postnum order ((ranking h).symm a) < postnum order ((ranking h).symm b) ↔ b < a := by
      rw [postnum_lt_iff h hsb hsa, (ranking h).apply_symm_apply, (ranking h).apply_symm_apply]
    rw [intersectPost, intersect, hstep, hstep]
    rcases Nat.lt_trichotomy a b with hlt | rfl | hlt
    · obtain ⟨hle, hup⟩ := ht.up b hb.1 hb.2 htb
      rw [if_neg (hne (by omega)), if_neg (by omega : a ≠ b), if_pos (hab.2 hlt), if_pos hlt]
      exact ih ha hta ⟨htb, hle⟩ hup
    · rw [if_pos rfl, if_pos rfl]
      rfl
    · obtain ⟨hle, hup⟩ := ht.up a ha.1 ha.2 hta
      rw [if_neg (hne (by omega)), if_neg (by omega : a ≠ b), if_neg fun hlt' => by have := hab.1 hlt'; omega,
        if_pos (hba.2 hlt), if_neg (by omega)]
      exact ih ⟨hta, hle⟩ hup hb htb

include ht in
theorem intersectKnownPost_eq {ps : List ℕ} (ha : 1 ≤ a ∧ a ≤ c.blocksCount) (hta : t a > 0)
    (hps : ∀ p ∈ ps, 1 ≤ p ∧ p ≤ c.blocksCount) :
    intersectKnownPost fuel (postnum order) (conj (ranking h).symm t) (ps.map (ranking h).symm)
        ((ranking h).symm a) = (intersectKnown fuel t ps a).map (ranking h).symm := by
  induction ps generalizing a with
  | nil => rfl
  | cons p ps ih =>
    have hps' : ∀ q ∈ ps, 1 ≤ q ∧ q ≤ c.blocksCount := fun q hq => hps q (by simp [hq])
    have hpos : conj (ranking h).symm t ((ranking h).symm p) > 0 ↔ t p > 0 := by
      rw [conj_pos, (ranking h).apply_symm_apply]
    rw [List.map_cons, intersectKnownPost, intersectKnown]
    by_cases htp : t p > 0
    · rw [if_pos (hpos.2 htp), if_pos htp, intersectPost_eq h ht ha hta (hps p (by simp)) htp]
      cases hm : intersect t fuel a p with
      | none => rfl
      | some m =>
        obtain ⟨hrange, htm⟩ := intersect_stays ht ha hta (hps p (by simp)) htp hm
        exact ih hrange htm hps'
    · rw [if_neg fun hp => htp (hpos.1 hp), if_neg htp]
      exact ih ha hta hps'

theorem skipUnknown_map (l : List ℕ) :
    skipUnknown (conj (ranking h).symm t) (l.map (ranking h).symm) =
      (skipUnknown t l).map fun r => ((ranking h).symm r.1, r.2.map (ranking h).symm) := by
  induction l with
  | nil => rfl
  | cons p l ih =>
    have hpos : conj (ranking h).symm t ((ranking h).symm p) > 0 ↔ t p > 0 := by
      rw [conj_pos, (ranking h).apply_symm_apply]
    rw [List.map_cons, skipUnknown, skipUnknown]
    by_cases htp : t p = 0
    · rw [if_pos htp, if_pos (by omega)]
      exact ih
    · rw [if_neg htp, if_neg (by omega)]
      rfl

theorem skipUnknown_mem {l ps : List ℕ} {d : ℕ} (hs : skipUnknown t l = some (d, ps)) :
    t d > 0 ∧ d ∈ l ∧ ∀ p ∈ ps, p ∈ l := by
  induction l with
  | nil => cases hs
  | cons p l ih =>
    rw [skipUnknown] at hs
    split_ifs at hs with htp
    · obtain ⟨htd, hd, hps⟩ := ih hs
      exact ⟨htd, by simp [hd], fun q hq => by simp [hps q hq]⟩
    · obtain ⟨rfl, rfl⟩ := Prod.mk.inj (Option.some.inj hs)
      exact ⟨by omega, by simp, fun q hq => by simp [hq]⟩

/-- A round of the slow algorithm at a block is a round in the renumbered graph. -/
theorem slowBlock_eq {s : (ℕ → ℕ) × Bool} (ht : Stays c.blocksCount s.1) (r : ℕ) :
    slowBlock fuel c (postnum order) ((ranking h).symm r) (blocks h s) =
      (roundBlock fuel (c.renumber h) r s).map (blocks h) := by
  have hpreds : (c.predecessors ((ranking h).symm r)) =
      ((c.renumber h).predecessors r).map (ranking h).symm := by
    unfold Graph.renumber
    dsimp only
    rw [List.map_map]
    simp
  have hwrite : ∀ m, (if conj (ranking h).symm s.1 ((ranking h).symm r) ≠ (ranking h).symm m then
      some (Function.update (conj (ranking h).symm s.1) ((ranking h).symm r) ((ranking h).symm m), true)
      else some (blocks h s)) =
      (if s.1 r ≠ m then some (Function.update s.1 r m, true) else some s).map (blocks h) := by
    intro m
    have hval : conj (ranking h).symm s.1 ((ranking h).symm r) = (ranking h).symm (s.1 r) := by
      unfold conj
      rw [(ranking h).symm_symm, (ranking h).apply_symm_apply]
    rw [hval]
    by_cases heq : s.1 r = m
    · rw [if_neg (not_not.2 (congrArg _ heq)), if_neg (not_not.2 heq)]
      rfl
    · rw [if_pos ((ranking h).symm.injective.ne heq), if_pos heq]
      unfold blocks
      rw [Option.map_some, conj_update]
  have hrange : ∀ p ∈ (c.renumber h).predecessors r, 1 ≤ p ∧ p ≤ c.blocksCount := fun p hp =>
    ((c.renumber h).pred_range r p hp).1
  have hgeneral : (match skipUnknown (blocks h s).1 (c.predecessors ((ranking h).symm r)) with
      | none => some (blocks h s)
      | some (d, ps) =>
        (intersectKnownPost fuel (postnum order) (blocks h s).1 ps d).bind fun d =>
          if (blocks h s).1 ((ranking h).symm r) ≠ d then
            some (Function.update (blocks h s).1 ((ranking h).symm r) d, true)
          else some (blocks h s)) = (roundBlock fuel (c.renumber h) r s).map (blocks h) := by
    rw [roundBlock, hpreds]
    show (match skipUnknown (conj (ranking h).symm s.1) _ with
      | none => some (blocks h s)
      | some (d, ps) => _) = _
    rw [skipUnknown_map]
    cases hskip : skipUnknown s.1 ((c.renumber h).predecessors r) with
    | none => rfl
    | some dps =>
      obtain ⟨d, ps⟩ := dps
      obtain ⟨htd, hd, hps⟩ := skipUnknown_mem hskip
      show (intersectKnownPost fuel (postnum order) (conj (ranking h).symm s.1) (ps.map (ranking h).symm)
        ((ranking h).symm d)).bind _ = Option.map (blocks h) ((intersectKnown fuel s.1 ps d).bind _)
      rw [intersectKnownPost_eq h ht (hrange d hd) htd fun p hp => hrange p (hps p hp)]
      cases intersectKnown fuel s.1 ps d with
      | none => rfl
      | some m => exact hwrite m
  rw [← hgeneral, slowBlock]
  split
  · next p hp =>
    rw [hp, skipUnknown]
    by_cases hpos : (blocks h s).1 p = 0
    · rw [if_pos hpos, if_neg (by omega)]
      rfl
    · rw [if_neg hpos]
      show some _ = if (blocks h s).1 ((ranking h).symm r) ≠ p then _ else _
      by_cases hne : (blocks h s).1 ((ranking h).symm r) ≠ p
      · rw [if_pos ⟨by omega, hne⟩, if_pos hne]
      · rw [if_neg fun hand => hne hand.2, if_neg hne]
  · rfl

/-- A round over blocks is a round over their numbers. -/
theorem slowRound_eq {I : ℕ → (ℕ → ℕ) × Bool → Prop} (hI : ∀ b s, I b s → Stays c.blocksCount s.1)
    {k lo : ℕ} {s : (ℕ → ℕ) × Bool} (hs : I lo s)
    (hstep : ∀ b s, lo ≤ b → b < lo + k → I b s →
      ∃ s', roundBlock fuel (c.renumber h) b s = some s' ∧ I (b + 1) s') :
    slowRound fuel c (postnum order) ((List.range' lo k).map (ranking h).symm) (blocks h s) =
      (ascend (roundBlock fuel (c.renumber h)) k lo s).map (blocks h) := by
  induction k generalizing lo s with
  | zero => rfl
  | succ k ih =>
    obtain ⟨s', hs', hI'⟩ := hstep lo s le_rfl (by omega) hs
    rw [List.range'_succ, List.map_cons, slowRound, ascend, slowBlock_eq h (hI lo s hs), hs']
    exact ih hI' fun b s hlo hlt hb => hstep b s (by omega) (by omega) hb

end Conj

section Rounds

variable {order : List ℕ} {c : Graph} {fuel : ℕ} {φ t : ℕ → ℕ} (h : Enumerates order c.blocksCount)
  (hc : (c.renumber h).InOrder) (h1 : 1 ≤ c.blocksCount)

theorem roundInv_start (g : Graph) (t : ℕ → ℕ) : RoundInv g t 2 (t, false) := by
  refine ⟨fun x _ => rfl, fun x h2 hx => by omega, ?_⟩
  constructor
  · intro hf
    simp at hf
  · rintro ⟨x, hx, _⟩
    omega

include hc in
/-- The table stays decreasing in the middle of a round. -/
theorem RoundInv.decreasing {b : ℕ} {s : (ℕ → ℕ) × Bool}
    (ha : Approx (c.renumber h).predecessors c.blocksCount t) (hi : RoundInv (c.renumber h) t b s) :
    Decreasing s.1 c.blocksCount := by
  have hmix : mix s.1 t b = s.1 := by
    ext x
    unfold mix
    split_ifs with hx
    · rfl
    · exact (hi.rest x (by omega)).symm
  rw [← hmix]
  refine mix_decreasing ha.decreasing fun y hy hyb hyn => ?_
  exact (anc_old_of_meets hc.ordered ha hy hyn fun z hz hzy => hi.meets z hz (by omega)).2

include hc h1

/-- Rounds from an approximation. -/
theorem slowRounds_eq (hf : 2 * c.blocksCount < fuel) {k : ℕ}
    (ha : Approx (c.renumber h).predecessors c.blocksCount t) (hone : t 1 = 1) :
    slowRounds fuel c order k (conj (ranking h).symm t) =
      (rounds fuel (c.renumber h) k t).map (conj (ranking h).symm) := by
  induction k generalizing t with
  | zero => rfl
  | succ k ih =>
    obtain ⟨s, hs, hr, hs1, -⟩ := round_spec hc hf ha (by omega : t 1 > 0)
    have hround : slowRound fuel c (postnum order) order.tail (conj (ranking h).symm t, false) =
        some (blocks h s) := by
      rw [tail_eq h]
      have heq := slowRound_eq h (I := RoundInv (c.renumber h) t)
        (fun b s hi => stays_of_decreasing (hi.decreasing h hc ha) ((hi.rest 1 (by omega)).trans hone) h1)
        (k := c.blocksCount - 1) (roundInv_start (c.renumber h) t) fun b s hlo hlt hi =>
          hi.step hc hf hlo (show b ≤ c.blocksCount by omega) ha (by omega)
      exact heq.trans (congrArg (Option.map (blocks h)) hs)
    rw [slowRounds, rounds, hround, hs]
    simp only [Option.bind_some, blocks]
    cases s.2
    · rfl
    · exact ih (hr.approx hc.ordered ha) (hs1.trans hone)

/-- Rounds from the table of the single pass. -/
theorem slowRounds_spec (hback : (c.renumber h).Retreats) (hs : Seed (c.renumber h) φ t)
    (hf : c.blocksCount * c.blocksCount + 4 * c.blocksCount + 1 < fuel) {k : ℕ}
    (hk : c.blocksCount * c.blocksCount + 1 < k) :
    ∃ idom, slowRounds fuel c order k (conj (ranking h).symm t) = some (conj (ranking h).symm idom) ∧
      Approx (c.renumber h).predecessors c.blocksCount idom ∧
        Closed (c.renumber h).predecessors c.blocksCount idom := by
  obtain ⟨idom, hidom, ha, hcl⟩ := seed_rounds hc hback h1 hs hf hk
  refine ⟨idom, ?_, ha, hcl⟩
  obtain ⟨s, hround, hi⟩ := seed_round hc (show 4 * c.blocksCount < fuel by omega) h1 hs
  obtain ⟨k, rfl⟩ : ∃ k', k = k' + 1 := ⟨k - 1, by omega⟩
  have hstays : ∀ b s, SeedInv (c.renumber h) φ t b s → Stays c.blocksCount s.1 := fun b s hi => by
    have htame := hi.tame hs
    have hone : s.1 1 = 1 := (hi.rest 1 (by omega)).trans hs.one
    refine ⟨htame.one, fun x hx hn hpos => ?_⟩
    by_cases h2 : 2 ≤ x
    · obtain ⟨hle, hpar, -⟩ := htame.known x h2 hn hpos
      exact ⟨hle, hpar⟩
    · obtain rfl : x = 1 := by omega
      rw [hone, hone]
      exact ⟨h1, Nat.one_pos⟩
  have hslow : slowRound fuel c (postnum order) order.tail (conj (ranking h).symm t, false) =
      some (blocks h s) := by
    rw [tail_eq h]
    have heq := slowRound_eq h hstays (k := c.blocksCount - 1) (seedInv_start hs)
      fun b s hlo hlt hi => hi.step hc (show 4 * c.blocksCount < fuel by omega) hlo
        (show b ≤ c.blocksCount by omega) hs
    exact heq.trans (congrArg (Option.map (blocks h)) hround)
  rw [rounds, hround] at hidom
  rw [slowRounds, hslow]
  simp only [Option.bind_some, blocks] at hidom ⊢
  cases hflag : s.2
  · rw [hflag] at hidom
    simp only [Bool.false_eq_true, if_false, Option.some.injEq] at hidom ⊢
    rw [hidom]
  · rw [hflag] at hidom
    simp only [if_true] at hidom ⊢
    have happrox := hi.approx hc hback
    rw [slowRounds_eq h hc h1 (by omega) happrox ((hi.rest 1 (by omega)).trans hs.one), hidom]
    rfl

end Rounds

/-! ## The table of the single pass -/

section FastPass

variable {c : Graph} {fuel b : ℕ} {s : Pass}

theorem scanRest_eq (b : ℕ) (ps : List ℕ) :
    scanRest b (ps.length + 1) ps = if ∃ p ∈ ps, p < b then .forward else .outside := by
  induction ps with
  | nil => simp [scanRest]
  | cons p ps ih =>
    rw [scanRest, List.length_cons, Nat.add_sub_cancel, if_neg (Nat.succ_ne_zero _), ih]
    by_cases hp : p < b
    · rw [if_pos hp, if_pos ⟨p, by simp, hp⟩]
    · rw [if_neg hp]
      simp [hp]

/-- The search ends at a predecessor before `b`, or at `slow_case` when there is one predecessor, or
behind the last one. -/
theorem scan_eq (b : ℕ) (ps : List ℕ) : scan b ps =
    if ∃ p ∈ ps, p < b then .forward else if ps.length = 1 then .slowCase else .outside := by
  cases ps with
  | nil => simp [scan]
  | cons p ps =>
    rw [scan, scanRest_eq]
    by_cases hp : p < b
    · rw [if_pos hp, if_pos ⟨p, by simp, hp⟩]
    · rw [if_neg hp]
      rcases ps with _ | ⟨q, ps⟩
      · simp [hp]
      · have hlen : ¬(q :: ps).length + 1 ≤ 1 := by simp
        rw [if_neg hlen]
        by_cases hex : ∃ r ∈ q :: ps, r < b
        · obtain ⟨r, hr, hrb⟩ := hex
          rw [if_pos ⟨r, hr, hrb⟩, if_pos ⟨r, List.mem_cons_of_mem p hr, hrb⟩]
        · have hex' : ¬∃ r ∈ p :: q :: ps, r < b := by
            rintro ⟨r, hr, hrb⟩
            rcases List.mem_cons.1 hr with rfl | hr
            · exact hp hrb
            · exact hex ⟨r, hr, hrb⟩
          rw [if_neg hex, if_neg hex', if_neg (by simp)]

/-- What the single pass has established before `b`, with the blocks it has not reached. -/
structure FastInv (c : Graph) (b : ℕ) (s : Pass) : Prop extends PassInv c b s where
  one : s.idom 1 = 1
  rest : ∀ x, b ≤ x → s.idom x = 0

theorem FastInv.step (hlt : ∃ p ∈ c.predecessors b, p < b) (hf : 2 * c.blocksCount < fuel) (h2 : 2 ≤ b)
    (hn : b ≤ c.blocksCount) (hi : FastInv c b s) :
    ∃ s', passBlock fuel c b s = some s' ∧ FastInv c (b + 1) s' := by
  obtain ⟨s', hs', hi'⟩ := hi.toPassInv.step hlt hf h2 hn
  obtain ⟨m, worklist', heq, -⟩ := passBlock_spec hlt hf hn hi.decreasing
  obtain rfl := Option.some.inj (heq.symm.trans hs')
  refine ⟨_, heq, hi', ?_, fun x hx => ?_⟩
  · exact (Function.update_of_ne (by omega) _ _).trans hi.one
  · exact (Function.update_of_ne (by omega) _ _).trans (hi.rest x (by omega))

/-- The first block before all of its predecessors. -/
structure Graph.FirstEarly (c : Graph) (b : ℕ) : Prop where
  two_le : 2 ≤ b
  le : b ≤ c.blocksCount
  early : ∀ p ∈ c.predecessors b, b ≤ p
  before : ∀ x, 2 ≤ x → x < b → ∃ p ∈ c.predecessors x, p < x

/-- The pass goes through all blocks, or stops at the first that is before all of its predecessors. -/
theorem fastPass_cases (hf : 2 * c.blocksCount < fuel) {k : ℕ} (h2 : 2 ≤ b)
    (hk : b + k = c.blocksCount + 1) (hi : FastInv c b s)
    (hbefore : ∀ x, 2 ≤ x → x < b → ∃ p ∈ c.predecessors x, p < x) :
    (c.InOrder ∧ ∃ s', fastPass fuel c k b s = some (.done s') ∧
        ascend (passBlock fuel c) k b s = some s' ∧ FastInv c (c.blocksCount + 1) s') ∨
      ∃ b' s', c.FirstEarly b' ∧ FastInv c b' s' ∧ fastPass fuel c k b s =
        some (if (c.predecessors b').length = 1 then .slow s' else .outside) := by
  induction k generalizing b s with
  | zero =>
    have hb : b = c.blocksCount + 1 := by omega
    exact Or.inl ⟨fun x hx hn => hbefore x hx (by omega), s, rfl, rfl, hb ▸ hi⟩
  | succ k ih =>
    rw [fastPass, ascend, scan_eq]
    by_cases hex : ∃ p ∈ c.predecessors b, p < b
    · obtain ⟨s₁, hs₁, hi₁⟩ := hi.step hex hf h2 (by omega)
      rw [if_pos hex, hs₁]
      refine ih (by omega) (by omega) hi₁ fun x hx hxb => ?_
      by_cases hxb' : x = b
      · rwa [hxb']
      · exact hbefore x hx (by omega)
    · refine Or.inr ⟨b, s, ⟨h2, by omega, fun p hp => ?_, hbefore⟩, hi, ?_⟩
      · by_contra hpb
        exact hex ⟨p, hp, by omega⟩
      · rw [if_neg hex]
        by_cases hone : (c.predecessors b).length = 1
        · rw [if_pos hone, if_pos hone]
        · rw [if_neg hone, if_neg hone]

/-- The predecessors among the blocks before `b`. -/
def below (c : Graph) (b x : ℕ) : List ℕ := if x < b then (c.predecessors x).filter (· < b) else []

theorem edge_of_below {p x : ℕ} (h : Edge (below c b) p x) : Edge c.predecessors p x := by
  unfold Edge below at h
  split_ifs at h
  · exact (List.mem_filter.1 h).1
  · cases h

theorem path_of_below {u v d : ℕ}
    (h : Relation.ReflTransGen (fun x y => Edge (below c b) x y ∧ y ≠ d) u v) :
    Relation.ReflTransGen (fun x y => Edge c.predecessors x y ∧ y ≠ d) u v := by
  induction h with
  | refl => exact Relation.ReflTransGen.refl
  | tail _ hstep ih => exact ih.tail ⟨edge_of_below hstep.1, hstep.2⟩

theorem below_ordered (h2 : 2 ≤ b) (hbefore : ∀ x, 2 ≤ x → x < b → ∃ p ∈ c.predecessors x, p < x) :
    Ordered (below c b) (b - 1) where
  pred_pos x p hp := (c.pred_range x p (edge_of_below hp)).1.1
  pred_le x p hp := by
    unfold below at hp
    split_ifs at hp
    · have := of_decide_eq_true (List.mem_filter.1 hp).2
      omega
    · cases hp
  le x p hp := by
    unfold below at hp
    split_ifs at hp with hx
    · omega
    · cases hp
  smaller x hx hn := by
    obtain ⟨p, hp, hlt⟩ := hbefore x hx (by omega)
    refine ⟨p, ?_, hlt⟩
    unfold below
    rw [if_pos (by omega)]
    exact List.mem_filter.2 ⟨hp, decide_eq_true (by omega)⟩

/-- Strict dominators dominate the parents that the single pass has found. -/
theorem PassInv.dom (hi : PassInv c b s) (hb : 2 ≤ b)
    (hbefore : ∀ x, 2 ≤ x → x < b → ∃ p ∈ c.predecessors x, p < x) {x d : ℕ} (h2 : 2 ≤ x) (hxb : x < b)
    (hd : d ≠ x) (hdom : Dom (Edge c.predecessors) 1 d x) : Dom (Edge c.predecessors) 1 d (s.idom x) := by
  have ho := below_ordered hb hbefore
  have hfirst : FirstPass (below c b) (b - 1) s.idom := by
    intro y hy hyn
    have hfilter : (below c b y).filter (· < y) = (c.predecessors y).filter (· < y) := by
      unfold below
      rw [if_pos (by omega), List.filter_filter]
      refine List.filter_congr fun p _ => ?_
      by_cases hp : p < y
      · simp [hp, show p < b by omega]
      · simp [hp]
    rw [hfilter]
    exact hi.firstPass y hy hyn
  have happrox := hfirst.approx ho hi.decreasing
  have hdom' : Dom (Edge (below c b)) 1 d x := fun hav =>
    hdom (hav.map (f := id) Function.injective_id fun p y hp => edge_of_below hp)
  have hpar := hi.decreasing x h2 (by omega)
  have hanc := happrox.strict x h2 (by omega) d hd hdom'
  have hdle := (hanc.bounds hi.decreasing hpar.1 (by omega)).2
  -- the path down from the parent only meets blocks after it
  have hpath := (happrox.path ho (by omega) (by omega) (anc_parent h2)).avoids hdle
  exact hdom.of_path (path_of_below hpath)

end FastPass

/-! ## The tree -/

section Tree

variable {order : List ℕ} {c : Graph} {fuel b : ℕ} {s : Pass} (h : Enumerates order c.blocksCount)

/-- The table of the single pass, renumbered. -/
theorem FastInv.seed (hroot : order.head? = some 1) (hb : c.FirstEarly b) (hi : FastInv c b s) :
    Seed (c.renumber h) (ranking h).symm (conj (ranking h) s.idom) := by
  have hone := ranking_root h hroot
  have hone' : (ranking h).symm 1 = 1 := (ranking h).symm_apply_eq.2 hone.symm
  have hpos : ∀ x, ranking h x > 0 ↔ x > 0 := by
    intro x
    have hiff : ranking h x = 0 ↔ x = 0 := by
      conv_lhs => rw [← ranking_zero h]
      exact (ranking h).injective.eq_iff
    show 0 < ranking h x ↔ 0 < x
    rw [Nat.pos_iff_ne_zero, Nat.pos_iff_ne_zero]
    exact not_congr hiff
  have hval : ∀ r, conj (ranking h) s.idom r = ranking h (s.idom ((ranking h).symm r)) := fun _ => rfl
  -- a number of a block with a parent
  have hblock : ∀ r, 2 ≤ r → r ≤ c.blocksCount → conj (ranking h) s.idom r > 0 →
      (2 ≤ (ranking h).symm r ∧ (ranking h).symm r < b) ∧ 1 ≤ s.idom ((ranking h).symm r) ∧
        s.idom ((ranking h).symm r) < (ranking h).symm r := by
    intro r h2 hn hr
    have hx := ranking_symm_range h (by omega : 1 ≤ r) hn
    have hne : (ranking h).symm r ≠ 1 := fun heq => by
      have := (ranking h).symm_apply_eq.1 heq
      omega
    have hlt : (ranking h).symm r < b := by
      by_contra hge
      rw [hval, hpos, hi.rest _ (by omega)] at hr
      omega
    exact ⟨⟨by omega, hlt⟩, hi.decreasing _ (by omega) (by omega)⟩
  refine ⟨?_, fun x h1 hn => (ranking_symm_range h h1 hn).2, fun r h2 hn hr => ?_,
    fun r h2 hn hr d hd hdom => ?_⟩
  · rw [hval, hone', hi.one, hone]
  · obtain ⟨⟨hx2, hxb⟩, hp1, hplt⟩ := hblock r h2 hn hr
    have hxn := (ranking_symm_range h (by omega : 1 ≤ r) hn).2
    refine ⟨?_, ?_, ?_⟩
    · exact ((rank_range h _).2 ⟨hp1, by omega⟩).2
    · rw [hval, hval, (ranking h).symm_apply_apply, hpos]
      by_cases hp2 : 2 ≤ s.idom ((ranking h).symm r)
      · exact (hi.decreasing _ hp2 (by omega)).1
      · have heq : s.idom ((ranking h).symm r) = 1 := by omega
        rw [heq, hi.one]
        omega
    · rw [hval, (ranking h).symm_apply_apply]
      exact hplt
  · obtain ⟨⟨hx2, hxb⟩, -⟩ := hblock r h2 hn hr
    obtain ⟨d, rfl⟩ := (ranking h).surjective d
    have hedge := edge_renumber h
    have hne : d ≠ (ranking h).symm r := fun heq => hd (by rw [heq, (ranking h).apply_symm_apply])
    have hdom' : Dom (Edge c.predecessors) 1 d ((ranking h).symm r) := by
      rw [← dom_equiv (ranking h) hedge, hone, (ranking h).apply_symm_apply]
      exact hdom
    have hres := hi.toPassInv.dom hb.two_le hb.before hx2 hxb hne hdom'
    rw [← dom_equiv (ranking h) hedge, hone] at hres
    exact hres

/-- The loop counts the blocks up to one whose depth is known. -/
theorem countDepth_spec {idom depth D : ℕ → ℕ} {n : ℕ} (hone : idom 1 = 0) (hD1 : D 1 = 0)
    (hD : ∀ x, 2 ≤ x → x ≤ n → (1 ≤ idom x ∧ idom x ≤ n) ∧ D x = D (idom x) + 1)
    (hdepth : ∀ x, 1 ≤ x → x ≤ n → depth x = 0 ∨ depth x = D x) {d : ℕ} (h1 : 1 ≤ d) (hn : d ≤ n)
    (hf : D d + 1 < fuel) (k : ℕ) : countDepth idom depth fuel d k = some (k + 1 + D d) := by
  induction fuel generalizing d k with
  | zero => omega
  | succ fuel ih =>
    rw [countDepth, if_neg (by omega)]
    by_cases hpos : depth d > 0
    · rw [if_pos hpos, (hdepth d h1 hn).resolve_left (by omega)]
    · rw [if_neg hpos]
      by_cases h2 : 2 ≤ d
      · obtain ⟨hpar, heq⟩ := hD d h2 hn
        rw [ih hpar.1 hpar.2 (by omega), heq]
        congr 1
        omega
      · obtain rfl : d = 1 := by omega
        obtain ⟨fuel, rfl⟩ : ∃ f, fuel = f + 1 := ⟨fuel - 1, by omega⟩
        rw [hone, hD1, countDepth, if_pos rfl]

/-- The depths before `b` are known, the others are 0. -/
def DepthInv (c : Graph) (D : ℕ → ℕ) (b : ℕ) (depth : ℕ → ℕ) : Prop :=
  ∀ x, 1 ≤ x → x ≤ c.blocksCount → depth x = if 2 ≤ x ∧ x < b then D x else 0

theorem slowDepths_spec {idom D : ℕ → ℕ} (h1 : 1 ≤ c.blocksCount) (hone : idom 1 = 0) (hD1 : D 1 = 0)
    (hD : ∀ x, 2 ≤ x → x ≤ c.blocksCount → (1 ≤ idom x ∧ idom x ≤ c.blocksCount) ∧ D x = D (idom x) + 1)
    (hle : ∀ x, 1 ≤ x → x ≤ c.blocksCount → D x ≤ c.blocksCount) (hf : c.blocksCount + 1 < fuel) :
    ∃ depth, slowDepths fuel c idom = some depth ∧ ∀ x, 1 ≤ x → x ≤ c.blocksCount → depth x = D x := by
  have hstep : ∀ b depth, 2 ≤ b → b < 2 + (c.blocksCount - 1) → DepthInv c D b depth →
      ∃ depth', (countDepth idom depth fuel (idom b) 0).map (Function.update depth b) = some depth' ∧
        DepthInv c D (b + 1) depth' := by
    intro b depth hlo hlt hI
    obtain ⟨hpar, heq⟩ := hD b hlo (by omega)
    have hknown : ∀ x, 1 ≤ x → x ≤ c.blocksCount → depth x = 0 ∨ depth x = D x := fun x hx hn => by
      rw [hI x hx hn]
      split_ifs
      · exact Or.inr rfl
      · exact Or.inl rfl
    have hlt : D (idom b) + 1 < fuel := by
      have := hle (idom b) hpar.1 hpar.2
      omega
    refine ⟨Function.update depth b (D b), ?_, fun x hx hn => ?_⟩
    · rw [countDepth_spec hone hD1 hD hknown hpar.1 hpar.2 hlt, Option.map_some, heq, Nat.zero_add,
        Nat.add_comm]
    · by_cases hxb : x = b
      · subst hxb
        rw [Function.update_self, if_pos (by omega)]
      · rw [Function.update_of_ne hxb, hI x hx hn]
        refine if_congr ?_ rfl rfl
        omega
  obtain ⟨depth, hdepth, hI⟩ := ascend_spec (DepthInv c D) (k := c.blocksCount - 1)
    (fun x _ _ => by rw [if_neg (by omega)]) hstep
  refine ⟨depth, hdepth, fun x hx hn => ?_⟩
  rw [hI x hx hn]
  by_cases h2 : 2 ≤ x
  · exact if_pos (by omega)
  · obtain rfl : x = 1 := by omega
    rw [if_neg (by omega), hD1]

theorem depths_le {n : ℕ} {t : ℕ → ℕ} (hdec : Decreasing t n) {x : ℕ} (h1 : 1 ≤ x) (hn : x ≤ n) :
    depths n t x ≤ x := by
  obtain ⟨hone, hrec⟩ := depths_spec hdec
  induction x using Nat.strong_induction_on with
  | _ x ih =>
    by_cases h2 : 2 ≤ x
    · obtain ⟨hp1, hlt⟩ := hdec x h2 hn
      have := ih (t x) hlt hp1 (by omega)
      rw [hrec x h2 hn]
      omega
    · obtain rfl : x = 1 := by omega
      omega

/-- Every block is reached from the first one. -/
def Graph.Reachable (c : Graph) : Prop :=
  ∀ b, 1 ≤ b → b ≤ c.blocksCount → Relation.ReflTransGen (fun u v => v ∈ c.successors u) 1 b

/-- Steps that are enough for all loops. -/
def Graph.steps (c : Graph) : ℕ :=
  c.blocksCount * c.blocksCount + 4 * c.blocksCount + 2 +
    ∑ x ∈ Finset.Icc 1 c.blocksCount, ((c.successors x).length + 1)

/-- The slow algorithm yields the dominator tree. -/
theorem slow_correct (hr : c.Reachable) (hf : c.steps < fuel) (hb : c.FirstEarly b) (hi : FastInv c b s) :
    ∃ t, buildDominatorsTreeSlow fuel c s.idom = some t ∧ t.Correct c := by
  have h1 : 1 ≤ c.blocksCount := by
    have := hb.two_le
    have := hb.le
    omega
  unfold Graph.steps at hf
  have hclosed : ∀ x ∈ Finset.Icc 1 c.blocksCount, ∀ y ∈ c.successors x, y ∈ Finset.Icc 1 c.blocksCount :=
    fun x _ y hy => Finset.mem_Icc.2 (c.pred_range y x ((c.mem_successors x y).1 hy)).2
  obtain ⟨order, hdfs, hpost, hsub⟩ := dfs_spec (Finset.mem_Icc.2 ⟨le_rfl, h1⟩) hclosed
    (show _ < fuel by omega)
  have h : Enumerates order c.blocksCount := ⟨hpost.nodup, fun x => ⟨fun hx =>
    Finset.mem_Icc.1 (hsub x hx), fun hx => hpost.mem_of_reach (hr x hx.1 hx.2)⟩⟩
  have hone := ranking_root h hpost.root
  have hone' : (ranking h).symm 1 = 1 := (ranking h).symm_apply_eq.2 hone.symm
  have hc := renumber_inOrder (h := h) hpost
  have hstart : Function.update s.idom 1 1 = conj (ranking h).symm (conj (ranking h) s.idom) := by
    have hself := Function.update_eq_self 1 s.idom
    rw [hi.one] at hself
    rw [conj_symm, hself]
  obtain ⟨t, hrounds, ha, hcl⟩ := slowRounds_spec h hc h1 (renumber_retreats (h := h) hpost)
    (hi.seed h hpost.root hb)
    (show c.blocksCount * c.blocksCount + 4 * c.blocksCount + 1 < fuel by omega) (k := fuel) (by omega)
  have hnum : ∀ b, 2 ≤ b → b ≤ c.blocksCount → 2 ≤ ranking h b ∧ ranking h b ≤ c.blocksCount := by
    intro b h2 hn
    have hrange : 1 ≤ ranking h b ∧ ranking h b ≤ c.blocksCount := (rank_range h b).2 ⟨by omega, hn⟩
    have hne : ranking h b ≠ 1 := fun heq => by
      have := (ranking h).injective (heq.trans hone.symm)
      omega
    omega
  have hidom : ∀ b, 2 ≤ b → Function.update (conj (ranking h).symm t) 1 0 b =
      (ranking h).symm (t (ranking h b)) := fun b h2 => Function.update_of_ne (by omega) _ _
  obtain ⟨hD1, hD⟩ := depths_spec ha.decreasing
  have hpar : ∀ b, 2 ≤ b → b ≤ c.blocksCount →
      (1 ≤ (ranking h).symm (t (ranking h b)) ∧ (ranking h).symm (t (ranking h b)) ≤ c.blocksCount) ∧
        depths c.blocksCount t (ranking h b) =
          depths c.blocksCount t (ranking h ((ranking h).symm (t (ranking h b)))) + 1 := by
    intro b h2 hn
    obtain ⟨hb2, hbn⟩ := hnum b h2 hn
    have hdec := ha.decreasing _ hb2 hbn
    rw [(ranking h).apply_symm_apply]
    exact ⟨ranking_symm_range h hdec.1 (by omega), hD _ hb2 hbn⟩
  have hzero : Function.update (conj (ranking h).symm t) 1 0 1 = 0 := Function.update_self ..
  obtain ⟨depth, hdepth, hval⟩ := slowDepths_spec (c := c)
    (D := fun x => depths c.blocksCount t (ranking h x)) h1 hzero
    (by rw [hone]; exact hD1) (fun b h2 hn => by rw [hidom b h2]; exact hpar b h2 hn)
    (fun b h1 hn => by
      have hrange : 1 ≤ ranking h b ∧ ranking h b ≤ c.blocksCount := (rank_range h b).2 ⟨h1, hn⟩
      exact (depths_le ha.decreasing hrange.1 hrange.2).trans hrange.2)
    (show c.blocksCount + 1 < fuel by omega)
  refine ⟨finish c (Function.update (conj (ranking h).symm t) 1 0) depth false, ?_, ?_, ?_, ?_,
    linkChildren_spec c.blocksCount _⟩
  · simp only [buildDominatorsTreeSlow, hdfs, hstart, hrounds, hdepth, Option.bind_eq_bind, Option.bind_some]
  · intro b h2 hn
    obtain ⟨hb2, hbn⟩ := hnum b h2 hn
    have hisIdom := ha.isIdom hc.ordered hcl hb2 hbn
    show IsIdom (Edge c.predecessors) 1 (Function.update (conj (ranking h).symm t) 1 0 b) b
    rw [hidom b h2, ← isIdom_equiv (ranking h) (edge_renumber h), hone, (ranking h).apply_symm_apply]
    exact hisIdom
  · show depth 1 = 0
    rw [hval 1 le_rfl h1, hone]
    exact hD1
  · intro b h2 hn
    obtain ⟨hprange, heq⟩ := hpar b h2 hn
    show depth b = depth (Function.update (conj (ranking h).symm t) 1 0 b) + 1
    rw [hidom b h2, hval b (by omega) hn, hval _ hprange.1 hprange.2]
    exact heq

/-- Every edge leads to a block with a larger number. -/
def Graph.Forward (c : Graph) : Prop := ∀ b p, p ∈ c.predecessors b → 2 ≤ b → p < b

/-- The tree is correct, and `IR_NO_LOOPS` says that there is no back edge. -/
structure DomTree.Built (c : Graph) (t : DomTree) : Prop extends t.Correct c where
  forward : t.noLoops = true → c.Forward
  two_le : t.noLoops = false → 2 ≤ c.blocksCount

/-- The rounds leave `IR_NO_LOOPS` to the single pass. -/
theorem noLoops_afterPass {t : DomTree} (ht : afterPass fuel c s = some t) :
    t.noLoops = s.worklist.isEmpty := by
  simp only [afterPass, Option.bind_eq_bind, Option.bind_eq_some_iff] at ht
  obtain ⟨r, -, ht⟩ := ht
  split_ifs at ht with hr
  · exact congrArg DomTree.noLoops (Option.some.inj ht).symm
  · simp only [buildDominatorsTreeIterative, Option.bind_eq_bind, Option.bind_eq_some_iff] at ht
    obtain ⟨idom, -, ht⟩ := ht
    exact congrArg DomTree.noLoops (Option.some.inj ht).symm

theorem noLoops_slow {t : DomTree} {idom : ℕ → ℕ} (ht : buildDominatorsTreeSlow fuel c idom = some t) :
    t.noLoops = false := by
  simp only [buildDominatorsTreeSlow, Option.bind_eq_bind, Option.bind_eq_some_iff] at ht
  obtain ⟨order, -, idom', -, depth, -, ht⟩ := ht
  exact congrArg DomTree.noLoops (Option.some.inj ht).symm

/-- What the single pass knows about back edges when it has seen all blocks. -/
theorem PassInv.built {t : DomTree} (hi : PassInv c (c.blocksCount + 1) s) (ht : afterPass fuel c s = some t)
    (hcorrect : t.Correct c) : t.Built c := by
  have hno := noLoops_afterPass ht
  refine ⟨hcorrect, fun h b p hp h2 => ?_, fun h => ?_⟩
  · by_contra hpb
    have hmem : p ∈ s.worklist := (hi.worklist p).2 ⟨b, ⟨h2, by
      have := (c.pred_range b p hp).2.2
      omega⟩, hp, by omega⟩
    rw [List.isEmpty_iff.1 (hno.symm.trans h)] at hmem
    cases hmem
  · obtain ⟨q, l, hl⟩ : ∃ q l, s.worklist = q :: l := by
      cases hw : s.worklist with
      | nil =>
        rw [hno, hw] at h
        cases h
      | cons q l => exact ⟨q, l, rfl⟩
    obtain ⟨x, hx, -⟩ := (hi.worklist q).1 (by rw [hl]; exact List.mem_cons_self)
    omega

/-- The tree is built and correct, or an entry behind the predecessors of a block is read. -/
theorem buildDominators_cases (hr : c.Reachable) (hf : c.steps < fuel) :
    (∀ b, c.FirstEarly b → (c.predecessors b).length = 1) ∧
        (∃ t, buildDominators fuel c = some (.tree t) ∧ t.Built c) ∨
      (¬∀ b, c.FirstEarly b → (c.predecessors b).length = 1) ∧ buildDominators fuel c = some .outside := by
  have hfn : c.blocksCount * c.blocksCount + 2 * c.blocksCount < fuel := by
    unfold Graph.steps at hf
    omega
  have hstart : FastInv c 2
      { idom := Function.update (fun _ => 0) 1 1, domDepth := fun _ => 0, worklist := [] } := by
    have hother : ∀ x, 2 ≤ x → Function.update (fun _ => 0) 1 1 x = 0 := fun x hx =>
      Function.update_of_ne (show x ≠ 1 by omega) _ _
    refine ⟨⟨fun b h2 hb => by omega, fun b h2 hb => by omega, rfl, fun x h2 hx => by omega,
      fun q => ?_⟩, rfl, hother⟩
    constructor
    · intro hq
      cases hq
    · rintro ⟨x, hx, _⟩
      omega
  have hdone : ∀ s, c.InOrder → ascend (passBlock fuel c) (c.blocksCount - 1) 2
      { idom := Function.update (fun _ => 0) 1 1, domDepth := fun _ => 0, worklist := [] } = some s →
      PassInv c (c.blocksCount + 1) s → ∃ t, afterPass fuel c s = some t ∧ t.Built c := by
    intro s hc hascend hi
    obtain ⟨t, ht, hcorrect⟩ := buildDominatorsTree_some hc hfn
    have hsplit : buildDominatorsTree fuel c = (singlePass fuel c).bind (afterPass fuel c) := rfl
    have hsingle : singlePass fuel c = some s := hascend
    rw [hsplit, hsingle] at ht
    exact ⟨t, ht, hi.built ht hcorrect⟩
  by_cases hn : c.blocksCount = 0
  · -- nothing to be done
    have hzero : c.blocksCount - 1 = 0 := by omega
    have hi : PassInv c (c.blocksCount + 1)
        { idom := Function.update (fun _ => 0) 1 1, domDepth := fun _ => 0, worklist := [] } := by
      refine ⟨fun b h2 hb => by omega, fun b h2 hb => by omega, rfl, fun x h2 hx => by omega, fun q => ?_⟩
      constructor
      · intro hq
        cases hq
      · rintro ⟨x, hx, _⟩
        omega
    obtain ⟨t, ht, hbuilt⟩ := hdone _ (fun b h2 hb => by omega) (by rw [hzero]; rfl) hi
    refine Or.inl ⟨fun b hb => ?_, t, ?_, hbuilt⟩
    · have := hb.two_le
      have := hb.le
      omega
    · simp only [buildDominators, hzero, fastPass, Option.bind_eq_bind, Option.bind_some, ht, Option.map_some]
  rcases fastPass_cases (show 2 * c.blocksCount < fuel by omega) le_rfl (k := c.blocksCount - 1) (by omega)
    hstart (fun x h2 hx => by omega) with ⟨hc, s, hpass, hascend, hi⟩ | ⟨b, s, hb, hi, hpass⟩
  · obtain ⟨t, ht, hbuilt⟩ := hdone s hc hascend hi.toPassInv
    refine Or.inl ⟨fun b hb => ?_, t, ?_, hbuilt⟩
    · obtain ⟨p, hp, hlt⟩ := hc b hb.two_le hb.le
      have := hb.early p hp
      omega
    · simp only [buildDominators, hpass, Option.bind_eq_bind, Option.bind_some, ht, Option.map_some]
  · have hunique : ∀ b', c.FirstEarly b' → b' = b := by
      intro b' hb'
      rcases Nat.lt_trichotomy b' b with hlt | heq | hlt
      · obtain ⟨p, hp, hpb⟩ := hb.before b' hb'.two_le hlt
        have := hb'.early p hp
        omega
      · exact heq
      · obtain ⟨p, hp, hpb⟩ := hb'.before b hb.two_le hlt
        have := hb.early p hp
        omega
    by_cases hone : (c.predecessors b).length = 1
    · rw [if_pos hone] at hpass
      obtain ⟨t, ht, hcorrect⟩ := slow_correct hr hf hb hi
      have hno := noLoops_slow ht
      refine Or.inl ⟨fun b' hb' => hunique b' hb' ▸ hone, t, ?_, hcorrect, fun h => ?_, fun _ => ?_⟩
      · simp only [buildDominators, hpass, Option.bind_eq_bind, Option.bind_some, ht, Option.map_some]
      · rw [hno] at h
        cases h
      · have := hb.two_le
        have := hb.le
        omega
    · rw [if_neg hone] at hpass
      refine Or.inr ⟨fun hall => hone (hall b hb), ?_⟩
      simp only [buildDominators, hpass, Option.bind_eq_bind, Option.bind_some]

/-- When every block is reachable, the dominator tree is built, and nothing behind the predecessors of a
block is read, if and only if the first block before all of its predecessors has one. -/
theorem buildDominators_correct_iff (c : Graph) (hr : c.Reachable) (hf : c.steps < fuel) :
    (∃ t, buildDominators fuel c = some (.tree t) ∧ t.Correct c) ↔
      ∀ b, c.FirstEarly b → (c.predecessors b).length = 1 := by
  rcases buildDominators_cases hr hf with ⟨hall, t, ht, hbuilt⟩ | ⟨hnot, hout⟩
  · exact iff_of_true ⟨t, ht, hbuilt.toCorrect⟩ hall
  · refine iff_of_false ?_ hnot
    rintro ⟨t, ht, -⟩
    rw [hout] at ht
    cases ht

/-- A tree that is built is correct. -/
theorem built_of_eq {t : DomTree} (hr : c.Reachable) (hf : c.steps < fuel)
    (ht : buildDominators fuel c = some (.tree t)) : t.Built c := by
  rcases buildDominators_cases hr hf with ⟨-, t', ht', hbuilt⟩ | ⟨-, hout⟩
  · rw [ht'] at ht
    cases ht
    exact hbuilt
  · rw [hout] at ht
    cases ht

end Tree

def lateLinePreds : ℕ → List ℕ
  | 2 => [3]
  | 3 => [1]
  | _ => []

def lateLineSuccs : ℕ → List ℕ
  | 1 => [3]
  | 3 => [2]
  | _ => []

theorem lateLinePreds_range (b p : ℕ) (hp : p ∈ lateLinePreds b) :
    (1 ≤ p ∧ p ≤ 3) ∧ 1 ≤ b ∧ b ≤ 3 := by
  unfold lateLinePreds at hp
  split at hp <;> simp at hp <;> omega

theorem mem_lateLineSuccs (p b : ℕ) : b ∈ lateLineSuccs p ↔ p ∈ lateLinePreds b := by
  unfold lateLineSuccs lateLinePreds
  constructor
  · intro h
    split at h <;> simp at h <;> subst h <;> simp
  · intro h
    split at h <;> simp at h <;> subst h <;> simp

/-- Block 2 is before its only predecessor. -/
def lateLine : Graph where
  blocksCount := 3
  predecessors := lateLinePreds
  successors := lateLineSuccs
  isEntry := fun _ => false
  pred_range := lateLinePreds_range
  mem_successors := mem_lateLineSuccs
  entry_pred := nofun

theorem lateLine_reachable : lateLine.Reachable := by
  intro b h1 hn
  have hedge : ∀ u v, v ∈ lateLine.successors u →
      Relation.ReflTransGen (fun u v => v ∈ lateLine.successors u) u v :=
    fun u v h => Relation.ReflTransGen.single h
  have hb : b = 1 ∨ b = 2 ∨ b = 3 := by
    simp only [lateLine] at hn
    omega
  rcases hb with rfl | rfl | rfl
  · exact Relation.ReflTransGen.refl
  · exact (hedge 1 3 (by decide)).trans (hedge 3 2 (by decide))
  · exact hedge 1 3 (by decide)

theorem buildDominators_correct_iff_lateLine :
    (∃ t, buildDominators 40 lateLine = some (.tree t) ∧ t.Correct lateLine) ↔
      ∀ b, lateLine.FirstEarly b → (lateLine.predecessors b).length = 1 :=
  buildDominators_correct_iff lateLine lateLine_reachable (by decide)

/-- Block 2 is before both of its predecessors. -/
def lateJoin : Graph where
  blocksCount := 4
  predecessors
    | 2 => [3, 4]
    | 3 => [1]
    | 4 => [1]
    | _ => []
  successors
    | 1 => [3, 4]
    | 3 => [2]
    | 4 => [2]
    | _ => []
  isEntry := fun _ => false
  pred_range := by
    intro b p hp
    split at hp <;> simp at hp <;> omega
  mem_successors := by
    intro p b
    constructor
    · intro h
      split at h <;> simp at h <;> rcases h with rfl | rfl <;> simp
    · intro h
      split at h <;> simp at h <;> rcases h with rfl | rfl <;> simp
  entry_pred := by simp

theorem lateJoin_reachable : lateJoin.Reachable := by
  intro b h1 hn
  have hedge : ∀ u v, v ∈ lateJoin.successors u →
      Relation.ReflTransGen (fun u v => v ∈ lateJoin.successors u) u v :=
    fun u v h => Relation.ReflTransGen.single h
  have hb : b = 1 ∨ b = 2 ∨ b = 3 ∨ b = 4 := by
    simp only [lateJoin] at hn
    omega
  rcases hb with rfl | rfl | rfl | rfl
  · exact Relation.ReflTransGen.refl
  · exact (hedge 1 3 (by decide)).trans (hedge 3 2 (by decide))
  · exact hedge 1 3 (by decide)
  · exact hedge 1 4 (by decide)

/-- The entry behind the two predecessors of block 2 is read. -/
theorem buildDominators_not_correct : ¬∀ (c : Graph) (fuel : ℕ), c.Reachable → c.steps < fuel →
    ∃ t, buildDominators fuel c = some (.tree t) ∧ t.Correct c := by
  intro hall
  obtain ⟨t, ht, -⟩ := hall lateJoin 60 lateJoin_reachable (by decide)
  have hrun : buildDominators 60 lateJoin = some .outside := rfl
  rw [hrun] at ht
  cases ht

end IrJit.Cfg
