import IrJit.Cfg.LoopMembers

/-!
# Cfg.LoopsSpec — headers, members and depths on reducible graphs

The walk over the blocks keeps that the loops of the headers behind it are known (`Found`); the last loop
adds one for every loop around a block, and the block's header comes before it.
-/

namespace IrJit.Cfg

open Dominance DomTable NaturalLoops

/-- Every retreating edge of the search leads to a dominator of its source. -/
def Graph.Reducible (c : Graph) (fuel : ℕ) : Prop :=
  ∀ k, times fuel c = some k → ∀ b p, p ∈ c.predecessors b → k.back p b = true →
    Dom (Edge c.predecessors) 1 b p

/-! ## Headers and members -/

section Discover

variable {c : Graph} {t : DomTree} {fuel b : ℕ} {k : Clock} {l ps : List ℕ} {s : Loops}

/-- The headers in `l` are known, with the members of their loops. -/
structure Found (c : Graph) (l : List ℕ) (s : Loops) : Prop where
  innermost : ∀ x, Innermost c (· ∈ l) x (s.loopHeader x)
  isHeader : ∀ h, s.isHeader h = true ↔ h ∈ l ∧ c.IsHead h
  loopDepth : ∀ h, s.loopDepth h = if s.isHeader h then 1 else 0
  hasLoops : s.hasLoops = true ↔ ∃ h ∈ l, c.IsHead h

theorem found_nil (c : Graph) : Found c [] Loops.empty where
  innermost _ := Or.inr ⟨rfl, fun _ hg => by cases hg⟩
  isHeader h := iff_of_false Bool.false_ne_true fun hh => by cases hh.1
  loopDepth _ := rfl
  hasLoops := iff_of_false Bool.false_ne_true fun ⟨h, hh, _⟩ => by cases hh

/-- A block that is no header. -/
theorem Found.skip (h : Found c l s) (hb : ¬c.IsHead b) : Found c (b :: l) s := by
  have hmem : ∀ g, c.IsHead g → (g ∈ b :: l ↔ g ∈ l) := by
    intro g hg
    rw [List.mem_cons]
    exact or_iff_right fun heq => hb (heq ▸ hg)
  refine ⟨fun x => ?_, fun g => ?_, h.loopDepth, ?_⟩
  · rcases h.innermost x with ⟨hne, ⟨hl, hin, hnex⟩, hall⟩ | ⟨hzero, hall⟩
    · exact Or.inl ⟨hne, ⟨List.mem_cons_of_mem b hl, hin, hnex⟩, fun g hg hgx hgne =>
        hall g ((hmem g hgx.isHead).1 hg) hgx hgne⟩
    · exact Or.inr ⟨hzero, fun g hg hgx => hall g ((hmem g hgx.isHead).1 hg) hgx⟩
  · rw [h.isHeader g]
    exact and_congr_left fun hg => (hmem g hg).symm
  · rw [h.hasLoops]
    exact exists_congr fun g => and_congr_left fun hg => (hmem g hg).symm

/-- A header with the members of its loop. -/
theorem Found.add {T : ℕ → ℕ} (h : Found c l s) (hb : c.IsHead b)
    (hT : ∀ x, Innermost c (· ∈ b :: l) x (T x)) :
    Found c (b :: l) { (s.mark b) with loopHeader := T, hasLoops := true } := by
  refine ⟨hT, fun g => ?_, fun g => ?_, iff_of_true rfl ⟨b, List.mem_cons_self, hb⟩⟩
  · show Function.update s.isHeader b true g = true ↔ g ∈ b :: l ∧ c.IsHead g
    by_cases hg : g = b
    · rw [hg, Function.update_self]
      exact iff_of_true rfl ⟨List.mem_cons_self, hb⟩
    · rw [Function.update_of_ne hg, h.isHeader, List.mem_cons, or_iff_right hg]
  · show Function.update s.loopDepth b 1 g = if Function.update s.isHeader b true g then 1 else 0
    by_cases hg : g = b
    · rw [hg, Function.update_self, Function.update_self, if_pos rfl]
    · rw [Function.update_of_ne hg, Function.update_of_ne hg, h.loopDepth]

section Spec

variable (hr : c.Reachable) (ht : t.Correct c) (hf : c.blocksCount < fuel)

include hr ht hf

/-- The sources of the back edges are collected. -/
theorem backEdges_spec (hps : ∀ p ∈ ps, c.Block p)
    (hred : ∀ p ∈ ps, k.back p b = true → Dom (Edge c.predecessors) 1 b p) {w : Work}
    (hw : w.visited = w.list) (hnd : w.list.Nodup) :
    ∃ w', backEdges fuel t k b ps w = some (.loop w') ∧ w'.visited = w'.list ∧ w'.list.Nodup ∧
      ∀ p, p ∈ w'.list ↔ p ∈ w.list ∨ p ∈ ps ∧ k.back p b = true := by
  induction ps generalizing w with
  | nil => exact ⟨w, rfl, hw, hnd, fun p => by simp⟩
  | cons p ps ih =>
    have hps' : ∀ q ∈ ps, c.Block q := fun q hq => hps q (List.mem_cons_of_mem p hq)
    have hred' : ∀ q ∈ ps, k.back q b = true → Dom (Edge c.predecessors) 1 b q := fun q hq =>
      hred q (List.mem_cons_of_mem p hq)
    rw [backEdges]
    by_cases hback : k.back p b = true
    · have hp := hps p List.mem_cons_self
      have hdepth := depth_lt ht hr hp
      obtain ⟨r, hdom, hiff⟩ := dominates_eq (d := b) ht hr hp (show t.domDepth p < fuel by omega)
      rw [if_pos hback, hdom, Option.bind_some, if_pos (hiff.2 (hred p List.mem_cons_self hback))]
      have hclear : (if w.list = [] then ⟨[], []⟩ else w) = w := by
        split_ifs with hnil
        · obtain ⟨list, visited⟩ := w
          dsimp only at hw hnil
          rw [hw, hnil]
        · rfl
      rw [hclear, Work.push]
      by_cases hmem : p ∈ w.visited
      · rw [if_pos hmem]
        obtain ⟨w', hw', hvis, hnd', hall⟩ := ih hps' hred' hw hnd
        refine ⟨w', hw', hvis, hnd', fun q => ?_⟩
        rw [hall, List.mem_cons]
        rw [hw] at hmem
        constructor
        · tauto
        · rintro (hq | ⟨rfl | hq, hqb⟩)
          · exact Or.inl hq
          · exact Or.inl hmem
          · exact Or.inr ⟨hq, hqb⟩
      · rw [if_neg hmem]
        rw [hw] at hmem
        obtain ⟨w', hw', hvis, hnd', hall⟩ := ih hps' hred' (w := ⟨p :: w.list, p :: w.visited⟩)
          (by rw [hw]) (List.nodup_cons.2 ⟨hmem, hnd⟩)
        refine ⟨w', hw', hvis, hnd', fun q => ?_⟩
        rw [hall, List.mem_cons, List.mem_cons]
        constructor
        · rintro ((rfl | hq) | ⟨hq, hqb⟩)
          · exact Or.inr ⟨Or.inl rfl, hback⟩
          · exact Or.inl hq
          · exact Or.inr ⟨Or.inr hq, hqb⟩
        · tauto
    · rw [if_neg hback]
      obtain ⟨w', hw', hvis, hnd', hall⟩ := ih hps' hred' hw hnd
      refine ⟨w', hw', hvis, hnd', fun q => ?_⟩
      rw [hall, List.mem_cons]
      constructor
      · tauto
      · rintro (hq | ⟨rfl | hq, hqb⟩)
        · exact Or.inl hq
        · exact absurd hqb hback
        · exact Or.inr ⟨hq, hqb⟩

omit ht hf in
/-- A header has an entry besides its back edges. -/
theorem two_predecessors (hstart : c.predecessors 1 = []) (hb : c.IsHead b) :
    (c.predecessors b).length > 1 := by
  obtain ⟨p, hp, hdom⟩ := hb
  have hne : ¬(1 : ℕ) = b := by
    rintro rfl
    have hmem : p ∈ c.predecessors 1 := hp
    rw [hstart] at hmem
    cases hmem
  obtain ⟨q, v, hedge, rfl, -, hav⟩ := exists_entry (S := fun y => y = b)
    (hr.reach (c.block_of_pred hp)) hne rfl
  by_contra hlen
  have hpos := List.length_pos_of_mem hp
  obtain ⟨z, hz⟩ := List.length_eq_one_iff.1 (show (c.predecessors v).length = 1 by omega)
  have hp' : p = z := by
    have hmem : p ∈ c.predecessors v := hp
    rwa [hz, List.mem_singleton] at hmem
  have hq' : q = z := by
    have hmem : q ∈ c.predecessors v := hedge
    rwa [hz, List.mem_singleton] at hmem
  exact hdom (by rw [hp', ← hq']; exact hav)

variable (hstart : c.predecessors 1 = [])
  (hdom : ∀ b p, c.Block p → Dom (Edge c.predecessors) 1 b p → k.back p b = true)
  (hred : ∀ b p, p ∈ c.predecessors b → k.back p b = true → Dom (Edge c.predecessors) 1 b p)

include hstart hdom hred

/-- One block more. -/
theorem discoverBlock_spec (hb : c.Block b) (hnot : b ∉ l) (hdepth : ∀ g ∈ l, t.domDepth b ≤ t.domDepth g)
    (h : Found c l s) :
    ∃ s', discoverBlock fuel c t k b ⟨s, 0, []⟩ = some ⟨s', 0, []⟩ ∧ Found c (b :: l) s' := by
  have hsettle : settle fuel c t k b ⟨s, 0, []⟩ = some ⟨s, 0, []⟩ := if_neg (Nat.not_lt_zero _)
  rw [discoverBlock, hsettle, Option.bind_some]
  by_cases hlen : (c.predecessors b).length > 1
  · obtain ⟨w, hw, hvis, hnd, hall⟩ := backEdges_spec (k := k) (b := b) hr ht hf
      (fun p hp => c.block_pred hp) (fun p hp => hred b p hp) (w := ⟨[], []⟩) rfl List.nodup_nil
    have hsource : ∀ p, p ∈ w.list ↔ BackEdge (Edge c.predecessors) 1 p b := by
      intro p
      rw [hall]
      constructor
      · rintro (hp | ⟨hp, hback⟩)
        · cases hp
        · exact ⟨hp, hred b p hp hback⟩
      · rintro ⟨hp, hd⟩
        exact Or.inr ⟨hp, hdom b p (c.block_pred hp) hd⟩
    rw [if_pos hlen, hw, Option.bind_some]
    by_cases hnil : w.list = []
    · have hhead : ¬c.IsHead b := by
        rintro ⟨p, hp⟩
        have hmem := (hsource p).2 hp
        rw [hnil] at hmem
        cases hmem
      exact ⟨s, if_pos hnil, h.skip hhead⟩
    · obtain ⟨p, hp⟩ := List.exists_mem_of_ne_nil w.list hnil
      have hhead : c.IsHead b := ⟨p, (hsource p).1 hp⟩
      have hbehind : Behind c t l b s.loopHeader := ⟨hr, ht, hb, hnot, hdepth, h.innermost⟩
      obtain ⟨T, hT, hinner⟩ := collect_spec hbehind hf hnd hsource
        (fun q => by rw [hvis]) hhead
      refine ⟨_, ?_, h.add hhead hinner⟩
      dsimp only
      rw [if_neg hnil, hT]
      rfl
  · rw [if_neg hlen]
    exact ⟨s, rfl, h.skip fun hhead => hlen (two_predecessors hr hstart hhead)⟩

theorem discover_spec (hnd : l.Nodup) (hl : ∀ x ∈ l, c.Block x)
    (hpair : l.Pairwise fun x y => t.domDepth x ≤ t.domDepth y) :
    ∃ s, discover fuel c t k l ⟨Loops.empty, 0, []⟩ = some ⟨s, 0, []⟩ ∧ Found c l s := by
  induction l with
  | nil => exact ⟨Loops.empty, rfl, found_nil c⟩
  | cons b l ih =>
    obtain ⟨hb, hnd⟩ := List.nodup_cons.1 hnd
    obtain ⟨hle, hpair⟩ := List.pairwise_cons.1 hpair
    obtain ⟨s, hs, hfound⟩ := ih hnd (fun x hx => hl x (List.mem_cons_of_mem b hx)) hpair
    rw [discover, hs, Option.bind_some]
    exact discoverBlock_spec hr ht hf hstart hdom hred (hl b List.mem_cons_self) hb hle hfound

end Spec

end Discover

/-! ## Depths -/

section Propagate

variable {c : Graph} {fuel b x : ℕ} {l : List ℕ} {s : Loops}

/-- The loop for the enclosing loops ends in its second round: it has flagged the one it started at. -/
theorem flagEnclosing_eq {header depth : ℕ → ℕ} {loop : ℕ} {flags : ℕ → Bool} (hf : 2 ≤ fuel) :
    flagEnclosing header depth loop fuel (header loop) flags =
      some (Function.update flags (header loop) true) := by
  obtain ⟨m, rfl⟩ : ∃ m, fuel = m + 2 := ⟨fuel - 2, by omega⟩
  rw [flagEnclosing]
  by_cases hflag : flags (header loop) = true
  · have hself := Function.update_eq_self (header loop) flags
    rw [hflag] at hself
    rw [if_pos hflag, hself]
  · rw [if_neg hflag]
    split_ifs with hone
    · rfl
    · rw [flagEnclosing, if_pos (Function.update_self _ _ _)]

/-- What the last loop makes of block `b`. -/
def Loops.propagated (s : Loops) (c : Graph) (b : ℕ) : Loops :=
  if s.loopHeader b > 0 then
    let depth := s.loopDepth (s.loopHeader b) + if s.isHeader b then 1 else 0
    let flags := Function.update s.withEntry (s.loopHeader b) true
    { s with
      loopDepth := Function.update s.loopDepth b depth
      withEntry :=
        if c.isEntry b || s.withEntry b then
          if depth > 1 then Function.update flags (s.loopHeader (s.loopHeader b)) true else flags
        else s.withEntry }
  else s

theorem propagateBlock_eq (hf : 2 ≤ fuel) (b : ℕ) (s : Loops) :
    propagateBlock fuel c b s = some (s.propagated c b) := by
  unfold propagateBlock Loops.propagated
  by_cases hb : s.loopHeader b > 0
  · rw [if_pos hb, if_pos hb]
    dsimp only
    by_cases he : (c.isEntry b || s.withEntry b) = true
    · rw [if_pos he, if_pos he]
      by_cases hd : (s.loopDepth (s.loopHeader b) + if s.isHeader b then 1 else 0) > 1
      · rw [if_pos hd, if_pos hd, flagEnclosing_eq hf]
        rfl
      · rw [if_neg hd, if_neg hd]
    · rw [if_neg he, if_neg he]
  · rw [if_neg hb, if_neg hb]

theorem propagate_eq (hf : 2 ≤ fuel) (l : List ℕ) (s : Loops) :
    propagate fuel c l s = some (l.foldl (fun s b => s.propagated c b) s) := by
  induction l generalizing s with
  | nil => rfl
  | cons b l ih =>
    rw [propagate, propagateBlock_eq hf, Option.bind_some]
    exact ih _

@[simp] theorem propagated_loopHeader : (s.propagated c b).loopHeader = s.loopHeader := by
  unfold Loops.propagated
  split_ifs <;> rfl

@[simp] theorem propagated_isHeader : (s.propagated c b).isHeader = s.isHeader := by
  unfold Loops.propagated
  split_ifs <;> rfl

theorem propagated_loopDepth (s : Loops) (c : Graph) (b : ℕ) : (s.propagated c b).loopDepth =
    if s.loopHeader b > 0 then
      Function.update s.loopDepth b (s.loopDepth (s.loopHeader b) + if s.isHeader b then 1 else 0)
    else s.loopDepth := by
  unfold Loops.propagated
  split_ifs <;> rfl

theorem foldl_fields (l : List ℕ) (s : Loops) :
    (l.foldl (fun s b => s.propagated c b) s).loopHeader = s.loopHeader ∧
      (l.foldl (fun s b => s.propagated c b) s).isHeader = s.isHeader := by
  induction l generalizing s with
  | nil => exact ⟨rfl, rfl⟩
  | cons b l ih =>
    obtain ⟨hh, hi⟩ := ih (s.propagated c b)
    exact ⟨hh.trans propagated_loopHeader, hi.trans propagated_isHeader⟩

/-- The headers of the loops around a block. -/
def Graph.headers (c : Graph) (x : ℕ) : Set ℕ := {h | c.InLoop h x}

theorem headers_finite (c : Graph) (x : ℕ) : (c.headers x).Finite :=
  (Set.finite_Icc 1 c.blocksCount).subset fun _ hh => hh.header_block

theorem mem_headers {h : ℕ} : h ∈ c.headers x ↔ c.InLoop h x := Iff.rfl

/-- The loops around a block are those around the header of the innermost other one, and its own. -/
theorem card_headers {v : ℕ} (hr : c.Reachable) (hv : Innermost c (fun _ => True) x v) :
    (c.headers x).ncard = (if v = 0 then 0 else (c.headers v).ncard) +
      Set.ncard {h | h = x ∧ c.IsHead x} := by
  have hown : ({h | h = x ∧ c.IsHead x} : Set ℕ).Finite := (Set.finite_singleton x).subset fun h hh => hh.1
  rcases hv with ⟨hne, ⟨-, hin, hnex⟩, hall⟩ | ⟨rfl, hall⟩
  · have hunion : c.headers x = c.headers v ∪ {h | h = x ∧ c.IsHead x} := by
      ext h
      rw [Set.mem_union, mem_headers, mem_headers, Set.mem_ofPred_eq]
      constructor
      · intro hh
        by_cases hx : h = x
        · exact Or.inr ⟨hx, hx ▸ hh.isHead⟩
        · exact Or.inl (hall h trivial hh hx)
      · rintro (hh | ⟨rfl, hh⟩)
        · exact hh.trans hr hin
        · exact hh.inLoop
    have hdisj : Disjoint (c.headers v) {h | h = x ∧ c.IsHead x} := by
      refine Set.disjoint_left.2 fun h hh hx => hnex ?_
      rw [mem_headers, hx.1] at hh
      exact hin.antisymm hr hh
    rw [if_neg hne, hunion, Set.ncard_union_eq hdisj (headers_finite c v) hown]
  · have heq : c.headers x = {h | h = x ∧ c.IsHead x} := by
      ext h
      rw [mem_headers, Set.mem_ofPred_eq]
      constructor
      · intro hh
        have hx := hall h trivial hh
        exact ⟨hx, hx ▸ hh.isHead⟩
      · rintro ⟨rfl, hh⟩
        exact hh.inLoop
    rw [if_pos rfl, heq, Nat.zero_add]

theorem ncard_own (x : ℕ) (b : Bool) (hb : b = true ↔ c.IsHead x) :
    Set.ncard {h | h = x ∧ c.IsHead x} = if b then 1 else 0 := by
  cases b with
  | true =>
    have heq : {h | h = x ∧ c.IsHead x} = {x} := by
      ext h
      exact and_iff_left (hb.1 rfl)
    rw [heq, Set.ncard_singleton, if_pos rfl]
  | false =>
    have heq : {h | h = x ∧ c.IsHead x} = (∅ : Set ℕ) := by
      ext h
      exact iff_of_false (fun hh => Bool.false_ne_true (hb.2 hh.2)) id
    rw [heq, Set.ncard_empty, if_neg Bool.false_ne_true]

/-- The depth of a block is known when it has been taken. -/
theorem propagate_depth {t : DomTree} (hr : c.Reachable) (ht : t.Correct c) (hnd : l.Nodup)
    (hpair : l.Pairwise fun x y => t.domDepth x ≤ t.domDepth y) (hl : ∀ x ∈ l, c.Block x)
    (hinner : ∀ x, Innermost c (fun _ => True) x (s.loopHeader x))
    (hhead : ∀ h, s.isHeader h = true ↔ c.IsHead h)
    (hin : ∀ x ∈ l, s.loopDepth x = if s.isHeader x then 1 else 0)
    (hout : ∀ x, c.Block x → x ∉ l → s.loopDepth x = (c.headers x).ncard) :
    ∀ x, c.Block x → (l.foldl (fun s b => s.propagated c b) s).loopDepth x = (c.headers x).ncard := by
  induction l generalizing s with
  | nil => exact fun x hx => hout x hx List.not_mem_nil
  | cons b l ih =>
    obtain ⟨hb, hnd⟩ := List.nodup_cons.1 hnd
    obtain ⟨hle, hpair⟩ := List.pairwise_cons.1 hpair
    have hcard := card_headers hr (hinner b)
    rw [ncard_own b _ (hhead b)] at hcard
    -- the header of `b` has been taken before it
    have hval : (s.propagated c b).loopDepth b = (c.headers b).ncard := by
      rw [propagated_loopDepth, hcard]
      rcases hinner b with ⟨hne, ⟨-, hvb, hvne⟩, -⟩ | ⟨hzero, -⟩
      · have hlt := depth_lt_of_dom ht hr (hl b List.mem_cons_self) hvb.dom hvne
        have hnot : s.loopHeader b ∉ b :: l := by
          intro hmem
          rcases List.mem_cons.1 hmem with heq | hmem
          · exact hvne heq
          · have := hle _ hmem
            omega
        rw [if_pos (by omega), Function.update_self, if_neg hne, hout _ hvb.header_block hnot]
      · rw [if_neg (by omega), if_pos hzero, Nat.zero_add]
        exact hin b List.mem_cons_self
    have hother : ∀ x, x ≠ b → (s.propagated c b).loopDepth x = s.loopDepth x := by
      intro x hx
      rw [propagated_loopDepth]
      by_cases hb' : s.loopHeader b > 0
      · rw [if_pos hb', Function.update_of_ne hx]
      · rw [if_neg hb']
    refine ih hnd hpair (fun x hx => hl x (List.mem_cons_of_mem b hx)) (fun x => ?_) (fun h => ?_)
      (fun x hx => ?_) fun x hx hxl => ?_
    · rw [propagated_loopHeader]
      exact hinner x
    · rw [propagated_isHeader]
      exact hhead h
    · rw [propagated_isHeader, hother x fun heq => hb (heq ▸ hx)]
      exact hin x (List.mem_cons_of_mem b hx)
    · by_cases hxb : x = b
      · rw [hxb]
        exact hval
      · rw [hother x hxb]
        exact hout x hx fun hmem => (List.mem_cons.1 hmem).elim hxb hxl

end Propagate

/-! ## `ir_find_loops` -/

section Find

variable {c : Graph} {t : DomTree} {fuel : ℕ}

/-- Without retreating edges there is no back edge. -/
theorem not_isHead_of_forward (hr : c.Reachable) (hstart : c.predecessors 1 = []) (hfw : c.Forward) (h : ℕ) :
    ¬c.IsHead h := by
  have hlt : ∀ b p, p ∈ c.predecessors b → p < b := by
    intro b p hp
    by_cases hb : b = 1
    · rw [hb, hstart] at hp
      cases hp
    · have := (c.block_of_pred hp).1
      exact hfw b p hp (by omega)
  rintro ⟨p, hp, hdom⟩
  have hph : p < h := hlt h p hp
  have hpath := hr.reach (c.block_pred hp)
  apply hdom
  clear hdom hp
  induction hpath with
  | refl => exact ⟨by omega, Relation.ReflTransGen.refl⟩
  | @tail u v _ hstep ih => exact (ih (by have := hlt v u hstep; omega)).step hstep (by omega)

/-- The walk over the blocks of a reducible graph knows all loops. -/
theorem discover_all (hr : c.Reachable) (hstart : c.predecessors 1 = []) (hf : c.steps < fuel)
    (hbuilt : t.Built c) (hno : t.noLoops = false) (hred : c.Reducible fuel) :
    ∃ k sorted s, times fuel c = some k ∧ sortBlocks fuel t fuel [1] = some sorted ∧
      discover fuel c t k sorted ⟨Loops.empty, 0, []⟩ = some ⟨s, 0, []⟩ ∧
      (sorted.Nodup ∧ (∀ x, x ∈ sorted ↔ c.Block x) ∧
        sorted.Pairwise fun x y => t.domDepth x ≤ t.domDepth y) ∧ Found c sorted s := by
  have hfn : c.blocksCount < fuel := by
    unfold Graph.steps at hf
    omega
  have h2 := hbuilt.two_le hno
  obtain ⟨k, hk, hdom⟩ := times_spec hr (by omega) hf
  obtain ⟨sorted, hsort, hnd, hmem, hpair⟩ := sortBlocks_spec hbuilt.toCorrect hr (by omega) hfn
  obtain ⟨s, hs, hfound⟩ := discover_spec hr hbuilt.toCorrect hfn hstart hdom (hred k hk) hnd
    (fun x hx => (hmem x).1 hx) hpair
  exact ⟨k, sorted, s, hk, hsort, hs, ⟨hnd, hmem, hpair⟩, hfound⟩

/-- When all blocks are behind, all headers are known. -/
theorem Found.isHead_iff {s : Loops} {sorted : List ℕ} (h : Found c sorted s)
    (hmem : ∀ x, x ∈ sorted ↔ c.Block x) (g : ℕ) : s.isHeader g = true ↔ c.IsHead g := by
  rw [h.isHeader]
  refine and_iff_right_of_imp fun hh => (hmem g).2 ?_
  exact Graph.InLoop.block hh.inLoop

theorem Found.inner {s : Loops} {sorted : List ℕ} (h : Found c sorted s)
    (hmem : ∀ x, x ∈ sorted ↔ c.Block x) (x : ℕ) : Innermost c (fun _ => True) x (s.loopHeader x) := by
  rcases h.innermost x with ⟨hne, ⟨-, hin, hnex⟩, hall⟩ | ⟨hzero, hall⟩
  · exact Or.inl ⟨hne, ⟨trivial, hin, hnex⟩, fun g _ hg => hall g ((hmem g).2 hg.header_block) hg⟩
  · exact Or.inr ⟨hzero, fun g _ hg => hall g ((hmem g).2 hg.header_block) hg⟩

/-- On a graph whose retreating edges lead to dominators of their sources `ir_find_loops` finds the targets
of the back edges, the innermost other loop around every block, and the number of loops around it. -/
theorem findLoops_exact (c : Graph) (t : DomTree) (fuel : ℕ) (hr : c.Reachable)
    (hstart : c.predecessors 1 = []) (hf : c.steps < fuel) (ht : buildDominators fuel c = some (.tree t))
    (hred : c.Reducible fuel) :
    ∃ s, findLoops fuel c t = some s ∧ ∀ b, c.Block b →
      (s.isHeader b = true ↔ c.IsHead b) ∧ Innermost c (fun _ => True) b (s.loopHeader b) ∧
        s.loopDepth b = {h | c.InLoop h b}.ncard := by
  have hbuilt := built_of_eq hr hf ht
  have hfn : 2 ≤ fuel := by
    have hsteps : 4 * c.blocksCount + 2 ≤ c.steps := by
      unfold Graph.steps
      omega
    omega
  have hnone : (∀ h, ¬c.IsHead h) → ∀ b, (c.headers b).ncard = 0 := by
    intro hno b
    have hempty : c.headers b = ∅ := by
      ext h
      exact iff_of_false (fun hh => hno h hh.isHead) id
    rw [hempty, Set.ncard_empty]
  rw [findLoops]
  by_cases hno : t.noLoops = true
  · rw [if_pos hno]
    have hhead := not_isHead_of_forward hr hstart (hbuilt.forward hno)
    refine ⟨Loops.empty, rfl, fun b hb => ⟨iff_of_false Bool.false_ne_true (hhead b), ?_, ?_⟩⟩
    · exact Or.inr ⟨rfl, fun g _ hg => absurd hg.isHead (hhead g)⟩
    · exact (hnone hhead b).symm
  · obtain ⟨k, sorted, s, hk, hsort, hs, ⟨hnd, hmem, hpair⟩, hfound⟩ :=
      discover_all hr hstart hf hbuilt (Bool.eq_false_iff.2 hno) hred
    rw [if_neg hno]
    simp only [hk, hsort, hs, Option.bind_eq_bind, Option.bind_some]
    by_cases hloops : s.hasLoops = true
    · rw [if_pos hloops, propagate_eq hfn]
      obtain ⟨hh, hi⟩ := foldl_fields (c := c) sorted s
      refine ⟨_, rfl, fun b hb => ⟨?_, ?_, ?_⟩⟩
      · rw [hi]
        exact hfound.isHead_iff hmem b
      · rw [hh]
        exact hfound.inner hmem b
      · exact propagate_depth hr hbuilt.toCorrect hnd hpair (fun x hx => (hmem x).1 hx) (hfound.inner hmem)
          (hfound.isHead_iff hmem) (fun x _ => hfound.loopDepth x)
          (fun x hx hxl => absurd ((hmem x).2 hx) hxl) b hb
    · rw [if_neg hloops]
      have hno' : ∀ h, ¬c.IsHead h := fun h hh =>
        hloops (hfound.hasLoops.2 ⟨h, (hmem h).2 (Graph.InLoop.block hh.inLoop), hh⟩)
      refine ⟨s, rfl, fun b hb => ⟨hfound.isHead_iff hmem b, hfound.inner hmem b, ?_⟩⟩
      rw [hfound.loopDepth, if_neg fun hb => hno' b ((hfound.isHead_iff hmem b).1 hb)]
      exact (hnone hno' b).symm

/-- Three loops, one inside the other: those of blocks 2, 3 and 4; block 5 is an `ENTRY` in all of them. -/
def nest : Graph where
  blocksCount := 6
  predecessors
    | 2 => [1, 6]
    | 3 => [2, 6]
    | 4 => [3, 5]
    | 5 => [4]
    | 6 => [5]
    | _ => []
  successors
    | 1 => [2]
    | 2 => [3]
    | 3 => [4]
    | 4 => [5]
    | 5 => [4, 6]
    | 6 => [3, 2]
    | _ => []
  isEntry b := b == 5
  pred_range := by
    intro b p hp
    split at hp <;> simp at hp <;> omega
  mem_successors := by
    intro p b
    constructor
    · intro h
      split at h <;> simp at h <;> rcases h with rfl | rfl <;> simp
    · intro h
      split at h <;> simp at h <;> rcases h with rfl | rfl <;> simp
  entry_pred := by
    intro b hb
    obtain rfl := eq_of_beq hb
    exact le_rfl

theorem nest_edge {u v : ℕ} (h : u ∈ nest.predecessors v) : v ≤ u + 1 := by
  simp only [nest] at h
  split at h <;> simp at h <;> omega

theorem nest_reachable : nest.Reachable := by
  intro b h1 hn
  have hstep : ∀ u, u ∈ nest.predecessors (u + 1) →
      Relation.ReflTransGen (fun u v => v ∈ nest.successors u) 1 u →
      Relation.ReflTransGen (fun u v => v ∈ nest.successors u) 1 (u + 1) :=
    fun u hu h => h.tail ((nest.mem_successors _ _).2 hu)
  have h2 := hstep 1 (by decide) Relation.ReflTransGen.refl
  have h3 := hstep 2 (by decide) h2
  have h4 := hstep 3 (by decide) h3
  have h5 := hstep 4 (by decide) h4
  have h6 := hstep 5 (by decide) h5
  have hb : b = 1 ∨ b = 2 ∨ b = 3 ∨ b = 4 ∨ b = 5 ∨ b = 6 := by
    simp only [nest] at hn
    omega
  rcases hb with rfl | rfl | rfl | rfl | rfl | rfl
  · exact Relation.ReflTransGen.refl
  · exact h2
  · exact h3
  · exact h4
  · exact h5
  · exact h6

/-- The blocks of the nest can only be reached in their order. -/
theorem nest_dom {d b : ℕ} (h1 : 1 ≤ d) (hdb : d ≤ b) : Dom (Edge nest.predecessors) 1 d b := by
  rintro ⟨hne, hpath⟩
  have hlt : ∀ z, Relation.ReflTransGen (fun x y => Edge nest.predecessors x y ∧ y ≠ d) 1 z → z < d := by
    intro z hz
    induction hz with
    | refl => omega
    | @tail u v _ hstep ih =>
      have := nest_edge hstep.1
      have := hstep.2
      omega
  have := hlt b hpath
  omega

theorem nest_reducible : nest.Reducible 80 := by
  intro k hk b p hp hback
  have hedge := nest_edge hp
  by_cases hbp : b ≤ p
  · exact nest_dom (nest.block_of_pred hp).1 hbp
  · -- the edges of the spanning tree
    have htree : (times 80 nest).map (fun k => [1, 2, 3, 4, 5].map fun u => k.back u (u + 1)) =
        some [false, false, false, false, false] := rfl
    rw [hk, Option.map_some, Option.some.injEq] at htree
    simp only [List.map_cons, List.map_nil, List.cons.injEq] at htree
    obtain ⟨h1, h2, h3, h4, h5, -⟩ := htree
    obtain rfl : b = p + 1 := by omega
    obtain ⟨hp1, -⟩ := nest.block_pred hp
    have hp6 : p + 1 ≤ 6 := (nest.block_of_pred hp).2
    obtain rfl | rfl | rfl | rfl | rfl : p = 1 ∨ p = 2 ∨ p = 3 ∨ p = 4 ∨ p = 5 := by omega
    · exact absurd hback (by rw [h1]; exact Bool.false_ne_true)
    · exact absurd hback (by rw [h2]; exact Bool.false_ne_true)
    · exact absurd hback (by rw [h3]; exact Bool.false_ne_true)
    · exact absurd hback (by rw [h4]; exact Bool.false_ne_true)
    · exact absurd hback (by rw [h5]; exact Bool.false_ne_true)

theorem findLoops_exact_nest : ∃ t s, buildDominators 80 nest = some (.tree t) ∧
    findLoops 80 nest t = some s ∧ ∀ b, nest.Block b →
      (s.isHeader b = true ↔ nest.IsHead b) ∧ Innermost nest (fun _ => True) b (s.loopHeader b) ∧
        s.loopDepth b = {h | nest.InLoop h b}.ncard := by
  obtain ⟨t, ht⟩ : ∃ t, buildDominators 80 nest = some (.tree t) := ⟨_, rfl⟩
  obtain ⟨s, hs, hall⟩ := findLoops_exact nest t 80 nest_reachable rfl (by decide) ht nest_reducible
  exact ⟨t, s, ht, hs, hall⟩

end Find

end IrJit.Cfg
