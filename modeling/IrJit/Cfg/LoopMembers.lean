import IrJit.Cfg.LoopOrder
import IrJit.Lib.NaturalLoops

/-!
# Cfg.LoopMembers — the members of a reducible loop

When the loops of the blocks behind a header are known, the walk from the sources of its back edges skips
inner loops: it goes on at the header of the outermost of them.  `Innermost` says what `loop_header` is;
`collect_spec` says that the walk makes it so for one more header.
-/

namespace IrJit.Cfg

open Dominance DomTable NaturalLoops

/-- `x` belongs to the natural loop of `h`. -/
abbrev Graph.InLoop (c : Graph) (h x : ℕ) : Prop := NaturalLoops.InLoop (Edge c.predecessors) 1 h x

/-- `h` is the target of a back edge. -/
abbrev Graph.IsHead (c : Graph) (h : ℕ) : Prop := NaturalLoops.IsHead (Edge c.predecessors) 1 h

/-- `v` is the header of the innermost of the loops that hold `x` and have another header from `P`; it is 0
if there is none. -/
def Innermost (c : Graph) (P : ℕ → Prop) (x v : ℕ) : Prop :=
  (v ≠ 0 ∧ (P v ∧ c.InLoop v x ∧ v ≠ x) ∧ ∀ g, P g → c.InLoop g x → g ≠ x → c.InLoop g v) ∨
    (v = 0 ∧ ∀ g, P g → c.InLoop g x → g = x)

section Blocks

variable {c : Graph} {g h x y : ℕ}

theorem Graph.InLoop.block (hx : c.InLoop h x) : c.Block x := by
  obtain ⟨p, hp, rfl | ⟨-, hpath⟩⟩ := hx
  · exact c.block_of_pred hp.1
  · rcases Relation.ReflTransGen.cases_head hpath with rfl | ⟨y, hstep, -⟩
    · exact c.block_pred hp.1
    · exact c.block_pred hstep.1

theorem Graph.InLoop.header_block (hx : c.InLoop h x) : c.Block h := by
  obtain ⟨p, hp, -⟩ := hx
  exact c.block_of_pred hp.1

variable (hr : c.Reachable)

include hr

theorem Graph.Reachable.member : ∀ z, c.InLoop h z → Relation.ReflTransGen (Edge c.predecessors) 1 z :=
  fun _ hz => hr.reach hz.block

theorem Graph.InLoop.trans (hgh : c.InLoop g h) (hhy : c.InLoop h y) : c.InLoop g y :=
  NaturalLoops.InLoop.trans hr.member hgh hhy

theorem Graph.InLoop.antisymm (hgh : c.InLoop g h) (hhg : c.InLoop h g) : g = h :=
  hgh.dom.antisymm (hr.reach hgh.block) hhg.dom

/-- One of two headers around a block is around the other one. -/
theorem Graph.InLoop.total (hgx : c.InLoop g x) (hhx : c.InLoop h x) : c.InLoop g h ∨ c.InLoop h g :=
  (hgx.dom.total (hr.reach hgx.block) hhx.dom).imp
    (fun hdom => InLoop.around hr.member hgx hhx hdom) fun hdom => InLoop.around hr.member hhx hgx hdom

end Blocks

/-! ## The loops that are known -/

/-- The headers behind `hdr` in the order of the walk are known, with their members. -/
structure Behind (c : Graph) (t : DomTree) (l : List ℕ) (hdr : ℕ) (H : ℕ → ℕ) : Prop where
  reachable : c.Reachable
  correct : t.Correct c
  block : c.Block hdr
  not_mem : hdr ∉ l
  depth_le : ∀ g ∈ l, t.domDepth hdr ≤ t.domDepth g
  innermost : ∀ x, Innermost c (· ∈ l) x (H x)

/-- `w` is the header of the outermost loop around `x`. -/
def Top (c : Graph) (l : List ℕ) (H : ℕ → ℕ) (w x : ℕ) : Prop :=
  w ∈ l ∧ c.InLoop w x ∧ w ≠ x ∧ H w = 0

section Tops

variable {c : Graph} {t : DomTree} {l : List ℕ} {hdr : ℕ} {H : ℕ → ℕ} {g v w w' x : ℕ} (hk : Behind c t l hdr H)

include hk

theorem Behind.of_ne (hx : H x ≠ 0) : H x ∈ l ∧ c.InLoop (H x) x ∧ H x ≠ x := by
  rcases hk.innermost x with ⟨-, h, -⟩ | ⟨h, -⟩
  · exact h
  · exact absurd h hx

theorem Behind.of_eq (hx : H x = 0) (hg : g ∈ l) (hgx : c.InLoop g x) : g = x := by
  rcases hk.innermost x with ⟨h, -⟩ | ⟨-, h⟩
  · exact absurd hx h
  · exact h g hg hgx

/-- The new header is in no loop that is known. -/
theorem Behind.not_inLoop (hg : g ∈ l) : ¬c.InLoop g hdr := by
  intro h
  have hne : g ≠ hdr := fun heq => hk.not_mem (heq ▸ hg)
  have hlt := depth_lt_of_dom hk.correct hk.reachable hk.block h.dom hne
  have hle := hk.depth_le g hg
  omega

theorem Behind.header_hdr : H hdr = 0 := by
  by_contra hne
  have h := hk.of_ne hne
  exact hk.not_inLoop h.1 h.2.1

/-- A known loop that shares a block with the new one lies in it. -/
theorem Behind.inner (hx : c.InLoop hdr x) (hg : g ∈ l) (hgx : c.InLoop g x) : c.InLoop hdr g :=
  (hx.total hk.reachable hgx).resolve_right (hk.not_inLoop hg)

theorem Behind.ne_zero_of_top (h : Top c l H w x) : H x ≠ 0 := fun hx =>
  h.2.2.1 (hk.of_eq hx h.1 h.2.1)

theorem Behind.top_unique (h : Top c l H w x) (h' : Top c l H w' x) : w = w' := by
  rcases h.2.1.total hk.reachable h'.2.1 with hin | hin
  · exact hk.of_eq h'.2.2.2 h.1 hin
  · exact (hk.of_eq h.2.2.2 h'.1 hin).symm

/-- The outermost loop around a loop is around its members. -/
theorem Behind.top_trans (hgx : c.InLoop g x) (hne : g ≠ x) (h : Top c l H w g) : Top c l H w x := by
  refine ⟨h.1, h.2.1.trans hk.reachable hgx, fun heq => ?_, h.2.2.2⟩
  subst heq
  exact hne (hgx.antisymm hk.reachable h.2.1)

/-- The headers of the loops around a block are higher up. -/
theorem Behind.depth_lt (hx : H x ≠ 0) : t.domDepth (H x) < t.domDepth x := by
  obtain ⟨-, hin, hne⟩ := hk.of_ne hx
  exact depth_lt_of_dom hk.correct hk.reachable hin.block hin.dom hne

theorem Behind.exists_top (hx : H x ≠ 0) : ∃ w, Top c l H w x := by
  induction hm : t.domDepth x using Nat.strong_induction_on generalizing x with
  | _ m ih =>
    obtain ⟨hg, hin, hne⟩ := hk.of_ne hx
    by_cases hzero : H (H x) = 0
    · exact ⟨H x, hg, hin, hne, hzero⟩
    · obtain ⟨w, hw⟩ := ih _ (hm ▸ hk.depth_lt hx) hzero rfl
      exact ⟨w, hk.top_trans hin hne hw⟩

end Tops

/-! ## The walk -/

section Walk

variable {c : Graph} {t : DomTree} {l : List ℕ} {hdr : ℕ} {H T : ℕ → ℕ} {fuel k b q x : ℕ} {list V : List ℕ}

/-- The blocks that have been taken from the list have got their header. -/
def Assigned (hdr : ℕ) (H : ℕ → ℕ) (w : Work) (T : ℕ → ℕ) : Prop :=
  ∀ x, T x = if H x = 0 ∧ (x ∈ w.visited ∧ x ∉ w.list) ∧ x ≠ hdr then hdr else H x

/-- The worklist holds members of the loop. -/
structure Pending (c : Graph) (hdr : ℕ) (w : Work) : Prop where
  sub : ∀ x ∈ w.list, x ∈ w.visited
  nodup : w.list.Nodup
  root : hdr ∈ w.visited
  member : ∀ x ∈ w.visited, c.InLoop hdr x

/-- The predecessor `q` of `x` has been looked at. -/
def Seen (c : Graph) (l : List ℕ) (H : ℕ → ℕ) (V : List ℕ) (x q : ℕ) : Prop :=
  q ∈ V ∨ H q = x ∨ ∃ w ∈ V, Top c l H w q

/-- What the walk keeps. -/
structure Collecting (c : Graph) (l : List ℕ) (hdr : ℕ) (H T : ℕ → ℕ) (w : Work) : Prop extends
    Pending c hdr w where
  marked : Assigned hdr H w T
  closed : ∀ x ∈ w.visited, x ∉ w.list → x ≠ hdr → ∀ q ∈ c.predecessors x, Seen c l H w.visited x q

/-- The blocks that may still be taken. -/
def Work.potential (n : ℕ) (w : Work) : ℕ := w.list.length + (n - w.visited.toFinset.card)

/-- `w'` is `w` with blocks pushed. -/
structure Pushed (n : ℕ) (w w' : Work) : Prop where
  visited : ∀ x ∈ w.visited, x ∈ w'.visited
  taken : ∀ x, x ∈ w'.visited ∧ x ∉ w'.list ↔ x ∈ w.visited ∧ x ∉ w.list
  potential : w'.potential n = w.potential n

theorem Pushed.refl (n : ℕ) (w : Work) : Pushed n w w := ⟨fun _ h => h, fun _ => Iff.rfl, rfl⟩

theorem Pushed.trans {n : ℕ} {w₁ w₂ w₃ : Work} (h : Pushed n w₁ w₂) (h' : Pushed n w₂ w₃) : Pushed n w₁ w₃ :=
  ⟨fun x hx => h'.visited x (h.visited x hx), fun x => (h'.taken x).trans (h.taken x),
    h'.potential.trans h.potential⟩

/-- A new member is pushed. -/
theorem Pending.push {w : Work} (hp : Pending c hdr w) (hq : q ∉ w.visited) (hin : c.InLoop hdr q) :
    Pending c hdr ⟨q :: w.list, q :: w.visited⟩ ∧ Pushed c.blocksCount w ⟨q :: w.list, q :: w.visited⟩ := by
  have hnot : q ∉ w.list := fun h => hq (hp.sub q h)
  refine ⟨⟨fun x hx => ?_, List.nodup_cons.2 ⟨hnot, hp.nodup⟩, List.mem_cons_of_mem q hp.root,
    fun x hx => ?_⟩, fun x hx => List.mem_cons_of_mem q hx, fun x => ?_, ?_⟩
  · rcases List.mem_cons.1 hx with rfl | hx
    · exact List.mem_cons_self
    · exact List.mem_cons_of_mem q (hp.sub x hx)
  · rcases List.mem_cons.1 hx with rfl | hx
    · exact hin
    · exact hp.member x hx
  · show (x ∈ q :: w.visited ∧ x ∉ q :: w.list) ↔ x ∈ w.visited ∧ x ∉ w.list
    rw [List.mem_cons, List.mem_cons, not_or]
    constructor
    · rintro ⟨rfl | hx, hne, hx'⟩
      · exact absurd rfl hne
      · exact ⟨hx, hx'⟩
    · rintro ⟨hx, hx'⟩
      exact ⟨Or.inr hx, fun heq => hq (heq ▸ hx), hx'⟩
  · have hsub : insert q w.visited.toFinset ⊆ Finset.Icc 1 c.blocksCount := by
      intro x hx
      rcases Finset.mem_insert.1 hx with rfl | hx
      · exact Finset.mem_Icc.2 hin.block
      · exact Finset.mem_Icc.2 (hp.member x (List.mem_toFinset.1 hx)).block
    have hcard := Finset.card_le_card hsub
    rw [Finset.card_insert_of_notMem (fun h => hq (List.mem_toFinset.1 h)), Nat.card_Icc] at hcard
    unfold Work.potential
    dsimp only
    rw [List.toFinset_cons, Finset.card_insert_of_notMem (fun h => hq (List.mem_toFinset.1 h)),
      List.length_cons]
    omega

variable (hk : Behind c t l hdr H)

include hk

/-- The way up ends at the outermost header, or at the new one if that has been taken already. -/
theorem outermost_spec {w : Work} (hT : Assigned hdr H w T) (hq : H q ≠ 0) (hf : t.domDepth q < fuel) :
    ∃ o, Top c l H o q ∧
      (outermost T fuel q = some o ∨ outermost T fuel q = some hdr ∧ o ∈ w.visited) := by
  induction fuel generalizing q with
  | zero => omega
  | succ fuel ih =>
    obtain ⟨hg, hin, hne⟩ := hk.of_ne hq
    have hlt := hk.depth_lt hq
    have hTq : T q = H q := (hT q).trans (if_neg fun h => hq h.1)
    have hghdr : H q ≠ hdr := fun heq => hk.not_mem (heq ▸ hg)
    rw [outermost, hTq]
    by_cases hzero : H (H q) = 0
    · by_cases hdone : H q ∈ w.visited ∧ H q ∉ w.list
      · have hTg : T (H q) = hdr := (hT _).trans (if_pos ⟨hzero, hdone, hghdr⟩)
        have hThdr : T hdr = 0 := (hT hdr).trans ((if_neg fun h => h.2.2 rfl).trans hk.header_hdr)
        have hpos := hk.block.1
        obtain ⟨m, rfl⟩ : ∃ m, fuel = m + 1 := ⟨fuel - 1, by omega⟩
        refine ⟨H q, ⟨hg, hin, hne, hzero⟩, Or.inr ⟨?_, hdone.1⟩⟩
        rw [if_pos (by omega), outermost, hTg, if_neg (by omega)]
      · have hTg : T (H q) = 0 := (hT _).trans ((if_neg fun h => hdone h.2.1).trans hzero)
        exact ⟨H q, ⟨hg, hin, hne, hzero⟩, Or.inl (if_neg (by omega))⟩
    · have hTg : T (H q) = H (H q) := (hT _).trans (if_neg fun h => hzero h.1)
      obtain ⟨o, ho, hout⟩ := ih hzero (by omega)
      rw [if_pos (by omega)]
      exact ⟨o, hk.top_trans hin hne ho, hout⟩

/-- The predecessors of a member are looked at. -/
theorem pushPredecessors_spec (hf : c.blocksCount < fuel) (hb : c.InLoop hdr b) (hbne : b ≠ hdr) {ps : List ℕ}
    (hps : ∀ p ∈ ps, p ∈ c.predecessors b) {w : Work} (hp : Pending c hdr w) (hT : Assigned hdr H w T) :
    ∃ w', pushPredecessors fuel T b ps w = some w' ∧ Pending c hdr w' ∧ Pushed c.blocksCount w w' ∧
      ∀ p ∈ ps, Seen c l H w'.visited b p := by
  induction ps generalizing w with
  | nil => exact ⟨w, rfl, hp, Pushed.refl _ w, fun p hp => by cases hp⟩
  | cons p ps ih =>
    have hps' : ∀ q ∈ ps, q ∈ c.predecessors b := fun q hq => hps q (List.mem_cons_of_mem p hq)
    have hpb := hps p List.mem_cons_self
    -- what has been pushed for `p` comes first
    have hnext : ∀ w₁, Pending c hdr w₁ → Pushed c.blocksCount w w₁ → Seen c l H w₁.visited b p →
        ∃ w', pushPredecessors fuel T b ps w₁ = some w' ∧ Pending c hdr w' ∧ Pushed c.blocksCount w w' ∧
          ∀ q ∈ p :: ps, Seen c l H w'.visited b q := by
      intro w₁ hp₁ hpush hseen
      have hT₁ : Assigned hdr H w₁ T := fun x => by
        rw [hT x]
        simp only [hpush.taken x]
      obtain ⟨w', hw', hp', hpush', hall⟩ := ih hps' hp₁ hT₁
      refine ⟨w', hw', hp', hpush.trans hpush', fun q hq => ?_⟩
      rcases List.mem_cons.1 hq with rfl | hq
      · rcases hseen with h | h | ⟨o, ho, htop⟩
        · exact Or.inl (hpush'.visited q h)
        · exact Or.inr (Or.inl h)
        · exact Or.inr (Or.inr ⟨o, hpush'.visited o ho, htop⟩)
      · exact hall q hq
    rw [pushPredecessors]
    by_cases hpv : p ∈ w.visited
    · rw [if_pos hpv]
      exact hnext w hp (Pushed.refl _ w) (Or.inl hpv)
    · have hTp : T p = H p := (hT p).trans (if_neg fun h => hpv h.2.1.1)
      have hin : c.InLoop hdr p := hb.pred hbne hpb
      rw [if_neg hpv, hTp]
      by_cases hzero : H p = 0
      · rw [if_neg (not_not.2 hzero)]
        obtain ⟨hp', hpush⟩ := hp.push hpv hin
        exact hnext _ hp' hpush (Or.inl List.mem_cons_self)
      · rw [if_pos hzero]
        by_cases hpeq : H p = b
        · rw [if_pos hpeq]
          exact hnext w hp (Pushed.refl _ w) (Or.inr (Or.inl hpeq))
        · have hdepth := depth_lt hk.correct hk.reachable (c.block_pred hpb)
          obtain ⟨o, ho, hout⟩ := outermost_spec hk hT hzero (show t.domDepth p < fuel by omega)
          rw [if_neg hpeq]
          rcases hout with hout | ⟨hout, hov⟩
          · rw [hout, Option.bind_some, Work.push]
            by_cases hov : o ∈ w.visited
            · rw [if_pos hov]
              exact hnext w hp (Pushed.refl _ w) (Or.inr (Or.inr ⟨o, hov, ho⟩))
            · rw [if_neg hov]
              obtain ⟨hp', hpush⟩ := hp.push hov (hk.inner hin ho.1 ho.2.1)
              exact hnext _ hp' hpush (Or.inr (Or.inr ⟨o, List.mem_cons_self, ho⟩))
          · rw [hout, Option.bind_some, Work.push, if_pos hp.root]
            exact hnext w hp (Pushed.refl _ w) (Or.inr (Or.inr ⟨o, hov, ho⟩))

/-- The walk ends, and what it has visited is closed. -/
theorem collect_closed (hf : c.blocksCount < fuel) {w : Work} (h : Collecting c l hdr H T w)
    (hpot : w.potential c.blocksCount < k) :
    ∃ T' V, collect fuel c hdr k T w = some T' ∧ Collecting c l hdr H T' ⟨[], V⟩ ∧ ∀ x ∈ w.visited, x ∈ V := by
  induction k generalizing T w with
  | zero => omega
  | succ k ih =>
    obtain ⟨list, visited⟩ := w
    cases list with
    | nil => exact ⟨T, visited, rfl, h, fun x hx => hx⟩
    | cons b list =>
      obtain ⟨hbnot, hnodup⟩ := List.nodup_cons.1 h.nodup
      have hbv : b ∈ visited := h.sub b List.mem_cons_self
      have hp : Pending c hdr ⟨list, visited⟩ :=
        ⟨fun x hx => h.sub x (List.mem_cons_of_mem b hx), hnodup, h.root, h.member⟩
      have hpot' : (Work.mk list visited).potential c.blocksCount < k := by
        unfold Work.potential at hpot ⊢
        rw [List.length_cons] at hpot
        dsimp only at hpot ⊢
        omega
      rw [collect]
      by_cases hbh : b = hdr
      · rw [if_pos hbh]
        refine ih ⟨hp, fun x => ?_, fun x hx hxl hne => ?_⟩ hpot'
        · rw [h.marked x]
          have hiff : (x ∉ b :: list ∧ x ≠ hdr) ↔ (x ∉ list ∧ x ≠ hdr) := by
            rw [List.mem_cons, hbh]
            tauto
          have : (H x = 0 ∧ (x ∈ visited ∧ x ∉ b :: list) ∧ x ≠ hdr) ↔
              (H x = 0 ∧ (x ∈ visited ∧ x ∉ list) ∧ x ≠ hdr) := by tauto
          simp only [this]
        · refine h.closed x hx (fun hmem => ?_) hne
          rcases List.mem_cons.1 hmem with heq | hmem
          · exact hne (heq.trans hbh)
          · exact hxl hmem
      · rw [if_neg hbh]
        dsimp only
        have hTb : T b = H b := (h.marked b).trans (if_neg fun hb => hb.2.1.2 List.mem_cons_self)
        have hmarked : Assigned hdr H ⟨list, visited⟩ (if T b = 0 then Function.update T b hdr else T) := by
          intro x
          by_cases hxb : x = b
          · subst hxb
            by_cases hzero : H x = 0
            · rw [if_pos (hTb.trans hzero), Function.update_self, if_pos ⟨hzero, ⟨hbv, hbnot⟩, hbh⟩]
            · rw [if_neg (by rw [hTb]; exact hzero), hTb, if_neg fun hx => hzero hx.1]
          · have hold : (if T b = 0 then Function.update T b hdr else T) x = T x := by
              split_ifs
              · exact Function.update_of_ne hxb _ _
              · rfl
            rw [hold, h.marked x]
            have hiff : x ∉ b :: list ↔ x ∉ list := by
              rw [List.mem_cons, not_or]
              exact and_iff_right hxb
            simp only [hiff]
        obtain ⟨w', hw', hp', hpush, hall⟩ := pushPredecessors_spec hk hf (h.member b hbv) hbh
          (fun p hp => hp) hp hmarked
        rw [hw', Option.bind_some]
        have hcollect : Collecting c l hdr H (if T b = 0 then Function.update T b hdr else T) w' := by
          refine ⟨hp', fun x => ?_, fun x hx hxl hne q hq => ?_⟩
          · rw [hmarked x]
            simp only [hpush.taken x]
          · obtain ⟨hxv, hxl'⟩ := (hpush.taken x).1 ⟨hx, hxl⟩
            by_cases hxb : x = b
            · exact hxb ▸ hall q (hxb ▸ hq)
            · have hmem : x ∉ b :: list := fun hmem => (List.mem_cons.1 hmem).elim hxb hxl'
              rcases h.closed x hxv hmem hne q hq with hq | hq | ⟨o, ho, htop⟩
              · exact Or.inl (hpush.visited q hq)
              · exact Or.inr (Or.inl hq)
              · exact Or.inr (Or.inr ⟨o, hpush.visited o ho, htop⟩)
        obtain ⟨T', V, hT', hV, hsub⟩ := ih hcollect (hpush.potential ▸ hpot')
        exact ⟨T', V, hT', hV, fun x hx => hsub x (hpush.visited x hx)⟩

variable (h : Collecting c l hdr H T ⟨[], V⟩)

include h

/-- With a member the header of the outermost loop around it has been visited. -/
theorem Collecting.top_mem {o : ℕ} (hx : x ∈ V) (ho : Top c l H o x) : o ∈ V := by
  by_contra hno
  have hone : ¬(c.InLoop o 1 ∧ 1 ∈ V) := by
    rintro ⟨hin, h1⟩
    exact hno (hin.dom.eq_root ▸ h1)
  -- the first edge of a path that enters the visited part of that loop
  obtain ⟨u, v, hedge, ⟨hov, hv⟩, hu, hav⟩ := exists_entry (S := fun y => c.InLoop o y ∧ y ∈ V)
    (hk.reachable.reach (h.member x hx).block) hone ⟨ho.2.1, hx⟩
  have hvo : v ≠ o := fun heq => hno (heq ▸ hv)
  have hvh : v ≠ hdr := fun heq => hk.not_inLoop ho.1 (heq ▸ hov)
  have hou : c.InLoop o u := hov.pred hvo hedge
  rcases h.closed v hv List.not_mem_nil hvh u hedge with huV | huv | ⟨o', ho', htop⟩
  · exact hu ⟨hou, huV⟩
  · have hne : H u ≠ 0 := by
      have := hov.block.1
      omega
    have hin := (hk.of_ne hne).2.1
    rw [huv] at hin
    exact hin.dom hav
  · by_cases huo : o = u
    · exact hk.ne_zero_of_top htop (huo ▸ ho.2.2.2)
    · rw [hk.top_unique htop ⟨ho.1, hou, huo, ho.2.2.2⟩] at ho'
      exact hno ho'

/-- The members that are in no inner loop have been visited. -/
theorem Collecting.mem (hsrc : ∀ p, BackEdge (Edge c.predecessors) 1 p hdr → p ∈ V) (hx : c.InLoop hdr x)
    (hne : x ≠ hdr) (hzero : H x = 0) : x ∈ V := by
  obtain ⟨p, hp, rfl | ⟨-, hpath⟩⟩ := hx
  · exact absurd rfl hne
  have hin : ∀ u, u ∈ V → (H u = 0 ∧ u ∈ V) ∨ ∃ o ∈ V, Top c l H o u := by
    intro u hu
    by_cases hu0 : H u = 0
    · exact Or.inl ⟨hu0, hu⟩
    · obtain ⟨o, ho⟩ := hk.exists_top hu0
      exact Or.inr ⟨o, h.top_mem hk hu ho, ho⟩
  have key : (H x = 0 ∧ x ∈ V) ∨ ∃ o ∈ V, Top c l H o x := by
    clear hzero hne
    induction hpath using Relation.ReflTransGen.head_induction_on with
    | refl => exact hin p (hsrc p hp)
    | @head u v hstep _ ih =>
      rcases ih with ⟨hv0, hv⟩ | ⟨o, ho, htop⟩
      · rcases h.closed v hv List.not_mem_nil hstep.2 u hstep.1 with hu | hu | hu
        · exact hin u hu
        · have hne : H u ≠ 0 := by
            have := (c.block_of_pred hstep.1).1
            omega
          obtain ⟨hl, huin, hune⟩ := hk.of_ne hne
          rw [hu] at hl huin hune
          exact Or.inr ⟨v, hv, hl, huin, hune, hv0⟩
        · exact Or.inr hu
      · by_cases huo : o = u
        · exact Or.inl ⟨huo ▸ htop.2.2.2, huo ▸ ho⟩
        · exact Or.inr ⟨o, ho, htop.1, htop.2.1.pred htop.2.2.1.symm hstep.1, huo, htop.2.2.2⟩
  rcases key with key | ⟨o, -, htop⟩
  · exact key.2
  · exact absurd hzero (hk.ne_zero_of_top htop)

omit h

/-- The walk from the sources of the back edges gives the members of the loop their header. -/
theorem collect_spec (hf : c.blocksCount < fuel) {w : Work} (hnodup : w.list.Nodup)
    (hw : ∀ p, p ∈ w.list ↔ BackEdge (Edge c.predecessors) 1 p hdr) (hvis : ∀ p, p ∈ w.visited ↔ p ∈ w.list)
    (hhead : c.IsHead hdr) :
    ∃ T, collect fuel c hdr fuel H ⟨w.list, hdr :: w.visited⟩ = some T ∧
      ∀ x, Innermost c (· ∈ hdr :: l) x (T x) := by
  have hp : Pending c hdr ⟨w.list, hdr :: w.visited⟩ := by
    refine ⟨fun x hx => List.mem_cons_of_mem hdr ((hvis x).2 hx), hnodup, List.mem_cons_self, fun x hx => ?_⟩
    rcases List.mem_cons.1 hx with rfl | hx
    · exact hhead.inLoop
    · exact ((hw x).1 ((hvis x).1 hx)).inLoop
  have hstart : Collecting c l hdr H H ⟨w.list, hdr :: w.visited⟩ := by
    have hall : ∀ x ∈ hdr :: w.visited, x ∉ w.list → x = hdr := fun x hx hxl =>
      (List.mem_cons.1 hx).resolve_right fun hx => hxl ((hvis x).1 hx)
    refine ⟨hp, fun x => ?_, fun x hx hxl hne => absurd (hall x hx hxl) hne⟩
    exact (if_neg fun hx => hx.2.2 (hall x hx.2.1.1 hx.2.1.2)).symm
  have hpot : (Work.mk w.list (hdr :: w.visited)).potential c.blocksCount < fuel := by
    have hle : w.list.length ≤ (hdr :: w.visited).toFinset.card := by
      rw [← List.toFinset_card_of_nodup hnodup]
      refine Finset.card_le_card fun x hx => ?_
      exact List.mem_toFinset.2 (hp.sub x (List.mem_toFinset.1 hx))
    have hcard : (hdr :: w.visited).toFinset.card ≤ c.blocksCount := by
      have hsub : (hdr :: w.visited).toFinset ⊆ Finset.Icc 1 c.blocksCount := fun x hx =>
        Finset.mem_Icc.2 (hp.member x (List.mem_toFinset.1 hx)).block
      have := Finset.card_le_card hsub
      rw [Nat.card_Icc] at this
      omega
    unfold Work.potential
    dsimp only
    omega
  obtain ⟨T, V, hT, hV, hsub⟩ := collect_closed hk hf hstart hpot
  have hsrc : ∀ p, BackEdge (Edge c.predecessors) 1 p hdr → p ∈ V := fun p hp =>
    hsub p (List.mem_cons_of_mem hdr ((hvis p).2 ((hw p).2 hp)))
  refine ⟨T, hT, fun x => ?_⟩
  have hval := hV.marked x
  dsimp only at hval
  by_cases hzero : H x = 0
  · by_cases hin : c.InLoop hdr x ∧ x ≠ hdr
    · have hx := hV.mem hk hsrc hin.1 hin.2 hzero
      rw [if_pos ⟨hzero, ⟨hx, List.not_mem_nil⟩, hin.2⟩] at hval
      rw [hval]
      have hpos := hk.block.1
      refine Or.inl ⟨by omega, ⟨List.mem_cons_self, hin.1, hin.2.symm⟩, fun g hg hgx hne => ?_⟩
      rcases List.mem_cons.1 hg with rfl | hg
      · exact hhead.inLoop
      · exact absurd (hk.of_eq hzero hg hgx) hne
    · have hnot : ¬(H x = 0 ∧ (x ∈ V ∧ x ∉ ([] : List ℕ)) ∧ x ≠ hdr) := fun h =>
        hin ⟨hV.member x h.2.1.1, h.2.2⟩
      rw [if_neg hnot] at hval
      rw [hval, hzero]
      refine Or.inr ⟨rfl, fun g hg hgx => ?_⟩
      rcases List.mem_cons.1 hg with rfl | hg
      · by_contra hne
        exact hin ⟨hgx, Ne.symm hne⟩
      · exact hk.of_eq hzero hg hgx
  · rw [if_neg fun h => hzero h.1] at hval
    rw [hval]
    obtain ⟨hl, hin, hne⟩ := hk.of_ne hzero
    refine Or.inl ⟨hzero, ⟨List.mem_cons_of_mem hdr hl, hin, hne⟩, fun g hg hgx hgne => ?_⟩
    rcases List.mem_cons.1 hg with rfl | hg
    · exact hk.inner hgx hl hin
    · rcases hk.innermost x with ⟨-, -, hall⟩ | ⟨h0, -⟩
      · exact hall g hg hgx hgne
      · exact absurd h0 hzero

end Walk

end IrJit.Cfg
