import IrJit.Cfg.DominatorsSpec

/-!
# Cfg.SeedRound — a round from a table that is not an approximation

The parents of the table need not come before their children, and vertices may have no parent yet.  What
the table has to keep is that strict dominators dominate the parents (`Seed.dom`).  The fingers of an
intersection then stay below every dominator of both (`intersect_seed`): a finger that stands on a
dominator of the other finger comes before it, and does not move.

Where every edge that does not ascend leads back along an ascending path, one round makes the table an
approximation (`seed_round_approx`).
-/

namespace IrJit.Cfg

open ParentTree DomTable Dominance

variable {c : Graph} {fuel n b : ℕ} {φ old idom : ℕ → ℕ}

/-- Every edge ascends or leads back to the start of an ascending path. -/
def Graph.Retreats (c : Graph) : Prop :=
  ∀ b p, p ∈ c.predecessors b → b ≤ p → Ascends c.predecessors b p

/-- A table of parents; `φ` decreases along them. -/
structure Seed (c : Graph) (φ old : ℕ → ℕ) : Prop where
  one : old 1 = 1
  potential : ∀ x, 1 ≤ x → x ≤ c.blocksCount → φ x ≤ c.blocksCount
  known : ∀ x, 2 ≤ x → x ≤ c.blocksCount → old x > 0 →
    old x ≤ c.blocksCount ∧ old (old x) > 0 ∧ φ (old x) < φ x
  dom : ∀ x, 2 ≤ x → x ≤ c.blocksCount → old x > 0 → ∀ d, d ≠ x → Dom (Edge c.predecessors) 1 d x →
    Dom (Edge c.predecessors) 1 d (old x)

/-- What the round has established before block `b`. -/
structure SeedInv (c : Graph) (φ old : ℕ → ℕ) (b : ℕ) (s : (ℕ → ℕ) × Bool) : Prop where
  decreasing : Decreasing s.1 (b - 1)
  rest : ∀ x, x < 2 ∨ b ≤ x → s.1 x = old x
  forward : ∀ x, 2 ≤ x → x < b → ∀ p ∈ c.predecessors x, p < x → Anc s.1 (s.1 x) p
  meet : ∀ x, 2 ≤ x → x < b → (∀ p ∈ c.predecessors x, p < x) → IsMeet s.1 (c.predecessors x) (s.1 x)
  dom : ∀ x, 2 ≤ x → x ≤ c.blocksCount → s.1 x > 0 → ∀ d, d ≠ x → Dom (Edge c.predecessors) 1 d x →
    Dom (Edge c.predecessors) 1 d (s.1 x)
  same : s.2 = false → s.1 = old

section Fingers

/-- A table in which the parents have parents, down a potential, and keep the dominators. -/
structure Tame (c : Graph) (Φ idom : ℕ → ℕ) : Prop where
  one : idom 1 > 0
  known : ∀ x, 2 ≤ x → x ≤ c.blocksCount → idom x > 0 →
    idom x ≤ c.blocksCount ∧ idom (idom x) > 0 ∧ Φ (idom x) < Φ x
  dom : ∀ x, 2 ≤ x → x ≤ c.blocksCount → idom x > 0 → ∀ d, d ≠ x → Dom (Edge c.predecessors) 1 d x →
    Dom (Edge c.predecessors) 1 d (idom x)

/-- A block with a parent. -/
structure Known (c : Graph) (idom : ℕ → ℕ) (x : ℕ) : Prop where
  pos : 1 ≤ x
  le : x ≤ c.blocksCount
  parent : idom x > 0

variable {Φ : ℕ → ℕ} (hc : c.InOrder) (ht : Tame c Φ idom)

include ht in
theorem Tame.up {x : ℕ} (h2 : 2 ≤ x) (hx : Known c idom x) : Known c idom (idom x) ∧ Φ (idom x) < Φ x := by
  obtain ⟨hle, hpos, hlt⟩ := ht.known x h2 hx.le hx.parent
  exact ⟨⟨hx.parent, hle, hpos⟩, hlt⟩

include hc ht

/-- Two fingers meet at a common ancestor, which every common dominator dominates. -/
theorem intersect_seed {a x : ℕ} (ha : Known c idom a) (hx : Known c idom x) (hf : Φ a + Φ x < fuel) :
    ∃ m, intersect idom fuel a x = some m ∧ Known c idom m ∧ Φ m ≤ Φ a ∧ Anc idom m a ∧ Anc idom m x ∧
      ∀ d, Dom (Edge c.predecessors) 1 d a → Dom (Edge c.predecessors) 1 d x →
        Dom (Edge c.predecessors) 1 d m := by
  induction fuel generalizing a x with
  | zero => omega
  | succ fuel ih =>
    rw [intersect]
    rcases Nat.lt_trichotomy a x with hlt | rfl | hlt
    · have h2 : 2 ≤ x := by
        have := ha.pos
        omega
      obtain ⟨hup, hpot⟩ := ht.up h2 hx
      obtain ⟨m, hm, hk, hle, hma, hmx, hdom⟩ := ih ha hup (by omega)
      rw [if_neg (by omega), if_pos hlt]
      refine ⟨m, hm, hk, hle, hma, hmx.up h2, fun d hda hdx => hdom d hda ?_⟩
      refine ht.dom x h2 hx.le hx.parent d ?_ hdx
      rintro rfl
      have := hc.ordered.dom_le ha.pos ha.le hda
      omega
    · rw [if_pos rfl]
      exact ⟨a, rfl, ha, le_rfl, anc_refl idom a, anc_refl idom a, fun d hd _ => hd⟩
    · have h2 : 2 ≤ a := by
        have := hx.pos
        omega
      obtain ⟨hup, hpot⟩ := ht.up h2 ha
      obtain ⟨m, hm, hk, hle, hma, hmx, hdom⟩ := ih hup hx (by omega)
      rw [if_neg (by omega), if_neg (by omega)]
      refine ⟨m, hm, hk, by omega, hma.up h2, hmx, fun d hda hdx => hdom d ?_ hdx⟩
      refine ht.dom a h2 ha.le ha.parent d ?_ hda
      rintro rfl
      have := hc.ordered.dom_le hx.pos hx.le hdx
      omega

/-- The fingers over several blocks. -/
theorem intersectKnown_seed {N : ℕ} (hN : ∀ x, 1 ≤ x → x ≤ c.blocksCount → Φ x ≤ N) (hf : N + N < fuel)
    {ps : List ℕ} {d : ℕ} (hd : Known c idom d) (hps : ∀ p ∈ ps, 1 ≤ p ∧ p ≤ c.blocksCount) :
    ∃ m, intersectKnown fuel idom ps d = some m ∧ Known c idom m ∧ Anc idom m d ∧
      (∀ p ∈ ps, idom p > 0 → Anc idom m p) ∧
      ∀ e, Dom (Edge c.predecessors) 1 e d → (∀ p ∈ ps, Dom (Edge c.predecessors) 1 e p) →
        Dom (Edge c.predecessors) 1 e m := by
  induction ps generalizing d with
  | nil => exact ⟨d, rfl, hd, anc_refl idom d, by simp, fun e he _ => he⟩
  | cons p ps ih =>
    have hps' : ∀ q ∈ ps, 1 ≤ q ∧ q ≤ c.blocksCount := fun q hq => hps q (by simp [hq])
    obtain ⟨hp1, hpn⟩ := hps p (by simp)
    rw [intersectKnown]
    by_cases hpos : idom p > 0
    · have hΦd := hN d hd.pos hd.le
      have hΦp := hN p hp1 hpn
      obtain ⟨m, hm, hk, -, hmd, hmp, hdom⟩ :=
        intersect_seed hc ht hd ⟨hp1, hpn, hpos⟩ (show _ < fuel by omega)
      obtain ⟨m', hm', hk', hm'd, hm'ps, hdom'⟩ := ih hk hps'
      refine ⟨m', ?_, hk', hm'd.trans hmd, fun q hq hqpos => ?_, fun e hed heps => ?_⟩
      · rw [if_pos hpos, hm]
        exact hm'
      · rcases List.mem_cons.1 hq with rfl | hq
        · exact hm'd.trans hmp
        · exact hm'ps q hq hqpos
      · exact hdom' e (hdom e hed (heps p (by simp))) fun q hq => heps q (by simp [hq])
    · obtain ⟨m, hm, hk, hmd, hmps, hdom⟩ := ih hd hps'
      refine ⟨m, ?_, hk, hmd, fun q hq hqpos => ?_, fun e hed heps => ?_⟩
      · rw [if_neg hpos]
        exact hm
      · rcases List.mem_cons.1 hq with rfl | hq
        · exact absurd hqpos hpos
        · exact hmps q hq hqpos
      · exact hdom e hed fun q hq => heps q (by simp [hq])

omit hc ht in
theorem skipUnknown_spec {l : List ℕ} (h : ∃ p ∈ l, idom p > 0) :
    ∃ d ps, skipUnknown idom l = some (d, ps) ∧ idom d > 0 ∧ d ∈ l ∧ (∀ p ∈ ps, p ∈ l) ∧
      ∀ p ∈ l, idom p > 0 → p = d ∨ p ∈ ps := by
  induction l with
  | nil => simp at h
  | cons a l ih =>
    rw [skipUnknown]
    by_cases ha : idom a = 0
    · obtain ⟨p, hp, hpos⟩ := h
      have hpl : p ∈ l := (List.mem_cons.1 hp).resolve_left (by rintro rfl; omega)
      obtain ⟨d, ps, heq, hd, hmem, hsub, hall⟩ := ih ⟨p, hpl, hpos⟩
      refine ⟨d, ps, (if_pos ha).trans heq, hd, by simp [hmem], fun q hq => by simp [hsub q hq],
        fun q hq hqpos => ?_⟩
      rcases List.mem_cons.1 hq with rfl | hq
      · omega
      · exact hall q hq hqpos
    · exact ⟨a, l, if_neg ha, by omega, by simp, fun q hq => by simp [hq],
        fun q hq _ => List.mem_cons.1 hq⟩

end Fingers

section Round

variable {s : (ℕ → ℕ) × Bool}

/-- The potential in the middle of the round. -/
def mixed (c : Graph) (φ : ℕ → ℕ) (b x : ℕ) : ℕ := if x < b then x else c.blocksCount + φ x

theorem SeedInv.tame (hs : Seed c φ old) (hi : SeedInv c φ old b s) : Tame c (mixed c φ b) s.1 := by
  have hone : s.1 1 = 1 := (hi.rest 1 (by omega)).trans hs.one
  have hpos : ∀ x, 1 ≤ x → x < b → s.1 x > 0 := by
    intro x h1 hxb
    by_cases h2 : 2 ≤ x
    · exact (hi.decreasing x h2 (by omega)).1
    · obtain rfl : x = 1 := by omega
      omega
  refine ⟨by omega, fun x h2 hn hx => ?_, hi.dom⟩
  by_cases hxb : x < b
  · obtain ⟨h1, hlt⟩ := hi.decreasing x h2 (by omega)
    refine ⟨by omega, hpos _ h1 (by omega), ?_⟩
    unfold mixed
    rw [if_pos (by omega), if_pos hxb]
    exact hlt
  · have heq := hi.rest x (by omega)
    rw [heq] at hx ⊢
    obtain ⟨hle, hpar, hlt⟩ := hs.known x h2 hn hx
    unfold mixed
    by_cases hyb : old x < b
    · refine ⟨hle, hpos _ hx hyb, ?_⟩
      rw [if_pos hyb, if_neg hxb]
      omega
    · refine ⟨hle, ?_, ?_⟩
      · rwa [hi.rest (old x) (by omega)]
      · rw [if_neg hyb, if_neg hxb]
        omega

theorem mixed_le (hs : Seed c φ old) {x : ℕ} (h1 : 1 ≤ x) (hn : x ≤ c.blocksCount) :
    mixed c φ b x ≤ 2 * c.blocksCount := by
  have := hs.potential x h1 hn
  unfold mixed
  split_ifs <;> omega

/-- A write of a block's parent is not read below the block. -/
theorem isMeet_update {m y : ℕ} {l : List ℕ} (hdec : Decreasing idom (b - 1)) (h1 : 1 ≤ y) (hy : y < b)
    (hl : ∀ p ∈ l, 1 ≤ p ∧ p < b) (h : IsMeet idom l y) :
    IsMeet (Function.update idom b m) l y := by
  intro x
  rw [anc_update_iff hdec h1 hy, h x]
  exact forall₂_congr fun p hp => (anc_update_iff hdec (hl p hp).1 (hl p hp).2).symm

theorem SeedInv.step (hc : c.InOrder) (hf : 4 * c.blocksCount < fuel) (h2 : 2 ≤ b)
    (hn : b ≤ c.blocksCount) (hs : Seed c φ old) (hi : SeedInv c φ old b s) :
    ∃ s', roundBlock fuel c b s = some s' ∧ SeedInv c φ old (b + 1) s' := by
  have ht := hi.tame hs
  have hrange : ∀ p ∈ c.predecessors b, 1 ≤ p ∧ p ≤ c.blocksCount := fun p hp => (c.pred_range b p hp).1
  have hone : s.1 1 = 1 := (hi.rest 1 (by omega)).trans hs.one
  have hpos : ∀ x, 1 ≤ x → x < b → s.1 x > 0 := by
    intro x h1 hxb
    by_cases h2 : 2 ≤ x
    · exact (hi.decreasing x h2 (by omega)).1
    · obtain rfl : x = 1 := by omega
      omega
  obtain ⟨w, hw, hwb⟩ := hc b h2 hn
  obtain ⟨d, ps, hskip, hd, hdmem, hsub, hall⟩ :=
    skipUnknown_spec ⟨w, hw, hpos w (hrange w hw).1 hwb⟩
  obtain ⟨m, hm, hk, hmd, hmps, hdom⟩ := intersectKnown_seed hc ht (N := 2 * c.blocksCount)
    (fun x h1 hx => mixed_le hs h1 hx) (show _ < fuel by omega)
    ⟨(hrange d hdmem).1, (hrange d hdmem).2, hd⟩ fun p hp => hrange p (hsub p hp)
  have hanc : ∀ p ∈ c.predecessors b, p < b → Anc s.1 m p := by
    intro p hp hpb
    rcases hall p hp (hpos p (hrange p hp).1 hpb) with rfl | hps
    · exact hmd
    · exact hmps p hps (hpos p (hrange p hp).1 hpb)
  -- a common ancestor of a predecessor before `b` comes before `b`
  have hmb : 1 ≤ m ∧ m < b := by
    have hbounds := (hanc w hw hwb).bounds hi.decreasing (hrange w hw).1 (by omega)
    omega
  have hmdom : ∀ e, e ≠ b → Dom (Edge c.predecessors) 1 e b → Dom (Edge c.predecessors) 1 e m :=
    fun e he heb => hdom e (heb.pred he hdmem) fun p hp => heb.pred he (hsub p hp)
  have hmeet : (∀ p ∈ c.predecessors b, p < b) → IsMeet s.1 (c.predecessors b) m := by
    intro hfwd x
    obtain ⟨m', hm', hmeet'⟩ := intersectKnown_spec hi.decreasing (show b - 1 + (b - 1) < fuel by omega)
      (hrange d hdmem).1 (by have := hfwd d hdmem; omega) fun p (hp : p ∈ ps) => by
        have hpb := hfwd p (hsub p hp)
        exact ⟨⟨(hrange p (hsub p hp)).1, by omega⟩, hpos p (hrange p (hsub p hp)).1 hpb⟩
    obtain rfl : m = m' := Option.some.inj (hm.symm.trans hm')
    rw [hmeet']
    constructor
    · rintro ⟨hxd, hxps⟩ p hp
      rcases hall p hp (hpos p (hrange p hp).1 (hfwd p hp)) with rfl | hps
      · exact hxd
      · exact hxps p hps
    · exact fun h => ⟨h d hdmem, fun p hp => h p (hsub p hp)⟩
  have hstep : roundBlock fuel c b s =
      some (Function.update s.1 b m, s.2 || decide (s.1 b ≠ m)) := by
    simp only [roundBlock, hskip, hm, Option.bind_some]
    by_cases hbm : s.1 b = m
    · have hself : Function.update s.1 b m = s.1 := by
        rw [← hbm]
        exact Function.update_eq_self b s.1
      simp [hbm, hself]
    · simp [hbm]
  have hof : ∀ x, x ≠ b → Function.update s.1 b m x = s.1 x := fun x hx => Function.update_of_ne hx _ _
  have hself : Function.update s.1 b m b = m := Function.update_self ..
  refine ⟨_, hstep, ?_, ?_, ?_, ?_, ?_, ?_⟩
  · intro y hy hyb
    dsimp only
    by_cases hyb' : y = b
    · subst hyb'
      rw [hself]
      exact hmb
    · rw [hof y hyb']
      exact hi.decreasing y hy (by omega)
  · intro x hx
    dsimp only
    rw [hof x (by omega)]
    exact hi.rest x (by omega)
  · intro x hx hxb p hp hpx
    have hp1 := (c.pred_range x p hp).1.1
    dsimp only
    by_cases hxb' : x = b
    · subst hxb'
      rw [hself]
      exact (anc_update_iff hi.decreasing hp1 hpx).2 (hanc p hp hpx)
    · rw [hof x hxb']
      exact (anc_update_iff hi.decreasing hp1 (by omega)).2 (hi.forward x hx (by omega) p hp hpx)
  · intro x hx hxb hfwd
    have hl : ∀ p ∈ c.predecessors x, 1 ≤ p ∧ p < b := fun p hp =>
      ⟨(c.pred_range x p hp).1.1, by have := hfwd p hp; omega⟩
    dsimp only
    by_cases hxb' : x = b
    · subst hxb'
      rw [hself]
      exact isMeet_update hi.decreasing hmb.1 hmb.2 hl (hmeet hfwd)
    · rw [hof x hxb']
      have hpar := hi.decreasing x hx (by omega)
      exact isMeet_update hi.decreasing hpar.1 (by omega) hl (hi.meet x hx (by omega) hfwd)
  · intro x hx hxn hxpos e he hdomx
    dsimp only at hxpos ⊢
    by_cases hxb' : x = b
    · subst hxb'
      rw [hself]
      exact hmdom e he hdomx
    · rw [hof x hxb'] at hxpos ⊢
      exact hi.dom x hx hxn hxpos e he hdomx
  · intro hflag
    simp only [Bool.or_eq_false_iff, decide_eq_false_iff_not, not_not] at hflag
    dsimp only
    rw [← hi.same hflag.1, ← hflag.2]
    exact Function.update_eq_self b s.1

theorem seedInv_start (hs : Seed c φ old) : SeedInv c φ old 2 (old, false) where
  decreasing x h2 hx := by omega
  rest _ _ := rfl
  forward x h2 hx := by omega
  meet x h2 hx := by omega
  dom := hs.dom
  same _ := rfl

/-- A table that has gone through the whole round is an approximation. -/
theorem SeedInv.approx (hc : c.InOrder) (hback : c.Retreats) (hi : SeedInv c φ old (c.blocksCount + 1) s) :
    Approx c.predecessors c.blocksCount s.1 := by
  have hdec : Decreasing s.1 c.blocksCount := hi.decreasing
  have hfwd : ∀ b, 2 ≤ b → b ≤ c.blocksCount → ∀ p ∈ c.predecessors b, p < b → Anc s.1 (s.1 b) p :=
    fun b h2 hn => hi.forward b h2 (by omega)
  refine ⟨hdec, hfwd, fun b h2 hn x hx => ?_, fun b h2 hn d hd hdom => ?_⟩
  · obtain ⟨w, hw, hwb⟩ := hc b h2 hn
    have hw' := (c.pred_range b w hw).1
    have hxw := (hx w hw).bounds hdec hw'.1 hw'.2
    by_cases hall : ∀ p ∈ c.predecessors b, p < b
    · exact (hi.meet b h2 (by omega) hall x).2 hx
    · -- an edge that leads back tells the ancestors of its source from those of its target
      obtain ⟨p, hp, hbp⟩ : ∃ p ∈ c.predecessors b, b ≤ p := by
        by_contra hno
        exact hall fun p hp => by
          by_contra hpb
          exact hno ⟨p, hp, by omega⟩
      have hxb := (hback b p hp hbp).anc (c.pred_range b p hp).1.2 hfwd (by omega) (hx p hp)
      exact (hxb.strict (by omega)).2
  · induction b using Nat.strong_induction_on with
    | _ b ih =>
      obtain ⟨h1, hlt⟩ := hdec b h2 hn
      refine anc_of_dom h1 (hi.dom b h2 hn (by omega) d hd hdom) fun hp2 hne => ?_
      exact ih (s.1 b) hlt hp2 (by omega) hne (hi.dom b h2 hn (by omega) d hd hdom)

/-- One round from such a table. -/
theorem seed_round (hc : c.InOrder) (hf : 4 * c.blocksCount < fuel) (h1 : 1 ≤ c.blocksCount)
    (hs : Seed c φ old) : ∃ s, round fuel c old = some s ∧ SeedInv c φ old (c.blocksCount + 1) s := by
  obtain ⟨s, hround, hi⟩ := ascend_spec (f := roundBlock fuel c) (SeedInv c φ old)
    (k := c.blocksCount - 1) (seedInv_start hs) fun b s hlo hlt hi =>
      hi.step hc hf hlo (by omega) hs
  refine ⟨s, hround, ?_⟩
  rwa [show 2 + (c.blocksCount - 1) = c.blocksCount + 1 by omega] at hi

end Round

/-- The rounds from such a table stop at the dominator tree. -/
theorem seed_rounds (hc : c.InOrder) (hback : c.Retreats) (h1 : 1 ≤ c.blocksCount) (hs : Seed c φ old)
    (hf : c.blocksCount * c.blocksCount + 4 * c.blocksCount + 1 < fuel) {k : ℕ}
    (hk : c.blocksCount * c.blocksCount + 1 < k) :
    ∃ idom, rounds fuel c k old = some idom ∧ Approx c.predecessors c.blocksCount idom ∧
      Closed c.predecessors c.blocksCount idom := by
  obtain ⟨s, hround, hi⟩ := seed_round hc (show 4 * c.blocksCount < fuel by omega) h1 hs
  have happrox := hi.approx hc hback
  have hone : s.1 1 = 1 := (hi.rest 1 (by omega)).trans hs.one
  have htotal := total_le happrox.decreasing
  obtain ⟨k, rfl⟩ : ∃ k', k = k' + 1 := ⟨k - 1, by omega⟩
  cases hflag : s.2
  · rw [← hi.same hflag]
    exact rounds_spec hc (show _ < fuel by omega) happrox (by omega) (by omega)
  · obtain ⟨idom, hidom, hres⟩ := rounds_spec hc (show _ < fuel by omega) happrox (k := k) (by omega)
      (by omega)
    refine ⟨idom, ?_, hres⟩
    rw [rounds, hround]
    simp only [Option.bind_some, hflag]
    exact hidom

end IrJit.Cfg
