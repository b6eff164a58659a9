import IrJit.Lib.Dominance
import IrJit.Lib.ParentTree

/-!
# Lib.DomTable — immediate dominators by rounds over the vertices in their own order

The vertices are `1 .. n`, the root is `1` and every other vertex has a smaller predecessor.  A table
of parents is an approximation of the dominator tree when it lies above it (`strict`) and its parents
respect the edges from smaller vertices (`forward`).  A round recomputes the parents in ascending order,
each as the meet of the predecessors in the table as it then stands: the vertices before it have their
new parents, the others their old ones.

The meets are taken by vertex number, not by post-order number.  This is sound because a round only
moves parents up (`Round.anc_old`), and because an ancestor reaches its descendants by an ascending
path (`Approx.path`), so that no vertex passed on the way can be missed.
-/

namespace IrJit.DomTable

open ParentTree Dominance

/-- The edges of a graph given by the predecessors of each vertex. -/
def Edge (preds : ℕ → List ℕ) (p b : ℕ) : Prop := p ∈ preds b

/-- Every vertex but the root has a smaller predecessor. -/
structure Ordered (preds : ℕ → List ℕ) (n : ℕ) : Prop where
  pred_pos : ∀ b p, p ∈ preds b → 1 ≤ p
  pred_le : ∀ b p, p ∈ preds b → p ≤ n
  le : ∀ b p, p ∈ preds b → b ≤ n
  smaller : ∀ b, 2 ≤ b → b ≤ n → ∃ p ∈ preds b, p < b

/-- A table between the dominator tree and the tree of the ascending edges. -/
structure Approx (preds : ℕ → List ℕ) (n : ℕ) (par : ℕ → ℕ) : Prop where
  decreasing : Decreasing par n
  forward : ∀ b, 2 ≤ b → b ≤ n → ∀ p ∈ preds b, p < b → Anc par (par b) p
  meet : ∀ b, 2 ≤ b → b ≤ n → ∀ x, (∀ p ∈ preds b, Anc par x p) → Anc par x (par b)
  strict : ∀ b, 2 ≤ b → b ≤ n → ∀ d, d ≠ b → Dom (Edge preds) 1 d b → Anc par d (par b)

/-- The parents of a table are ancestors of every predecessor. -/
def Closed (preds : ℕ → List ℕ) (n : ℕ) (par : ℕ → ℕ) : Prop :=
  ∀ b, 2 ≤ b → b ≤ n → ∀ p ∈ preds b, Anc par (par b) p

/-- The table in the middle of a round: the new parents before `b`, the old ones from `b` on. -/
def mix (new old : ℕ → ℕ) (b x : ℕ) : ℕ := if x < b then new x else old x

/-- One round in ascending order. -/
def Round (preds : ℕ → List ℕ) (n : ℕ) (old new : ℕ → ℕ) : Prop :=
  ∀ b, 2 ≤ b → b ≤ n → IsMeet (mix new old b) (preds b) (new b)

/-- A path along ascending edges. -/
def Ascends (preds : ℕ → List ℕ) : ℕ → ℕ → Prop :=
  Relation.ReflTransGen fun x y => Edge preds x y ∧ x < y

section Paths

variable {preds : ℕ → List ℕ} {n : ℕ} {par : ℕ → ℕ} {v p d x b : ℕ}

theorem Ascends.le (h : Ascends preds v p) : v ≤ p := by
  induction h with
  | refl => exact le_refl v
  | tail _ hstep ih => exact le_trans ih hstep.2.le

/-- An ascending path avoids the vertices before its start. -/
theorem Ascends.avoids (h : Ascends preds v p) (hd : d ≤ v) :
    Relation.ReflTransGen (fun x y => Edge preds x y ∧ y ≠ d) v p := by
  induction h with
  | refl => exact Relation.ReflTransGen.refl
  | tail hpath hstep ih =>
    have hle := Ascends.le hpath
    exact ih.tail ⟨hstep.1, by omega⟩

/-- Where parents respect ascending edges, an ancestor of the end that is not after the start is an
ancestor of the start. -/
theorem Ascends.anc (h : Ascends preds v p) (hn : p ≤ n)
    (hfwd : ∀ b, 2 ≤ b → b ≤ n → ∀ p ∈ preds b, p < b → Anc par (par b) p) (hx : x ≤ v)
    (hanc : Anc par x p) : Anc par x v := by
  induction h with
  | refl => exact hanc
  | @tail y z hpath hstep ih =>
    have hle := Ascends.le hpath
    have hlt := hstep.2
    obtain ⟨hz, hup⟩ := hanc.strict (by omega)
    exact ih (by omega) (hup.trans (hfwd z hz hn y hstep.1 hlt))

/-- Where strict dominators are ancestors of the parent, dominators are ancestors. -/
theorem anc_of_dom (h1 : 1 ≤ p) (hdom : Dom (Edge preds) 1 d p)
    (hstrict : 2 ≤ p → d ≠ p → Anc par d (par p)) : Anc par d p := by
  by_cases hd : d = p
  · rw [hd]
    exact anc_refl par p
  · by_cases hp : 2 ≤ p
    · exact (hstrict hp hd).up hp
    · obtain rfl : p = 1 := by omega
      exact absurd hdom.eq_root hd

variable (ho : Ordered preds n) (ha : Approx preds n par)
include ho ha

/-- An ancestor reaches its descendants by an ascending path. -/
theorem Approx.path (h1 : 1 ≤ p) (hn : p ≤ n) (h : Anc par v p) : Ascends preds v p := by
  induction p using Nat.strong_induction_on with
  | _ p ih =>
    rcases anc_iff.mp h with rfl | ⟨hp, hup⟩
    · exact Relation.ReflTransGen.refl
    · obtain ⟨w, hw, hlt⟩ := ho.smaller p hp hn
      have hwv : Anc par v w := hup.trans (ha.forward p hp hn w hw hlt)
      exact (ih w hlt (ho.pred_pos p w hw) (by omega) hwv).tail ⟨hw, hlt⟩

/-- A dominator of a vertex dominates the vertex's ancestors that are not before it. -/
theorem Approx.dom_anc (h1 : 1 ≤ p) (hn : p ≤ n) (h : Anc par v p) (hd : d ≤ v)
    (hdom : Dom (Edge preds) 1 d p) : Dom (Edge preds) 1 d v :=
  hdom.of_path ((ha.path ho h1 hn h).avoids hd)

omit ha in
/-- Dominators are not larger than what they dominate. -/
theorem Ordered.dom_le (h1 : 1 ≤ b) (hn : b ≤ n) (hdom : Dom (Edge preds) 1 d b) : d ≤ b := by
  induction b using Nat.strong_induction_on with
  | _ b ih =>
    by_cases hdb : d = b
    · exact hdb.le
    · by_cases hb : 2 ≤ b
      · obtain ⟨p, hp, hlt⟩ := ho.smaller b hb hn
        have hle := ih p hlt (ho.pred_pos b p hp) (by omega) (hdom.pred hdb hp)
        omega
      · obtain rfl : b = 1 := by omega
        exact hdom.eq_root.le

/-- A closed approximation is the dominator tree. -/
theorem Approx.isIdom (hc : Closed preds n par) (h2 : 2 ≤ b) (hn : b ≤ n) :
    IsIdom (Edge preds) 1 (par b) b := by
  have hlt := ha.decreasing b h2 hn
  -- ancestors are dominators, since an ancestor of `b` is `b` or an ancestor of each predecessor
  have hsound : ∀ d b, Anc par d b → Dom (Edge preds) 1 d b := by
    intro d b h
    refine dom_of_closed (A := Anc par) (fun d h => anc_one.mp h) ?_ h
    intro d p b he h
    rcases anc_iff.mp h with rfl | ⟨hb, hup⟩
    · exact Or.inl rfl
    · exact Or.inr (hup.trans (hc b hb (ho.le b p he) p he))
  refine ⟨by omega, hsound _ _ (anc_parent h2), ?_⟩
  intro d hd hdom
  exact hsound _ _ (ha.strict b h2 hn d hd hdom)

end Paths

section Rounds

variable {preds : ℕ → List ℕ} {n : ℕ} {old new : ℕ → ℕ} {b p x v : ℕ}

theorem mix_decreasing (hold : Decreasing old n)
    (hnew : ∀ y, 2 ≤ y → y < b → y ≤ n → 1 ≤ new y ∧ new y < y) :
    Decreasing (mix new old b) n := by
  intro y hy hn
  unfold mix
  split_ifs with hyb
  · exact hnew y hy hyb hn
  · exact hold y hy hn

/-- The meets up to `b` have moved the parents up. -/
theorem anc_old_of_meets (ho : Ordered preds n) (ha : Approx preds n old) (h2 : 2 ≤ b) (hn : b ≤ n)
    (hr : ∀ y, 2 ≤ y → y ≤ b → IsMeet (mix new old y) (preds y) (new y)) :
    Anc old (new b) (old b) ∧ 1 ≤ new b ∧ new b < b := by
  induction b using Nat.strong_induction_on with
  | _ b ih =>
    have hbefore : ∀ y, 2 ≤ y → y < b → y ≤ n → Anc old (new y) (old y) ∧ 1 ≤ new y ∧ new y < y :=
      fun y hy hyb hyn => ih y hyb hy hyn fun z hz hzy => hr z hz (by omega)
    have hdec : Decreasing (mix new old b) n :=
      mix_decreasing ha.decreasing fun y hy hyb hyn => (hbefore y hy hyb hyn).2
    have hle : ∀ y, 2 ≤ y → y ≤ n → Anc old (mix new old b y) (old y) := by
      intro y hy hyn
      unfold mix
      split_ifs with hyb
      · exact (hbefore y hy hyb hyn).1
      · exact anc_refl old (old y)
    have hmeet := hr b h2 (le_refl b)
    have hanc : Anc old (new b) (old b) := by
      refine ha.meet b h2 hn (new b) fun p hp => ?_
      exact (hmeet.anc hp).mono hdec hle (ho.pred_pos b p hp) (ho.pred_le b p hp)
    have hpar := ha.decreasing b h2 hn
    have hb := hanc.bounds ha.decreasing hpar.1 (by omega)
    exact ⟨hanc, hb.1, by omega⟩

variable (ho : Ordered preds n) (ha : Approx preds n old) (hr : Round preds n old new)
include ho ha hr

/-- A round only moves parents up. -/
theorem Round.anc_old (h2 : 2 ≤ b) (hn : b ≤ n) :
    Anc old (new b) (old b) ∧ 1 ≤ new b ∧ new b < b :=
  anc_old_of_meets ho ha h2 hn fun y hy hyb => hr y hy (by omega)

theorem Round.le_old (h2 : 2 ≤ b) (hn : b ≤ n) : new b ≤ old b := by
  have hpar := ha.decreasing b h2 hn
  exact ((hr.anc_old ho ha h2 hn).1.bounds ha.decreasing hpar.1 (by omega)).2

theorem Round.decreasing_new : Decreasing new n := fun _ h2 hn => (hr.anc_old ho ha h2 hn).2

theorem Round.decreasing_mix (b : ℕ) : Decreasing (mix new old b) n :=
  mix_decreasing ha.decreasing fun _ hy _ hn => (hr.anc_old ho ha hy hn).2

/-- Before `b` the table in the middle of the round is the new one. -/
theorem Round.anc_mix_iff (h1 : 1 ≤ p) (hpb : p < b) (hn : p ≤ n) :
    Anc (mix new old b) x p ↔ Anc new x p := by
  have heq : ∀ y, 2 ≤ y → y ≤ p → mix new old b y = new y := fun y _ hy => if_pos (by omega)
  constructor
  · intro h
    exact h.congr (hr.decreasing_mix ho ha b) h1 hn fun y hy hyp => (heq y hy hyp).symm
  · intro h
    exact h.congr (hr.decreasing_new ho ha) h1 hn heq

/-- A vertex before `b` is an ancestor in the middle of the round when it is one, in the new table, of
the first old ancestor before `b`. -/
theorem Round.anc_mix_of_first (h1 : 1 ≤ p) (hn : p ≤ n)
    (hv : FirstBelow old b p v) (h : Anc new x v) : Anc (mix new old b) x p := by
  induction p using Nat.strong_induction_on with
  | _ p ih =>
    obtain ⟨hvb, hvp, hmax⟩ := hv
    have hv1 := hvp.bounds ha.decreasing h1 hn
    by_cases hpb : p < b
    · obtain rfl : v = p := by
        have := (hmax p hpb (anc_refl old p)).bounds ha.decreasing hv1.1 (by omega)
        omega
      exact (hr.anc_mix_iff ho ha h1 hpb hn).mpr h
    · obtain ⟨hp2, hup⟩ := hvp.strict (by omega)
      have hpar := ha.decreasing p hp2 hn
      have hmix : mix new old b p = old p := if_neg hpb
      have hfirst : FirstBelow old b (old p) v :=
        ⟨hvb, hup, fun y hy hyp => hmax y hy (hyp.up hp2)⟩
      have := ih (old p) hpar.2 hpar.1 (by omega) hfirst
      rw [← hmix] at this
      exact this.up hp2

/-- The new table has no ancestors that the old one has not. -/
theorem Round.anc_of_new (h1 : 1 ≤ p) (hn : p ≤ n) (h : Anc new x p) : Anc old x p :=
  h.mono (hr.decreasing_new ho ha) (fun _ hy hyn => (hr.anc_old ho ha hy hyn).1) h1 hn

theorem Round.forward_new (h2 : 2 ≤ b) (hn : b ≤ n) (hp : p ∈ preds b) (hlt : p < b) :
    Anc new (new b) p :=
  (hr.anc_mix_iff ho ha (ho.pred_pos b p hp) hlt (ho.pred_le b p hp)).mp ((hr b h2 hn).anc hp)

/-- What is an ancestor of every predecessor in the middle of the round is one of the new parent. -/
theorem Round.anc_new_of_mix (h2 : 2 ≤ b) (hn : b ≤ n)
    (h : ∀ p ∈ preds b, Anc (mix new old b) x p) : Anc new x (new b) := by
  have hpar := hr.decreasing_new ho ha b h2 hn
  exact (hr.anc_mix_iff ho ha hpar.1 hpar.2 (by omega)).mp ((hr b h2 hn x).mpr h)

theorem Round.meet_new (h2 : 2 ≤ b) (hn : b ≤ n) (h : ∀ p ∈ preds b, Anc new x p) :
    Anc new x (new b) := by
  obtain ⟨w, hw, hwb⟩ := ho.smaller b h2 hn
  have hxb : x < b := by
    have := (h w hw).bounds (hr.decreasing_new ho ha) (ho.pred_pos b w hw) (ho.pred_le b w hw)
    omega
  refine hr.anc_new_of_mix ho ha h2 hn fun p hp => ?_
  have hp1 := ho.pred_pos b p hp
  have hpn := ho.pred_le b p hp
  obtain ⟨v, hv⟩ := exists_firstBelow ha.decreasing h2 hp1 hpn
  refine hr.anc_mix_of_first ho ha hp1 hpn hv ?_
  -- `x` is an old ancestor of `p` before `b`, so it is not after the first one
  have hv1 := hv.2.1.bounds ha.decreasing hp1 hpn
  have hxv := (hv.2.2 x hxb (hr.anc_of_new ho ha hp1 hpn (h p hp))).bounds ha.decreasing hv1.1 (by omega)
  exact (ha.path ho hp1 hpn hv.2.1).anc hpn
    (fun b h2 hn p hp hlt => hr.forward_new ho ha h2 hn hp hlt) hxv.2 (h p hp)

theorem Round.strict_new (h2 : 2 ≤ b) (hn : b ≤ n) {d : ℕ} (hd : d ≠ b)
    (hdom : Dom (Edge preds) 1 d b) : Anc new d (new b) := by
  induction b using Nat.strong_induction_on with
  | _ b ih =>
    -- a strict dominator is an ancestor, in the new table, of each vertex before `b` it dominates
    have hbelow : ∀ v, 1 ≤ v → v < b → Dom (Edge preds) 1 d v → Anc new d v := by
      intro v hv1 hvb hdv
      exact anc_of_dom hv1 hdv fun hv2 hne => ih v hvb hv2 (by omega) hne hdv
    have hdb : d < b := lt_of_le_of_ne (ho.dom_le (by omega) hn hdom) hd
    refine hr.anc_new_of_mix ho ha h2 hn fun p hp => ?_
    have hp1 := ho.pred_pos b p hp
    have hpn := ho.pred_le b p hp
    have hdp : Dom (Edge preds) 1 d p := hdom.pred hd hp
    obtain ⟨v, hv⟩ := exists_firstBelow ha.decreasing h2 hp1 hpn
    have hv1 := hv.2.1.bounds ha.decreasing hp1 hpn
    refine hr.anc_mix_of_first ho ha hp1 hpn hv (hbelow v hv1.1 hv.1 ?_)
    -- `d` is an old ancestor of `p`, hence not after `v`, and dominates `v` too
    have hdanc : Anc old d p :=
      anc_of_dom hp1 hdp fun hp2 hne => ha.strict p hp2 hpn d hne hdp
    have hdv := (hv.2.2 d hdb hdanc).bounds ha.decreasing hv1.1 (by omega)
    exact ha.dom_anc ho hp1 hpn hv.2.1 hdv.2 hdp

/-- A round takes an approximation to an approximation. -/
theorem Round.approx : Approx preds n new where
  decreasing := hr.decreasing_new ho ha
  forward := fun _ h2 hn _ hp hlt => hr.forward_new ho ha h2 hn hp hlt
  meet := fun _ h2 hn _ h => hr.meet_new ho ha h2 hn h
  strict := fun _ h2 hn _ hd hdom => hr.strict_new ho ha h2 hn hd hdom

/-- A round that changes nothing has reached a closed table. -/
theorem Round.closed (hsame : ∀ b, 2 ≤ b → b ≤ n → new b = old b) : Closed preds n old := by
  intro b h2 hn p hp
  have hmix : ∀ y, 2 ≤ y → y ≤ n → old y = mix new old b y := by
    intro y hy hyn
    unfold mix
    split_ifs with hyb
    · exact (hsame y hy hyn).symm
    · rfl
  have hpn := ho.pred_le b p hp
  have h := (hr b h2 hn).anc hp
  rw [hsame b h2 hn] at h
  exact h.congr (hr.decreasing_mix ho ha b) (ho.pred_pos b p hp) hpn fun y hy hyp => hmix y hy (by omega)

end Rounds

section FirstPass

variable {preds : ℕ → List ℕ} {n : ℕ} {par : ℕ → ℕ} {b : ℕ}

/-- One pass that only looks at the smaller predecessors. -/
def FirstPass (preds : ℕ → List ℕ) (n : ℕ) (par : ℕ → ℕ) : Prop :=
  ∀ b, 2 ≤ b → b ≤ n → IsMeet par ((preds b).filter (· < b)) (par b)

variable (ho : Ordered preds n) (hdec : Decreasing par n) (hf : FirstPass preds n par)
include ho hdec hf

omit hdec in
theorem FirstPass.strict (h2 : 2 ≤ b) (hn : b ≤ n) {d : ℕ} (hd : d ≠ b)
    (hdom : Dom (Edge preds) 1 d b) : Anc par d (par b) := by
  induction b using Nat.strong_induction_on with
  | _ b ih =>
    refine (hf b h2 hn d).mpr fun p hp => ?_
    obtain ⟨hp, hlt⟩ := List.mem_filter.mp hp
    have hpb : p < b := of_decide_eq_true hlt
    have hdp : Dom (Edge preds) 1 d p := hdom.pred hd hp
    exact anc_of_dom (ho.pred_pos b p hp) hdp fun hp2 hne => ih p hpb hp2 (by omega) hne hdp

/-- The first pass yields an approximation. -/
theorem FirstPass.approx : Approx preds n par where
  decreasing := hdec
  forward := fun b h2 hn _ hp hlt => (hf b h2 hn).anc (List.mem_filter.mpr ⟨hp, decide_eq_true hlt⟩)
  meet := fun b h2 hn x h => (hf b h2 hn x).mpr fun p hp => h p (List.mem_filter.mp hp).1
  strict := fun _ h2 hn _ hd hdom => hf.strict ho h2 hn hd hdom

omit ho hdec in
/-- When every other edge leads to an ancestor of its source, the first pass is enough. -/
theorem FirstPass.closed
    (hback : ∀ b, 2 ≤ b → b ≤ n → ∀ p ∈ preds b, b ≤ p → Anc par b p) : Closed preds n par := by
  intro b h2 hn p hp
  by_cases hlt : p < b
  · exact (hf b h2 hn).anc (List.mem_filter.mpr ⟨hp, decide_eq_true hlt⟩)
  · exact (anc_parent h2).trans (hback b h2 hn p hp (by omega))

end FirstPass

end IrJit.DomTable
