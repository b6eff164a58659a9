import IrJit.Cfg.Dominators
import IrJit.Lib.DomTable

/-!
# Cfg.DominatorsSpec — the computed tree is the dominator tree

The single pass is a `FirstPass` of `Lib.DomTable` and each iteration of the fallback a `Round`.  The
check of the back edges stops the pass only when its table is closed; the rounds stop when nothing
changed, and they do stop, since every change makes the sum of the table smaller.
-/

namespace IrJit.Cfg

open ParentTree DomTable Dominance

/-- Every block but the first has a predecessor with a smaller number. -/
def Graph.InOrder (c : Graph) : Prop :=
  ∀ b, 2 ≤ b → b ≤ c.blocksCount → ∃ p ∈ c.predecessors b, p < b

theorem Graph.InOrder.ordered {c : Graph} (h : c.InOrder) : Ordered c.predecessors c.blocksCount where
  pred_pos := fun b p hp => (c.pred_range b p hp).1.1
  pred_le := fun b p hp => (c.pred_range b p hp).1.2
  le := fun b p hp => (c.pred_range b p hp).2.2
  smaller := h

section SinglePass

variable {fuel b n : ℕ} {idom : ℕ → ℕ}

theorem skipBackEdges_spec {l : List ℕ} (worklist : List ℕ) (h : ∃ p ∈ l, p < b) :
    ∃ d ps worklist', skipBackEdges b l worklist = some (d, ps, worklist') ∧ d < b ∧
      (∀ p, p < b → (p ∈ l ↔ p = d ∨ p ∈ ps)) ∧
      ∀ q, (q ∈ worklist' ∨ q ∈ ps ∧ b ≤ q) ↔ q ∈ worklist ∨ q ∈ l ∧ b ≤ q := by
  induction l generalizing worklist with
  | nil => simp at h
  | cons a l ih =>
    by_cases hab : a < b
    · refine ⟨a, l, worklist, if_pos hab, hab, fun p _ => List.mem_cons, fun q => ?_⟩
      have hq : b ≤ q → q ≠ a := by omega
      rw [List.mem_cons]
      tauto
    · obtain ⟨p, hp, hpb⟩ := h
      have hpl : p ∈ l := (List.mem_cons.mp hp).resolve_left (by omega)
      obtain ⟨d, ps, worklist', hskip, hd, hmem, hwork⟩ := ih (a :: worklist) ⟨p, hpl, hpb⟩
      refine ⟨d, ps, worklist', (if_neg hab).trans hskip, hd, fun q hq => ?_, fun q => ?_⟩
      · have hqa : q ≠ a := by omega
        rw [List.mem_cons, ← hmem q hq]
        tauto
      · rw [hwork q, List.mem_cons, List.mem_cons]
        have : q = a → b ≤ q := by omega
        tauto

theorem intersectForward_spec (hdec : Decreasing idom n) (hf : n + n < fuel) {ps : List ℕ} {d : ℕ}
    (worklist : List ℕ) (hd1 : 1 ≤ d) (hdn : d ≤ n) (hps : ∀ p ∈ ps, 1 ≤ p)
    (hbn : ∀ p ∈ ps, p < b → p ≤ n) :
    ∃ m worklist', intersectForward fuel b idom ps d worklist = some (m, worklist') ∧
      (∀ x, Anc idom x m ↔ Anc idom x d ∧ ∀ p ∈ ps, p < b → Anc idom x p) ∧
      ∀ q, q ∈ worklist' ↔ q ∈ worklist ∨ q ∈ ps ∧ b ≤ q := by
  induction ps generalizing d worklist with
  | nil => exact ⟨d, worklist, rfl, fun x => by simp, fun q => by simp⟩
  | cons p ps ih =>
    have hps' : ∀ q ∈ ps, 1 ≤ q := fun q hq => hps q (by simp [hq])
    have hbn' : ∀ q ∈ ps, q < b → q ≤ n := fun q hq => hbn q (by simp [hq])
    by_cases hpb : p < b
    · obtain ⟨m, hm, hm1, hmd, hmeet⟩ := intersect_spec hdec hd1 hdn
        (hps p (by simp)) (hbn p (by simp) hpb) (show d + p < fuel by have := hbn p (by simp) hpb; omega)
      obtain ⟨m', worklist', heq, hmeet', hwork⟩ := ih worklist hm1 (by omega) hps' hbn'
      refine ⟨m', worklist', ?_, fun x => ?_, fun q => ?_⟩
      · rw [intersectForward, if_pos hpb, hm]
        exact heq
      · rw [hmeet', hmeet, and_assoc, List.forall_mem_cons]
        simp only [hpb, forall_const]
      · rw [hwork, List.mem_cons]
        have : b ≤ q → q ≠ p := by omega
        tauto
    · obtain ⟨m, worklist', heq, hmeet, hwork⟩ := ih (p :: worklist) hd1 hdn hps' hbn'
      refine ⟨m, worklist', ?_, fun x => ?_, fun q => ?_⟩
      · rw [intersectForward, if_neg hpb]
        exact heq
      · rw [hmeet, List.forall_mem_cons]
        simp only [hpb, false_implies, true_and]
      · rw [hwork, List.mem_cons, List.mem_cons]
        have : q = p → b ≤ q := by omega
        tauto

/-- What the single pass has established before block `b`. -/
structure PassInv (c : Graph) (b : ℕ) (s : Pass) : Prop where
  decreasing : Decreasing s.idom (b - 1)
  firstPass : FirstPass c.predecessors (b - 1) s.idom
  depth_one : s.domDepth 1 = 0
  depth : ∀ x, 2 ≤ x → x < b → s.domDepth x = s.domDepth (s.idom x) + 1
  worklist : ∀ q, q ∈ s.worklist ↔ ∃ x, (2 ≤ x ∧ x < b) ∧ q ∈ c.predecessors x ∧ x ≤ q

variable {c : Graph} {s : Pass}

/-- The pass at one block takes the meet of the predecessors before it. -/
theorem passBlock_spec (hlt : ∃ p ∈ c.predecessors b, p < b) (hf : 2 * c.blocksCount < fuel)
    (hn : b ≤ c.blocksCount) (hdec : Decreasing s.idom (b - 1)) :
    ∃ m worklist', passBlock fuel c b s =
        some { idom := Function.update s.idom b m
               domDepth := Function.update s.domDepth b (s.domDepth m + 1)
               worklist := worklist' } ∧
      IsMeet s.idom ((c.predecessors b).filter (· < b)) m ∧ 1 ≤ m ∧ m < b ∧
      ∀ q, q ∈ worklist' ↔ q ∈ s.worklist ∨ q ∈ c.predecessors b ∧ b ≤ q := by
  obtain ⟨d, ps, worklist₁, hskip, hdb, hmem, hwork₁⟩ :=
    skipBackEdges_spec s.worklist hlt
  have hd : d ∈ c.predecessors b := (hmem d hdb).mpr (Or.inl rfl)
  have hps : ∀ p ∈ ps, 1 ≤ p := by
    intro p hp
    by_cases hpb : p < b
    · exact (c.pred_range b p ((hmem p hpb).mpr (Or.inr hp))).1.1
    · omega
  obtain ⟨m, worklist', hint, hmeet, hwork⟩ := intersectForward_spec (b := b) hdec
    (show _ < fuel by omega) worklist₁ (c.pred_range b d hd).1.1 (by omega) hps fun p _ hpb => by omega
  have hm : IsMeet s.idom ((c.predecessors b).filter (· < b)) m := by
    intro x
    rw [hmeet]
    simp only [List.mem_filter, decide_eq_true_eq]
    constructor
    · rintro ⟨hxd, hxps⟩ p ⟨hp, hpb⟩
      rcases (hmem p hpb).mp hp with rfl | hp
      · exact hxd
      · exact hxps p hp hpb
    · intro h
      exact ⟨h d ⟨hd, hdb⟩, fun p hp hpb => h p ⟨(hmem p hpb).mpr (Or.inr hp), hpb⟩⟩
  have hbounds := hm.bounds hdec (List.mem_filter.mpr ⟨hd, decide_eq_true hdb⟩)
    (c.pred_range b d hd).1.1 (by omega)
  refine ⟨m, worklist', ?_, hm, hbounds.1, by omega, fun q => (hwork q).trans (hwork₁ q)⟩
  simp only [passBlock, hskip, hint, Option.bind_eq_bind, Option.bind_some]

/-- Writing the parent of a block leaves the ancestors of the blocks before it alone. -/
theorem anc_update_iff {m p x : ℕ} (hdec : Decreasing idom (b - 1)) (h1 : 1 ≤ p) (hpb : p < b) :
    Anc (Function.update idom b m) x p ↔ Anc idom x p := by
  have hdec' : Decreasing (Function.update idom b m) (b - 1) := by
    intro y hy hyb
    rw [Function.update_of_ne (by omega)]
    exact hdec y hy hyb
  constructor
  · intro h
    exact h.congr hdec' h1 (by omega) fun y _ hy => (Function.update_of_ne (by omega) _ _).symm
  · intro h
    exact h.congr hdec h1 (by omega) fun y _ hy => Function.update_of_ne (by omega) _ _

theorem PassInv.step (hlt : ∃ p ∈ c.predecessors b, p < b) (hf : 2 * c.blocksCount < fuel) (hb : 2 ≤ b)
    (hn : b ≤ c.blocksCount) (hi : PassInv c b s) :
    ∃ s', passBlock fuel c b s = some s' ∧ PassInv c (b + 1) s' := by
  obtain ⟨m, worklist', heq, hmeet, hm1, hmb, hwork⟩ := passBlock_spec hlt hf hn hi.decreasing
  have hanc : ∀ x p, 1 ≤ p → p < b →
      (Anc (Function.update s.idom b m) x p ↔ Anc s.idom x p) :=
    fun x p h1 hpb => anc_update_iff hi.decreasing h1 hpb
  refine ⟨_, heq, ?_, ?_, ?_, ?_, ?_⟩
  · intro y hy hyb
    by_cases hyb' : y = b
    · subst hyb'
      simp only [Function.update_self]
      exact ⟨hm1, hmb⟩
    · simp only [Function.update_of_ne hyb']
      exact hi.decreasing y hy (by omega)
  · intro y hy hyb x
    have hfilter : ∀ p ∈ (c.predecessors y).filter (· < y), 1 ≤ p ∧ p < b := by
      intro p hp
      obtain ⟨hp, hpy⟩ := List.mem_filter.mp hp
      exact ⟨(c.pred_range y p hp).1.1, by have := of_decide_eq_true hpy; omega⟩
    have hold : IsMeet s.idom ((c.predecessors y).filter (· < y)) (Function.update s.idom b m y) := by
      by_cases hyb' : y = b
      · subst hyb'
        rw [Function.update_self]
        exact hmeet
      · rw [Function.update_of_ne hyb']
        exact hi.firstPass y hy (by omega)
    have hpar : 1 ≤ Function.update s.idom b m y ∧ Function.update s.idom b m y < b := by
      by_cases hyb' : y = b
      · subst hyb'
        rw [Function.update_self]
        exact ⟨hm1, hmb⟩
      · rw [Function.update_of_ne hyb']
        have := hi.decreasing y hy (by omega)
        exact ⟨this.1, by omega⟩
    refine (hanc x _ hpar.1 hpar.2).trans ((hold x).trans ?_)
    refine forall₂_congr fun p hp => ?_
    exact (hanc x p (hfilter p hp).1 (hfilter p hp).2).symm
  · simp only [Function.update_of_ne (show 1 ≠ b by omega)]
    exact hi.depth_one
  · intro y hy hyb
    by_cases hyb' : y = b
    · subst hyb'
      simp only [Function.update_self, Function.update_of_ne (show m ≠ y by omega)]
    · have := hi.decreasing y hy (by omega)
      simp only [Function.update_of_ne hyb', Function.update_of_ne (show s.idom y ≠ b by omega)]
      exact hi.depth y hy (by omega)
  · intro q
    rw [hwork, hi.worklist]
    constructor
    · rintro (⟨x, hx, hq⟩ | hq)
      · exact ⟨x, ⟨hx.1, by omega⟩, hq⟩
      · exact ⟨b, ⟨hb, by omega⟩, hq⟩
    · rintro ⟨x, hx, hq⟩
      by_cases hxb : x = b
      · exact Or.inr (hxb ▸ hq)
      · exact Or.inl ⟨x, ⟨hx.1, by omega⟩, hq⟩

/-- The single pass finishes, with its invariant for all blocks. -/
theorem singlePass_spec (hc : c.InOrder) (hf : 2 * c.blocksCount < fuel) :
    ∃ s, singlePass fuel c = some s ∧ PassInv c (2 + (c.blocksCount - 1)) s := by
  refine ascend_spec (PassInv c) ?_ fun b s hlo hlt hi =>
    hi.step (hc b hlo (by omega)) hf hlo (by omega)
  refine ⟨fun b h2 hb => by omega, fun b h2 hb => by omega, rfl, fun x h2 hx => by omega, fun q => ?_⟩
  constructor
  · intro h
    simp at h
  · rintro ⟨x, hx, _⟩
    omega

end SinglePass

section Complete

variable {fuel n : ℕ} {c : Graph} {s : Pass}

/-- The climb stops at an ancestor. -/
theorem climb_spec (hdec : Decreasing s.idom n) (hone : s.domDepth 1 = 0) (depth : ℕ) {b : ℕ}
    (h1 : 1 ≤ b) (hn : b ≤ n) (hf : b < fuel) :
    ∃ a, climb s depth fuel b = some a ∧ Anc s.idom a b := by
  induction fuel generalizing b with
  | zero => omega
  | succ fuel ih =>
    rw [climb]
    by_cases hd : s.domDepth b > depth
    · have hb : 2 ≤ b := by
        by_contra hb
        obtain rfl : b = 1 := by omega
        omega
      obtain ⟨hp1, hp⟩ := hdec b hb hn
      obtain ⟨a, ha, hanc⟩ := ih hp1 (by omega) (by omega)
      rw [if_pos hd]
      exact ⟨a, ha, hanc.up hb⟩
    · rw [if_neg hd]
      exact ⟨b, rfl, anc_refl s.idom b⟩

/-- When the check passes, each back edge in the worklist leads to an ancestor. -/
theorem complete_spec (hdec : Decreasing s.idom n) (hone : s.domDepth 1 = 0) (hf : n < fuel)
    {worklist : List ℕ} (hw : ∀ q ∈ worklist, 1 ≤ q ∧ q ≤ n) :
    ∃ r, complete fuel c s worklist = some r ∧
      (r = true → ∀ q ∈ worklist, ∃ t, loopTarget c q = some t ∧ Anc s.idom t q) := by
  induction worklist with
  | nil => exact ⟨true, rfl, fun _ q hq => by simp at hq⟩
  | cons q worklist ih =>
    rw [complete]
    rcases htarget : loopTarget c q with _ | t
    · exact ⟨false, rfl, fun h => by simp at h⟩
    · obtain ⟨hq1, hqn⟩ := hw q (by simp)
      obtain ⟨a, ha, hanc⟩ := climb_spec hdec hone (s.domDepth t) hq1 hqn (show _ < fuel by omega)
      simp only [ha, Option.bind_some]
      by_cases hat : a = t
      · obtain ⟨r, hr, hall⟩ := ih fun p hp => hw p (by simp [hp])
        rw [if_neg (by simpa using hat)]
        refine ⟨r, hr, fun hr => ?_⟩
        rintro p hp
        rcases List.mem_cons.mp hp with rfl | hp
        · exact ⟨t, htarget, hat ▸ hanc⟩
        · exact hall hr p hp
      · rw [if_pos hat]
        exact ⟨false, rfl, fun h => by simp at h⟩

/-- The target the check looks at is the target of the back edge. -/
theorem loopTarget_eq (hc : c.InOrder) {b q t : ℕ} (h2 : 2 ≤ b) (hq : q ∈ c.predecessors b)
    (hback : b ≤ q) (ht : loopTarget c q = some t) : t = b := by
  have hb : b ∈ c.successors q := (c.mem_successors q b).mpr hq
  -- a block with a back edge also has a smaller predecessor, so it is no `ENTRY`
  have hentry : c.isEntry b = false := by
    by_contra he
    obtain ⟨p, hp, hpb⟩ := hc b h2 (c.pred_range b q hq).2.2
    have hlen := c.entry_pred b (by simpa using he)
    have hpos := List.length_pos_of_mem hq
    obtain ⟨z, hz⟩ := List.length_eq_one_iff.mp (show (c.predecessors b).length = 1 by omega)
    rw [hz, List.mem_singleton] at hp hq
    omega
  unfold loopTarget at ht
  split at ht
  · rename_i u hu
    rw [hu, List.mem_singleton] at hb
    simp only [Option.some.injEq] at ht
    omega
  · rename_i u v huv
    rw [huv] at hb
    have hb' : b = u ∨ b = v := by simpa using hb
    split_ifs at ht with hu hv
    · simp only [Option.some.injEq] at ht
      rcases hb' with rfl | rfl
      · rw [hentry] at hu
        simp at hu
      · exact ht.symm
    · simp only [Option.some.injEq] at ht
      rcases hb' with rfl | rfl
      · exact ht.symm
      · rw [hentry] at hv
        simp at hv
  · simp at ht

end Complete

section Iterative

variable {fuel n b : ℕ} {idom old : ℕ → ℕ} {c : Graph}

theorem intersectKnown_spec (hdec : Decreasing idom n) (hf : n + n < fuel) {ps : List ℕ} {d : ℕ}
    (hd1 : 1 ≤ d) (hdn : d ≤ n) (hps : ∀ p ∈ ps, (1 ≤ p ∧ p ≤ n) ∧ idom p > 0) :
    ∃ m, intersectKnown fuel idom ps d = some m ∧
      ∀ x, Anc idom x m ↔ Anc idom x d ∧ ∀ p ∈ ps, Anc idom x p := by
  induction ps generalizing d with
  | nil => exact ⟨d, rfl, fun x => by simp⟩
  | cons p ps ih =>
    obtain ⟨⟨hp1, hpn⟩, hpos⟩ := hps p (by simp)
    obtain ⟨m, hm, hm1, hmd, hmeet⟩ := intersect_spec hdec hd1 hdn hp1 hpn (show d + p < fuel by omega)
    obtain ⟨m', hm', hmeet'⟩ := ih hm1 (by omega) fun q hq => hps q (by simp [hq])
    refine ⟨m', ?_, fun x => ?_⟩
    · rw [intersectKnown, if_pos hpos, hm]
      exact hm'
    · rw [hmeet', hmeet, and_assoc, List.forall_mem_cons]

/-- A round at one block takes the meet of all its predecessors. -/
theorem roundBlock_spec (hc : c.InOrder) (hf : 2 * c.blocksCount < fuel) (h2 : 2 ≤ b)
    (hn : b ≤ c.blocksCount) (hdec : Decreasing idom c.blocksCount) (hone : idom 1 > 0)
    (changed : Bool) :
    ∃ m changed', roundBlock fuel c b (idom, changed) = some (Function.update idom b m, changed') ∧
      IsMeet idom (c.predecessors b) m ∧ (changed' = true ↔ changed = true ∨ idom b ≠ m) := by
  have hpos : ∀ p, 1 ≤ p → p ≤ c.blocksCount → idom p > 0 := by
    intro p hp1 hpn
    by_cases hp : 2 ≤ p
    · exact (hdec p hp hpn).1
    · obtain rfl : p = 1 := by omega
      exact hone
  have hrange : ∀ p ∈ c.predecessors b, (1 ≤ p ∧ p ≤ c.blocksCount) ∧ idom p > 0 := by
    intro p hp
    have hp' := (c.pred_range b p hp).1
    exact ⟨hp', hpos p hp'.1 hp'.2⟩
  obtain ⟨p, hp, _⟩ := hc b h2 hn
  rcases hl : c.predecessors b with _ | ⟨d, ps⟩
  · simp [hl] at hp
  · rw [hl] at hrange
    obtain ⟨⟨hd1, hdn⟩, hdpos⟩ := hrange d (by simp)
    obtain ⟨m, hm, hmeet⟩ := intersectKnown_spec hdec (show _ < fuel by omega) hd1 hdn
      fun q hq => hrange q (List.mem_cons_of_mem d hq)
    have hskip : skipUnknown idom (d :: ps) = some (d, ps) := if_neg (by omega)
    refine ⟨m, changed || decide (idom b ≠ m), ?_, fun x => ?_, by simp⟩
    · simp only [roundBlock, hl, hskip, hm, Option.bind_some]
      by_cases hbm : idom b = m
      · have hself : Function.update idom b m = idom := by
          rw [← hbm]
          exact Function.update_eq_self b idom
        simp [hbm, hself]
      · simp [hbm]
    · rw [hmeet, List.forall_mem_cons]

/-- What a round has established before block `b`. -/
structure RoundInv (c : Graph) (old : ℕ → ℕ) (b : ℕ) (s : (ℕ → ℕ) × Bool) : Prop where
  rest : ∀ x, x < 2 ∨ b ≤ x → s.1 x = old x
  meets : ∀ x, 2 ≤ x → x < b → IsMeet (mix s.1 old x) (c.predecessors x) (s.1 x)
  changed : s.2 = true ↔ ∃ x, (2 ≤ x ∧ x < b) ∧ s.1 x ≠ old x

theorem RoundInv.step (hc : c.InOrder) (hf : 2 * c.blocksCount < fuel) (h2 : 2 ≤ b)
    (hn : b ≤ c.blocksCount) (ha : Approx c.predecessors c.blocksCount old) (hone : old 1 > 0)
    {s : (ℕ → ℕ) × Bool} (hi : RoundInv c old b s) :
    ∃ s', roundBlock fuel c b s = some s' ∧ RoundInv c old (b + 1) s' := by
  have hmix : mix s.1 old b = s.1 := by
    ext x
    unfold mix
    split_ifs with hx
    · rfl
    · exact (hi.rest x (by omega)).symm
  have hdec : Decreasing s.1 c.blocksCount := by
    rw [← hmix]
    refine mix_decreasing ha.decreasing fun y hy hyb hyn => ?_
    exact (anc_old_of_meets hc.ordered ha hy hyn fun z hz hzy => hi.meets z hz (by omega)).2
  have hone' : s.1 1 > 0 := by
    rw [hi.rest 1 (by omega)]
    exact hone
  obtain ⟨m, changed', heq, hmeet, hchanged⟩ := roundBlock_spec hc hf h2 hn hdec hone' s.2
  -- the write at `b` is not read by the blocks up to `b`
  have hkeep : ∀ x, x ≤ b → mix (Function.update s.1 b m) old x = mix s.1 old x := by
    intro x hx
    ext y
    unfold mix
    split_ifs with hy
    · exact Function.update_of_ne (by omega) _ _
    · rfl
  refine ⟨_, heq, ?_, ?_, ?_⟩
  · intro x hx
    have hxb : x ≠ b := by omega
    simp only [Function.update_of_ne hxb]
    exact hi.rest x (by omega)
  · intro x hx hxb
    simp only [hkeep x (by omega)]
    by_cases hxb' : x = b
    · subst hxb'
      simp only [Function.update_self, hmix]
      exact hmeet
    · simp only [Function.update_of_ne hxb']
      exact hi.meets x hx (by omega)
  · simp only
    rw [hchanged, hi.changed, hi.rest b (by omega)]
    constructor
    · rintro (⟨x, hx, hne⟩ | hne)
      · exact ⟨x, ⟨hx.1, by omega⟩, by rwa [Function.update_of_ne (by omega)]⟩
      · exact ⟨b, ⟨h2, by omega⟩, by rw [Function.update_self]; exact hne.symm⟩
    · rintro ⟨x, hx, hne⟩
      by_cases hxb : x = b
      · subst hxb
        rw [Function.update_self] at hne
        exact Or.inr hne.symm
      · rw [Function.update_of_ne hxb] at hne
        exact Or.inl ⟨x, ⟨hx.1, by omega⟩, hne⟩

/-- A round over all blocks is a `Round`, and the flag tells whether it changed the table. -/
theorem round_spec (hc : c.InOrder) (hf : 2 * c.blocksCount < fuel)
    (ha : Approx c.predecessors c.blocksCount old) (hone : old 1 > 0) :
    ∃ s, round fuel c old = some s ∧ Round c.predecessors c.blocksCount old s.1 ∧ s.1 1 = old 1 ∧
      (s.2 = true ↔ ∃ x, (2 ≤ x ∧ x ≤ c.blocksCount) ∧ s.1 x ≠ old x) := by
  have hinit : RoundInv c old 2 (old, false) := by
    refine ⟨fun x _ => rfl, fun x h2 hx => by omega, ?_⟩
    constructor
    · intro h
      simp at h
    · rintro ⟨x, hx, _⟩
      omega
  obtain ⟨s, hs, hi⟩ := ascend_spec (f := roundBlock fuel c) (RoundInv c old)
    (k := c.blocksCount - 1) hinit fun b s hlo hlt hi => hi.step hc hf hlo (by omega) ha hone
  refine ⟨s, hs, fun b h2 hn => hi.meets b h2 (by omega), hi.rest 1 (by omega), ?_⟩
  rw [hi.changed]
  refine exists_congr fun x => and_congr_left fun _ => ?_
  omega

/-- The sum of the table, which every round that changes something makes smaller. -/
def total (n : ℕ) (idom : ℕ → ℕ) : ℕ := ∑ b ∈ Finset.Icc 2 n, idom b

theorem total_le (hdec : Decreasing idom n) : total n idom ≤ n * n := by
  have hle : total n idom ≤ (Finset.Icc 2 n).card • n := by
    refine Finset.sum_le_card_nsmul _ _ _ fun b hb => ?_
    obtain ⟨h2, hn⟩ := Finset.mem_Icc.mp hb
    have := hdec b h2 hn
    omega
  have hcard : (Finset.Icc 2 n).card ≤ n := by
    rw [Nat.card_Icc]
    omega
  calc total n idom ≤ (Finset.Icc 2 n).card • n := hle
    _ = (Finset.Icc 2 n).card * n := Nat.nsmul_eq_mul _ _
    _ ≤ n * n := Nat.mul_le_mul_right n hcard

theorem total_lt_of_round {preds : ℕ → List ℕ} {new : ℕ → ℕ} (ho : Ordered preds n)
    (ha : Approx preds n old) (hr : Round preds n old new)
    (hne : ∃ x, (2 ≤ x ∧ x ≤ n) ∧ new x ≠ old x) : total n new < total n old := by
  obtain ⟨x, hx, hne⟩ := hne
  have hle : ∀ b ∈ Finset.Icc 2 n, new b ≤ old b := by
    intro b hb
    obtain ⟨h2, hn⟩ := Finset.mem_Icc.mp hb
    exact hr.le_old ho ha h2 hn
  refine Finset.sum_lt_sum hle ⟨x, Finset.mem_Icc.mpr hx, ?_⟩
  exact lt_of_le_of_ne (hle x (Finset.mem_Icc.mpr hx)) hne

/-- The rounds stop at a closed approximation. -/
theorem rounds_spec (hc : c.InOrder) (hf : 2 * c.blocksCount < fuel) {k : ℕ}
    (ha : Approx c.predecessors c.blocksCount old) (hone : old 1 > 0)
    (hk : total c.blocksCount old < k) :
    ∃ idom, rounds fuel c k old = some idom ∧ Approx c.predecessors c.blocksCount idom ∧
      Closed c.predecessors c.blocksCount idom := by
  induction k generalizing old with
  | zero => omega
  | succ k ih =>
    obtain ⟨s, hs, hr, hs1, hchanged⟩ := round_spec hc hf ha hone
    rw [rounds, hs]
    simp only [Option.bind_some]
    by_cases h : s.2 = true
    · have hlt := total_lt_of_round hc.ordered ha hr (hchanged.mp h)
      obtain ⟨idom, hidom, hres⟩ := ih (hr.approx hc.ordered ha) (by omega) (by omega)
      rw [if_pos h]
      exact ⟨idom, hidom, hres⟩
    · have hsame : ∀ x, 2 ≤ x → x ≤ c.blocksCount → s.1 x = old x := by
        intro x h2 hn
        by_contra hne
        exact h (hchanged.mpr ⟨x, ⟨h2, hn⟩, hne⟩)
      have hcl : Closed c.predecessors c.blocksCount s.1 := by
        intro b h2 hn p hp
        rw [hsame b h2 hn]
        exact (hr.closed hc.ordered ha hsame b h2 hn p hp).congr ha.decreasing
          (hc.ordered.pred_pos b p hp) (hc.ordered.pred_le b p hp)
          fun y hy hyp => hsame y hy (le_trans hyp (hc.ordered.pred_le b p hp))
      rw [if_neg h]
      exact ⟨s.1, rfl, hr.approx hc.ordered ha, hcl⟩

end Iterative

section Tables

variable {n : ℕ} {idom : ℕ → ℕ}

theorem depths_spec (hdec : Decreasing idom n) :
    depths n idom 1 = 0 ∧ ∀ b, 2 ≤ b → b ≤ n → depths n idom b = depths n idom (idom b) + 1 := by
  have hgen : ∀ k, k ≤ n - 1 →
      let depth := (List.range' 2 k).foldl
        (fun depth b => Function.update depth b (depth (idom b) + 1)) (fun _ : ℕ => 0)
      depth 1 = 0 ∧ ∀ b, 2 ≤ b → b < 2 + k → depth b = depth (idom b) + 1 := by
    intro k
    induction k with
    | zero => exact fun _ => ⟨rfl, fun b h2 hb => by omega⟩
    | succ k ih =>
      intro hk
      obtain ⟨hone, hrec⟩ := ih (by omega)
      simp only [List.range'_concat, List.foldl_append, List.foldl_cons, List.foldl_nil]
      refine ⟨?_, fun b h2 hb => ?_⟩
      · rw [Function.update_of_ne (by omega)]
        exact hone
      · have hb' := hdec b h2 (by omega)
        rw [Function.update_of_ne (a := idom b) (by omega)]
        by_cases hbk : b = 2 + 1 * k
        · rw [hbk, Function.update_self]
        · rw [Function.update_of_ne hbk]
          exact hrec b h2 (by omega)
  obtain ⟨hone, hrec⟩ := hgen (n - 1) (le_refl _)
  exact ⟨hone, fun b h2 hn => hrec b h2 (by omega)⟩

/-- The children lists hold the blocks with that immediate dominator, in ascending order. -/
theorem linkChildren_spec (n : ℕ) (idom : ℕ → ℕ) :
    HashChain.Chained (linkChildren n idom).1 (linkChildren n idom).2 idom (List.range' 2 (n - 1)) := by
  have hgen : ∀ l : List ℕ, l.Nodup → (∀ b ∈ l, b ≠ 0) →
      let s := l.foldr
        (fun b s => (Function.update s.1 (idom b) b, Function.update s.2 b (s.1 (idom b))))
        ((fun _ => 0, fun _ => 0) : (ℕ → ℕ) × (ℕ → ℕ))
      HashChain.Chained s.1 s.2 idom l := by
    intro l
    induction l with
    | nil => exact fun _ _ => HashChain.chained_nil
    | cons b l ih =>
      intro hnd hne
      obtain ⟨hb, hnd⟩ := List.nodup_cons.mp hnd
      exact (ih hnd fun x hx => hne x (by simp [hx])).push (hne b (by simp)) hb
  refine hgen _ List.nodup_range' fun b hb => ?_
  have := List.mem_range'_1.mp hb
  omega

end Tables

/-- `t` is the dominator tree of `c`, with its depths and its children lists. -/
structure DomTree.Correct (c : Graph) (t : DomTree) : Prop where
  isIdom : ∀ b, 2 ≤ b → b ≤ c.blocksCount → IsIdom (Edge c.predecessors) 1 (t.idom b) b
  depth_root : t.domDepth 1 = 0
  depth : ∀ b, 2 ≤ b → b ≤ c.blocksCount → t.domDepth b = t.domDepth (t.idom b) + 1
  children : ∀ d, HashChain.Chain t.domNextChild (t.domChild d)
    ((List.range' 2 (c.blocksCount - 1)).filter fun b => t.idom b = d)

section Build

variable {fuel : ℕ} {c : Graph} {idom depth : ℕ → ℕ}

/-- A closed approximation with its depths finishes as the dominator tree. -/
theorem finish_correct (hc : c.InOrder) (ha : Approx c.predecessors c.blocksCount idom)
    (hcl : Closed c.predecessors c.blocksCount idom) (hone : depth 1 = 0)
    (hdepth : ∀ b, 2 ≤ b → b ≤ c.blocksCount → depth b = depth (idom b) + 1) (noLoops : Bool) :
    (finish c idom depth noLoops).Correct c :=
  ⟨fun _ h2 hn => ha.isIdom hc.ordered hcl h2 hn, hone, hdepth, linkChildren_spec c.blocksCount idom⟩

/-- Ancestors do not depend on the entry of the root. -/
theorem anc_update_one {x p v n : ℕ} (hdec : Decreasing idom n) (h1 : 1 ≤ p) (hn : p ≤ n)
    (h : Anc idom x p) : Anc (Function.update idom 1 v) x p :=
  h.congr hdec h1 hn fun y hy _ => Function.update_of_ne (by omega) _ _

theorem decreasing_update_one {v n : ℕ} (hdec : Decreasing idom n) :
    Decreasing (Function.update idom 1 v) n := by
  intro b h2 hn
  rw [Function.update_of_ne (by omega)]
  exact hdec b h2 hn

theorem approx_update_one {v n : ℕ} {preds : ℕ → List ℕ} (ho : Ordered preds n)
    (ha : Approx preds n idom) : Approx preds n (Function.update idom 1 v) := by
  have hpar : ∀ b, 2 ≤ b → Function.update idom 1 v b = idom b :=
    fun b h2 => Function.update_of_ne (by omega) _ _
  have hback : ∀ x p, 1 ≤ p → p ≤ n → Anc (Function.update idom 1 v) x p → Anc idom x p := by
    intro x p h1 hn h
    exact h.congr (decreasing_update_one ha.decreasing) h1 hn fun y hy _ => (hpar y hy).symm
  refine ⟨decreasing_update_one ha.decreasing, ?_, ?_, ?_⟩
  · intro b h2 hn p hp hlt
    rw [hpar b h2]
    exact anc_update_one ha.decreasing (ho.pred_pos b p hp) (ho.pred_le b p hp)
      (ha.forward b h2 hn p hp hlt)
  · intro b h2 hn x h
    have hb := ha.decreasing b h2 hn
    rw [hpar b h2]
    refine anc_update_one ha.decreasing hb.1 (by omega) (ha.meet b h2 hn x fun p hp => ?_)
    exact hback x p (ho.pred_pos b p hp) (ho.pred_le b p hp) (h p hp)
  · intro b h2 hn d hd hdom
    have hb := ha.decreasing b h2 hn
    rw [hpar b h2]
    exact anc_update_one ha.decreasing hb.1 (by omega) (ha.strict b h2 hn d hd hdom)

theorem closed_update_one {v n : ℕ} {preds : ℕ → List ℕ} (ho : Ordered preds n)
    (hdec : Decreasing idom n) (hcl : Closed preds n idom) :
    Closed preds n (Function.update idom 1 v) := by
  intro b h2 hn p hp
  rw [Function.update_of_ne (by omega)]
  exact anc_update_one hdec (ho.pred_pos b p hp) (ho.pred_le b p hp) (hcl b h2 hn p hp)

theorem buildDominatorsTreeIterative_correct (hc : c.InOrder)
    (hf : c.blocksCount * c.blocksCount + 2 * c.blocksCount < fuel)
    (ha : Approx c.predecessors c.blocksCount idom) (noLoops : Bool) :
    ∃ t, buildDominatorsTreeIterative fuel c idom noLoops = some t ∧ t.Correct c := by
  have hstart := approx_update_one (v := 1) hc.ordered ha
  have htotal := total_le hstart.decreasing
  obtain ⟨idom', hrounds, ha', hcl⟩ := rounds_spec hc (show _ < fuel by omega) hstart
    (by rw [Function.update_self]; omega) (show _ < fuel by omega)
  have ha₀ := approx_update_one (v := 0) hc.ordered ha'
  obtain ⟨hone, hdepth⟩ := depths_spec ha₀.decreasing
  have hcl₀ := closed_update_one (v := 0) hc.ordered ha'.decreasing hcl
  refine ⟨_, ?_, finish_correct hc ha₀ hcl₀ hone hdepth noLoops⟩
  simp only [buildDominatorsTreeIterative, hrounds, Option.bind_eq_bind, Option.bind_some]

theorem buildDominatorsTree_some (hc : c.InOrder)
    (hf : c.blocksCount * c.blocksCount + 2 * c.blocksCount < fuel) :
    ∃ t, buildDominatorsTree fuel c = some t ∧ t.Correct c := by
  obtain ⟨s, hs, hi⟩ := singlePass_spec hc (show _ < fuel by omega)
  have hlast : ∀ x, 2 ≤ x → x ≤ c.blocksCount → x ≤ 2 + (c.blocksCount - 1) - 1 := by omega
  have hdec : Decreasing s.idom c.blocksCount := fun x h2 hn => hi.decreasing x h2 (hlast x h2 hn)
  have hfirst : FirstPass c.predecessors c.blocksCount s.idom :=
    fun x h2 hn => hi.firstPass x h2 (hlast x h2 hn)
  have hdec₀ : Decreasing (Function.update s.idom 1 0) c.blocksCount := decreasing_update_one hdec
  have ha₀ := approx_update_one (v := 0) hc.ordered (hfirst.approx hc.ordered hdec)
  have hrange : ∀ q ∈ s.worklist, 1 ≤ q ∧ q ≤ c.blocksCount := by
    intro q hq
    obtain ⟨x, _, hx, _⟩ := (hi.worklist q).mp hq
    exact (c.pred_range x q hx).1
  obtain ⟨r, hr, hback⟩ := complete_spec (c := c) (s := { s with idom := Function.update s.idom 1 0 })
    hdec₀ hi.depth_one (show _ < fuel by omega) hrange
  simp only [buildDominatorsTree, hs, hr, Option.bind_eq_bind, Option.bind_some]
  by_cases hrt : r = true
  · rw [if_pos hrt]
    refine ⟨_, rfl, finish_correct hc ha₀ ?_ hi.depth_one ?_ _⟩
    · refine closed_update_one hc.ordered hdec (hfirst.closed fun b h2 hn p hp hbp => ?_)
      -- the back edge was pushed, and the check has found its target among the ancestors
      obtain ⟨t, ht, hanc⟩ :=
        hback hrt p ((hi.worklist p).mpr ⟨b, ⟨h2, by omega⟩, hp, hbp⟩)
      obtain rfl := loopTarget_eq hc h2 hp hbp ht
      have hp' := (c.pred_range t p hp).1
      exact hanc.congr hdec₀ hp'.1 hp'.2 fun y hy _ => (Function.update_of_ne (by omega) _ _).symm
    · intro b h2 hn
      simp only [Function.update_of_ne (show b ≠ 1 by omega)]
      exact hi.depth b h2 (by omega)
  · rw [if_neg hrt]
    exact buildDominatorsTreeIterative_correct hc hf ha₀ _

/-- Whenever every block but the first has a predecessor with a smaller number (it is then reachable
too), `ir_build_dominators_tree` returns the dominator tree of the graph, from its single pass or from
the iterative fallback. -/
theorem buildDominatorsTree_correct (c : Graph) (hc : c.InOrder)
    (hf : c.blocksCount * c.blocksCount + 2 * c.blocksCount < fuel) :
    ∃ t, buildDominatorsTree fuel c = some t ∧ t.Correct c :=
  buildDominatorsTree_some hc hf

def irreduciblePreds : ℕ → List ℕ
  | 2 => [1, 3]
  | 3 => [1, 2]
  | _ => []

def irreducibleSuccs : ℕ → List ℕ
  | 1 => [2, 3]
  | 2 => [3]
  | 3 => [2]
  | _ => []

theorem irreduciblePreds_range (b p : ℕ) (hp : p ∈ irreduciblePreds b) :
    (1 ≤ p ∧ p ≤ 3) ∧ 1 ≤ b ∧ b ≤ 3 := by
  unfold irreduciblePreds at hp
  split at hp <;> simp at hp <;> omega

theorem mem_irreducibleSuccs (p b : ℕ) : b ∈ irreducibleSuccs p ↔ p ∈ irreduciblePreds b := by
  unfold irreducibleSuccs irreduciblePreds
  constructor
  · intro h
    split at h <;> simp at h <;> rcases h with rfl | rfl <;> simp
  · intro h
    split at h <;> simp at h <;> rcases h with rfl | rfl <;> simp

/-- Blocks 2 and 3 form a loop that is entered at both. -/
def irreducible : Graph where
  blocksCount := 3
  predecessors := irreduciblePreds
  successors := irreducibleSuccs
  isEntry := fun _ => false
  pred_range := irreduciblePreds_range
  mem_successors := mem_irreducibleSuccs
  entry_pred := nofun

theorem irreducible_tree : irreducible.InOrder ∧
    ∃ t, buildDominatorsTree 16 irreducible = some t ∧ t.Correct irreducible := by
  have hc : irreducible.InOrder := by
    intro b h2 hn
    have hb : b = 2 ∨ b = 3 := by
      simp only [irreducible] at hn
      omega
    rcases hb with rfl | rfl
    · exact ⟨1, by decide, by omega⟩
    · exact ⟨1, by decide, by omega⟩
  exact ⟨hc, buildDominatorsTree_correct irreducible hc (by simp [irreducible])⟩

end Build

end IrJit.Cfg
