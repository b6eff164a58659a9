import IrJit.Ra.LiveSets

/-!
# Ra.Wf — scheduled functions in SSA form

`Wf` is what holds of the function when `ir_compute_live_ranges` starts: blocks are contiguous and
numbered such that each but the first has a predecessor before it, definitions dominate their uses,
use lists are the inverse of the operands, and the rules of the selector keep their conventions.
-/

namespace IrJit.Ra

namespace Prog

variable (P : Prog)

/-- `b` is the number of a block. -/
def InRange (b : ℕ) : Prop := 1 ≤ b ∧ b ≤ P.blocksCount

/-- Block `b` is reached from the first block without entering `a`. -/
def ReachAvoid (a b : ℕ) : Prop :=
  a ≠ 1 ∧ Relation.ReflTransGen (fun x y => x ∈ (P.block y).preds ∧ y ≠ a) 1 b

/-- Every path from the first block to `b` enters `a`. -/
def Dom (a b : ℕ) : Prop := ¬ P.ReachAvoid a b

/-- Code is generated for `u` in block `b`. -/
def Emitted (b u : ℕ) : Prop := u ∈ (P.block b).body ∧ P.isSkipped u = false

end Prog

/-- A scheduled function with virtual registers assigned. -/
structure Wf (P : Prog) : Prop where
  body_mem : ∀ b, ∀ u ∈ (P.block b).body, P.InRange b ∧ (P.block b).start < u ∧ u ≤ (P.block b).last ∧
    u < P.insnsCount ∧ P.cfgMap u = b
  body_sorted : ∀ b, (P.block b).body.Pairwise (· < ·)
  block_le : ∀ b, P.InRange b → (P.block b).start ≤ (P.block b).last
  block_lt : ∀ b c, P.InRange b → P.InRange c → b < c → (P.block b).last < (P.block c).start
  preds_range : ∀ b, P.InRange b → ∀ p ∈ (P.block b).preds, P.InRange p
  pred_lt : ∀ b, P.InRange b → b ≠ 1 → ∃ p ∈ (P.block b).preds, p < b
  /-- virtual registers are given to instructions of the blocks, each its own -/
  vreg_body : ∀ i, P.vregs i ≠ 0 → i ∈ (P.block (P.cfgMap i)).body
  vreg_inj : ∀ i j, P.vregs i ≠ 0 → P.vregs i = P.vregs j → i = j
  uses : ∀ i, P.vregs i ≠ 0 ∨ P.isFused i = true → ∀ u, u ∈ P.useLists i ↔
    u ∈ (P.block (P.cfgMap u)).body ∧ (i : ℤ) ∈ (P.insn u).ops
  /-- operands come first, except those of a PHI -/
  ops_lt : ∀ b, ∀ u ∈ (P.block b).body, P.isPhi u = false → ∀ x ∈ (P.insn u).ops, x < u
  dom : ∀ b, ∀ u ∈ (P.block b).body, P.isPhi u = false → ∀ x : ℕ, 0 < x → (x : ℤ) ∈ (P.insn u).ops →
    P.Dom (P.cfgMap x) b
  phi_dom : ∀ b, ∀ u ∈ (P.block b).body, P.isPhi u = true → ∀ x : ℕ, ∀ src : ℤ,
    ((x : ℤ), src) ∈ P.phiInputs u → P.InRange (P.cfgMap src.toNat) ∧
      (P.vregs x ≠ 0 → P.Dom (P.cfgMap x) (P.cfgMap src.toNat))
  phi_emitted : ∀ b, ∀ u ∈ (P.block b).body, P.isPhi u = true → P.isSkipped u = false ∧ P.vregs u ≠ 0
  /-- what is fused or skipped has no register -/
  skipped_vreg : ∀ u, P.isSkipped u = true → P.vregs u = 0
  fused_body : ∀ u, P.isFused u = true → u ∈ (P.block (P.cfgMap u)).body ∧ (P.insn u).ops.length ≤ 3
  /-- no fused instruction is the operand of a PHI -/
  fused_phi : ∀ x, P.isFused x = true → ∀ u ∈ P.useLists x, P.isPhi u = false
  /-- what is fused and skipped, a static ALLOCA, reads no register -/
  fused_static : ∀ u, P.isFused u = true → P.isExpanded u = false → ∀ x, P.DataRef u x →
    P.vregs x = 0 ∧ P.isFused x = false
  /-- what a skipped instruction reads is read by an emitted one further down in the block -/
  skipped_reads : ∀ b, ∀ u ∈ (P.block b).body, P.isSkipped u = true → P.isFused u = false →
    ∀ i, P.vregs i ≠ 0 → P.UsedBy i u → ∃ u', u < u' ∧ P.Emitted b u' ∧ P.isPhi u' = false ∧ P.UsedBy i u'
  /-- no register but that of a PHI is dead -/
  has_use : ∀ i, P.vregs i ≠ 0 → P.isPhi i = false →
    ∃ b u, P.Emitted b u ∧ P.isPhi u = false ∧ P.UsedBy i u
  snapshot : ∀ b u, P.Emitted b u → P.vregs u = 0 → (P.constraintsOf u).extendNext = true →
    u < P.nextControl u ∧ P.nextControl u ≤ (P.block b).last ∧
      ∀ x : ℕ, 0 < x → P.DataRef u x → P.vregs x ≠ 0
  /-- END and LOOP_END have a control input only -/
  end_ops : ∀ b u, u ∈ (P.block b).body → (P.insn u).op = .endOp ∨ (P.insn u).op = .loopEnd →
    P.vregs u = 0 ∧ P.dataOps u = []

namespace Wf

variable {P : Prog} (W : Wf P)

include W

/-! ### Dominance -/

theorem reachAvoid_of_lt {a : ℕ} : ∀ {b : ℕ}, P.InRange b → b < a → P.ReachAvoid a b := by
  intro b
  induction b using Nat.strong_induction_on with
  | _ b ih =>
    intro hb hlt
    by_cases h1 : b = 1
    · subst h1
      exact ⟨by omega, Relation.ReflTransGen.refl⟩
    · obtain ⟨p, hp, hpb⟩ := W.pred_lt b hb h1
      obtain ⟨ha, hpath⟩ := ih p hpb (W.preds_range b hb p hp) (by omega)
      exact ⟨ha, hpath.tail ⟨hp, by omega⟩⟩

/-- Dominators have smaller numbers. -/
theorem dom_le {a b : ℕ} (hb : P.InRange b) (h : P.Dom a b) : a ≤ b := by
  by_contra hlt
  exact h (W.reachAvoid_of_lt hb (by omega))

omit W in
theorem dom_trans {a b c : ℕ} (h : P.Dom a b) (h' : P.Dom b c) : P.Dom a c := by
  rintro ⟨ha, hpath⟩
  -- the path either avoids `b` as well, or reaches it
  have hor : P.ReachAvoid b c ∨ P.ReachAvoid a b := by
    induction hpath with
    | refl =>
      by_cases hb : b = 1
      · subst hb
        exact Or.inr ⟨ha, Relation.ReflTransGen.refl⟩
      · exact Or.inl ⟨hb, Relation.ReflTransGen.refl⟩
    | @tail y z hpre hstep ih =>
      by_cases hz : z = b
      · subst hz
        exact Or.inr ⟨ha, hpre.tail hstep⟩
      · have hy : P.Dom b y ∨ ¬ P.Dom b y := Classical.em _
        rcases hy with hy | hy
        · exact Or.inr ((ih hy).resolve_left hy)
        · obtain ⟨hb, hp⟩ := not_not.mp hy
          exact Or.inl ⟨hb, hp.tail ⟨hstep.1, hz⟩⟩
  rcases hor with hr | hr
  · exact h' hr
  · exact h hr

omit W in
/-- Backwards along steps that do not enter `a`. -/
theorem dom_of_step {i b c : ℕ} (hs : Relation.ReflTransGen (P.Step i) b c) (h : P.Dom (P.cfgMap i) c) :
    P.Dom (P.cfgMap i) b := by
  rintro ⟨ha, hpath⟩
  refine h ⟨ha, hpath.trans (Relation.ReflTransGen.mono ?_ b c hs)⟩
  exact fun x y hxy => ⟨hxy.1, hxy.2.1⟩

/-! ### Uses -/

omit W in
theorem dataOps_mem {u j : ℕ} {x : ℤ} (h : (x, j) ∈ P.dataOps u) : x ∈ (P.insn u).ops := by
  have h1 := List.mem_of_mem_drop h
  exact (List.mem_zipIdx h1).2.2 ▸ List.getElem_mem _

theorem pos_of_vreg_or_fused {x : ℕ} (h : P.vregs x ≠ 0 ∨ P.isFused x = true) : 0 < x := by
  rcases h with h | h
  · have h1 := (W.body_mem _ x (W.vreg_body x h)).2.1
    omega
  · have h1 := (W.body_mem _ x (W.fused_body x h).1).2.1
    omega

theorem edge_dom {x u : ℕ} (hx : P.vregs x ≠ 0 ∨ P.isFused x = true) (hu : u ∈ P.useLists x)
    (hphi : P.isPhi u = false) : P.InRange (P.cfgMap u) ∧ P.Dom (P.cfgMap x) (P.cfgMap u) := by
  obtain ⟨hbody, hop⟩ := (W.uses x hx u).mp hu
  exact ⟨(W.body_mem _ u hbody).1, W.dom _ u hbody hphi x (W.pos_of_vreg_or_fused hx) hop⟩

/-- A chain of fused users. -/
theorem below_fused {u f : ℕ} (hu : P.isFused u = true) (h : Below P.fusedUsers u f) :
    P.isFused f = true ∧ (P.cfgMap u = P.cfgMap f ∨ P.Dom (P.cfgMap u) (P.cfgMap f)) := by
  induction h with
  | refl => exact ⟨hu, Or.inl rfl⟩
  | @tail g f _ hgf ih =>
    obtain ⟨hg, hug⟩ := ih
    obtain ⟨hmem, hf⟩ := List.mem_filter.mp hgf
    have hgf := (W.edge_dom (Or.inr hg) hmem (W.fused_phi g hg f hmem)).2
    refine ⟨hf, Or.inr ?_⟩
    rcases hug with h | h
    · rwa [h]
    · exact dom_trans h hgf

/-- The block of a listed use is dominated by the definition. -/
theorem listed_dom {i c : ℕ} (hv : P.vregs i ≠ 0) (h : P.ListedUse i c) :
    P.InRange c ∧ P.Dom (P.cfgMap i) c := by
  obtain ⟨u, hu, hphi, ⟨-, rfl⟩ | ⟨hfu, f, hbelow, hc⟩⟩ := h
  · exact W.edge_dom (Or.inl hv) hu hphi
  · obtain ⟨hf, huf⟩ := W.below_fused hfu hbelow
    obtain ⟨r, hr, rfl⟩ := List.mem_map.mp hc
    have hr' := (List.mem_filter.mp hr).1
    obtain ⟨hrange, hfr⟩ := W.edge_dom (Or.inr hf) hr' (W.fused_phi f hf r hr')
    have hiu := (W.edge_dom (Or.inl hv) hu hphi).2
    refine ⟨hrange, dom_trans hiu ?_⟩
    rcases huf with h | h
    · rwa [h]
    · exact dom_trans h hfr

theorem end_dom {i c : ℕ} (hv : P.vregs i ≠ 0) (h : P.UsedAtEnd i c) :
    P.InRange c ∧ P.Dom (P.cfgMap i) c := by
  obtain ⟨b, phi, hphi, hp, src, hsrc, rfl⟩ := h
  obtain ⟨h1, h2⟩ := W.phi_dom b phi hphi hp i src hsrc
  exact ⟨h1, h2 hv⟩

theorem range_of_step {i b c : ℕ} (hc : P.InRange c) (h : Relation.ReflTransGen (P.Step i) b c) :
    P.InRange b := by
  induction h using Relation.ReflTransGen.head_induction_on with
  | refl => exact hc
  | head hstep _ ih => exact W.preds_range _ ih _ hstep.1

/-- A register is live only after the block of its definition. -/
theorem def_le {i b : ℕ} (hv : P.vregs i ≠ 0) (h : P.LiveOutBy i (P.ListedUse i) b) :
    P.InRange b ∧ P.cfgMap i ≤ b := by
  obtain ⟨c, hpath, hr, hd⟩ : ∃ c, Relation.ReflTransGen (P.Step i) b c ∧ P.InRange c ∧
      P.Dom (P.cfgMap i) c := by
    rcases h with ⟨c, hpath, hc⟩ | ⟨c, hpath, hc⟩
    · exact ⟨c, hpath, W.end_dom hv hc⟩
    · exact ⟨c, hpath.to_reflTransGen, W.listed_dom hv hc⟩
  have hb := W.range_of_step hr hpath
  exact ⟨hb, W.dom_le hb (dom_of_step hpath hd)⟩

/-! ### The reads of an instruction are uses -/

/-- Every read of an instruction is listed. -/
theorem usedIn_listed {i c : ℕ} (hv : P.vregs i ≠ 0) (h : P.UsedIn i c) : P.ListedUse i c := by
  obtain ⟨u, hu, hphi, hfu, g, hug, j, hgi⟩ := h
  have hcu : P.cfgMap u = c := (W.body_mem c u hu).2.2.2.2
  -- along the operands from `u` down to `g`: every node is fused except `u`
  have hchain : ∀ {g}, Relation.ReflTransGen P.FusedRef u g → u = g ∨
      (P.isFused g = true ∧ ∃ f, Below P.fusedUsers g f ∧ c ∈ P.userBlocks f) := by
    intro g hg
    induction hg with
    | refl => exact Or.inl rfl
    | @tail f g _ hfg ih =>
      obtain ⟨⟨j, hj⟩, hgf⟩ := hfg
      have hop := dataOps_mem hj
      right
      refine ⟨hgf, ?_⟩
      rcases ih with rfl | ⟨hff, r, hfr, hc⟩
      · refine ⟨g, Relation.ReflTransGen.refl, List.mem_map.mpr ⟨u, ?_, hcu⟩⟩
        exact List.mem_filter.mpr ⟨(W.uses g (Or.inr hgf) u).mpr ⟨hcu ▸ hu, hop⟩, by simp [hfu]⟩
      · refine ⟨r, Relation.ReflTransGen.head ?_ hfr, hc⟩
        have hbody := (W.fused_body f hff).1
        exact List.mem_filter.mpr ⟨(W.uses g (Or.inr hgf) f).mpr ⟨hbody, hop⟩, hff⟩
  have hop := dataOps_mem hgi
  rcases hchain hug with rfl | ⟨hfg, hrest⟩
  · exact ⟨u, (W.uses i (Or.inl hv) u).mpr ⟨hcu ▸ hu, hop⟩, hphi, Or.inl ⟨hfu, hcu⟩⟩
  · have hbody := (W.fused_body g hfg).1
    have hphig : P.isPhi g = false := by
      by_contra hne
      have hskip := (W.phi_emitted _ g hbody (by simpa using hne)).1
      simp only [Prog.isSkipped, Prog.isFused] at hskip hfg
      cases hr : P.rules with
      | none => simp [hr] at hfg
      | some r => simp_all
    exact ⟨g, (W.uses i (Or.inl hv) g).mpr ⟨hbody, hop⟩, hphig, Or.inr ⟨hfg, hrest⟩⟩

end Wf

end IrJit.Ra
