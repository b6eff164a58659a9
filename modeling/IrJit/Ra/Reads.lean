import IrJit.Ra.Wf

/-!
# Ra.Reads — the reads of an instruction

`mem_reads`: the list of reads that `ir_compute_live_ranges` goes through, with the stack of
`ir_add_fusion_ranges`, names exactly the registers that the instruction uses, itself or through
what is fused into it.  `reads_pos` bounds the positions.
-/

namespace IrJit.Ra

section

variable {P : Prog}

theorem isSkipped_of_isFused {u : ℕ} (h : P.isFused u = true) : P.isSkipped u = true := by
  unfold Prog.isFused at h
  unfold Prog.isSkipped
  cases hr : P.rules with
  | none => simp [hr] at h
  | some r =>
    rw [hr] at h
    simp only [Option.any_some] at h ⊢
    simp [h]

theorem isFused_of_isExpanded {u : ℕ} (h : P.isExpanded u = true) : P.isFused u = true := by
  unfold Prog.isExpanded at h
  unfold Prog.isFused
  cases hr : P.rules with
  | none => simp [hr] at h
  | some r =>
    rw [hr] at h
    simp only [Option.any_some, Bool.and_eq_true] at h ⊢
    exact h.1

/-- A read takes place at its instruction. -/
structure ReadAt (u : ℕ) (r : Read) : Prop where
  lo : loadPos u ≤ r.pos
  hi : r.pos ≤ usePos u
  upto : r.upto = r.pos

theorem fusionOut_at {u g : ℕ} {r : Read} (h : r ∈ P.fusionOut u g) : ReadAt u r := by
  obtain ⟨⟨child, j⟩, -, hx⟩ := List.mem_filterMap.mp h
  simp only at hx
  split_ifs at hx with hc hh
  all_goals
    injection hx with hx
    subst hx
    refine ⟨?_, ?_, rfl⟩ <;> simp [loadPos, usePos]

/-- An element of the operands as a reference. -/
theorem dataRef_of_pos {u j : ℕ} {x : ℤ} (h : (x, j) ∈ P.dataOps u) (hx : 0 < x) :
    P.DataRef u x.toNat := by
  refine ⟨j, ?_⟩
  rwa [Int.toNat_of_nonneg hx.le]

end

namespace Wf

variable {P : Prog} (W : Wf P)

include W

theorem vreg_of_fused {u : ℕ} (h : P.isFused u = true) : P.vregs u = 0 :=
  W.skipped_vreg u (isSkipped_of_isFused h)

theorem mem_fusionOut {u g i : ℕ} (hv : P.vregs i ≠ 0) :
    (∃ r ∈ P.fusionOut u g, r.vreg = P.vregs i) ↔ P.DataRef g i := by
  constructor
  · rintro ⟨r, hr, hri⟩
    obtain ⟨⟨child, j⟩, hop, hx⟩ := List.mem_filterMap.mp hr
    simp only at hx
    split_ifs at hx with hc hh
    all_goals
      injection hx with hx
      subst hx
      have he : i = child.toNat := W.vreg_inj i _ hv hri.symm
      exact he ▸ dataRef_of_pos hop hc.1
  · rintro ⟨j, hop⟩
    have hpos := W.pos_of_vreg_or_fused (Or.inl hv)
    have hcond : 0 < (i : ℤ) ∧ P.vregs (i : ℤ).toNat ≠ 0 := ⟨by omega, by simpa using hv⟩
    refine ⟨_, List.mem_filterMap.mpr ⟨((i : ℤ), j), hop, if_pos hcond⟩, ?_⟩
    simp

theorem mem_fusionSucc {x y : ℕ} : y ∈ P.fusionSucc x ↔ P.FusedRef x y := by
  constructor
  · intro h
    obtain ⟨⟨child, j⟩, hop, hx⟩ := List.mem_filterMap.mp h
    simp only at hx
    split_ifs at hx with hc
    injection hx with hx
    subst hx
    exact ⟨dataRef_of_pos hop hc.1, hc.2.2⟩
  · rintro ⟨⟨j, hop⟩, hf⟩
    have hpos := W.pos_of_vreg_or_fused (Or.inr hf)
    have hcond : 0 < (y : ℤ) ∧ P.vregs (y : ℤ).toNat = 0 ∧ P.isFused (y : ℤ).toNat = true :=
      ⟨by omega, by simpa using W.vreg_of_fused hf, by simpa using hf⟩
    exact List.mem_filterMap.mpr ⟨((y : ℤ), j), hop, if_pos hcond⟩

theorem below_fusionSucc {x y : ℕ} : Below P.fusionSucc x y ↔ Relation.ReflTransGen P.FusedRef x y := by
  have he : (fun a b => b ∈ P.fusionSucc a) = P.FusedRef := by
    funext a b
    exact propext W.mem_fusionSucc
  rw [Below, he]

theorem notPhi_of_fused {u : ℕ} (h : P.isFused u = true) : P.isPhi u = false := by
  by_contra hne
  have hskip := (W.phi_emitted _ u (W.fused_body u h).1 (by simpa using hne)).1
  rw [isSkipped_of_isFused h] at hskip
  exact absurd hskip (by simp)

theorem dataRef_lt {u x : ℕ} {b : ℕ} (hb : u ∈ (P.block b).body) (hphi : P.isPhi u = false)
    (h : P.DataRef u x) : x < u := by
  obtain ⟨j, hop⟩ := h
  have hlt := W.ops_lt b u hb hphi x (dataOps_mem hop)
  omega

/-- The stack of `ir_add_fusion_ranges` runs empty. -/
theorem mem_fusionReads {u f : ℕ} (hf : P.isFused f = true) {r : Read} :
    r ∈ P.fusionReads u f ↔ ∃ g, Relation.ReflTransGen P.FusedRef f g ∧ r ∈ P.fusionOut u g := by
  obtain ⟨l, hl⟩ := drain_isSome P.fusionSucc (P.fusionOut u) 3 id (fun x => P.isFused x = true)
    (fun x _ y hy => (W.mem_fusionSucc.mp hy).2)
    (fun x hx y hy => W.dataRef_lt (W.fused_body x hx).1 (W.notPhi_of_fused hx) (W.mem_fusionSucc.mp hy).1)
    (fun x hx => by
      calc (P.fusionSucc x).length ≤ (P.dataOps x).length := List.length_filterMap_le _ _
        _ ≤ ((P.insn x).ops.zipIdx 1).length := by
          unfold Prog.dataOps
          rw [List.length_drop]
          omega
        _ = (P.insn x).ops.length := List.length_zipIdx
        _ ≤ 3 := (W.fused_body x hx).2)
    (4 ^ f) [f] (by simpa using hf) (by simp [weight])
  unfold Prog.fusionReads
  rw [hl, Option.getD_some, mem_drain hl]
  simp only [List.mem_singleton, exists_eq_left]
  constructor
  · rintro ⟨g, hg, hr⟩
    exact ⟨g, W.below_fusionSucc.mp hg, hr⟩
  · rintro ⟨g, hg, hr⟩
    exact ⟨g, W.below_fusionSucc.mpr hg, hr⟩

/-- What is fused and skipped reads nothing. -/
theorem expanded_of_used {f i : ℕ} (hf : P.isFused f = true) (hv : P.vregs i ≠ 0)
    (h : P.UsedBy i f) : P.isExpanded f = true := by
  by_contra hne
  have hst := W.fused_static f hf (by simpa using hne)
  obtain ⟨g, hfg, hgi⟩ := h
  rcases Relation.ReflTransGen.cases_head hfg with rfl | ⟨x, hfx, -⟩
  · exact hv (hst i hgi).1
  · have hx := (hst x hfx.1).2
    rw [hfx.2] at hx
    exact absurd hx (by simp)

omit W in
theorem usedBy_cases {u i : ℕ} : P.UsedBy i u ↔
    P.DataRef u i ∨ ∃ f, P.FusedRef u f ∧ P.UsedBy i f := by
  constructor
  · rintro ⟨g, hug, hgi⟩
    rcases Relation.ReflTransGen.cases_head hug with rfl | ⟨f, huf, hfg⟩
    · exact Or.inl hgi
    · exact Or.inr ⟨f, huf, g, hfg, hgi⟩
  · rintro (h | ⟨f, huf, g, hfg, hgi⟩)
    · exact ⟨u, Relation.ReflTransGen.refl, h⟩
    · exact ⟨g, Relation.ReflTransGen.head huf hfg, hgi⟩

/-- The reads through one operand. -/
theorem mem_operandReads {u i : ℕ} (hv : P.vregs i ≠ 0) {x : ℤ} {j : ℕ} :
    (∃ r ∈ P.operandReads u (x, j), r.vreg = P.vregs i) ↔
      x = i ∨ (0 < x ∧ P.isFused x.toNat = true ∧ P.UsedBy i x.toNat) := by
  have hipos := W.pos_of_vreg_or_fused (Or.inl hv)
  simp only [Prog.operandReads]
  by_cases hx : 0 < x
  · rw [if_pos hx]
    by_cases hxv : P.vregs x.toNat = 0
    · have hne : x ≠ i := by
        rintro rfl
        exact hv (by simpa using hxv)
      simp only [hxv, ne_eq, not_true_eq_false, if_false]
      cases hexp : P.isExpanded x.toNat with
      | true =>
        have hf := isFused_of_isExpanded hexp
        rw [if_pos rfl]
        constructor
        · rintro ⟨r, hr, hri⟩
          obtain ⟨g, hg, hrg⟩ := (W.mem_fusionReads hf).mp hr
          exact Or.inr ⟨hx, hf, g, hg, (W.mem_fusionOut hv).mp ⟨r, hrg, hri⟩⟩
        · rintro (h | ⟨-, -, g, hg, hgi⟩)
          · exact absurd h hne
          · obtain ⟨r, hrg, hri⟩ := (W.mem_fusionOut hv).mpr hgi
            exact ⟨r, (W.mem_fusionReads hf).mpr ⟨g, hg, hrg⟩, hri⟩
      | false =>
        rw [if_neg (by simp)]
        constructor
        · rintro ⟨r, hr, -⟩
          exact absurd hr (by simp)
        · rintro (h | ⟨-, hf, hu⟩)
          · exact absurd h hne
          · rw [W.expanded_of_used hf hv hu] at hexp
            exact absurd hexp (by simp)
    · simp only [hxv, ne_eq, not_false_eq_true, if_true, List.mem_singleton, exists_eq_left]
      constructor
      · intro he
        have hi := W.vreg_inj i _ hv he.symm
        exact Or.inl (by omega)
      · rintro (rfl | ⟨-, hf, -⟩)
        · simp
        · exact absurd (W.vreg_of_fused hf) hxv
  · rw [if_neg hx]
    constructor
    · rintro ⟨r, hr, -⟩
      exact absurd hr (by simp)
    · rintro (h | ⟨h, -⟩)
      · omega
      · exact absurd h hx

/-- **The reads of an instruction** are its uses of registers. -/
theorem mem_reads {b u i : ℕ} (hu : P.Emitted b u) (hv : P.vregs i ≠ 0) :
    (∃ r ∈ P.reads u, r.vreg = P.vregs i) ↔ P.UsedBy i u := by
  have hipos := W.pos_of_vreg_or_fused (Or.inl hv)
  unfold Prog.reads
  by_cases hsnap : P.vregs u = 0 ∧ (P.constraintsOf u).extendNext = true
  · -- the operands of a SNAPSHOT have registers
    rw [if_pos hsnap]
    obtain ⟨-, -, hops⟩ := W.snapshot b u hu hsnap.1 hsnap.2
    rw [usedBy_cases]
    constructor
    · rintro ⟨r, hr, hri⟩
      obtain ⟨⟨x, j⟩, hop, hx⟩ := List.mem_filterMap.mp hr
      simp only at hx
      split_ifs at hx with hc
      injection hx with hx
      subst hx
      have he : i = x.toNat := W.vreg_inj i _ hv hri.symm
      exact Or.inl (he ▸ dataRef_of_pos hop hc)
    · rintro (⟨j, hop⟩ | ⟨f, ⟨href, hf⟩, -⟩)
      · have hcond : 0 < (i : ℤ) := by omega
        refine ⟨_, List.mem_filterMap.mpr ⟨((i : ℤ), j), hop, if_pos hcond⟩, ?_⟩
        simp
      · exact absurd (W.vreg_of_fused hf) (hops f (W.pos_of_vreg_or_fused (Or.inr hf)) href)
  · rw [if_neg hsnap, usedBy_cases]
    constructor
    · rintro ⟨r, hr, hri⟩
      obtain ⟨⟨x, j⟩, hop, hr⟩ := List.mem_flatMap.mp hr
      rcases (W.mem_operandReads hv).mp ⟨r, hr, hri⟩ with rfl | ⟨hx, hf, hu⟩
      · exact Or.inl ⟨j, hop⟩
      · exact Or.inr ⟨x.toNat, ⟨dataRef_of_pos hop hx, hf⟩, hu⟩
    · rintro (⟨j, hop⟩ | ⟨f, ⟨⟨j, hop⟩, hf⟩, hu⟩)
      · obtain ⟨r, hr, hri⟩ := (W.mem_operandReads (u := u) (x := (i : ℤ)) (j := j) hv).mpr (Or.inl rfl)
        exact ⟨r, List.mem_flatMap.mpr ⟨_, hop, hr⟩, hri⟩
      · have hpos := W.pos_of_vreg_or_fused (Or.inr hf)
        obtain ⟨r, hr, hri⟩ := (W.mem_operandReads (u := u) (x := (f : ℤ)) (j := j) hv).mpr
          (Or.inr ⟨by omega, by simpa using hf, by simpa using hu⟩)
        exact ⟨r, List.mem_flatMap.mpr ⟨_, hop, hr⟩, hri⟩

/-- Where the reads of an instruction are. -/
theorem reads_pos {b u : ℕ} (hu : P.Emitted b u) {r : Read} (hr : r ∈ P.reads u) :
    loadPos u ≤ r.pos ∧ r.pos ≤ usePos u ∧ r.pos ≤ r.upto ∧ r.upto < endPos (P.block b).last := by
  have hlast := (W.body_mem b u hu.1).2.2.1
  have hat : ∀ r, ReadAt u r → loadPos u ≤ r.pos ∧ r.pos ≤ usePos u ∧ r.pos ≤ r.upto ∧
      r.upto < endPos (P.block b).last := by
    intro r h
    obtain ⟨h1, h2, h3⟩ := h
    refine ⟨h1, h2, h3.ge, ?_⟩
    simp only [loadPos, usePos, endPos] at *
    omega
  unfold Prog.reads at hr
  split_ifs at hr with hsnap
  · obtain ⟨hlt, hle, -⟩ := W.snapshot b u hu hsnap.1 hsnap.2
    obtain ⟨⟨x, j⟩, -, hx⟩ := List.mem_filterMap.mp hr
    simp only at hx
    split_ifs at hx
    injection hx with hx
    subst hx
    simp only [loadPos, usePos, endPos]
    omega
  · obtain ⟨⟨x, j⟩, hop, hr⟩ := List.mem_flatMap.mp hr
    refine hat r ?_
    simp only [Prog.operandReads] at hr
    split_ifs at hr with h1 h2 h3
    · rw [List.mem_singleton.mp hr]
      refine ⟨?_, ?_, rfl⟩
      all_goals
        simp only [Prog.operandPos, loadPos, usePos]
        split_ifs <;> omega
    · obtain ⟨g, -, hg⟩ := (W.mem_fusionReads (isFused_of_isExpanded h3)).mp hr
      exact fusionOut_at hg
    · exact absurd hr (by simp)
    · exact absurd hr (by simp)

/-- A use follows the definition in the order of the blocks. -/
theorem usedBy_after {b u i : ℕ} (hu : u ∈ (P.block b).body) (hphi : P.isPhi u = false)
    (hv : P.vregs i ≠ 0) (h : P.UsedBy i u) : i < u ∧ P.Dom (P.cfgMap i) b := by
  obtain ⟨g, hug, hgi⟩ := h
  have hstep : ∀ {b x y : ℕ}, x ∈ (P.block b).body → P.isPhi x = false → P.DataRef x y → 0 < y →
      y < x ∧ P.Dom (P.cfgMap y) b := by
    intro b x y hx hp hxy hy
    obtain ⟨j, hop⟩ := hxy
    exact ⟨W.dataRef_lt hx hp ⟨j, hop⟩, W.dom b x hx hp y hy (dataOps_mem hop)⟩
  -- from `u` down the fused operands
  have hchain : g ∈ (P.block (P.cfgMap g)).body ∧ P.isPhi g = false ∧ g ≤ u ∧
      (P.cfgMap g = b ∨ P.Dom (P.cfgMap g) b) := by
    clear hgi
    induction hug with
    | refl => exact ⟨(W.body_mem b u hu).2.2.2.2.symm ▸ hu, hphi, Nat.le_refl _,
        Or.inl (W.body_mem b u hu).2.2.2.2⟩
    | @tail f g _ hfg ih =>
      obtain ⟨hfb, hfp, hfu, hfd⟩ := ih
      have hgpos := W.pos_of_vreg_or_fused (Or.inr hfg.2)
      obtain ⟨hlt, hd⟩ := hstep hfb hfp hfg.1 hgpos
      refine ⟨(W.fused_body g hfg.2).1, W.notPhi_of_fused hfg.2, by omega, Or.inr ?_⟩
      rcases hfd with he | hd'
      · exact he ▸ hd
      · exact dom_trans hd hd'
  obtain ⟨hgb, hgp, hgu, hgd⟩ := hchain
  obtain ⟨hlt, hd⟩ := hstep hgb hgp hgi (W.pos_of_vreg_or_fused (Or.inl hv))
  refine ⟨by omega, ?_⟩
  rcases hgd with he | hd'
  · exact he ▸ hd
  · exact dom_trans hd hd'

end Wf

end IrJit.Ra
