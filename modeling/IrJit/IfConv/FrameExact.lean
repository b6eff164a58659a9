import IrJit.IfConv.Frame
import IrJit.IfConv.PhiExact

/-!
# IfConv.FrameExact — when the other instructions keep their values
-/

namespace IrJit.IfConv

open Fold

variable {ctx after : Ctx} {d : Diamond} {merge ref next prev i k r u : ℤ}
  {other : IrOp → IrType → List ℤ → ℤ} {ρ : ℤ → ℤ}

/-- Every instruction besides the PHI and the diamond computes what it did, or is not used any
more. -/
def Undisturbed (other : IrOp → IrType → List ℤ → ℤ) (ctx : Ctx) (merge ref : ℤ) (ρ : ℤ → ℤ) : Prop :=
  ∀ i, ((ctx.optimizePhi merge ref).1 = true →
      i ≠ ref ∧ ∀ d, ctx.matchDiamond merge = some d → ¬d.Gone ctx merge i) →
    BecameUnused ctx (ctx.optimizePhi merge ref).2 i ∨
      SameValue other ctx (ctx.optimizePhi merge ref).2 ρ i

/-- A rewritten comparison has no other use, or `x` is not a value on which the two constants
differ; and the negation that goes is not the operand of the other one. -/
def Ctx.KeepsRest (ctx : Ctx) (d : Diamond) (ref : ℤ) (ρ : ℤ → ℤ) : Prop :=
  let insn := ctx.insn ref
  let cond := ctx.insn d.cond
  let start1 := ctx.insn d.start1
  match ctx.minMaxMatch insn cond with
  | some cond' =>
    (ctx.uses d.cond).length = 1 ∨ cond'.op2 = cond.op2 ∨
      (Beside cond.op (ρ cond.op2) (ρ cond'.op2) ↔ ρ cond.op1 ≠ ρ cond'.op2)
  | none =>
    ctx.absMatch insn cond start1 = true →
      ctx.absHalf insn cond start1 insn.op2 insn.op3 true = true ∨ (ctx.insn insn.op2).op ≠ .neg

/-! ## MIN and MAX -/

/-- The two constants give the same result for `x`. -/
theorem fixed_order_iff {insn cond cond' : Insn} {t : IrType} {x : ℤ} (F : Fixed ctx insn cond cond')
    (E : Evaluation other ctx ρ) (ht : IsInt t) (hty : (ctx.insn cond'.op2).type = t)
    (hcmp : isCmp t cond.op = true) (hx : InRange t x) :
    order cond.op x (ρ cond'.op2) = order cond.op x (ρ cond.op2) ↔
      (Beside cond.op (ρ cond.op2) (ρ cond'.op2) ↔ x ≠ ρ cond'.op2) := by
  have hcases := fixed_cases F E ht hty hcmp hx
  have hless : isLess t cond.op = decide (cond.op = .ule ∨ cond.op = .le) := by
    unfold isCmp at hcmp
    unfold isLess
    rcases F.val with ⟨hop | hop, -⟩ | ⟨hop | hop, -⟩ <;> rw [hop] at hcmp ⊢ <;> cases t <;>
      simp [IrType.isInt, IrType.isSigned] at hcmp ⊢
  rw [hless] at hcases
  rcases F.val with ⟨hop | hop, -⟩ | ⟨hop | hop, -⟩ <;> rw [hop] at hcases ⊢ <;>
    simp [Beside, order] at hcases ⊢ <;> omega

theorem mem_minMaxInsn {cond start1 insn : Insn} :
    r ∈ (minMaxInsn cond start1 insn).operands ↔ r = insn.op2 ∨ r = insn.op3 := by
  unfold Insn.operands minMaxInsn
  dsimp only
  split <;> simp [or_comm]

/-- The comparison after a rewriting. -/
theorem cond_sameValue_iff (C : Checked ctx) (S : Site ctx merge ref next) (T : Typed ctx ref)
    (E : Evaluation other ctx ρ) (h : ctx.matchDiamond merge = some d) {cond' : Insn}
    {gone : ℤ → Prop} {phi : Insn}
    (hm : ctx.minMaxMatch (ctx.insn ref) (ctx.insn d.cond) = some cond')
    (L : Left (ctx.modify d.cond fun _ => cond') after ref next prev phi gone)
    (hgone : Spares ctx d merge gone) (hphi : phi.type = (ctx.insn ref).type)
    (hi : ¬gone d.cond) :
    SameValue other ctx after ρ d.cond ↔ cond'.op2 = (ctx.insn d.cond).op2 ∨
      (Beside (ctx.insn d.cond).op (ρ (ctx.insn d.cond).op2) (ρ cond'.op2) ↔
        ρ (ctx.insn d.cond).op1 ≠ ρ cond'.op2) := by
  obtain ⟨hcmp, hop, hop1, harms, hfix⟩ := minMaxMatch_eq_some hm
  have horder := isOrder_of_isCmp hcmp
  have hcls := (cls_of_isOrder horder).1
  have hne := S.order_ne horder
  have hnext : d.cond ≠ next := by
    rintro heq
    have hctl := S.next_op
    rw [← heq] at hctl
    simp [IrOp.isControl, hcls] at hctl
  have hafter : after.insn d.cond = cond' := by
    rw [L.insn_same _ hi hne hnext, Ctx.modify_insn, if_pos rfl]
  rcases hfix with heq | F
  · -- nothing was rewritten
    have hbase : (ctx.modify d.cond fun _ => cond') = ctx := by
      unfold Ctx.modify
      rw [heq, Function.update_eq_self]
    rw [hbase] at L
    simp only [heq, true_or, iff_true]
    exact L.sameValue C S h hgone hphi (fun _ => rfl) rfl hi hne
  · have hty1 : (ctx.insn (ctx.insn d.cond).op1).type = (ctx.insn ref).type := by
      rw [← hop1]
      rcases harms with ⟨h1, -⟩ | ⟨h1, -⟩
      · rw [← h1, T.op2]
      · rw [← h1, T.op3]
    have hty2 : (ctx.insn cond'.op2).type = (ctx.insn ref).type := by
      rcases harms with ⟨-, h2⟩ | ⟨-, h2⟩
      · rw [← h2, T.op3]
      · rw [← h2, T.op2]
    have ht : IsInt (ctx.insn ref).type := ⟨F.isInt, T.phi⟩
    have hcty : cond'.type = (ctx.insn d.cond).type := by rw [F.eq]
    have htype : ∀ r, ((ctx.modify d.cond fun _ => cond').insn r).type = (ctx.insn r).type := by
      intro r
      rw [Ctx.modify_insn]
      split
      · next hr => rw [hr, hcty]
      · rfl
    have hstay : ∀ r, ¬gone r → (after.insn r).type = (ctx.insn r).type := fun r hr =>
      (L.type (hphi.trans (htype ref).symm) hr).trans (htype r)
    have hx := hgone.operand C S h (i := d.cond) (r := (ctx.insn d.cond).op1) hcls
      (by rw [C.order_operands horder]; simp)
    have hc' : ¬gone cond'.op2 := by
      intro hg
      have hneg := F.const'.1
      rcases hgone _ hg with hg | ⟨hg, -⟩
      · have := S.pos_of_gone C h hg
        omega
      · omega
    have hr1 : InRange (ctx.insn ref).type (ρ (ctx.insn d.cond).op1) :=
      hty1 ▸ E.range _ (by rw [hty1]; exact ht)
    have hr2 : InRange (ctx.insn ref).type (ρ (ctx.insn d.cond).op2) := by
      have hty := T.cmp d.cond horder
      rw [hty1] at hty
      exact hty ▸ E.range _ (by rw [hty]; exact ht)
    have hr2' : InRange (ctx.insn ref).type (ρ cond'.op2) := hty2 ▸ E.range _ (by rw [hty2]; exact ht)
    have heval : ctx.eval other ρ d.cond = if order (ctx.insn d.cond).op (ρ (ctx.insn d.cond).op1)
        (ρ (ctx.insn d.cond).op2) then 1 else 0 := by
      rw [eval_order horder ht hty1 ((T.cmp d.cond horder).trans hty1), spec_order ht hcmp hr1 hr2]
    have heval' : after.eval other ρ d.cond = if order (ctx.insn d.cond).op
        (ρ (ctx.insn d.cond).op1) (ρ cond'.op2) then 1 else 0 := by
      rw [eval_order (t := (ctx.insn ref).type) (by rw [hafter, hop]; exact horder) ht, hafter, hop,
        hop1, spec_order ht hcmp hr1 hr2']
      · rw [hafter, hop1, hstay _ hx, hty1]
      · rw [hafter, hstay _ hc', hty2]
    unfold SameValue
    rw [hafter, hop, hcty, heval, heval', ← fixed_order_iff F E ht hty2 hcmp hr1]
    simp only [F.ne, false_or, true_and]
    generalize order _ _ _ = a
    generalize order _ _ _ = b
    cases a <;> cases b <;> simp

theorem minMax_undisturbed_iff (C : Checked ctx) (S : Site ctx merge ref next) (T : Typed ctx ref)
    (E : Evaluation other ctx ρ) (h : ctx.matchDiamond merge = some d) {cond' : Insn}
    (hm : ctx.minMaxMatch (ctx.insn ref) (ctx.insn d.cond) = some cond')
    (L : Left (ctx.modify d.cond fun _ => cond') after ref next (ctx.insn d.root).op1
      (minMaxInsn cond' (ctx.insn d.start1) (ctx.insn ref))
      fun i => (d.GoneCond ctx i ∨ i ∈ d.refs merge) ∨ ArmVar ctx d i) :
    (∀ i, i ≠ ref → ¬d.Gone ctx merge i → BecameUnused ctx after i ∨ SameValue other ctx after ρ i) ↔
      (ctx.uses d.cond).length = 1 ∨ cond'.op2 = (ctx.insn d.cond).op2 ∨
        (Beside (ctx.insn d.cond).op (ρ (ctx.insn d.cond).op2) (ρ cond'.op2) ↔
          ρ (ctx.insn d.cond).op1 ≠ ρ cond'.op2) := by
  obtain ⟨hcmp, hop, hop1, harms, hfix⟩ := minMaxMatch_eq_some hm
  have M := Ctx.matchDiamond_eq_some h
  have horder := isOrder_of_isCmp hcmp
  obtain ⟨hcls, hedges, -⟩ := cls_of_isOrder horder
  have h0 : 0 < d.cond := C.pos_of_cls (by rw [hedges]; decide)
  have hne := S.order_ne horder
  have hnot := S.not_gone_of_data h hcls
  have hspares : Spares ctx d merge
      fun i => (d.GoneCond ctx i ∨ i ∈ d.refs merge) ∨ ArmVar ctx d i := by
    rintro r ((hr | hr) | hr)
    · obtain ⟨hpos, hu⟩ := M.goneCond_uses C h0 hr
      exact .inr ⟨hpos, _, hu, by rw [M.root_op]; decide⟩
    · exact .inl (.inl hr)
    · exact .inl (.inr hr)
  have hother : ∀ i, i ≠ ref → ¬d.Gone ctx merge i → i ≠ d.cond → SameValue other ctx after ρ i := by
    intro i hi hg hc
    refine L.sameValue C S h hspares ?_ ?_ ?_ ?_ hi
    · rw [Ctx.modify_insn, if_neg hne.symm]
      rfl
    · intro r
      rw [Ctx.modify_insn]
      split
      · next hr =>
        rw [hr]
        rcases hfix with rfl | F
        · rfl
        · rw [F.eq]
      · rfl
    · rw [Ctx.modify_insn, if_neg hc]
    · rintro ((hr | hr) | hr)
      · exact hc hr.2
      · exact hg (.inl hr)
      · exact hg (.inr hr)
  by_cases hlen : (ctx.uses d.cond).length = 1
  · simp only [hlen, true_or, iff_true]
    intro i hi hg
    by_cases hc : i = d.cond
    · left
      subst hc
      refine L.becameUnused C ?_ h0 (M.goneCond_uses C h0 ⟨hlen, rfl⟩).2 (.inl ?_) ?_
        (M.prev_ne C h0 hcls)
      · intro k hk
        rw [Ctx.modify_insn, if_neg]
        rintro rfl
        exact hk (.inl (.inl ⟨hlen, rfl⟩))
      · exact .inl (.inr (by simp [Diamond.refs]))
      · -- the PHI is no use of the comparison
        intro hr
        have hmem : d.cond ∈ (ctx.insn ref).operands := by
          rw [S.phi_operands]
          rcases mem_minMaxInsn.1 hr with hr | hr <;> simp [← hr]
        have hu := C.mem_uses h0 hmem
        rw [(M.goneCond_uses C h0 ⟨hlen, rfl⟩).2, List.mem_singleton] at hu
        have hphi := S.phi_op
        rw [hu, M.root_op] at hphi
        cases hphi
    · exact .inr (hother i hi hg hc)
  · simp only [hlen, false_or]
    have hkept : ¬((d.GoneCond ctx d.cond ∨ d.cond ∈ d.refs merge) ∨ ArmVar ctx d d.cond) := by
      rintro ((hr | hr) | hr)
      · exact hlen hr.1
      · exact hnot (.inl hr)
      · exact hnot (.inr hr)
    rw [← cond_sameValue_iff C S T E h hm L hspares rfl hkept]
    constructor
    · intro hall
      refine (hall d.cond hne hnot).resolve_left ?_
      rintro ⟨-, hunused⟩
      obtain ⟨k, hk, hg⟩ := M.exists_reader C S h h0 hcls hlen
      have hkc : k ≠ d.cond := by
        rintro rfl
        exact C.acyclic _ hcls hk
      have hstay : ¬((d.GoneCond ctx k ∨ k ∈ d.refs merge) ∨ ArmVar ctx d k) := by
        rintro ((hr | hr) | hr)
        · exact hlen hr.1
        · exact hg (.inl hr)
        · exact hg (.inr hr)
      have hbase : (ctx.modify d.cond fun _ => cond').insn k = ctx.insn k := by
        rw [Ctx.modify_insn, if_neg hkc]
      by_cases hkr : k = ref
      · subst hkr
        refine hunused k ?_ ?_
        · rw [L.insn_phi]
          unfold minMaxInsn
          dsimp only
          split_ifs <;> simp
        · rw [L.insn_phi, mem_minMaxInsn]
          rw [S.phi_operands] at hk
          simp only [List.mem_cons, List.not_mem_nil, or_false] at hk
          refine hk.resolve_left fun heq => ?_
          rw [heq, S.merge_op] at hcls
          cases hcls
      by_cases hkn : k = next
      · subst hkn
        have hinsn := L.insn_next hstay
        rw [hbase] at hinsn
        refine hunused k ?_ ?_
        · rw [hinsn]
          exact C.operands_ne_nop hk
        · rw [hinsn]
          refine mem_setOp1_operands hk fun heq => ?_
          have hctl := C.control k (IrOp.hasControlInput_of_isControl S.next_op) (heq ▸ h0)
          rw [← heq] at hctl
          simp [IrOp.isControl, hcls] at hctl
      · have hinsn := (L.insn_same k hstay hkr hkn).trans hbase
        refine hunused k ?_ ?_
        · rw [hinsn]
          exact C.operands_ne_nop hk
        · rw [hinsn]
          exact hk
    · intro hsame i hi hg
      by_cases hc : i = d.cond
      · exact .inr (hc ▸ hsame)
      · exact .inr (hother i hi hg hc)

/-! ## ABS -/

theorem absInsn_cases (ctx : Ctx) (insn : Insn) :
    ((absInsn ctx insn).2 = insn.op2 ∧ (absInsn ctx insn).1.op1 = insn.op3) ∨
      ((absInsn ctx insn).2 = insn.op3 ∧ (absInsn ctx insn).1.op1 = insn.op2) := by
  unfold absInsn
  dsimp only
  split
  · exact .inl ⟨rfl, rfl⟩
  · exact .inr ⟨rfl, rfl⟩

theorem absInsn_operands (ctx : Ctx) (insn : Insn) :
    (absInsn ctx insn).1.operands = [(absInsn ctx insn).1.op1] := rfl

/-- The negation that goes is an operand of the PHI only, unless it is the wrong one. -/
theorem absMatch_uses (C : Checked ctx) (S : Site ctx merge ref next)
    (habs : ctx.absMatch (ctx.insn ref) (ctx.insn d.cond) (ctx.insn d.start1) = true)
    (hfine : ctx.absHalf (ctx.insn ref) (ctx.insn d.cond) (ctx.insn d.start1) (ctx.insn ref).op2
          (ctx.insn ref).op3 true = true ∨ (ctx.insn (ctx.insn ref).op2).op ≠ .neg) :
    ctx.uses (absInsn ctx (ctx.insn ref)).2 = [ref] := by
  have hneg0 : 0 < (absInsn ctx (ctx.insn ref)).2 :=
    C.pos_of_cls (by rw [(absMatch_neg habs).2.1]; decide)
  have hlen : (ctx.uses (absInsn ctx (ctx.insn ref)).2).length = 1 := by
    simp only [Ctx.absMatch, Bool.and_eq_true, Bool.or_eq_true] at habs
    by_cases hfirst : ctx.absHalf (ctx.insn ref) (ctx.insn d.cond) (ctx.insn d.start1)
        (ctx.insn ref).op2 (ctx.insn ref).op3 true = true
    · obtain ⟨hneg, hlen, -⟩ := absHalf_neg hfirst
      simpa [absInsn, hneg] using hlen
    · obtain ⟨-, hlen, -⟩ := absHalf_neg (habs.2.resolve_left hfirst)
      simpa [absInsn, hfine.resolve_left hfirst] using hlen
  obtain ⟨u, hu⟩ := List.length_eq_one_iff.1 hlen
  have hmem : ref ∈ ctx.uses (absInsn ctx (ctx.insn ref)).2 := by
    refine C.mem_uses hneg0 ?_
    rw [S.phi_operands]
    rcases absInsn_cases ctx (ctx.insn ref) with ⟨h, -⟩ | ⟨h, -⟩ <;> simp [h]
  rw [hu, List.mem_singleton] at hmem
  rw [hu, hmem]

theorem abs_undisturbed_iff (C : Checked ctx) (S : Site ctx merge ref next)
    (h : ctx.matchDiamond merge = some d)
    (habs : ctx.absMatch (ctx.insn ref) (ctx.insn d.cond) (ctx.insn d.start1) = true)
    (L : Left ctx after ref next (ctx.insn d.root).op1 (absInsn ctx (ctx.insn ref)).1
      fun i => ((d.GoneCond ctx i ∨ i ∈ d.refs merge) ∨ i = (absInsn ctx (ctx.insn ref)).2) ∨
        ArmVar ctx d i) :
    (∀ i, i ≠ ref → ¬d.Gone ctx merge i → BecameUnused ctx after i ∨ SameValue other ctx after ρ i) ↔
      ctx.absHalf (ctx.insn ref) (ctx.insn d.cond) (ctx.insn d.start1) (ctx.insn ref).op2
          (ctx.insn ref).op3 true = true ∨
        (ctx.insn (ctx.insn ref).op2).op ≠ .neg := by
  have M := Ctx.matchDiamond_eq_some h
  obtain ⟨hcmp, hneg, -⟩ := absMatch_neg habs
  have horder := isOrder_of_isCmp hcmp
  obtain ⟨hcls, hedges, -⟩ := cls_of_isOrder horder
  have h0 : 0 < d.cond := C.pos_of_cls (by rw [hedges]; decide)
  have hneg0 : 0 < (absInsn ctx (ctx.insn ref)).2 := C.pos_of_cls (by rw [hneg]; decide)
  constructor
  · intro hall
    by_contra hwrong
    push Not at hwrong
    obtain ⟨hfirst, hop2⟩ := hwrong
    simp only [Ctx.absMatch, Bool.and_eq_true, Bool.or_eq_true] at habs
    obtain ⟨hop3, -, harg, -⟩ := absHalf_neg (habs.2.resolve_left hfirst)
    have hgone : (absInsn ctx (ctx.insn ref)).2 = (ctx.insn ref).op2 := by simp [absInsn, hop2]
    have hargs : (ctx.insn (ctx.insn ref).op3).operands = [(ctx.insn ref).op2] := by
      have hcount := C.inputs (ctx.insn ref).op3 (by rw [hop3]; rfl)
      rw [Insn.operands, hcount, hop3, harg]
      rfl
    have hne : (ctx.insn ref).op3 ≠ (ctx.insn ref).op2 := by
      intro heq
      refine C.acyclic (ctx.insn ref).op3 (by rw [hop3]; rfl) ?_
      rw [hargs, heq]
      simp
    have hstay : after.insn (ctx.insn ref).op3 = ctx.insn (ctx.insn ref).op3 := by
      refine L.insn_same _ ?_ ?_ ?_
      · have hdata := S.not_gone_of_data h (i := (ctx.insn ref).op3) (by rw [hop3]; rfl)
        rintro (((hr | hr) | hr) | hr)
        · rw [← hr.2, hop3] at horder
          cases horder
        · exact hdata (.inl hr)
        · exact hne (hr.trans hgone)
        · exact hdata (.inr hr)
      · intro heq
        rw [heq, S.phi_op] at hop3
        cases hop3
      · intro heq
        have hctl := S.next_op
        rw [← heq, hop3] at hctl
        cases hctl
    rcases hall (ctx.insn ref).op2 (fun heq => by rw [heq, S.phi_op] at hop2; cases hop2)
      (S.not_gone_of_data h (by rw [hop2]; rfl)) with ⟨-, hunused⟩ | ⟨hop, -⟩
    · exact hunused (ctx.insn ref).op3 (by rw [hstay, hop3]; simp) (by rw [hstay, hargs]; simp)
    · rw [L.op_gone _ (.inl (.inr hgone.symm)), hop2] at hop
      cases hop
  · intro hfine
    have huses := absMatch_uses C S habs hfine
    have hspares : Spares ctx d merge fun i => ((d.GoneCond ctx i ∨ i ∈ d.refs merge) ∨
        i = (absInsn ctx (ctx.insn ref)).2) ∨ ArmVar ctx d i := by
      rintro r (((hr | hr) | rfl) | hr)
      · obtain ⟨hpos, hu⟩ := M.goneCond_uses C h0 hr
        exact .inr ⟨hpos, _, hu, by rw [M.root_op]; decide⟩
      · exact .inl (.inl hr)
      · exact .inr ⟨hneg0, ref, huses, by rw [S.phi_op]; decide⟩
      · exact .inl (.inr hr)
    intro i hi hg
    by_cases hc : d.GoneCond ctx i
    · left
      obtain ⟨hpos, hu⟩ := M.goneCond_uses C h0 hc
      have hi := hc.2
      subst hi
      refine L.becameUnused C (fun _ _ => rfl) hpos hu (.inl ?_) ?_ (M.prev_ne C h0 hcls)
      · exact .inl (.inl (.inr (by simp [Diamond.refs])))
      · -- the PHI is no use of the comparison
        rw [absInsn_operands, List.mem_singleton]
        intro hr
        have hmem : d.cond ∈ (ctx.insn ref).operands := by
          rw [S.phi_operands]
          rcases absInsn_cases ctx (ctx.insn ref) with ⟨-, h⟩ | ⟨-, h⟩ <;> simp [hr, h]
        have hroot := C.mem_uses h0 hmem
        rw [hu, List.mem_singleton] at hroot
        have hphi := S.phi_op
        rw [hroot, M.root_op] at hphi
        cases hphi
    by_cases hn : i = (absInsn ctx (ctx.insn ref)).2
    · left
      subst hn
      refine L.becameUnused C (fun _ _ => rfl) hneg0 huses (.inr rfl) ?_
        (M.prev_ne C hneg0 (by rw [hneg]; rfl))
      -- otherwise the PHI would use it twice
      rw [absInsn_operands, List.mem_singleton]
      intro hr
      have hcount := C.uses _ ref hneg0
      rw [huses, S.phi_operands] at hcount
      rcases absInsn_cases ctx (ctx.insn ref) with ⟨h1, h2⟩ | ⟨h1, h2⟩ <;>
        rw [h1, h2] at hr <;> rw [h1, hr] at hcount <;> simp [List.count_cons] at hcount <;>
        omega
    · right
      refine L.sameValue C S h hspares rfl (fun _ => rfl) rfl ?_ hi
      rintro (((hr | hr) | hr) | hr)
      · exact hc hr
      · exact hg (.inl hr)
      · exact hn hr
      · exact hg (.inr hr)

/-! ## The rest of the graph -/

/-- `ir_optimize_phi` disturbs no other value exactly when it neither rewrites a comparison that
another instruction sees the change of, nor takes the wrong one of two negations. -/
theorem optimize_phi_frame (C : Checked ctx) (S : Site ctx merge ref next) (T : Typed ctx ref)
    (E : Evaluation other ctx ρ) :
    Undisturbed other ctx merge ref ρ ↔
      ∀ d, ctx.matchDiamond merge = some d → ctx.KeepsRest d ref ρ := by
  unfold Undisturbed
  cases h : ctx.matchDiamond merge with
  | none =>
    have hopt : ctx.optimizePhi merge ref = (false, ctx) := by
      unfold Ctx.optimizePhi
      rw [h]
    rw [hopt]
    simp [SameValue.refl]
  | some d =>
    have O := outcome_optimizePhi C S h
    generalize ctx.optimizePhi merge ref = r at O ⊢
    unfold Ctx.KeepsRest
    simp only [Option.some.injEq, forall_eq']
    cases O with
    | minMax cond after hm hleft =>
      simp only [hm, forall_true_left]
      simpa only [and_imp] using minMax_undisturbed_iff C S T E h hm hleft
    | abs after hm habs hleft =>
      simp only [hm, habs, forall_true_left]
      simpa only [and_imp] using abs_undisturbed_iff C S h habs hleft
    | cond after hm habs hleft =>
      have hspares : Spares ctx d merge fun i => i ∈ d.refs merge ∨ ArmVar ctx d i :=
        fun r hr => .inl hr
      simp only [hm, habs, forall_true_left, Bool.false_eq_true, false_implies, iff_true, and_imp]
      exact fun i hi hg =>
        .inr (hleft.sameValue C S h hspares rfl (fun _ => rfl) rfl hg hi)
    | none hm habs => simp [hm, habs, SameValue.refl]

/-- `x < 0 ? -x : x`. -/
theorem abs_undisturbed :
    Undisturbed (fun _ _ _ => 0) (absGraph 0) 9 11 (absValues 0 (-5)) ↔
      ∀ d, (absGraph 0).matchDiamond 9 = some d → (absGraph 0).KeepsRest d 11 (absValues 0 (-5)) :=
  optimize_phi_frame (absGraph_checked _) (absGraph_site _) (absGraph_typed _)
    (absGraph_evaluation (by decide)
      (by simp [InRange, IrType.isSigned, bits, IrType.size]))

/-- `b = x <= 3; (b ? 4 : x) + b` for a parameter `x` of type `int64_t`. -/
def minGraph : Ctx where
  insn
    | 1 => ⟨.start, .void, 0, 0, 0, 0, []⟩
    | 2 => ⟨.param, .i64, 1, 1, 0, 0, []⟩
    | 3 => ⟨.le, .bool, 2, 2, -1, 0, []⟩
    | 4 => ⟨.ifOp, .void, 2, 1, 3, 0, []⟩
    | 5 => ⟨.ifTrue, .void, 1, 4, 0, 0, []⟩
    | 6 => ⟨.endOp, .void, 1, 5, 0, 0, []⟩
    | 7 => ⟨.ifFalse, .void, 1, 4, 0, 0, []⟩
    | 8 => ⟨.endOp, .void, 1, 7, 0, 0, []⟩
    | 9 => ⟨.merge, .void, 2, 6, 8, 0, []⟩
    | 10 => ⟨.phi, .i64, 3, 9, -2, 2, []⟩
    | 11 => ⟨.zext, .i64, 1, 3, 0, 0, []⟩
    | 12 => ⟨.add, .i64, 2, 10, 11, 0, []⟩
    | 13 => ⟨.ret, .void, 2, 9, 12, 0, []⟩
    | -1 => ⟨.cI64, .i64, 0, 0, 0, 0, []⟩
    | -2 => ⟨.cI64, .i64, 0, 0, 0, 0, []⟩
    | _ => nopInsn
  val
    | -1 => 3
    | _ => 4
  uses
    | 1 => [2, 4]
    | 2 => [3, 10]
    | 3 => [4, 11]
    | 4 => [5, 7]
    | 5 => [6]
    | 6 => [9]
    | 7 => [8]
    | 8 => [9]
    | 9 => [10, 13]
    | 10 => [12]
    | 11 => [12]
    | 12 => [13]
    | _ => []
  iterWorklist _ := false

/-- Its values at `x = 4`, when the instructions outside the conversion give `0`. -/
def minValues : ℤ → ℤ
  | -1 => 3
  | -2 => 4
  | 2 => 4
  | _ => 0

theorem minGraph_checked : Checked minGraph := by
  refine checked_of_checksAt (-2) 16 (fun i hi => ?_) ?_
  · rw [mem_refsFrom] at hi
    constructor
    · unfold minGraph
      dsimp only
      split <;> first | rfl | omega
    · unfold minGraph
      dsimp only
      split <;> first | rfl | omega
  · decide

theorem minGraph_match : minGraph.matchDiamond 9 = some ⟨6, 8, 5, 7, 4, 3⟩ := rfl

theorem minGraph_site : Site minGraph 9 10 13 where
  merge_op := rfl
  merge_inputs := rfl
  phi_op := rfl
  phi_inputs := rfl
  phi_merge := rfl
  uses_merge := .inl rfl
  next_op := rfl
  arms d h := by
    rw [minGraph_match] at h
    cases h
    exact .inl ⟨rfl, rfl⟩
  vars d h u hu := by
    rw [minGraph_match] at h
    cases h
    rcases hu with ⟨h, -⟩ | ⟨h, -⟩ <;> exact absurd rfl h

theorem minGraph_fits : Typed minGraph 10 ∧ Evaluation (fun _ _ _ => 0) minGraph minValues := by
  refine ⟨⟨?_, rfl, rfl, fun i h => ?_⟩, fun i h _ ht => ?_, fun i hi h => ?_, fun i ht => ?_⟩
  · show IrType.i64 ≠ .void
    simp
  · unfold minGraph at h ⊢
    dsimp only at h ⊢
    split at h <;> first | rfl | cases h
  · have hi : i = -1 ∨ i = -2 := by
      unfold minGraph at ht
      dsimp only at ht
      split at ht <;> first | omega | exact absurd rfl ht.2
    rcases hi with rfl | rfl <;> decide
  · have hcls : i = 3 ∨ i = 11 ∨ i = 12 := by
      unfold minGraph at h
      dsimp only at h
      split at h <;> first | omega | cases h
    rcases hcls with rfl | rfl | rfl <;> decide
  · have hi : i = -2 ∨ i = -1 ∨ i = 2 ∨ i = 3 ∨ i = 10 ∨ i = 11 ∨ i = 12 := by
      unfold minGraph at ht
      dsimp only at ht
      split at ht <;> first | exact absurd rfl ht.2 | simp
    have hrange : ∀ n : ℤ, 0 ≤ n → n ≤ 4 → InRange .i64 n := by
      intro n h0 h4
      simp [InRange, IrType.isSigned, bits, IrType.size]
      omega
    rcases hi with rfl | rfl | rfl | rfl | rfl | rfl | rfl
    · exact hrange 4 (by omega) (by omega)
    · exact hrange 3 (by omega) (by omega)
    · exact hrange 4 (by omega) (by omega)
    · show InRange .bool 0
      simp [InRange]
    · exact hrange 0 (by omega) (by omega)
    · exact hrange 0 (by omega) (by omega)
    · exact hrange 0 (by omega) (by omega)

/-- `x <= 3` becomes `x <= 4` for its other use, too. -/
theorem sharedBound_disturbed :
    Checked minGraph ∧ Site minGraph 9 10 13 ∧ Typed minGraph 10 ∧
      Evaluation (fun _ _ _ => 0) minGraph minValues ∧
      ¬Undisturbed (fun _ _ _ => 0) minGraph 9 10 minValues := by
  refine ⟨minGraph_checked, minGraph_site, minGraph_fits.1, minGraph_fits.2, fun h => ?_⟩
  have hkept := h 3 fun _ => ⟨by decide, fun d hd => ?_⟩
  · rcases hkept with ⟨-, hunused⟩ | ⟨-, -, hvalue⟩
    · exact hunused 11 (by decide) (by decide +kernel)
    · revert hvalue
      decide
  · exact minGraph_site.not_gone_of_data hd rfl

end IrJit.IfConv
