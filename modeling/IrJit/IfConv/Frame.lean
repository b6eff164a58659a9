import IrJit.IfConv.Value

/-!
# IfConv.Frame — the values of the other instructions

An instruction that stays computes the same from the values of its operands, except for a comparison
that was rewritten although it has other uses; and an instruction that goes is no operand any more,
except for the negation of a negation.
-/

namespace IrJit.IfConv

open Fold

variable {ctx base after : Ctx} {d : Diamond} {merge ref next prev i k r u : ℤ} {phi : Insn}
  {gone : ℤ → Prop} {other : IrOp → IrType → List ℤ → ℤ} {ρ : ℤ → ℤ}

/-- `i` had uses, and is no operand any more. -/
def BecameUnused (ctx after : Ctx) (i : ℤ) : Prop :=
  ctx.uses i ≠ [] ∧ ∀ k, (after.insn k).op ≠ .nop → i ∉ (after.insn k).operands

/-- `i` computes the same from the values of its operands. -/
def SameValue (other : IrOp → IrType → List ℤ → ℤ) (ctx after : Ctx) (ρ : ℤ → ℤ) (i : ℤ) : Prop :=
  (after.insn i).op = (ctx.insn i).op ∧ (after.insn i).type = (ctx.insn i).type ∧
    after.eval other ρ i = ctx.eval other ρ i

/-! ## Operands -/

theorem mem_operands_setOp1 {insn : Insn} (h : r ∈ { insn with op1 := prev }.operands) :
    r = prev ∨ r ∈ insn.operands := by
  unfold Insn.operands at *
  cases hn : insn.inputsCount with
  | zero => simp [hn] at h
  | succ n =>
    simp only [hn, List.cons_append, List.take_succ_cons, List.mem_cons] at h ⊢
    tauto

theorem mem_setOp1_operands {insn : Insn} (h : r ∈ insn.operands) (hne : r ≠ insn.op1) :
    r ∈ { insn with op1 := prev }.operands := by
  unfold Insn.operands at *
  cases hn : insn.inputsCount with
  | zero => simp [hn] at h
  | succ n =>
    simp only [hn, List.cons_append, List.take_succ_cons, List.mem_cons] at h ⊢
    tauto

theorem dataOps_setOp1 {insn : Insn} (h : insn.op.hasControlInput = true) :
    { insn with op1 := prev }.dataOps = insn.dataOps := by
  unfold Insn.dataOps Insn.operands
  cases hn : insn.inputsCount <;> simp [h]

theorem Checked.mem_uses (C : Checked ctx) (h0 : 0 < r) (h : r ∈ (ctx.insn i).operands) :
    i ∈ ctx.uses r := by
  rw [← List.count_pos_iff, C.uses r i h0]
  exact List.count_pos_iff.2 h

theorem Checked.mem_operands (C : Checked ctx) (h0 : 0 < r) (h : i ∈ ctx.uses r) :
    r ∈ (ctx.insn i).operands := by
  rw [← List.count_pos_iff, ← C.uses r i h0]
  exact List.count_pos_iff.2 h

theorem Checked.operands_ne_nop (C : Checked ctx) (h : r ∈ (ctx.insn i).operands) :
    (ctx.insn i).op ≠ .nop := by
  intro hop
  have hcount := C.inputs i (by rw [hop]; rfl)
  rw [hop] at hcount
  rw [Insn.operands, hcount] at h
  simp [IrOp.inputEdges] at h

theorem dataOps_of_data {insn : Insn} (h : insn.op.cls = .data) : insn.dataOps = insn.operands := by
  have h1 : insn.op.isMerge = false := by
    unfold IrOp.isMerge
    cases hop : insn.op <;> simp [hop, IrOp.cls] at h ⊢
  have h2 : insn.op.hasControlInput = false := by simp [IrOp.hasControlInput, h]
  simp [Insn.dataOps, h1, h2]

/-! ## The instructions that go -/

theorem Site.pos_of_gone (C : Checked ctx) (S : Site ctx merge ref next)
    (h : ctx.matchDiamond merge = some d) (hr : d.Gone ctx merge r) : 0 < r := by
  by_contra h0
  have hop : (ctx.insn r).op.isControl = true ∨ (ctx.insn r).op = .var := S.gone_op h hr
  rcases C.consts r (by omega) with hc | hc | hc
  · rw [hc] at hop
    rcases hop with hop | hop <;> cases hop
  · revert hop hc
    cases (ctx.insn r).op <;> decide
  · revert hop hc
    cases (ctx.insn r).op <;> decide

/-- Besides the diamond, an instruction goes when its one use is no data instruction. -/
def Spares (ctx : Ctx) (d : Diamond) (merge : ℤ) (gone : ℤ → Prop) : Prop :=
  ∀ r, gone r → d.Gone ctx merge r ∨ (0 < r ∧ ∃ u, ctx.uses r = [u] ∧ (ctx.insn u).op.cls ≠ .data)

/-- No operand of a data instruction goes. -/
theorem Spares.operand (hgone : Spares ctx d merge gone) (C : Checked ctx)
    (S : Site ctx merge ref next) (h : ctx.matchDiamond merge = some d)
    (hi : (ctx.insn i).op.cls = .data) (hr : r ∈ (ctx.insn i).operands) : ¬gone r := by
  intro hg
  rcases hgone r hg with hg | ⟨h0, u, hu, hcls⟩
  · have h0 := S.pos_of_gone C h hg
    rcases hg with hg | hg
    · have hdata := C.data i r (by rwa [dataOps_of_data hi]) h0
      rcases S.refs_op h hg with hop | hop | hop | hop | hop <;> rw [hop] at hdata <;>
        rcases hdata with hdata | hdata <;> cases hdata
    · exact S.not_armVar_of_operand C h hr hg
  · have hmem := C.mem_uses h0 hr
    rw [hu, List.mem_singleton] at hmem
    exact hcls (hmem ▸ hi)

/-- An instruction that reads `r` afterwards. -/
theorem Left.reader (L : Left base after ref next prev phi gone) (hk : (after.insn k).op ≠ .nop)
    (hr : r ∈ (after.insn k).operands) :
    ¬gone k ∧ ((k = ref ∧ r ∈ phi.operands) ∨ (k = next ∧ r = prev) ∨
      r ∈ (base.insn k).operands) := by
  have hg : ¬gone k := fun h => hk (L.op_gone k h)
  refine ⟨hg, ?_⟩
  by_cases h1 : k = ref
  · subst h1
    rw [L.insn_phi] at hr
    exact .inl ⟨rfl, hr⟩
  by_cases h2 : k = next
  · subst h2
    rw [L.insn_next hg] at hr
    rcases mem_operands_setOp1 hr with h | h
    · exact .inr (.inl ⟨rfl, h⟩)
    · exact .inr (.inr h)
  · rw [L.insn_same k hg h1 h2] at hr
    exact .inr (.inr hr)

/-- An instruction whose one use goes, or is the PHI and no operand of its replacement, is unused. -/
theorem Left.becameUnused (L : Left base after ref next prev phi gone) (C : Checked ctx)
    (hbase : ∀ k, ¬gone k → base.insn k = ctx.insn k) (h0 : 0 < r) (hu : ctx.uses r = [u])
    (hgone : gone u ∨ u = ref) (hphi : r ∉ phi.operands) (hprev : r ≠ prev) : BecameUnused ctx after r := by
  refine ⟨by rw [hu]; simp, fun k hk hr => ?_⟩
  obtain ⟨hg, ⟨-, hr'⟩ | ⟨-, hr'⟩ | hr'⟩ := L.reader hk hr
  · exact hphi hr'
  · exact hprev hr'
  · rw [hbase k hg] at hr'
    have hku := C.mem_uses h0 hr'
    rw [hu, List.mem_singleton] at hku
    rcases hgone with hgone | rfl
    · exact hg (hku ▸ hgone)
    · rw [hku, L.insn_phi] at hr
      exact hphi hr

/-! ## The instructions that stay -/

/-- The comparisons that `eval` reads the types of the operands for. -/
def isCompare (op : IrOp) : Bool := op = .eq || op = .ne || isOrder op

theorem cls_of_isCompare {op : IrOp} (h : isCompare op = true) : op.cls = .data ∧
    op.inputEdges = 2 ∧ op.hasVarInputs = false := by
  simp only [isCompare, Bool.or_eq_true, decide_eq_true_eq] at h
  rcases h with (rfl | rfl) | h
  · exact ⟨rfl, rfl, rfl⟩
  · exact ⟨rfl, rfl, rfl⟩
  · exact cls_of_isOrder h

theorem Checked.compare_operands (C : Checked ctx) (h : isCompare (ctx.insn i).op = true) :
    (ctx.insn i).operands = [(ctx.insn i).op1, (ctx.insn i).op2] := by
  obtain ⟨-, hedges, hvar⟩ := cls_of_isCompare h
  rw [Insn.operands, C.inputs i hvar, hedges]
  rfl

theorem eval_congr (hinsn : after.insn i = ctx.insn i)
    (htypes : isCompare (ctx.insn i).op = true →
      (after.insn (ctx.insn i).op1).type = (ctx.insn (ctx.insn i).op1).type ∧
      (after.insn (ctx.insn i).op2).type = (ctx.insn (ctx.insn i).op2).type) :
    after.eval other ρ i = ctx.eval other ρ i := by
  unfold Ctx.eval
  rw [hinsn]
  dsimp only
  by_cases hc : isCompare (ctx.insn i).op = true
  · rw [(htypes hc).1, (htypes hc).2]
  · cases hop : (ctx.insn i).op <;> first | rfl | (rw [hop] at hc; exact absurd rfl hc)

/-- The next instruction changes its control input only. -/
theorem eval_setOp1 (hinsn : after.insn i = { ctx.insn i with op1 := prev })
    (hctl : (ctx.insn i).op.isControl = true) : after.eval other ρ i = ctx.eval other ρ i := by
  have hops : (after.insn i).dataOps = (ctx.insn i).dataOps := by
    rw [hinsn]
    exact dataOps_setOp1 (IrOp.hasControlInput_of_isControl hctl)
  have hop : (after.insn i).op = (ctx.insn i).op := by rw [hinsn]
  have hty : (after.insn i).type = (ctx.insn i).type := by rw [hinsn]
  unfold Ctx.eval
  dsimp only
  rw [hops, hop, hty]
  cases h : (ctx.insn i).op <;> first | rfl | (rw [h] at hctl; cases hctl)

theorem Left.type (L : Left base after ref next prev phi gone)
    (hphi : phi.type = (base.insn ref).type) (hr : ¬gone r) :
    (after.insn r).type = (base.insn r).type := by
  by_cases h1 : r = ref
  · rw [h1, L.insn_phi, hphi]
  by_cases h2 : r = next
  · subst h2
    rw [L.insn_next hr]
  · rw [L.insn_same r hr h1 h2]

theorem Left.sameValue (L : Left base after ref next prev phi gone) (C : Checked ctx)
    (S : Site ctx merge ref next) (h : ctx.matchDiamond merge = some d)
    (hgone : Spares ctx d merge gone) (hphi : phi.type = (base.insn ref).type)
    (htype : ∀ r, (base.insn r).type = (ctx.insn r).type) (hbase : base.insn i = ctx.insn i)
    (hi : ¬gone i) (hne : i ≠ ref) : SameValue other ctx after ρ i := by
  by_cases hnext : i = next
  · subst hnext
    have hinsn := L.insn_next hi
    rw [hbase] at hinsn
    exact ⟨by rw [hinsn], by rw [hinsn], eval_setOp1 hinsn S.next_op⟩
  · have hinsn := (L.insn_same i hi hne hnext).trans hbase
    refine ⟨by rw [hinsn], by rw [hinsn], eval_congr hinsn fun hc => ?_⟩
    have hstay : ∀ r ∈ (ctx.insn i).operands, (after.insn r).type = (ctx.insn r).type :=
      fun r hr => (L.type hphi (hgone.operand C S h (cls_of_isCompare hc).1 hr)).trans (htype r)
    rw [C.compare_operands hc] at hstay
    exact ⟨hstay _ (by simp), hstay _ (by simp)⟩

theorem SameValue.refl (other : IrOp → IrType → List ℤ → ℤ) (ctx : Ctx) (ρ : ℤ → ℤ) (i : ℤ) :
    SameValue other ctx ctx ρ i := ⟨rfl, rfl, rfl⟩

/-! ## The comparison -/

theorem Matched.root_mem_uses (M : Matched ctx merge d) (C : Checked ctx) (h0 : 0 < d.cond) :
    d.root ∈ ctx.uses d.cond := by
  refine C.mem_uses h0 ?_
  rw [C.root_operands M]
  simp

theorem Matched.goneCond_uses (M : Matched ctx merge d) (C : Checked ctx) (h0 : 0 < d.cond)
    (h : d.GoneCond ctx r) : 0 < r ∧ ctx.uses r = [d.root] := by
  obtain ⟨hlen, rfl⟩ := h
  obtain ⟨u, hu⟩ := List.length_eq_one_iff.1 hlen
  have hmem := M.root_mem_uses C h0
  rw [hu, List.mem_singleton] at hmem
  exact ⟨h0, by rw [hu, hmem]⟩

/-- The control input of the IF is no value. -/
theorem Matched.prev_ne (M : Matched ctx merge d) (C : Checked ctx) (h0 : 0 < r)
    (hr : (ctx.insn r).op.cls = .data) : r ≠ (ctx.insn d.root).op1 := by
  intro heq
  have hctl := C.control d.root (by rw [M.root_op]; rfl) (heq ▸ h0)
  rw [← heq] at hctl
  simp [IrOp.isControl, hr] at hctl

/-- A shared comparison is an operand of an instruction that is none of the diamond. -/
theorem Matched.exists_reader (M : Matched ctx merge d) (C : Checked ctx)
    (S : Site ctx merge ref next) (h : ctx.matchDiamond merge = some d) (h0 : 0 < d.cond)
    (hcls : (ctx.insn d.cond).op.cls = .data) (hlen : (ctx.uses d.cond).length ≠ 1) :
    ∃ k, d.cond ∈ (ctx.insn k).operands ∧ ¬d.Gone ctx merge k := by
  have hprev := M.prev_ne C h0 hcls
  have hroot : (ctx.uses d.cond).count d.root = 1 := by
    rw [C.uses _ _ h0, C.root_operands M]
    simp [hprev.symm]
  obtain ⟨k, hk, hne⟩ : ∃ k ∈ ctx.uses d.cond, k ≠ d.root := by
    by_contra hall
    push Not at hall
    exact hlen (by rw [← hroot, List.count_eq_length.2 fun k hk => (hall k hk).symm])
  have hop := C.mem_operands h0 hk
  refine ⟨k, hop, fun hg => ?_⟩
  -- the operands of the other instructions of the diamond are control inputs
  have hctl : ∀ r, (ctx.insn r).op.isControl = true → d.cond ≠ r := by
    rintro r hr rfl
    simp [IrOp.isControl, hcls] at hr
  have hone : (ctx.insn k).op.hasVarInputs = false → (ctx.insn k).op.inputEdges = 1 →
      (ctx.insn k).op.hasControlInput = true → False := by
    intro hv he hc
    have hops : (ctx.insn k).operands = [(ctx.insn k).op1] := by
      rw [Insn.operands, C.inputs k hv, he]
      rfl
    rw [hops, List.mem_singleton] at hop
    exact hctl _ (C.control k hc (hop ▸ h0)) hop
  rcases hg with hg | hg
  · simp only [Diamond.refs, List.mem_cons, List.not_mem_nil, or_false] at hg
    rcases hg with rfl | rfl | rfl | rfl | rfl | rfl
    · exact hne rfl
    · rcases S.start1_op h with h | h <;> rw [h] at hone <;> exact hone rfl rfl rfl
    · rcases S.start2_op h with h | h <;> rw [h] at hone <;> exact hone rfl rfl rfl
    · rw [M.end1_op] at hone
      exact hone rfl rfl rfl
    · rw [M.end2_op] at hone
      exact hone rfl rfl rfl
    · have hops : (ctx.insn k).operands = [d.end1, d.end2] := by
        rw [Insn.operands, S.merge_inputs, M.end1, M.end2]
        rfl
      rw [hops] at hop
      simp only [List.mem_cons, List.not_mem_nil, or_false] at hop
      rcases hop with hop | hop
      · exact hctl _ (by rw [M.end1_op]; rfl) hop
      · exact hctl _ (by rw [M.end2_op]; rfl) hop
  · rw [(S.vars d h k hg).1] at hone
    exact hone rfl rfl rfl

end IrJit.IfConv
