import IrJit.IfConv.Left

/-!
# IfConv.Outcome — the graphs the pass is given, and what it leaves of them

`Checked` is what `ir_check` says of a context, `Site` what the caller and the assertions of
`ir_optimize_phi` say of the merge and the PHI.
-/

namespace IrJit.IfConv

open Fold

variable {ctx : Ctx} {d : Diamond} {merge ref i j : ℤ}

/-! ## The graphs the pass is given -/

/-- The data operands of an instruction. -/
def Insn.dataOps (insn : Insn) : List ℤ :=
  if insn.op.isMerge then []
  else if insn.op.hasControlInput then insn.operands.drop 1
  else insn.operands

/-- What `ir_check` tests, with complete use lists. -/
structure Checked (ctx : Ctx) : Prop where
  consts : ∀ i, i ≤ 0 →
    (ctx.insn i).op = .nop ∨ (ctx.insn i).op.isConstOp = true ∨ (ctx.insn i).op.isSymConst = true
  inputs : ∀ i, (ctx.insn i).op.hasVarInputs = false →
    (ctx.insn i).inputsCount = (ctx.insn i).op.inputEdges
  uses : ∀ r i, 0 < r → (ctx.uses r).count i = (ctx.insn i).operands.count r
  data : ∀ i, ∀ r ∈ (ctx.insn i).dataOps, 0 < r →
    (ctx.insn r).op.isData = true ∨ (ctx.insn r).op.isMem = true
  control : ∀ i, (ctx.insn i).op.hasControlInput = true → 0 < (ctx.insn i).op1 →
    (ctx.insn (ctx.insn i).op1).op.isControl = true
  -- without a PHI no value depends on itself
  acyclic : ∀ i, (ctx.insn i).op.cls = .data → i ∉ (ctx.insn i).operands

/-- The references from `lo` on. -/
def refsFrom (lo : ℤ) (n : ℕ) : List ℤ := (List.range n).map fun k : ℕ => lo + k

theorem mem_refsFrom {lo : ℤ} {n : ℕ} : i ∈ refsFrom lo n ↔ lo ≤ i ∧ i < lo + n := by
  simp only [refsFrom, List.mem_map, List.mem_range]
  constructor
  · rintro ⟨k, hk, rfl⟩
    omega
  · intro h
    exact ⟨(i - lo).toNat, by omega, by omega⟩

/-- `MAKE_NOP` of a fresh slot. -/
def nopInsn : Insn := ⟨.nop, .void, 0, 0, 0, 0, []⟩

/-- The tests of `Checked` at one instruction of a context whose references are `refs`. -/
def Ctx.checksAt (ctx : Ctx) (refs : List ℤ) (i : ℤ) : Bool :=
  let insn := ctx.insn i
  (0 < i || insn.op = .nop || insn.op.isConstOp || insn.op.isSymConst)
    && (insn.op.hasVarInputs || insn.inputsCount = insn.op.inputEdges)
    && insn.operands.all (· ∈ refs)
    && refs.all (fun r => r ≤ 0 || (ctx.uses r).count i = insn.operands.count r)
    && (ctx.uses i).all (· ∈ refs)
    && insn.dataOps.all (fun r => r ≤ 0 || (ctx.insn r).op.isData || (ctx.insn r).op.isMem)
    && (!insn.op.hasControlInput || insn.op1 ≤ 0 || (ctx.insn insn.op1).op.isControl)
    && (insn.op.cls ≠ .data || i ∉ insn.operands)

/-- A context with the references from `lo` on is tested at these. -/
theorem checked_of_checksAt (lo : ℤ) (n : ℕ)
    (hout : ∀ i, i ∉ refsFrom lo n → ctx.insn i = nopInsn ∧ ctx.uses i = [])
    (h : (refsFrom lo n).all (ctx.checksAt (refsFrom lo n)) = true) : Checked ctx := by
  have hin : ∀ i ∈ refsFrom lo n, ctx.checksAt (refsFrom lo n) i = true := by
    simpa only [List.all_eq_true] using h
  have htests : ∀ i ∈ refsFrom lo n, _ := fun i hi => by
    have h := hin i hi
    simp only [Ctx.checksAt, Bool.and_eq_true, Bool.or_eq_true, decide_eq_true_eq, List.all_eq_true,
      Bool.not_eq_true'] at h
    exact h
  constructor
  · intro i hi
    by_cases hmem : i ∈ refsFrom lo n
    · have h := (htests i hmem).1.1.1.1.1.1.1
      rcases h with ((h | h) | h) | h
      · omega
      · exact .inl h
      · exact .inr (.inl h)
      · exact .inr (.inr h)
    · exact .inl (by rw [(hout i hmem).1]; rfl)
  · intro i hvar
    by_cases hmem : i ∈ refsFrom lo n
    · exact (htests i hmem).1.1.1.1.1.1.2.resolve_left (by simp [hvar])
    · rw [(hout i hmem).1]
      rfl
  · intro r i hr
    by_cases hrmem : r ∈ refsFrom lo n
    · by_cases hmem : i ∈ refsFrom lo n
      · exact ((htests i hmem).1.1.1.1.2 r hrmem).resolve_left (by omega)
      · rw [(hout i hmem).1, List.count_eq_zero.2 fun hu => hmem ((htests r hrmem).1.1.1.2 i hu)]
        simp [nopInsn, Insn.operands]
    · rw [(hout r hrmem).2, List.count_nil]
      by_cases hmem : i ∈ refsFrom lo n
      · exact (List.count_eq_zero.2 fun hu => hrmem ((htests i hmem).1.1.1.1.1.2 r hu)).symm
      · rw [(hout i hmem).1]
        simp [nopInsn, Insn.operands]
  · intro i r hr h0
    by_cases hmem : i ∈ refsFrom lo n
    · rcases (htests i hmem).1.1.2 r hr with (h | h) | h
      · omega
      · exact .inl h
      · exact .inr h
    · rw [(hout i hmem).1] at hr
      simp [nopInsn, Insn.dataOps, Insn.operands, IrOp.isMerge, IrOp.hasControlInput, IrOp.cls] at hr
  · intro i hctl h0
    by_cases hmem : i ∈ refsFrom lo n
    · rcases (htests i hmem).1.2 with (h | h) | h
      · rw [hctl] at h
        cases h
      · omega
      · exact h
    · rw [(hout i hmem).1] at hctl
      cases hctl
  · intro i hcls
    by_cases hmem : i ∈ refsFrom lo n
    · exact (htests i hmem).2.resolve_left (by simp [hcls])
    · rw [(hout i hmem).1]
      simp [nopInsn, Insn.operands]

/-- The merge and the PHI for which `ir_optimize_merge` calls `ir_optimize_phi`, with the
assertions: an IF has one successor of each kind, and besides its end an arm has variables without
uses only. -/
structure Site (ctx : Ctx) (merge ref next : ℤ) : Prop where
  merge_op : (ctx.insn merge).op = .merge
  merge_inputs : (ctx.insn merge).inputsCount = 2
  phi_op : (ctx.insn ref).op = .phi
  phi_inputs : (ctx.insn ref).inputsCount = 3
  phi_merge : (ctx.insn ref).op1 = merge
  uses_merge : ctx.uses merge = [ref, next] ∨ ctx.uses merge = [next, ref]
  next_op : (ctx.insn next).op.isControl = true
  arms : ∀ d, ctx.matchDiamond merge = some d →
    ((ctx.insn d.start1).op = .ifTrue ∧ (ctx.insn d.start2).op = .ifFalse)
      ∨ (ctx.insn d.start1).op = .ifFalse ∧ (ctx.insn d.start2).op = .ifTrue
  vars : ∀ d, ctx.matchDiamond merge = some d →
    ∀ u, ArmVar ctx d u → (ctx.insn u).op = .var ∧ ctx.uses u = []

/-- The tests of `matchDiamond`. -/
structure Matched (ctx : Ctx) (merge : ℤ) (d : Diamond) : Prop where
  end1 : d.end1 = (ctx.insn merge).op1
  end2 : d.end2 = (ctx.insn merge).op2
  start1 : d.start1 = (ctx.insn d.end1).op1
  start2 : d.start2 = (ctx.insn d.end2).op1
  root1 : d.root = (ctx.insn d.start1).op1
  root2 : d.root = (ctx.insn d.start2).op1
  cond : d.cond = (ctx.insn d.root).op2
  end1_op : (ctx.insn d.end1).op = .endOp
  end2_op : (ctx.insn d.end2).op = .endOp
  root_op : (ctx.insn d.root).op = .ifOp
  cond_nonneg : 0 ≤ d.cond

theorem Ctx.matchDiamond_eq_some (h : ctx.matchDiamond merge = some d) : Matched ctx merge d := by
  unfold Ctx.matchDiamond at h
  dsimp only at h
  split at h
  · next hc =>
    cases h
    obtain ⟨h1, h2, h3, h4, h5⟩ := hc
    refine ⟨rfl, rfl, rfl, rfl, rfl, h3, rfl, h1, h2, h4, ?_⟩
    simpa [isConstRef] using h5
  · cases h

section

variable {next : ℤ} (C : Checked ctx) (S : Site ctx merge ref next)
  (h : ctx.matchDiamond merge = some d)
include S h

theorem Site.start1_op : (ctx.insn d.start1).op = .ifTrue ∨ (ctx.insn d.start1).op = .ifFalse := by
  rcases S.arms d h with h | h
  · exact .inl h.1
  · exact .inr h.1

theorem Site.start2_op : (ctx.insn d.start2).op = .ifTrue ∨ (ctx.insn d.start2).op = .ifFalse := by
  rcases S.arms d h with h | h
  · exact .inr h.2
  · exact .inl h.2

/-- The instructions of the diamond are told by their opcodes. -/
theorem Site.refs_op (hi : i ∈ d.refs merge) :
    (ctx.insn i).op = .ifOp ∨ (ctx.insn i).op = .ifTrue ∨ (ctx.insn i).op = .ifFalse ∨
      (ctx.insn i).op = .endOp ∨ (ctx.insn i).op = .merge := by
  have M := Ctx.matchDiamond_eq_some h
  simp only [Diamond.refs, List.mem_cons, List.not_mem_nil, or_false] at hi
  rcases hi with rfl | rfl | rfl | rfl | rfl | rfl
  · exact .inl M.root_op
  · rcases S.start1_op h with h | h <;> simp [h]
  · rcases S.start2_op h with h | h <;> simp [h]
  · simp [M.end1_op]
  · simp [M.end2_op]
  · simp [S.merge_op]

theorem Site.gone_op (hi : d.Gone ctx merge i) : (ctx.insn i).op.isControl = true ∨
    (ctx.insn i).op = .var := by
  rcases hi with hi | hi
  · left
    rcases S.refs_op h hi with h | h | h | h | h <;> rw [h] <;> rfl
  · exact .inr (S.vars d h i hi).1

theorem Site.not_gone_of_data (hi : (ctx.insn i).op.cls = .data) : ¬d.Gone ctx merge i := by
  intro hg
  rcases S.gone_op h hg with h | h
  · simp [IrOp.isControl, hi] at h
  · rw [h] at hi
    cases hi

include C

/-- A variable of the arms has no uses, so it is no operand. -/
theorem Site.not_armVar_of_operand (hi : i ∈ (ctx.insn j).operands) : ¬ArmVar ctx d i := by
  intro hv
  obtain ⟨hop, huses⟩ := S.vars d h i hv
  by_cases h0 : 0 < i
  · have hcount := C.uses i j h0
    rw [huses, List.count_nil] at hcount
    exact absurd hi (List.count_eq_zero.1 hcount.symm)
  · rcases C.consts i (by omega) with h | h | h <;> rw [hop] at h <;> revert h <;> decide

end

theorem Site.nextRef_eq {next : ℤ} (S : Site ctx merge ref next) : ctx.nextRef merge ref = next := by
  have hne : next ≠ ref := by
    rintro rfl
    have h := S.next_op
    rw [S.phi_op] at h
    cases h
  unfold Ctx.nextRef
  rcases S.uses_merge with h | h <;> simp [h, hne]

theorem Checked.root_operands (C : Checked ctx) (M : Matched ctx merge d) :
    (ctx.insn d.root).operands = [(ctx.insn d.root).op1, d.cond] := by
  have h := C.inputs d.root (by rw [M.root_op]; rfl)
  rw [Insn.operands, h, M.root_op, M.cond]
  rfl

theorem Site.apart {next : ℤ} (C : Checked ctx) (S : Site ctx merge ref next)
    (h : ctx.matchDiamond merge = some d) : Apart ctx d merge ref where
  ref_gone hg := by
    rcases hg with hg | hg
    · have hop := S.refs_op h hg
      rw [S.phi_op] at hop
      simp at hop
    · have hop := (S.vars d h _ hg).1
      rw [S.phi_op] at hop
      cases hop
  ref_next := by
    rw [S.nextRef_eq]
    rintro rfl
    have hn := S.next_op
    rw [S.phi_op] at hn
    cases hn
  cond_var := by
    have M := Ctx.matchDiamond_eq_some h
    refine S.not_armVar_of_operand C h (j := d.root) ?_
    rw [C.root_operands M]
    simp
  start_var hv := by
    have hop := (S.vars d h _ hv).1
    rcases S.start1_op h with h | h <;> rw [h] at hop <;> cases hop
  root_var hv := by
    have hop := (S.vars d h _ hv).1
    rw [(Ctx.matchDiamond_eq_some h).root_op] at hop
    cases hop

/-! ## The tests that have passed -/

/-- The comparisons of `isCmp`. -/
def isOrder (op : IrOp) : Bool :=
  op = .lt || op = .le || op = .gt || op = .ge || op = .ult || op = .ule || op = .ugt || op = .uge

theorem isOrder_of_isCmp {t : IrType} {op : IrOp} (h : isCmp t op = true) : isOrder op = true := by
  unfold isCmp at h
  unfold isOrder
  split at h
  · exact h
  · split at h <;> simp only [Bool.or_eq_true, decide_eq_true_eq] at h ⊢ <;> tauto

theorem cls_of_isOrder {op : IrOp} (h : isOrder op = true) : op.cls = .data ∧ op.inputEdges = 2 ∧
    op.hasVarInputs = false := by
  simp only [isOrder, Bool.or_eq_true, decide_eq_true_eq] at h
  rcases h with ((((((h | h) | h) | h) | h) | h) | h) | h <;> subst h <;> exact ⟨rfl, rfl, rfl⟩

theorem Checked.pos_of_cls (C : Checked ctx) {i : ℤ} (h : (ctx.insn i).op.inputEdges ≠ 0) : 0 < i := by
  by_contra h0
  rcases C.consts i (by omega) with hop | hop | hop
  · rw [hop] at h
    exact h rfl
  · revert h hop
    cases (ctx.insn i).op <;> decide
  · revert h hop
    cases (ctx.insn i).op <;> decide

/-- What `ir_fix_min_max_const` has tested when it rewrites `cond` to `cond'`. -/
structure Fixed (ctx : Ctx) (insn cond cond' : Insn) : Prop where
  eq : cond' = { cond with op2 := cond'.op2 }
  ne : cond'.op2 ≠ cond.op2
  isInt : insn.type.isInt = true
  const : cond.op2 < 0 ∧ (ctx.insn cond.op2).op.isSymConst = false
  const' : cond'.op2 < 0 ∧ (ctx.insn cond'.op2).op.isSymConst = false
  type : (ctx.insn cond.op2).type = (ctx.insn cond'.op2).type
  val : ((cond.op = .ule ∨ cond.op = .le) ∧ ctx.val cond.op2 = ctx.val cond'.op2 - 1) ∨
    (cond.op = .uge ∨ cond.op = .ge) ∧ ctx.val cond.op2 = ctx.val cond'.op2 + 1

theorem boundMatch_eq_some {insn cond cond' : Insn} {bound : ℤ}
    (h : ctx.boundMatch insn cond bound = some cond') :
    cond'.op = cond.op ∧ cond'.op1 = cond.op1 ∧ cond'.op2 = bound ∧
      (cond' = cond ∨ Fixed ctx insn cond cond') := by
  unfold Ctx.boundMatch at h
  split at h
  · next hb =>
    cases h
    exact ⟨rfl, rfl, hb.symm, .inl rfl⟩
  · next hb =>
    split at h
    · next hc =>
      simp only [isConstRef, Bool.and_eq_true, decide_eq_true_eq] at hc
      unfold Ctx.fixMinMaxConst at h
      dsimp only at h
      have fixed {v : Val} (hf : (!(ctx.insn cond.op2).op.isSymConst
          && !(ctx.insn bound).op.isSymConst && decide (ctx.val cond.op2 = v)
          && decide ((ctx.insn cond.op2).type = (ctx.insn bound).type)) = true)
          (hv : ((cond.op = .ule ∨ cond.op = .le) ∧ v = ctx.val bound - 1) ∨
            (cond.op = .uge ∨ cond.op = .ge) ∧ v = ctx.val bound + 1)
          (heq : some { cond with op2 := bound } = some cond') :
          cond'.op = cond.op ∧ cond'.op1 = cond.op1 ∧ cond'.op2 = bound ∧
            (cond' = cond ∨ Fixed ctx insn cond cond') := by
        cases heq
        simp only [Bool.and_eq_true, Bool.not_eq_true', decide_eq_true_eq] at hf
        obtain ⟨⟨⟨hs, hs'⟩, hval⟩, htype⟩ := hf
        subst hval
        exact ⟨rfl, rfl, rfl, .inr ⟨rfl, hb, hc.2, ⟨hc.1.1, hs⟩, ⟨hc.1.2, hs'⟩, htype, hv⟩⟩
      split at h
      · next hop =>
        split at h
        · exact fixed ‹_› (.inl ⟨.inl hop, rfl⟩) h
        · cases h
      · next hop =>
        split at h
        · exact fixed ‹_› (.inl ⟨.inr hop, rfl⟩) h
        · cases h
      · next hop =>
        split at h
        · exact fixed ‹_› (.inr ⟨.inl hop, rfl⟩) h
        · cases h
      · next hop =>
        split at h
        · exact fixed ‹_› (.inr ⟨.inr hop, rfl⟩) h
        · cases h
      · cases h
    · cases h

theorem minMaxMatch_eq_some {insn cond cond' : Insn} (h : ctx.minMaxMatch insn cond = some cond') :
    isCmp insn.type cond.op = true ∧ cond'.op = cond.op ∧ cond'.op1 = cond.op1 ∧
      ((insn.op2 = cond'.op1 ∧ insn.op3 = cond'.op2) ∨
        (insn.op3 = cond'.op1 ∧ insn.op2 = cond'.op2)) ∧
      (cond' = cond ∨ Fixed ctx insn cond cond') := by
  unfold Ctx.minMaxMatch at h
  split at h
  · next hcmp =>
    rw [Option.or_eq_some_iff] at h
    refine ⟨hcmp, ?_⟩
    rcases h with h | ⟨-, h⟩
    · split at h
      · next hx =>
        obtain ⟨h1, h2, h3, h4⟩ := boundMatch_eq_some h
        exact ⟨h1, h2, .inl ⟨hx.trans h2.symm, h3.symm⟩, h4⟩
      · cases h
    · split at h
      · next hx =>
        obtain ⟨h1, h2, h3, h4⟩ := boundMatch_eq_some h
        exact ⟨h1, h2, .inr ⟨hx.trans h2.symm, h3.symm⟩, h4⟩
      · cases h
  · cases h

theorem absHalf_neg {insn cond start1 : Insn} {neg x : ℤ} {negFirst : Bool}
    (h : ctx.absHalf insn cond start1 neg x negFirst = true) :
    (ctx.insn neg).op = .neg ∧ (ctx.uses neg).length = 1 ∧ (ctx.insn neg).op1 = x ∧
      (cond.op1 = x ∨ cond.op2 = x) := by
  simp only [Ctx.absHalf, Ctx.zeroRight, Ctx.zeroLeft, Bool.and_eq_true, Bool.or_eq_true,
    decide_eq_true_eq] at h
  obtain ⟨⟨⟨h1, h2⟩, h3⟩, ⟨⟨h4, -⟩, -⟩ | ⟨⟨h4, -⟩, -⟩⟩ := h
  · exact ⟨h1, h2, h3, .inl h4⟩
  · exact ⟨h1, h2, h3, .inr h4⟩

theorem Checked.order_operands (C : Checked ctx) (h : isOrder (ctx.insn i).op = true) :
    (ctx.insn i).operands = [(ctx.insn i).op1, (ctx.insn i).op2] := by
  obtain ⟨-, hedges, hvar⟩ := cls_of_isOrder h
  rw [Insn.operands, C.inputs i hvar, hedges]
  rfl

theorem Site.phi_operands {next : ℤ} (S : Site ctx merge ref next) :
    (ctx.insn ref).operands = [merge, (ctx.insn ref).op2, (ctx.insn ref).op3] := by
  rw [Insn.operands, S.phi_inputs, S.phi_merge]
  rfl

/-- The negation that goes, and the operand that stays. -/
theorem absMatch_neg {insn cond start1 : Insn} (h : ctx.absMatch insn cond start1 = true) :
    isCmp insn.type cond.op = true ∧ (ctx.insn (absInsn ctx insn).2).op = .neg ∧
      ((ctx.insn (absInsn ctx insn).1.op1).op = .neg ∨ cond.op1 = (absInsn ctx insn).1.op1 ∨
        cond.op2 = (absInsn ctx insn).1.op1) := by
  simp only [Ctx.absMatch, Bool.and_eq_true, Bool.or_eq_true] at h
  obtain ⟨hcmp, h | h⟩ := h
  · obtain ⟨hneg, -, -, hx⟩ := absHalf_neg h
    exact ⟨hcmp, by simp [absInsn, hneg], .inr (by simpa [absInsn, hneg] using hx)⟩
  · obtain ⟨hneg, -, -, hx⟩ := absHalf_neg h
    by_cases h2 : (ctx.insn insn.op2).op = .neg
    · exact ⟨hcmp, by simp [absInsn, h2], .inl (by simpa [absInsn, h2] using hneg)⟩
    · exact ⟨hcmp, by simpa [absInsn, h2] using hneg, .inr (by simpa [absInsn, h2] using hx)⟩

/-! ## The outcome -/

/-- The instructions that go with an unshared comparison. -/
def Diamond.GoneCond (ctx : Ctx) (d : Diamond) (i : ℤ) : Prop :=
  (ctx.uses d.cond).length = 1 ∧ i = d.cond

/-- The branch that `ir_optimize_phi` takes, and what it leaves. -/
inductive Outcome (ctx : Ctx) (d : Diamond) (merge ref next : ℤ) : Bool × Ctx → Prop
  | minMax (cond : Insn) (after : Ctx)
      (hm : ctx.minMaxMatch (ctx.insn ref) (ctx.insn d.cond) = some cond)
      (hleft : Left (ctx.modify d.cond fun _ => cond) after ref next (ctx.insn d.root).op1
        (minMaxInsn cond (ctx.insn d.start1) (ctx.insn ref))
        fun i => (d.GoneCond ctx i ∨ i ∈ d.refs merge) ∨ ArmVar ctx d i) :
      Outcome ctx d merge ref next (true, after)
  | abs (after : Ctx) (hm : ctx.minMaxMatch (ctx.insn ref) (ctx.insn d.cond) = none)
      (habs : ctx.absMatch (ctx.insn ref) (ctx.insn d.cond) (ctx.insn d.start1) = true)
      (hleft : Left ctx after ref next (ctx.insn d.root).op1 (absInsn ctx (ctx.insn ref)).1
        fun i => ((d.GoneCond ctx i ∨ i ∈ d.refs merge) ∨ i = (absInsn ctx (ctx.insn ref)).2) ∨
          ArmVar ctx d i) :
      Outcome ctx d merge ref next (true, after)
  | cond (after : Ctx) (hm : ctx.minMaxMatch (ctx.insn ref) (ctx.insn d.cond) = none)
      (habs : ctx.absMatch (ctx.insn ref) (ctx.insn d.cond) (ctx.insn d.start1) = false)
      (hleft : Left ctx after ref next (ctx.insn d.root).op1
        (condInsn d.cond (ctx.insn d.start1) (ctx.insn ref))
        fun i => i ∈ d.refs merge ∨ ArmVar ctx d i) :
      Outcome ctx d merge ref next (true, after)
  | none (hm : ctx.minMaxMatch (ctx.insn ref) (ctx.insn d.cond) = none)
      (habs : ctx.absMatch (ctx.insn ref) (ctx.insn d.cond) (ctx.insn d.start1) = false) :
      Outcome ctx d merge ref next (false, ctx)

theorem Site.order_ne {next : ℤ} (S : Site ctx merge ref next)
    (h : isOrder (ctx.insn i).op = true) : i ≠ ref := by
  rintro rfl
  rw [S.phi_op] at h
  cases h

theorem outcome_optimizePhi (C : Checked ctx) {next : ℤ} (S : Site ctx merge ref next)
    (h : ctx.matchDiamond merge = some d) :
    Outcome ctx d merge ref next (ctx.optimizePhi merge ref) := by
  have A := S.apart C h
  have M := Ctx.matchDiamond_eq_some h
  have hnext := S.nextRef_eq
  unfold Ctx.optimizePhi
  rw [h]
  dsimp only
  cases hm : ctx.minMaxMatch (ctx.insn ref) (ctx.insn d.cond) with
  | some cond =>
    obtain ⟨hcmp, hop, -, -, -⟩ := minMaxMatch_eq_some hm
    have horder := isOrder_of_isCmp hcmp
    have hne := S.order_ne horder
    -- the rewritten comparison changes no use list
    have A' : Apart (ctx.modify d.cond fun _ => cond) d merge ref :=
      ⟨A.ref_gone, A.ref_next, A.cond_var, A.start_var, A.root_var⟩
    have hleft := Ctx.left_toMinMax A' hne
    have hstart : d.start1 ≠ d.cond := by
      intro heq
      rw [← heq] at horder
      rcases S.start1_op h with h | h <;> rw [h] at horder <;> cases horder
    have hroot : d.root ≠ d.cond := by
      intro heq
      rw [← heq, M.root_op] at horder
      cases horder
    rw [Ctx.modify_insn, Ctx.modify_insn, Ctx.modify_insn, Ctx.modify_insn, if_pos rfl,
      if_neg hstart, if_neg hne.symm, if_neg hroot] at hleft
    exact .minMax cond _ hm (hnext ▸ hleft)
  | none =>
    dsimp only
    split
    · next habs =>
      obtain ⟨hcmp, hneg, hx⟩ := absMatch_neg habs
      have horder := isOrder_of_isCmp hcmp
      have hne := S.order_ne horder
      refine .abs _ hm habs (hnext ▸ Ctx.left_toAbs A hne ?_ ?_ ?_)
      · refine S.not_armVar_of_operand C h (j := ref) ?_
        rw [S.phi_operands]
        simp
      · intro heq
        rw [heq, S.phi_op] at hneg
        cases hneg
      · intro heq
        rw [heq] at hx
        rcases hx with hx | hx
        · rw [hx] at horder
          cases horder
        · refine C.acyclic d.cond (cls_of_isOrder horder).1 ?_
          rw [C.order_operands horder]
          rcases hx with hx | hx <;> simp [hx]
    · next habs =>
      split
      · exact .cond _ hm (by simpa using habs) (hnext ▸ Ctx.left_toCond A)
      · exact .none hm (by simpa using habs)

end IrJit.IfConv
