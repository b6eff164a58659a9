import IrJit.Narrow.WalkSpec

/-!
# Narrow.Replace — the graph that the narrowing leaves

After the walk every use of the TRUNC is given the narrow operand, by `ir_iter_replace_insn`.
-/

namespace IrJit.Narrow

open IfConv (Insn isConstRef)

variable {base ctx mid ctx' : Ctx} {type : IrType} {root i ref ref' n m o : ℤ} {D : ℤ → Prop} {V : ℤ → List ℤ}
  {fuel : ℕ}

/-! ## From the TRUNC on -/

/-- Constants have no operands. -/
theorem Ctx.Checked.operands_const (C : base.Checked) (hn : n ≤ 0) : (base.insn n).operands = [] := by
  have hc := C.consts n hn
  have hvar : (base.insn n).op.hasVarInputs = false ∧ (base.insn n).op.inputEdges = 0 := by
    generalize (base.insn n).op = op at hc
    cases op <;> first | exact ⟨rfl, rfl⟩ | exact absurd hc (by decide)
  rw [C.operands_eq hvar.1 hvar.2 (by omega), List.take_zero]

theorem Start.arrives (S : Start base type i root) :
    Arrives base type i root i root (fun m => m = i) (fun n => (base.insn n).operands) base where
  inv := {
    exact := S.checked.uses
    outside := fun _ _ _ => .inl ⟨rfl, rfl⟩
    none := fun _ hn => S.checked.operands_const hn
    pos := fun _ hn => hn ▸ S.pos
    entered := fun _ hn => .inl hn
    start := ⟨rfl, rfl⟩
    consts := fun _ _ _ => ⟨rfl, rfl⟩
    constsCount := le_rfl
    constOps := S.checked.consts }
  entered := rfl
  operand := .inl ⟨rfl, rfl⟩
  slot := by
    rw [S.operands]
    exact List.mem_singleton_self _
  ne := S.ne.symm
  back := id
  visited := .root
  whole := .inl rfl

/-- The walk from the TRUNC on is over. -/
abbrev Start.Over (_ : Start base type i root) (ref' : ℤ) (D : ℤ → Prop) (V : ℤ → List ℤ) (mid : Ctx) : Prop :=
  Walked base type i root i root (fun m => m = i) (fun n => (base.insn n).operands) base ref' D V mid

theorem Start.over (S : Start base type i root) (hmay : base.mayPromoteTrunc type fuel root = some true) :
    ∃ ref' mid, Ctx.promoteI2I type fuel root i base = some (ref', mid) ∧ ∃ D V, S.Over ref' D V mid :=
  S.walks fuel root hmay i _ _ base S.arrives

section

variable {S : Start base type i root} (O : S.Over ref' D V mid)
include O

theorem Walked.start_slots : V i = [ref'] := by
  rw [O.slots, S.operands]
  simp [subst]

/-- The use lists account for the operands of all instructions but the TRUNC. -/
theorem Walked.slots_eq (hpos : 0 < n) (hne : n ≠ i) : V n = (mid.insn n).operands := by
  by_cases hD : D n
  · exact (O.done n hD hne).2.2.2.2.1
  · rcases O.inv.outside n hpos hD with ⟨hinsn, hV⟩ | ⟨-, -, hinsn, hV, -⟩
    · rw [hV, hinsn]
    · rw [hV, hinsn]
      rfl

/-- An instruction that is not entered is as it was, or it is an extension that is gone and is no operand. -/
theorem Walked.outside (hpos : 0 < n) (hD : ¬D n) : mid.insn n = base.insn n ∨
    (base.Bypassed type n ∧ base.Visited root n ∧ (mid.insn n).op = .nop ∧
      ∀ m, 0 < m → m ≠ i → n ∉ (mid.insn m).operands) := by
  rcases O.inv.outside n hpos hD with ⟨hinsn, -⟩ | ⟨hby, hvis, hinsn, -, huses⟩
  · exact .inl hinsn
  · refine .inr ⟨hby, hvis, by rw [hinsn]; rfl, fun m hm hne hmem => ?_⟩
    have h := O.inv.exact n m hpos
    rw [huses, List.count_nil, eq_comm, List.count_eq_zero, O.slots_eq hm hne] at h
    exact h hmem

end

/-! ## The uses of the TRUNC -/

theorem set_idxOf {l : List ℤ} {a b : ℤ} (hab : a ≠ b) (h : a ∈ l) :
    (l.set (l.idxOf a) b).map (subst a b) = l.map (subst a b) ∧ (l.set (l.idxOf a) b).count a = l.count a - 1 := by
  induction l with
  | nil => exact absurd h List.not_mem_nil
  | cons c l ih =>
    by_cases hc : c = a
    · subst hc
      rw [List.idxOf_cons_self]
      simp [subst, hab.symm]
    · have hmem := (List.mem_cons.1 h).resolve_left (Ne.symm hc)
      obtain ⟨h1, h2⟩ := ih hmem
      rw [List.idxOf_cons_ne _ hc]
      simp [h1, h2, hc]

theorem map_subst_of_notMem {l : List ℤ} {a b : ℤ} (h : a ∉ l) : l.map (subst a b) = l := by
  refine (List.map_congr_left fun c hc => ?_).trans (List.map_id l)
  exact if_neg fun heq : c = a => h (heq ▸ hc)

theorem replaceUses_spec (hne : ref ≠ ref') (l : List ℤ) :
    ∀ ctx : Ctx, (∀ n, l.count n ≤ (ctx.insn n).operands.count ref) →
      (Ctx.replaceUses ref ref' l ctx).val = ctx.val ∧ ∀ n,
      ((Ctx.replaceUses ref ref' l ctx).insn n).op = (ctx.insn n).op ∧
      ((Ctx.replaceUses ref ref' l ctx).insn n).type = (ctx.insn n).type ∧
      ((Ctx.replaceUses ref ref' l ctx).insn n).operands.map (subst ref ref')
        = (ctx.insn n).operands.map (subst ref ref') ∧
      ((Ctx.replaceUses ref ref' l ctx).insn n).operands.count ref = (ctx.insn n).operands.count ref - l.count n ∧
      (n ∉ l → (Ctx.replaceUses ref ref' l ctx).insn n = ctx.insn n) := by
  induction l with
  | nil => exact fun ctx _ => ⟨rfl, fun n => ⟨rfl, rfl, rfl, rfl, fun _ => rfl⟩⟩
  | cons use l ih =>
    intro ctx hcount
    unfold Ctx.replaceUses
    dsimp only
    set ctx₁ := ctx.modify use fun insn => insn.setOp (insn.operands.idxOf ref + 1) ref' with hctx₁
    have hmem : ref ∈ (ctx.insn use).operands := by
      rw [← List.count_pos_iff]
      have := hcount use
      rw [List.count_cons_self] at this
      omega
    obtain ⟨hmap, hset⟩ := set_idxOf hne hmem
    have hself : ctx₁.insn use = (ctx.insn use).setOp ((ctx.insn use).operands.idxOf ref + 1) ref' :=
      Ctx.modify_self ctx use _
    have hother : ∀ n, n ≠ use → ctx₁.insn n = ctx.insn n := fun n hn => ctx.modify_of_ne _ hn
    -- the use list of the new operand does not matter here
    set ctx₂ := if 0 < ref' then ctx₁.useListAdd ref' use 1 else ctx₁ with hctx₂
    have hinsn : ctx₂.insn = ctx₁.insn := by
      rw [hctx₂]
      split <;> rfl
    have hval : ctx₂.val = ctx.val := by
      rw [hctx₂]
      split <;> rfl
    obtain ⟨hv, hspec⟩ := ih ctx₂ fun n => by
      rw [hinsn]
      have := hcount n
      by_cases hn : n = use
      · subst hn
        rw [hself, setOp_operands, hset]
        rw [List.count_cons_self] at this
        omega
      · rw [hother n hn]
        rwa [List.count_cons_of_ne (Ne.symm hn)] at this
    refine ⟨hv.trans hval, fun n => ?_⟩
    obtain ⟨h1, h2, h3, h4, h5⟩ := hspec n
    rw [hinsn] at h1 h2 h3 h4 h5
    by_cases hn : n = use
    · subst hn
      rw [hself] at h1 h2 h3 h4
      rw [setOp_operands] at h3 h4
      refine ⟨h1.trans (setOp_op _ _ _), h2.trans (setOp_type _ _ _), h3.trans hmap, ?_,
        fun h => absurd List.mem_cons_self h⟩
      rw [h4, hset, List.count_cons_self]
      omega
    · rw [hother n hn] at h1 h2 h3 h4 h5
      refine ⟨h1, h2, h3, ?_, fun h => h5 fun h' => h (List.mem_cons_of_mem _ h')⟩
      rw [h4, List.count_cons_of_ne (Ne.symm hn)]

theorem foldl_setOp_op (l : List ℕ) (insn : Insn) :
    (l.foldl (fun insn j => insn.setOp (j + 1) 0) insn).op = insn.op := by
  induction l generalizing insn with
  | nil => rfl
  | cons j l ih => rw [List.foldl_cons, ih, setOp_op]

theorem foldl_removeOne (l : List ℤ) (use : ℤ) (ctx : Ctx) :
    (l.foldl (fun ctx input => ctx.useListRemoveOne input use) ctx).insn = ctx.insn ∧
    (l.foldl (fun ctx input => ctx.useListRemoveOne input use) ctx).val = ctx.val ∧
    ∀ w, w ∉ l → (l.foldl (fun ctx input => ctx.useListRemoveOne input use) ctx).uses w = ctx.uses w := by
  induction l generalizing ctx with
  | nil => exact ⟨rfl, rfl, fun _ _ => rfl⟩
  | cons a l ih =>
    obtain ⟨h1, h2, h3⟩ := ih (ctx.useListRemoveOne a use)
    refine ⟨h1, h2, fun w hw => ?_⟩
    rw [List.mem_cons, not_or] at hw
    rw [List.foldl_cons, h3 w hw.2]
    exact Function.update_of_ne hw.1 _ _

/-- The TRUNC is replaced by `ref'` everywhere. -/
structure Replaced (mid : Ctx) (i ref' : ℤ) (ctx' : Ctx) : Prop where
  val : ctx'.val = mid.val
  nop : (ctx'.insn i).op = .nop
  consts : ∀ n ≤ 0, ctx'.insn n = mid.insn n
  op : ∀ n, n ≠ i → (ctx'.insn n).op = (mid.insn n).op
  type_eq : ∀ n, n ≠ i → (ctx'.insn n).type = (mid.insn n).type
  operands : ∀ n, 0 < n → n ≠ i → (ctx'.insn n).operands = (mid.insn n).operands.map (subst i ref')

theorem Walked.replaced {S : Start base type i root} (O : S.Over ref' D V mid) (hne : ref' ≠ i) :
    Replaced mid i ref' ((mid.modify i fun insn => { insn with op1 := ref' }).iterReplaceInsn i ref') := by
  have hipos := S.pos
  have hcounts : ∀ n, (mid.uses i).count n = (V n).count i := fun n => O.inv.exact i n hipos
  unfold Ctx.iterReplaceInsn
  dsimp only
  rw [Ctx.modify_self, show mid.insn i = base.insn i from O.kept]
  set inputs := (Insn.operands { base.insn i with op1 := ref' }).filter (0 < ·) with hinputs
  have hi : i ∉ inputs := by
    have hlen : (base.insn i).inputsCount = 1 := by rw [← S.checked.operands, S.operands]; rfl
    rw [hinputs]
    simp [Insn.operands, hlen, hne.symm]
  set cleared := (mid.modify i fun insn => { insn with op1 := ref' }).modify i fun insn =>
    (List.range insn.inputsCount).foldl (fun insn j => insn.setOp (j + 1) 0) { insn with op := .nop, type := .void }
    with hcleared
  have hother : ∀ n, n ≠ i → cleared.insn n = mid.insn n := fun n hn => by
    rw [hcleared, Ctx.modify_of_ne _ _ hn, Ctx.modify_of_ne _ _ hn]
  have hself : (cleared.insn i).op = .nop := by
    rw [hcleared, Ctx.modify_self, foldl_setOp_op]
  obtain ⟨hinsn, hval, huses⟩ := foldl_removeOne inputs i cleared
  set ctx₁ := inputs.foldl (fun ctx input => ctx.useListRemoveOne input i) cleared
  have hl : ctx₁.uses i = mid.uses i := huses i hi
  have hzero : ∀ n, n ≤ 0 ∨ n = i → (mid.uses i).count n = 0 := by
    rintro n (hn | rfl)
    · rw [hcounts, O.inv.none n hn]
      rfl
    · rw [hcounts, O.start_slots]
      simp [hne]
  have hle : ∀ n, (ctx₁.uses i).count n ≤ (ctx₁.insn n).operands.count i := by
    intro n
    rw [hl, hinsn]
    by_cases hn : n ≤ 0 ∨ n = i
    · rw [hzero n hn]
      exact Nat.zero_le _
    · rw [not_or, not_le] at hn
      rw [hcounts, O.slots_eq hn.1 hn.2, hother n hn.2]
  obtain ⟨hv, hspec⟩ := replaceUses_spec hne.symm (ctx₁.uses i) ctx₁ hle
  refine ⟨hv.trans (hval.trans rfl), ?_, fun n hn => ?_, fun n hn => ?_, fun n hn => ?_, fun n hpos hn => ?_⟩
  · exact ((hspec i).1.trans (by rw [hinsn])).trans hself
  · refine ((hspec n).2.2.2.2 ?_).trans (by rw [hinsn, hother n (by omega)])
    rw [hl, ← List.count_eq_zero]
    exact hzero n (.inl hn)
  · exact (hspec n).1.trans (by rw [hinsn, hother n hn])
  · exact (hspec n).2.1.trans (by rw [hinsn, hother n hn])
  · obtain ⟨-, -, hmap, hcount, -⟩ := hspec n
    rw [hinsn, hother n hn] at hmap hcount
    rw [hl, hcounts, O.slots_eq hpos hn, Nat.sub_self, List.count_eq_zero] at hcount
    show (Insn.operands ((Ctx.replaceUses i ref' (ctx₁.uses i) ctx₁).insn n)) = _
    rw [← hmap, map_subst_of_notMem]
    rwa [hl]

end IrJit.Narrow
