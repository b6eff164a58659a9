import IrJit.Narrow.Walk

/-!
# Narrow.WalkSpec — the walk ends and leaves the expression narrowed

The operands of an instruction are walked over one after the other; the parts are put together by `Frame.trans`.
-/

namespace IrJit.Narrow

open IfConv (Insn isConstRef)

variable {base ctx ctx' ctx₁ ctx₂ : Ctx} {type : IrType} {root i use ref n o o' a b c w : ℤ} {os : List ℤ}
  {D D' D₁ D₂ : ℤ → Prop} {V V' V₂ : ℤ → List ℤ} {fuel : ℕ}

/-- The walk ends at every operand for which the test took `fuel` steps. -/
def Walks (base : Ctx) (type : IrType) (i root : ℤ) (fuel : ℕ) : Prop :=
  ∀ ref, base.mayPromoteTrunc type fuel ref = some true → ∀ use D V ctx, Arrives base type i root use ref D V ctx →
    ∃ ref' ctx', Ctx.promoteI2I type fuel ref use ctx = some (ref', ctx') ∧
      ∃ D' V', Walked base type i root use ref D V ctx ref' D' V' ctx'

/-- The instruction `ref` has been entered, and its operands are walked over. -/
structure Entered (base : Ctx) (type : IrType) (i root ref : ℤ) (D : ℤ → Prop) (V : ℤ → List ℤ) (ctx : Ctx) : Prop
    where
  start : Start base type i root
  inv : Inv base type i root D V ctx
  fresh : ¬D ref
  pos : 0 < ref
  visited : base.Visited root ref
  enter : Inv base type i root (fun m => D m ∨ m = ref) V ctx
  insn : ctx.insn ref = base.insn ref
  slots : V ref = (base.insn ref).operands
  whole : ref = root ∨ D root ∧ (ctx.insn root).type = (base.insn root).type

theorem Entered.ne_start (E : Entered base type i root ref D V ctx) : ref ≠ i := by
  rintro rfl
  exact E.fresh E.inv.start.1

/-- The walk may come to an operand of `ref`. -/
theorem Entered.arrives (E : Entered base type i root ref D V ctx)
    (F : Frame base type i root ref os (fun m => D m ∨ m = ref) V ctx D' V' ctx') (ho : o ∈ base.narrowOps ref)
    (hos : 0 < o → o ∉ os) (hne : ref ≠ o) (hslot : o ∈ V' ref)
    (hkept : (ctx'.insn ref).type = (base.insn ref).type) : Arrives base type i root ref o D' V' ctx' where
  inv := F.inv
  entered := F.mono ref (.inr rfl)
  operand := .inr ho
  slot := hslot
  ne := hne
  back := F.operand_fresh E.start E.inv E.fresh ho hos hne
  visited := .operand E.visited ho
  whole := by
    right
    rcases E.whole with rfl | ⟨hD, htype⟩
    · exact ⟨F.mono ref (.inr rfl), hkept⟩
    · refine ⟨F.mono root (.inl hD), ?_⟩
      rw [(F.keep root (.inl hD) fun h => E.fresh (h ▸ hD)).2, htype]

/-- Replacing an operand is harmless for the others unless it is an extension. -/
theorem Ctx.Image.harmless (h : base.Image type ctx o o') {l : List ℤ} (hl : base.Bypassed type o → o ∉ l) :
    o ∉ l ∨ o' = o ∨ (o < 0 ∧ o' < 0) := by
  rcases h.cases with h | ⟨-, hby, -⟩ | ⟨-, -, h⟩
  · exact .inr (.inr h)
  · exact .inl (hl hby)
  · exact .inr (.inl h)

/-- Two operands, behind the operands `pre`. -/
theorem Entered.pair (E : Entered base type i root ref D V ctx) (hW : Walks base type i root fuel)
    (hmay : ∀ o ∈ base.narrowOps ref, base.mayPromoteTrunc type fuel o = some true)
    (ha : a ∈ base.narrowOps ref) (hb : b ∈ base.narrowOps ref) (hane : ref ≠ a) (hbne : ref ≠ b) (pre : List ℤ)
    (hV : V ref = pre ++ [a, b]) (hapre : base.Bypassed type a → a ∉ pre) (hbpre : base.Bypassed type b → b ∉ pre) :
    ∃ a' b' ctx', Ctx.promotePair (Ctx.promoteI2I type fuel · ref) a b ctx = some (a', b', ctx') ∧
      ∃ os D' V', Frame base type i root ref os (fun m => D m ∨ m = ref) V ctx D' V' ctx' ∧
        (∀ o ∈ os, o ∈ base.narrowOps ref ∧ ref ≠ o) ∧ (∀ o ∈ [a, b], o ∈ os) ∧ ctx'.insn ref = base.insn ref ∧
        base.Image type ctx' a a' ∧ base.Image type ctx' b b' ∧
        ∀ w, 0 < w → (V' ref).count w = (pre ++ [a', b']).count w := by
  have C := E.start.checked
  have F₀ := Frame.refl ref E.enter
  have hRa := E.arrives F₀ ha (fun _ => List.not_mem_nil) hane (by rw [hV]; simp) (by rw [E.insn])
  obtain ⟨a', ctx₁, hrun, D₁, V₁, W⟩ := hW a (hmay a ha) ref _ V ctx hRa
  have F₁ := F₀.trans (.inr rfl) W.toFrame
  unfold Ctx.promotePair
  by_cases hab : a = b
  · -- one operand, twice
    subst hab
    refine ⟨a', a', ctx₁, by simp [hrun], _, D₁, V₁, F₁, ?_, by simp, by rw [W.kept, E.insn], W.image, W.image, ?_⟩
    · simp only [List.nil_append, List.mem_singleton, forall_eq]
      exact ⟨ha, hane⟩
    · intro w hw
      rw [W.slots, hV, List.map_append, List.count_append, List.count_append,
        count_map_subst pre hw (W.image.harmless hapre)]
      simp [subst]
  · have hRb := E.arrives F₁ hb (fun _ => by simpa using Ne.symm hab) hbne (by
      rw [W.slots, hV, List.map_append, List.map_cons, List.map_cons]
      simp [subst, Ne.symm hab]) (by rw [W.kept, E.insn])
    obtain ⟨b', ctx₂, hrun', D₂, V₂, W'⟩ := hW b (hmay b hb) ref D₁ V₁ ctx₁ hRb
    have F₂ := F₁.trans (.inr rfl) W'.toFrame
    have hima := W.image.mono W'.consts W'.constsCount
    refine ⟨a', b', ctx₂, by simp [hab, hrun, hrun'], _, D₂, V₂, F₂, ?_, by simp, by rw [W'.kept, W.kept, E.insn], hima, W'.image, ?_⟩
    · intro o ho
      simp only [List.nil_append, List.mem_append, List.mem_singleton] at ho
      rcases ho with rfl | rfl
      · exact ⟨ha, hane⟩
      · exact ⟨hb, hbne⟩
    · intro w hw
      have hsplit : V₂ ref = (pre.map (subst a a') ++ [a']).map (subst b b') ++ [b'] := by
        rw [W'.slots, W.slots, hV]
        simp [subst, Ne.symm hab]
      have hbmem : base.Bypassed type b → b ∉ pre.map (subst a a') ++ [a'] := by
        intro hby hmem
        rw [List.mem_append, List.mem_map, List.mem_singleton] at hmem
        rcases hmem with ⟨x, hx, hxb⟩ | rfl
        · unfold subst at hxb
          split_ifs at hxb
          · exact W.image.not_bypassed C (hxb ▸ hby)
          · exact hbpre hby (hxb ▸ hx)
        · exact W.image.not_bypassed C hby
      rw [hsplit, List.count_append, count_map_subst _ hw (W'.image.harmless hbmem), List.count_append,
        count_map_subst pre hw (W.image.harmless hapre), List.count_append]
      simp only [List.count_cons, List.count_nil]
      omega

theorem mem_narrowOps_unary (hc : 0 < ref) (h : isUnary (base.insn ref).op = true) :
    base.narrowOps ref = [(base.insn ref).op1] := by
  unfold Ctx.narrowOps
  dsimp only
  rw [if_neg (by simpa [isConstRef] using hc.le), if_pos h]

theorem not_unary_of_binary {op : IrOp} (h : isBinary op = true) : isUnary op = false := by
  simp only [isBinary, Bool.or_eq_true, decide_eq_true_eq] at h
  rcases h with (((((((h | h) | h) | h) | h) | h) | h) | h) | h <;> rw [h] <;> rfl

theorem not_ext_of_unary {op : IrOp} (h : isUnary op = true) : isExt op = false := by
  simp only [isUnary, Bool.or_eq_true, decide_eq_true_eq] at h
  rcases h with (h | h) | h <;> rw [h] <;> rfl

theorem not_ext_of_binary {op : IrOp} (h : isBinary op = true) : isExt op = false := by
  simp only [isBinary, Bool.or_eq_true, decide_eq_true_eq] at h
  rcases h with (((((((h | h) | h) | h) | h) | h) | h) | h) | h <;> rw [h] <;> rfl

theorem cls_of_visited {op : IrOp} (h : isExt op = true ∨ isUnary op = true ∨ isBinary op = true ∨ op = .cond) :
    op.cls = .data := by
  simp only [isExt, isUnary, isBinary, Bool.or_eq_true, decide_eq_true_eq] at h
  rcases h with ((rfl | rfl) | rfl) | ((rfl | rfl) | rfl) | ((((((((rfl | rfl) | rfl) | rfl) | rfl) | rfl) | rfl) | rfl) | rfl) | rfl
  all_goals rfl

theorem mem_narrowOps_binary (hc : 0 < ref) (h : isBinary (base.insn ref).op = true) :
    base.narrowOps ref = [(base.insn ref).op1, (base.insn ref).op2] := by
  unfold Ctx.narrowOps
  dsimp only
  rw [if_neg (by simpa [isConstRef] using hc.le), if_neg (by simp [not_unary_of_binary h]), if_pos h]

theorem mem_narrowOps_cond (hc : 0 < ref) (h : (base.insn ref).op = .cond) :
    base.narrowOps ref = [(base.insn ref).op2, (base.insn ref).op3] := by
  unfold Ctx.narrowOps
  dsimp only
  rw [if_neg (by simpa [isConstRef] using hc.le), h]
  rfl

theorem mem_narrowOps_phi (hc : 0 < ref) (h : (base.insn ref).op = .phi) :
    base.narrowOps ref = (base.inputs ref).filter (· ≠ ref) := by
  unfold Ctx.narrowOps
  dsimp only
  rw [if_neg (by simpa [isConstRef] using hc.le), h]
  rfl

/-- The operands of an instruction of the expression are other instructions, but for the inputs of a PHI. -/
theorem ne_of_narrowOps (C : base.Checked) (hcls : (base.insn ref).op.cls = .data) (ho : o ∈ base.narrowOps ref) :
    ref ≠ o := C.ne_operand hcls (mem_operands_of_narrowOps C ho)

theorem Entered.unary (E : Entered base type i root ref D V ctx) (R : Ready base type i root use ref D V ctx)
    (hby : ¬base.Bypassed type ref) (hW : Walks base type i root fuel)
    (hmay : ∀ o ∈ base.narrowOps ref, base.mayPromoteTrunc type fuel o = some true)
    (hop : isUnary (base.insn ref).op = true) : ∃ op ctx₁ D' V',
      Ctx.promoteI2I type fuel (base.insn ref).op1 ref ctx = some (op, ctx₁) ∧
      Walked base type i root use ref D V ctx ref D' V'
        (ctx₁.modify ref fun insn => { insn with op1 := op, type := type }) := by
  have C := E.start.checked
  have hops := operands_unary C hop
  have hnar := mem_narrowOps_unary E.pos hop
  have ho : (base.insn ref).op1 ∈ base.narrowOps ref := by
    rw [hnar]
    exact List.mem_singleton_self _
  have hne := ne_of_narrowOps C (cls_of_visited (.inr (.inl hop))) ho
  have F₀ := Frame.refl ref E.enter
  obtain ⟨op, ctx₁, hrun, D₁, V₁, W⟩ := hW _ (hmay _ ho) ref _ V ctx
    (E.arrives F₀ ho (fun _ => List.not_mem_nil) hne (by rw [E.slots, hops]; exact List.mem_singleton_self _)
      (by rw [E.insn]))
  have F₁ := F₀.trans (.inr rfl) W.toFrame
  have hinsn : ctx₁.insn ref = base.insn ref := by rw [W.kept, E.insn]
  have hnew : Insn.operands { base.insn ref with op1 := op, type := type } = [op] := by
    have hcount : (base.insn ref).inputsCount = 1 := by rw [← C.operands, hops]; rfl
    simp [Insn.operands, hcount]
  have hV₁ : V₁ ref = [op] := by
    rw [W.slots, E.slots, hops]
    simp [subst]
  have F₂ := F₁.modify (.inr rfl) E.ne_start (fun insn => { insn with op1 := op, type := type })
    (fun w _ => by rw [hinsn, hnew, hV₁])
  refine ⟨op, ctx₁, _, _, hrun, R.leave E.pos hby ?_ ?_ F₂ (.plain (.inl hop) ?_ ?_ ?_) ?_⟩
  · intro o ho'
    rw [List.nil_append, List.mem_singleton] at ho'
    exact ho' ▸ ⟨ho, hne⟩
  · rw [hnar]
    exact fun o ho => ho
  · rw [Ctx.modify_self, hinsn]
  · rw [Ctx.modify_self]
  · rw [Ctx.modify_self, hinsn, hnew, hops]
    exact .cons (W.image.modify E.pos _) .nil
  · rw [Function.update_self, Ctx.modify_self]

theorem Entered.binary (E : Entered base type i root ref D V ctx) (R : Ready base type i root use ref D V ctx)
    (hby : ¬base.Bypassed type ref) (hW : Walks base type i root fuel)
    (hmay : ∀ o ∈ base.narrowOps ref, base.mayPromoteTrunc type fuel o = some true)
    (hop : isBinary (base.insn ref).op = true) : ∃ op1 op2 ctx₁ D' V',
      Ctx.promotePair (Ctx.promoteI2I type fuel · ref) (base.insn ref).op1 (base.insn ref).op2 ctx
        = some (op1, op2, ctx₁) ∧
      Walked base type i root use ref D V ctx ref D' V'
        (ctx₁.modify ref fun insn => { insn with op1 := op1, op2 := op2, type := type }) := by
  have C := E.start.checked
  have hops := operands_binary C hop
  have hnar := mem_narrowOps_binary E.pos hop
  have hcls := cls_of_visited (.inr (.inr (.inl hop)))
  have h1 : (base.insn ref).op1 ∈ base.narrowOps ref := by simp [hnar]
  have h2 : (base.insn ref).op2 ∈ base.narrowOps ref := by simp [hnar]
  obtain ⟨op1, op2, ctx₁, hrun, os, D₁, V₁, F₁, hos, hall, hinsn, him1, him2, hV₁⟩ :=
    E.pair hW hmay h1 h2 (ne_of_narrowOps C hcls h1) (ne_of_narrowOps C hcls h2) []
      (by rw [E.slots, hops]; rfl) (fun _ => List.not_mem_nil) (fun _ => List.not_mem_nil)
  have hnew : Insn.operands { base.insn ref with op1 := op1, op2 := op2, type := type } = [op1, op2] := by
    have hcount : (base.insn ref).inputsCount = 2 := by rw [← C.operands, hops]; rfl
    simp [Insn.operands, hcount]
  have F₂ := F₁.modify (.inr rfl) E.ne_start (fun insn => { insn with op1 := op1, op2 := op2, type := type })
    (fun w hw => by rw [hinsn, hnew, hV₁ w hw]; rfl)
  refine ⟨op1, op2, ctx₁, _, _, hrun, R.leave E.pos hby hos (hnar ▸ hall) F₂ (.plain (.inr hop) ?_ ?_ ?_) ?_⟩
  · rw [Ctx.modify_self, hinsn]
  · rw [Ctx.modify_self]
  · rw [Ctx.modify_self, hinsn, hnew, hops]
    exact .cons (him1.modify E.pos _) (.cons (him2.modify E.pos _) .nil)
  · rw [Function.update_self, Ctx.modify_self]

/-- The condition of a COND that is narrowed is no part of the expression. -/
theorem Entered.condition (E : Entered base type i root ref D V ctx)
    (F : Frame base type i root ref os (fun m => D m ∨ m = ref) V ctx D' V' ctx') (hop : (base.insn ref).op = .cond)
    (horder : Ctx.isOrder type (ctx'.insn (base.insn ref).op1).op = true) :
    ctx'.insn (base.insn ref).op1 = base.insn (base.insn ref).op1 := by
  have C := E.start.checked
  have hops := operands_cond C hop
  have hmem : (base.insn ref).op1 ∈ (base.insn ref).operands := by simp [hops]
  have hne : ref ≠ (base.insn ref).op1 := by
    intro h
    exact C.not_self ref (by rw [hop]; rfl) (by rw [← h] at hmem; exact hmem)
  have hconst : ∀ op, Ctx.isOrder type op = true → isConst op = false := by
    intro op h
    unfold Ctx.isOrder at h
    split_ifs at h
    all_goals
      simp only [Bool.or_eq_true, decide_eq_true_eq] at h
      rcases h with ((h | h) | h) | h <;> rw [h] <;> rfl
  generalize (base.insn ref).op1 = c at *
  have hpos : 0 < c := by
    by_contra hc
    have h := hconst _ horder
    rw [F.inv.constOps c (not_lt.1 hc)] at h
    cases h
  by_cases hD : D' c
  · by_cases hi : c = i
    · rw [hi]
      exact F.inv.start.2
    · obtain ⟨-, hpop, hcount⟩ := F.inv.operand_entered E.start E.ne_start hmem hne hD hi
      rw [mem_narrowOps_cond E.pos hop] at hpop
      rw [hops, List.count_cons_self, Nat.add_eq_right, List.count_eq_zero] at hcount
      exact absurd hpop hcount
  · rcases F.inv.outside c hpos hD with h | ⟨-, -, h, -⟩
    · exact h.1
    · rw [h] at horder
      exact absurd (hconst _ horder) (by simp [Insn.makeNop, isConst])

theorem Entered.cond (E : Entered base type i root ref D V ctx) (R : Ready base type i root use ref D V ctx)
    (hby : ¬base.Bypassed type ref) (hW : Walks base type i root fuel)
    (hmay : ∀ o ∈ base.narrowOps ref, base.mayPromoteTrunc type fuel o = some true)
    (hop : (base.insn ref).op = .cond) : ∃ op2 op3 ctx₁ D' V',
      Ctx.promotePair (Ctx.promoteI2I type fuel · ref) (base.insn ref).op2 (base.insn ref).op3 ctx
        = some (op2, op3, ctx₁) ∧
      Walked base type i root use ref D V ctx ref D' V'
        ((ctx₁.modify ref fun insn => { insn with op2 := op2, op3 := op3, type := type }).fuseCond type ref) := by
  have C := E.start.checked
  have hops := operands_cond C hop
  have hnar := mem_narrowOps_cond E.pos hop
  have hcls := cls_of_visited (.inr (.inr (.inr hop)))
  have h2 : (base.insn ref).op2 ∈ base.narrowOps ref := by simp [hnar]
  have h3 : (base.insn ref).op3 ∈ base.narrowOps ref := by simp [hnar]
  have hsep : ∀ o ∈ base.narrowOps ref, base.Bypassed type o → o ∉ [(base.insn ref).op1] := by
    intro o ho hby hmem
    exact E.start.separate.cond ref E.visited o ho hby hop (List.mem_singleton.1 hmem)
  obtain ⟨a, b, ctx₁, hrun, os, D₁, V₁, F₁, hos, hall, hinsn, hima, himb, hV₁⟩ :=
    E.pair hW hmay h2 h3 (ne_of_narrowOps C hcls h2) (ne_of_narrowOps C hcls h3) [(base.insn ref).op1]
      (by rw [E.slots, hops]; rfl) (hsep _ h2) (hsep _ h3)
  have hcond := E.condition F₁ hop
  have hcne : (base.insn ref).op1 ≠ ref := by
    intro h
    refine C.not_self ref hcls ?_
    rw [hops, h]
    exact List.mem_cons_self
  have hcount : (base.insn ref).inputsCount = 3 := by rw [← C.operands, hops]; rfl
  refine ⟨a, b, ctx₁, ?_⟩
  -- without MIN or MAX
  have hplain : ∃ D' V', Walked base type i root use ref D V ctx ref D' V'
      (ctx₁.modify ref fun insn => { insn with op2 := a, op3 := b, type := type }) := by
    have hnew : Insn.operands { base.insn ref with op2 := a, op3 := b, type := type } = [(base.insn ref).op1, a, b] := by
      simp [Insn.operands, hcount]
    have F₂ := F₁.modify (.inr rfl) E.ne_start (fun insn => { insn with op2 := a, op3 := b, type := type })
      (fun w hw => by rw [hinsn, hnew, hV₁ w hw]; rfl)
    refine ⟨_, _, R.leave E.pos hby hos (hnar ▸ hall) F₂ (.cond hop ?_ ?_ ?_ (hima.modify E.pos _) (himb.modify E.pos _)) ?_⟩
    · rw [Ctx.modify_self, hinsn]
      exact hop
    · rw [Ctx.modify_self]
    · rw [Ctx.modify_self, hinsn, hnew]
    · rw [Function.update_self, Ctx.modify_self]
  suffices h : ∃ D' V', Walked base type i root use ref D V ctx ref D' V'
      ((ctx₁.modify ref fun insn => { insn with op2 := a, op3 := b, type := type }).fuseCond type ref) by
    obtain ⟨D', V', h⟩ := h
    exact ⟨D', V', hrun, h⟩
  unfold Ctx.fuseCond
  dsimp only
  rw [Ctx.modify_self, hinsn]
  dsimp only
  rw [Ctx.modify_of_ne _ _ hcne]
  by_cases horder : Ctx.isOrder type (ctx₁.insn (base.insn ref).op1).op = true
  swap
  · rw [if_neg horder]
    exact hplain
  rw [if_pos horder, hcond horder]
  rw [hcond horder] at horder
  by_cases hfuse : (base.insn (base.insn ref).op1).op1 = a ∧ (base.insn (base.insn ref).op1).op2 = b
  · -- the condition compares the operands
    rw [if_pos hfuse]
    generalize hmin : (if Ctx.isLess (base.insn (base.insn ref).op1).op then IrOp.min else .max) = op
    have hnew : Insn.operands { base.insn ref with op := op, op1 := a, op2 := b, op3 := 0, type := type } = [a, b, 0] := by
      simp [Insn.operands, hcount]
    set ctx₃ := (((ctx₁.modify ref fun insn => { insn with op2 := a, op3 := b, type := type }).useListRemoveOne
      (base.insn ref).op1 ref).modify ref fun insn => { insn with op := op, op1 := insn.op2, op2 := insn.op3, op3 := 0 })
      with hctx₃
    have hupd : ctx₃.insn = Function.update ctx₁.insn ref
        { base.insn ref with op := op, op1 := a, op2 := b, op3 := 0, type := type } := by
      rw [hctx₃]
      simp only [Ctx.modify, Ctx.useListRemoveOne, Ctx.setUses, Function.update_self, Function.update_idem, hinsn]
    have huses : ∀ w, ctx₃.uses w = if w = (base.insn ref).op1 then (ctx₁.uses w).erase ref else ctx₁.uses w := by
      intro w
      rw [hctx₃]
      simp only [Ctx.modify, Ctx.useListRemoveOne, Ctx.setUses, Function.update_apply]
      split_ifs with h
      · rw [h]
      · rfl
    have F₂ := F₁.rewrite (.inr rfl) E.ne_start hupd rfl rfl (fun w n hw => by
      have hexact : (ctx₁.uses w).count n = (V₁ n).count w := F₁.inv.exact w n hw
      have hV := hV₁ w hw
      rw [hnew, huses]
      by_cases hn : n = ref
      · subst hn
        rw [if_pos rfl]
        split_ifs with hwc
        · rw [List.count_erase_self, hexact, hV, hwc]
          simp [List.count_cons, (hwc ▸ hw).ne]
        · rw [hexact, hV]
          simp [List.count_cons, hw.ne, Ne.symm hwc]
      · rw [if_neg hn]
        split_ifs
        · rw [List.count_erase_of_ne hn]
        · rfl) fun w hw => by
      rw [huses, hw]
      split_ifs <;> rfl
    have hself : ctx₃.insn ref = { base.insn ref with op := op, op1 := a, op2 := b, op3 := 0, type := type } := by
      rw [hupd, Function.update_self]
    have himage : ∀ {o o' : ℤ}, base.Image type ctx₁ o o' → base.Image type ctx₃ o o' := fun h =>
      h.mono (fun n hn _ => ⟨by rw [hupd, Function.update_of_ne (by have := E.pos; omega)], rfl⟩) le_rfl
    refine ⟨_, _, R.leave E.pos hby hos (hnar ▸ hall) F₂ (.fused hop horder hfuse.1 hfuse.2 ?_ ?_ ?_ (himage hima) (himage himb)) ?_⟩
    · rw [hself, hmin]
    · rw [hself]
    · rw [hself, hnew]
    · rw [Function.update_self, hself]
  · rw [if_neg hfuse, if_neg]
    · exact hplain
    · -- the condition would be an operand of its own
      rintro ⟨-, h⟩
      have hord2 : (base.insn (base.insn ref).op1).op.hasVarInputs = false ∧
          (base.insn (base.insn ref).op1).op.inputEdges = 2 ∧ (base.insn (base.insn ref).op1).op.cls = .data := by
        unfold Ctx.isOrder at horder
        split_ifs at horder
        all_goals
          simp only [Bool.or_eq_true, decide_eq_true_eq] at horder
          rcases horder with ((h | h) | h) | h <;> rw [h] <;> exact ⟨rfl, rfl, rfl⟩
      refine C.not_self _ hord2.2.2 ?_
      rw [C.operands_eq hord2.1 hord2.2.1 (by omega), h]
      simp

/-! ## PHI -/

/-- All the operand words of an instruction. -/
theorem getOp_succ (insn : Insn) (j : ℕ) :
    insn.getOp (j + 1) = ([insn.op1, insn.op2, insn.op3] ++ insn.more).getD j 0 := by
  match j with
  | 0 => rfl
  | 1 => rfl
  | 2 => rfl
  | j + 3 => rfl

theorem setOp_operands (insn : Insn) (j : ℕ) (v : ℤ) :
    (insn.setOp (j + 1) v).operands = insn.operands.set j v := by
  unfold Insn.operands
  rw [← List.take_set]
  match j with
  | 0 => rfl
  | 1 => rfl
  | 2 => rfl
  | j + 3 => rfl

theorem getOp_append {insn : Insn} {p r : List ℤ} (h : insn.operands = p ++ o :: r) :
    insn.getOp (p.length + 1) = o := by
  have hget : insn.operands[p.length]? = some o := by
    rw [h]
    simp
  unfold Insn.operands at hget
  rw [List.getElem?_take] at hget
  split_ifs at hget
  rw [getOp_succ, List.getD_eq_getElem?_getD, hget]
  rfl

theorem setOp_append {insn : Insn} {p r : List ℤ} (h : insn.operands = p ++ o :: r) (v : ℤ) :
    (insn.setOp (p.length + 1) v).operands = p ++ v :: r := by
  rw [setOp_operands, h]
  simp

theorem setOp_op (insn : Insn) (j : ℕ) (v : ℤ) : (insn.setOp j v).op = insn.op := by
  match j with
  | 0 => rfl
  | 1 => rfl
  | 2 => rfl
  | 3 => rfl
  | j + 4 => rfl

theorem setOp_type (insn : Insn) (j : ℕ) (v : ℤ) : (insn.setOp j v).type = insn.type := by
  match j with
  | 0 => rfl
  | 1 => rfl
  | 2 => rfl
  | 3 => rfl
  | j + 4 => rfl

/-- The loop over the inputs `r` of a PHI behind the operands `p`. -/
theorem Entered.inputs (E : Entered base type i root ref D V ctx) (hby : ¬base.Bypassed type ref)
    (hW : Walks base type i root fuel)
    (hmay : ∀ o ∈ base.narrowOps ref, base.mayPromoteTrunc type fuel o = some true) (r : List ℤ) :
    ∀ p os D₁ V₁ ctx₁, Frame base type i root ref os (fun m => D m ∨ m = ref) V ctx D₁ V₁ ctx₁ →
      (ctx₁.insn ref).type = (base.insn ref).type → (∀ o ∈ os, o ∈ base.narrowOps ref ∧ ref ≠ o) → (ctx₁.insn ref).operands = p ++ r → V₁ ref = p ++ r →
      (∀ o ∈ r, o ≠ ref → o ∈ base.narrowOps ref ∧
        (0 < o → r.count o = 1 ∧ o ∉ os ∧ (base.Bypassed type o → o ∉ p))) →
      ∃ ctx', Ctx.promoteInputs (Ctx.promoteI2I type fuel · ref) ref r.length (p.length + 1) ctx₁ = some ctx' ∧
        ∃ os' D' V' r', Frame base type i root ref os' (fun m => D m ∨ m = ref) V ctx D' V' ctx' ∧
          (∀ o ∈ os', o ∈ base.narrowOps ref ∧ ref ≠ o) ∧ (∀ o, o ∈ os ∨ o ∈ r ∧ o ≠ ref → o ∈ os') ∧
          (ctx'.insn ref).operands = p ++ r' ∧ V' ref = p ++ r' ∧
          (ctx'.insn ref).op = (ctx₁.insn ref).op ∧ (∀ o o', base.Image type ctx₁ o o' → base.Image type ctx' o o') ∧
          List.Forall₂ (base.Image type ctx') r r' := by
  induction r with
  | nil =>
    intro p os D₁ V₁ ctx₁ F _ hos hops hV _
    exact ⟨ctx₁, rfl, os, D₁, V₁, [], F, hos, fun _ h => h.elim id (fun h => absurd h.1 List.not_mem_nil), hops, hV, rfl,
      fun _ _ h => h, .nil⟩
  | cons o r ih =>
    intro p os D₁ V₁ ctx₁ F hty hos hops hV hr
    have hget := getOp_append hops
    rw [List.length_cons, Ctx.promoteInputs]
    dsimp only
    rw [hget]
    by_cases hself : o = ref
    · -- the PHI itself
      subst hself
      rw [if_neg (not_not.2 rfl)]
      obtain ⟨ctx', hrun, os', D', V', r', F', hos', hall, hops', hV', hop', hgrow, him⟩ := ih (p ++ [o]) os D₁ V₁ ctx₁ F hty hos
        (by rw [hops]; simp) (by rw [hV]; simp) (fun o' ho' hne => by
          obtain ⟨h1, h2⟩ := hr o' (List.mem_cons_of_mem _ ho') hne
          refine ⟨h1, fun hpos => ?_⟩
          obtain ⟨hcount, hnos, hp⟩ := h2 hpos
          refine ⟨by rwa [List.count_cons_of_ne (Ne.symm hne)] at hcount, hnos, fun hb => ?_⟩
          simp [hp hb, hne])
      rw [List.length_append, List.length_singleton] at hrun
      refine ⟨ctx', hrun, os', D', V', o :: r', F', hos', ?_, by rw [hops']; simp, by rw [hV']; simp, hop', hgrow, ?_⟩
      · rintro x (hx | ⟨hx, hne⟩)
        · exact hall x (.inl hx)
        · exact hall x (.inr ⟨(List.mem_cons.1 hx).resolve_left hne, hne⟩)
      exact .cons (Ctx.Image.self E.pos.le hby) him
    · rw [if_pos hself]
      obtain ⟨ho, hpos⟩ := hr o List.mem_cons_self hself
      obtain ⟨o', ctx₂, hrun, D₂, V₂, W⟩ := hW o (hmay o ho) ref D₁ V₁ ctx₁
        (E.arrives F ho (fun h => (hpos h).2.1) (Ne.symm hself) (by rw [hV]; simp) hty)
      have hnot : base.Bypassed type o → o ∉ p ++ r := by
        intro hb hmem
        obtain ⟨hcount, -, hp⟩ := hpos hb.1
        rw [List.count_cons_self, Nat.add_eq_right, List.count_eq_zero] at hcount
        exact (List.mem_append.1 hmem).elim (hp hb) hcount
      have F₂ := F.trans (.inr rfl) W.toFrame
      have hops₂ : (ctx₂.insn ref).operands = p ++ o :: r := by rw [W.kept, hops]
      have hset := setOp_append hops₂ o'
      have F₃ := F₂.modify (.inr rfl) E.ne_start (fun insn => insn.setOp (p.length + 1) o') (fun w hw => by
        rw [hset, W.slots, hV]
        have hp := count_map_subst p hw (W.image.harmless fun hb hmem => hnot hb (List.mem_append_left _ hmem))
        have hr := count_map_subst r hw (W.image.harmless fun hb hmem => hnot hb (List.mem_append_right _ hmem))
        simp only [List.map_append, List.map_cons, List.count_append, List.count_cons, hp, hr]
        simp [subst])
      obtain ⟨ctx', hrun', os', D', V', r', F', hos', hall, hops', hV', hop', hgrow, him⟩ := ih (p ++ [o']) (os ++ [o]) D₂ _ _ F₃
        (by rw [Ctx.modify_self, setOp_type, W.kept, hty])
        (fun x hx => by
          rcases List.mem_append.1 hx with hx | hx
          · exact hos x hx
          · rw [List.mem_singleton.1 hx]
            exact ⟨ho, Ne.symm hself⟩)
        (by rw [Ctx.modify_self, hset]; simp) (by rw [Function.update_self, hset]; simp) (fun x hx hne => by
          obtain ⟨h1, h2⟩ := hr x (List.mem_cons_of_mem _ hx) hne
          refine ⟨h1, fun hpos => ?_⟩
          obtain ⟨hcount, hnos, hp⟩ := h2 hpos
          have hxo : o ≠ x := by
            rintro rfl
            rw [List.count_cons_self, Nat.add_eq_right, List.count_eq_zero] at hcount
            exact hcount hx
          rw [List.count_cons_of_ne hxo] at hcount
          refine ⟨hcount, by simp [hnos, Ne.symm hxo], fun hb hmem => ?_⟩
          rcases List.mem_append.1 hmem with hmem | hmem
          · exact hp hb hmem
          · exact W.image.not_bypassed E.start.checked (List.mem_singleton.1 hmem ▸ hb))
      rw [List.length_append, List.length_singleton] at hrun'
      refine ⟨ctx', by simp [hrun, hrun'], os', D', V', o' :: r', F', hos', ?_, by rw [hops']; simp, by rw [hV']; simp,
        by rw [hop', Ctx.modify_self, setOp_op, W.kept],
        fun a a' h => hgrow a a' ((h.mono W.consts W.constsCount).modify E.pos _),
        .cons (hgrow o o' (W.image.modify E.pos _)) him⟩
      rintro x (hx | ⟨hx, hne⟩)
      · exact hall x (.inl (List.mem_append_left _ hx))
      · rcases List.mem_cons.1 hx with rfl | hx
        · exact hall x (.inl (List.mem_append_right _ (List.mem_singleton_self _)))
        · exact hall x (.inr ⟨hx, hne⟩)

theorem Entered.phi (E : Entered base type i root ref D V ctx) (R : Ready base type i root use ref D V ctx)
    (hby : ¬base.Bypassed type ref) (honce : ∀ o ∈ base.narrowOps ref, 0 < o → base.Bypassed type o ∨ base.Once o)
    (hW : Walks base type i root fuel)
    (hmay : ∀ o ∈ base.narrowOps ref, base.mayPromoteTrunc type fuel o = some true)
    (hop : (base.insn ref).op = .phi) : ∃ ctx₁ D' V',
      Ctx.promoteInputs (Ctx.promoteI2I type fuel · ref) ref ((base.insn ref).inputsCount - 1) 2 ctx = some ctx₁ ∧
      Walked base type i root use ref D V ctx ref D' V' (ctx₁.modify ref fun insn => { insn with type := type }) := by
  have C := E.start.checked
  have hnar := mem_narrowOps_phi E.pos hop
  have F₀ := Frame.refl ref E.enter
  obtain ⟨c, r, hops⟩ := List.exists_cons_of_ne_nil (C.phi ref hop)
  have hin : base.inputs ref = r := by
    unfold Ctx.inputs
    rw [hops]
    rfl
  obtain ⟨ctx₁, hrun, os, D₁, V₁, r', F₁, hos, hall, hops₁, hV₁, hop₁, -, him⟩ := E.inputs hby hW hmay r [c] [] _ V ctx F₀
    (by rw [E.insn]) (fun o ho => absurd ho List.not_mem_nil) (by rw [E.insn, hops]; rfl) (by rw [E.slots, hops]; rfl) (fun o ho hself => by
      have hmem : o ∈ base.narrowOps ref := by
        rw [hnar, hin]
        exact List.mem_filter.2 ⟨ho, by simpa using hself⟩
      refine ⟨hmem, fun hpos => ?_⟩
      have hcount : (base.insn ref).operands.count o = 1 := by
        rcases honce o hmem hpos with hb | h
        · exact E.start.separate.phi ref E.visited o hmem hb hop
        · have ho' := mem_operands_of_narrowOps C hmem
          exact (h.unique C hpos ho' (Ne.symm hself) ho' (Ne.symm hself)).2
      have hr : 0 < r.count o := List.count_pos_iff.2 ho
      rw [hops, List.count_cons] at hcount
      have hc : c ≠ o := by
        rintro rfl
        rw [beq_self_eq_true, if_pos rfl] at hcount
        omega
      rw [if_neg (by simpa using hc), Nat.add_zero] at hcount
      exact ⟨hcount, List.not_mem_nil, fun _ => by simpa using Ne.symm hc⟩)
  have hlen : r.length = (base.insn ref).inputsCount - 1 := by
    rw [← C.operands, hops]
    rfl
  rw [hlen] at hrun
  have F₂ := F₁.modify (.inr rfl) E.ne_start (fun insn => { insn with type := type }) (fun w _ => by
    rw [hV₁, ← hops₁]
    rfl)
  refine ⟨ctx₁, _, _, hrun, R.leave E.pos hby hos ?_ F₂ (.phi hop ?_ ?_ ?_) ?_⟩
  · rw [hnar, hin]
    intro o ho
    rw [List.mem_filter, decide_eq_true_eq] at ho
    exact hall o (.inr ho)
  · rw [Ctx.modify_self]
    exact (hop₁.trans (by rw [E.insn])).trans hop
  · rw [Ctx.modify_self]
  · have hin' : (ctx₁.modify ref fun insn => { insn with type := type }).inputs ref = r' := by
      unfold Ctx.inputs
      rw [Ctx.modify_self]
      show (ctx₁.insn ref).operands.drop 1 = r'
      rw [hops₁]
      rfl
    rw [hin, hin']
    exact him.imp fun _ _ h => h.modify E.pos _
  · rw [Function.update_self, Ctx.modify_self]

/-! ## The walk -/

theorem bypassed_or_once (C : base.Checked) (h : base.mayPromoteTrunc type fuel o = some true) (hpos : 0 < o) :
    base.Bypassed type o ∨ base.Once o := by
  cases fuel with
  | zero => simp [Ctx.mayPromoteTrunc] at h
  | succ fuel =>
    rcases mayPromoteTrunc_eq C h with ⟨hneg, -⟩ | ⟨-, h, -⟩
    · omega
    · exact h

theorem Ctx.modify_eq_self {f : Insn → Insn} (h : f (ctx.insn n) = ctx.insn n) : ctx.modify n f = ctx := by
  unfold Ctx.modify
  rw [h, Function.update_eq_self]

/-- Back at the TRUNC, the walk leaves it as it is. -/
theorem Arrives.start_walked (S : Start base type i root) (A : Arrives base type i root use i D V ctx) :
    ctx.promoteExt type i use = some (i, ctx) ∧ Walked base type i root use i D V ctx i D V ctx := by
  obtain ⟨hD, hinsn⟩ := A.inv.start
  have hsrc : (ctx.insn root).type = (base.insn root).type := by
    rcases A.whole with h | ⟨-, h⟩
    · exact absurd h.symm S.ne
    · exact h
  have hsize := S.types.2.2
  have hne : (base.insn root).type ≠ type := by
    intro h
    rw [h] at hsize
    exact lt_irrefl _ hsize
  constructor
  · unfold Ctx.promoteExt
    dsimp only
    rw [hinsn, S.root_eq, hsrc, if_pos hne]
    have hop : Ctx.extOp type (base.insn root).type .trunc = .trunc := by
      unfold Ctx.extOp
      rw [if_neg (by omega), if_pos hsize]
    rw [Ctx.modify_eq_self]
    rw [hinsn, S.op, hop, ← S.op, ← S.type_eq]
  · refine { Frame.refl use A.inv with
      reach := fun o ho _ _ => List.mem_singleton.1 ho ▸ hD
      fresh := fun m hm hnot => absurd hm hnot
      slots := ?_
      kept := rfl
      image := Ctx.Image.self S.pos.le S.not_bypassed }
    rw [subst_self, List.map_id]

/-- The walk ends wherever the test says so, with the expression narrowed. -/
theorem Start.walks (S : Start base type i root) (fuel : ℕ) : Walks base type i root fuel := by
  have C := S.checked
  induction fuel with
  | zero =>
    intro ref hmay
    simp [Ctx.mayPromoteTrunc] at hmay
  | succ fuel ih =>
    intro ref hmay use D V ctx A
    unfold Ctx.promoteI2I
    dsimp only
    by_cases hstart : ref = i
    · subst hstart
      obtain ⟨hrun, W⟩ := A.start_walked S
      rw [if_neg (by simpa [isConstRef] using S.pos.le), A.inv.start.2, S.op, if_pos (by rfl)]
      exact ⟨_, _, hrun, _, _, W⟩
    have R : Ready base type i root use ref D V ctx := { A with fresh := fun h => hstart (A.back h) }
    rcases mayPromoteTrunc_eq C hmay with ⟨hneg, -⟩ | ⟨hpos, honce, hkind, hops⟩
    · rw [if_pos (by simpa [isConstRef] using hneg)]
      exact ⟨_, _, rfl, _, _, R.const_walked S hneg⟩
    · rw [if_neg (by simpa [isConstRef] using hpos.le)]
      obtain ⟨hinsn, hV⟩ := R.insn_eq hpos
      rw [hinsn]
      by_cases hby : base.Bypassed type ref
      · rw [if_pos hby.2.1]
        obtain ⟨ctx', hrun, V', W⟩ := R.bypass_walked S hby
        exact ⟨_, ctx', hrun, D, V', W⟩
      have honce := honce.resolve_left hby
      have E : Entered base type i root ref D V ctx :=
        ⟨S, R.inv, R.fresh, hpos, R.visited, R.enter hpos hby honce, hinsn, hV, R.whole⟩
      rcases hkind with hext | hun | hbin | hcond | hphi
      · rw [if_pos hext]
        obtain ⟨ctx', hrun, D', V', W⟩ := R.ext_walked S hpos hext (fun h => hby ⟨hpos, hext, h⟩) honce
        exact ⟨_, ctx', hrun, D', V', W⟩
      · rw [if_neg (by simp [not_ext_of_unary hun]), if_pos hun]
        obtain ⟨op, ctx₁, D', V', hrun, W⟩ := E.unary R hby ih hops hun
        exact ⟨_, _, by simp [hrun], D', V', W⟩
      · rw [if_neg (by simp [not_ext_of_binary hbin]), if_neg (by simp [not_unary_of_binary hbin]), if_pos hbin]
        obtain ⟨op1, op2, ctx₁, D', V', hrun, W⟩ := E.binary R hby ih hops hbin
        exact ⟨_, _, by simp [hrun], D', V', W⟩
      · rw [hcond, if_neg (by decide), if_neg (by decide), if_neg (by decide), if_pos rfl]
        obtain ⟨op2, op3, ctx₁, D', V', hrun, W⟩ := E.cond R hby ih hops hcond
        exact ⟨_, _, by simp [hrun], D', V', W⟩
      · rw [hphi, if_neg (by decide), if_neg (by decide), if_neg (by decide), if_neg (by decide), if_pos rfl]
        obtain ⟨ctx₁, D', V', hrun, W⟩ := E.phi R hby (fun o ho => bypassed_or_once C (hops o ho)) ih hops hphi
        exact ⟨_, _, by simp [hrun], D', V', W⟩

end IrJit.Narrow
