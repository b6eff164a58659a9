import IrJit.Narrow.Exact

/-!
# Narrow.Simulation — the graph after the narrowing simulates the graph before it

What stands for an instruction of the expression evaluates to the low bits of its value, and everything else to
the value it had.
-/

namespace IrJit.Narrow

open Fold (IsInt spec valueOf)
open IfConv (Insn isConstRef)

variable {base mid ctx' : Ctx} {type t : IrType} {root i ref' n m o o' c : ℤ} {D : ℤ → Prop} {V : ℤ → List ℤ}
  {fuel : ℕ} {T : Type} {W : World T} {τ : T} {v x : ℤ} {ρ : ℤ → ℤ} {op : IrOp}

theorem subst_of_ne (h : o ≠ i) : subst i ref' o = o := if_neg h

theorem subst_start : subst i ref' i = ref' := if_pos rfl

/-- The values of the unary and binary operators do not depend on the types of the operands. -/
theorem compute_types (ht : IsInt t) (h : isUnary op = true ∨ isBinary op = true)
    (other : IrOp → IrType → List ℤ → ℤ) (ts ts' : List IrType) (xs : List ℤ) :
    compute other op t ts xs = compute other op t ts' xs := by
  rcases h with h | h
  · rw [compute_unary ht h, compute_unary ht h]
  · rw [compute_binary ht h, compute_binary ht h]

theorem Ctx.Evaluates.inv {ctx : Ctx} (h : ctx.Evaluates W n τ v) (hcls : (ctx.insn n).op.cls = .data) (hpos : 0 < n) :
    ∃ ρ : ℤ → ℤ, v = ctx.value W n ρ ∧ ∀ o ∈ (ctx.insn n).operands, o ≠ 0 → ctx.Evaluates W o τ (ρ o) := by
  cases h with
  | const neg => omega
  | sym neg => omega
  | data _ _ _ operands => exact ⟨_, rfl, operands⟩
  | phi _ op => rw [op] at hcls; cases hcls
  | leaf _ cls => exact absurd hcls cls

theorem forall₂_getElem? {R : ℤ → ℤ → Prop} {l l' : List ℤ} (h : List.Forall₂ R l l') {k : ℕ} {a : ℤ}
    (hk : l[k]? = some a) : ∃ b, l'[k]? = some b ∧ R a b := by
  induction h generalizing k with
  | nil => cases hk
  | @cons c d l l' h _ ih =>
    cases k with
    | zero =>
      rw [List.getElem?_cons_zero, Option.some.injEq] at hk
      exact ⟨d, rfl, hk ▸ h⟩
    | succ k => exact ih hk

/-- The condition of a COND is no part of the expression. -/
theorem Walked.condition_outside {S : Start base type i root} (O : S.Over ref' D V mid) (hne : n ≠ i) (hpos : 0 < n)
    (hop : (base.insn n).op = .cond) : D (base.insn n).op1 → (base.insn n).op1 = i := by
  intro hD
  by_contra hi
  have hops := operands_cond S.checked hop
  have hmem : (base.insn n).op1 ∈ (base.insn n).operands := by
    rw [hops]
    exact List.mem_cons_self
  have hself := S.checked.ne_operand (cls_of_visited (.inr (.inr (.inr hop)))) hmem
  obtain ⟨-, hnar, hcount⟩ := O.inv.operand_entered S hne hmem hself hD hi
  rw [mem_narrowOps_cond hpos hop] at hnar
  rw [hops, List.count_cons_self, Nat.add_eq_right, List.count_eq_zero] at hcount
  exact hcount hnar

/-- The comparisons. -/
theorem Ctx.Checked.order (C : base.Checked) (h : Ctx.isOrder type (base.insn c).op = true) :
    0 < c ∧ (base.insn c).op.cls = .data ∧ isExt (base.insn c).op = false ∧
      (base.insn c).operands = [(base.insn c).op1, (base.insn c).op2] := by
  have hcases : (base.insn c).op ∈ [.lt, .le, .gt, .ge, .ult, .ule, .ugt, .uge] := by
    unfold Ctx.isOrder at h
    split_ifs at h
    all_goals
      simp only [Bool.or_eq_true, decide_eq_true_eq] at h
      rcases h with ((h | h) | h) | h <;> simp [h]
  have hkind : isConst (base.insn c).op = false ∧ (base.insn c).op.cls = .data ∧ isExt (base.insn c).op = false ∧
      (base.insn c).op.hasVarInputs = false ∧ (base.insn c).op.inputEdges = 2 := by
    generalize (base.insn c).op = op at hcases
    revert op
    decide
  obtain ⟨h1, h2, h3, h4, h5⟩ := hkind
  exact ⟨C.pos_of_op h1, h2, h3, C.operands_eq h4 h5 (by omega)⟩

section

variable {S : Start base type i root} (O : S.Over ref' D V mid) (R : Replaced mid i ref' ctx')
  (K : ∀ n, base.Visited root n → base.Kind n)
include O R K

/-! ## Types -/

theorem Walked.start_type : (ctx'.insn ref').type = type := by
  rw [R.type_eq ref' O.ne_start]
  exact O.image_type_mid .root (K root .root).ne_zero O.image O.ne_start

/-- What stands for an operand has the narrow type. -/
theorem Walked.image_type (hvis : base.Visited root n) (him : base.Image type mid n o') :
    (ctx'.insn (subst i ref' o')).type = type := by
  by_cases hi : o' = i
  · rw [hi, subst_start]
    exact O.start_type R K
  · rw [subst_of_ne hi, R.type_eq o' hi]
    exact O.image_type_mid hvis (K n hvis).ne_zero him hi

theorem Walked.whole_type (h : Whole base mid D i o) : (ctx'.insn (subst i ref' o)).type = (base.insn o).type := by
  by_cases hi : o = i
  · rw [hi, subst_start, O.start_type R K, S.type_eq]
  · rw [subst_of_ne hi, R.type_eq o hi, h.insn]

/-! ## An instruction -/

section

variable (hzero : ρ 0 = 0)
  (hwhole : ∀ o ∈ (base.insn n).operands, o ≠ 0 → Whole base mid D i o → ctx'.Evaluates W (subst i ref' o) τ (ρ o))
include hzero hwhole

omit K R O in
theorem gives_whole (hi : 0 < i) (ho : o ∈ (base.insn n).operands) (h : Whole base mid D i o) :
    ctx'.Gives W τ (subst i ref' o) (ρ o) := by
  by_cases h0 : o = 0
  · subst h0
    exact .inl ⟨subst_of_ne hi.ne, hzero⟩
  · exact .inr (hwhole o ho h0 h)

/-- An instruction that is not entered. -/
theorem Walked.outside_evaluates (hpos : 0 < n) (hcls : (base.insn n).op.cls = .data) (hD : ¬D n)
    (hinsn : mid.insn n = base.insn n) : ctx'.Evaluates W n τ (base.value W n ρ) := by
  have hne : n ≠ i := fun h => hD (h ▸ O.inv.start.1)
  have hops : (ctx'.insn n).operands = (base.insn n).operands.map (subst i ref') := by
    rw [R.operands n hpos hne, hinsn]
  have hop : (ctx'.insn n).op = (base.insn n).op := by rw [R.op n hne, hinsn]
  have hw : ∀ o ∈ (base.insn n).operands, Whole base mid D i o := fun o ho =>
    O.whole_of_operand ho (O.inv.operand_outside S hD ho) (.inr ⟨n, hpos, hne, by rw [hinsn]; exact ho⟩)
  have h : ctx'.Evaluates W n τ _ := .of_gives ((base.insn n).operands.map ρ) hpos (by rw [hop, hcls]) (by
    rw [hops, List.forall₂_map_left_iff, List.forall₂_map_right_iff, List.forall₂_same]
    exact fun o ho => gives_whole hzero hwhole S.pos ho (hw o ho))
  have htypes : (base.insn n).operands.map ((fun o => (ctx'.insn o).type) ∘ subst i ref')
      = (base.insn n).operands.map fun o => (base.insn o).type :=
    List.map_congr_left fun o ho => O.whole_type R K (hw o ho)
  rwa [hops, List.map_map, htypes, hop, R.type_eq n hne, hinsn] at h

omit hzero K in
/-- The condition of a COND that becomes MIN or MAX. -/
theorem Walked.fused_condition (hpos : 0 < n) (hne : n ≠ i) (hop : (base.insn n).op = .cond) {x y : ℤ}
    (order : Ctx.isOrder type (base.insn (base.insn n).op1).op = true)
    (hx : ctx'.Evaluates W (subst i ref' (base.insn (base.insn n).op1).op1) τ x)
    (hy : ctx'.Evaluates W (subst i ref' (base.insn (base.insn n).op1).op2) τ y)
    (hxt : (ctx'.insn (subst i ref' (base.insn (base.insn n).op1).op1)).type = type)
    (hyt : (ctx'.insn (subst i ref' (base.insn (base.insn n).op1).op2)).type = type) :
    ρ (base.insn n).op1 = compute W.other (base.insn (base.insn n).op1).op (base.insn (base.insn n).op1).type
      [type, type] [x, y] := by
  have hbase := operands_cond S.checked hop
  have hmem : (base.insn n).op1 ∈ (base.insn n).operands := by
    rw [hbase]
    exact List.mem_cons_self
  have hout := O.condition_outside hne hpos hop
  generalize hc : (base.insn n).op1 = c at *
  obtain ⟨hcpos, hcls, hext, hcops⟩ := S.checked.order order
  have hci : c ≠ i := by
    rintro rfl
    rw [S.op] at hext
    cases hext
  have hw := O.whole_of_operand hmem hout (.inl fun h => by rw [h.2.1] at hext; cases hext)
  have hE := hwhole c hmem hcpos.ne' hw
  rw [subst_of_ne hci] at hE
  have hop' : (ctx'.insn c).op = (base.insn c).op := by rw [R.op c hci, hw.insn]
  have hops' := R.operands c hcpos hci
  rw [hw.insn, hcops, List.map_cons, List.map_singleton] at hops'
  obtain ⟨ρ', hv, hops''⟩ := hE.inv (by rw [hop', hcls]) hcpos
  rw [hops'] at hops''
  have hx' := hx.unique (hops'' _ List.mem_cons_self hx.ne_zero)
  have hy' := hy.unique (hops'' _ (List.mem_cons_of_mem _ (List.mem_singleton_self _)) hy.ne_zero)
  rw [hv, Ctx.value, hops', hop', R.type_eq c hci, hw.insn, List.map_cons, List.map_singleton, List.map_cons,
    List.map_singleton, hxt, hyt, ← hx', ← hy']

variable (hlow : ∀ o ∈ base.narrowOps n, ∀ o', base.Image type mid o o' →
    ctx'.Evaluates W (subst i ref' o') τ (low type (ρ o)))
include hlow

/-- An instruction that is narrowed. -/
theorem Walked.narrow_evaluates (hD : D n) (hne : n ≠ i) (hcls : (base.insn n).op.cls = .data) :
    ctx'.Evaluates W n τ (base.narrowValue W type n ρ) := by
  obtain ⟨hpos, hvis, hby, hnar, -, -⟩ := O.done n hD hne
  have hi := S.types.1
  have hops := R.operands n hpos hne
  have hop := R.op n hne
  have htype := R.type_eq n hne
  cases hnar with
  | plain op op' type' operands =>
    rw [op'] at hop
    rw [type'] at htype
    have hmem : ∀ o ∈ (base.insn n).operands, o ∈ base.narrowOps n := by
      intro o ho
      rcases op with h | h
      · rwa [mem_narrowOps_unary hpos h, ← operands_unary S.checked h]
      · rwa [mem_narrowOps_binary hpos h, ← operands_binary S.checked h]
    have h : ctx'.Evaluates W n τ _ :=
        .of_gives ((base.insn n).operands.map fun o => low type (ρ o)) hpos (by rw [hop, hcls]) (by
      rw [hops, List.forall₂_map_left_iff, List.forall₂_map_right_iff]
      refine ((List.forall₂_and_left _ _).2 ⟨hmem, operands⟩).flip.imp fun o' o h => ?_
      exact .inr (hlow o h.1 o' h.2))
    rw [hop, htype, compute_types hi op _ _ []] at h
    rwa [narrowValue_plain hpos op]
  | @cond a b op op' type' operands left right =>
    rw [op'] at hop
    rw [type'] at htype
    rw [operands, List.map_cons, List.map_cons, List.map_singleton] at hops
    have hbase := operands_cond S.checked op
    have hmem : (base.insn n).op1 ∈ (base.insn n).operands := by
      rw [hbase]
      exact List.mem_cons_self
    have hw := O.whole_of_operand hmem (O.condition_outside hne hpos op)
      (.inr ⟨n, hpos, hne, by rw [operands]; exact List.mem_cons_self⟩)
    have hin := mem_narrowOps_cond hpos op
    have h : ctx'.Evaluates W n τ _ :=
        .of_gives [ρ (base.insn n).op1, low type (ρ (base.insn n).op2), low type (ρ (base.insn n).op3)] hpos
          (by rw [hop]; rfl) (by
      rw [hops]
      refine .cons (gives_whole hzero hwhole S.pos hmem hw) (.cons (.inr ?_) (.cons (.inr ?_) .nil))
      · exact hlow _ (by rw [hin]; exact List.mem_cons_self) a left
      · exact hlow _ (by rw [hin]; exact List.mem_cons_of_mem _ List.mem_cons_self) b right)
    rw [hop, htype, compute_cond] at h
    rw [narrowValue_cond hpos op]
    split_ifs at h ⊢
    · rwa [read_low hi] at h
    · rwa [read_low hi] at h
  | @fused a b op order left' right' op' type' operands left right =>
    rw [op'] at hop
    rw [type'] at htype
    rw [operands, List.map_cons, List.map_cons, List.map_singleton] at hops
    have hbase := operands_cond S.checked op
    have hin := mem_narrowOps_cond hpos op
    have h2 : (base.insn n).op2 ∈ base.narrowOps n := by rw [hin]; exact List.mem_cons_self
    have h3 : (base.insn n).op3 ∈ base.narrowOps n := by rw [hin]; exact List.mem_cons_of_mem _ List.mem_cons_self
    have ha := hlow _ h2 a left
    have hb := hlow _ h3 b right
    -- the condition is a comparison of the operands as they are now
    have hcond : ρ (base.insn n).op1 = compute W.other (base.insn (base.insn n).op1).op
        (base.insn (base.insn n).op1).type [type, type] [low type (ρ (base.insn n).op2), low type (ρ (base.insn n).op3)] :=
      O.fused_condition R hwhole hpos hne op order (left' ▸ ha) (right' ▸ hb)
        (left' ▸ O.image_type R K (.operand hvis h2) left) (right' ▸ O.image_type R K (.operand hvis h3) right)
    have h : ctx'.Evaluates W n τ _ :=
        .of_gives [low type (ρ (base.insn n).op2), low type (ρ (base.insn n).op3), 0] hpos
          (by rw [hop]; split <;> rfl) (by
      rw [hops]
      exact .cons (.inr ha) (.cons (.inr hb) (.cons (.inl ⟨subst_of_ne S.pos.ne, rfl⟩) .nil)))
    rw [narrowValue_cond hpos op, hcond, select_order hi order]
    rw [hop, htype, compute_binary hi (by split <;> rfl)] at h
    simp only [List.getD_cons_zero, List.getD_cons_succ, read_low hi] at h
    cases hless : Ctx.isLess (base.insn (base.insn n).op1).op with
    | true =>
      rw [hless, if_pos rfl] at h
      rw [if_pos rfl]
      rwa [show spec .min type type type (low type _) (low type _) = min (low type _) (low type _) from rfl,
        read_min hi] at h
    | false =>
      rw [hless, if_neg Bool.false_ne_true] at h
      rw [if_neg Bool.false_ne_true]
      rwa [show spec .max type type type (low type _) (low type _) = max (low type _) (low type _) from rfl,
        read_max hi] at h
  | phi op => rw [op] at hcls; cases hcls
  | ext op src op' type' operands =>
    rw [op'] at hop
    rw [type'] at htype
    have hbase := operands_ext S.checked op
    have hmem : (base.insn n).op1 ∈ (base.insn n).operands := by
      rw [hbase]
      exact List.mem_singleton_self _
    rw [operands, hbase, List.map_singleton] at hops
    have hself := S.checked.ne_operand hcls hmem
    have hw : Whole base mid D i (base.insn n).op1 := by
      refine O.whole_of_operand hmem (fun hD' => ?_) (.inr ⟨n, hpos, hne, by rw [operands]; exact hmem⟩)
      by_contra hi
      have hnil := (O.inv.operand_entered S hne hmem hself hD' hi).2.1
      rw [narrowOps_ext op] at hnil
      exact absurd hnil List.not_mem_nil
    have h : ctx'.Evaluates W n τ _ := .of_gives [ρ (base.insn n).op1] hpos
        (by rw [hop]; exact (extOp_eq type op _).elim (fun h => cls_of_visited (.inl h)) fun h => by rw [h]; rfl) (by
      rw [hops]
      exact .cons (gives_whole hzero hwhole S.pos hmem hw) .nil)
    rw [hops, List.map_singleton, hop, htype, O.whole_type R K hw] at h
    rwa [narrowValue_ext hpos op src]

end

/-! ## The simulation -/

omit K in
/-- A constant that stands for one of the expression. -/
theorem Walked.const_image (KL : base.KeepsLowBits W type root) (hvis : base.Visited root n) (hneg : n < 0)
    (hsym : (base.insn n).op.isSymConst = false) (him : base.Image type mid n o') :
    ctx'.Evaluates W (subst i ref' o') τ (low type (valueOf (base.insn n).type (base.val n))) := by
  have hi := S.types.1
  have hw : type.size < 8 := lt_of_lt_of_le S.types.2.2 (by cases (base.insn root).type <;> decide)
  have hphi : (base.insn n).op ≠ .phi := fun h => by
    have := S.checked.consts n hneg.le
    rw [h] at this
    cases this
  have hkeep := (keepsLow_iff S.checked hi hw (.const hneg hsym) hphi fun h => absurd h.1 (by omega)).1
    (KL.const n hvis hneg)
  rw [narrowValue_neg hneg, wideValue_neg hneg] at hkeep
  unfold Ctx.Image at him
  rw [if_pos hneg] at him
  obtain ⟨hneg', -, hop, htype, hval⟩ := him
  have hpos := S.pos
  have hinsn := R.consts o' hneg'.le
  have hno : constOp type ≠ .nop ∧ (constOp type).isSymConst = false := by
    have h := hi.2
    cases type <;> first | exact absurd rfl h | exact ⟨by decide, rfl⟩
  have h : ctx'.Evaluates W o' τ _ := .const hneg' (by rw [hinsn, hop]; exact hno.1) (by rw [hinsn, hop]; exact hno.2)
  rw [subst_of_ne (by omega), ← hkeep]
  rwa [hinsn, htype, R.val, hval] at h

omit K in
/-- Constants that were there still are. -/
theorem Walked.const_whole (hneg : n ≤ 0) (h : Whole base mid D i n) :
    ctx'.insn (subst i ref' n) = base.insn n ∧ ctx'.val (subst i ref' n) = base.val n := by
  have hpos := S.pos
  rw [subst_of_ne (by omega), R.consts n hneg, R.val, h.insn]
  exact ⟨rfl, (O.inv.consts n hneg h.range).2⟩

/-- Every evaluation before the narrowing is one after it. -/
theorem Walked.simulates (KL : base.KeepsLowBits W type root) (h : base.Evaluates W n τ v) :
    (base.Visited root n → ∀ n', base.Image type mid n n' → ctx'.Evaluates W (subst i ref' n') τ (low type v)) ∧
      (Whole base mid D i n → ctx'.Evaluates W (subst i ref' n) τ v) := by
  have C := S.checked
  have hi := S.types.1
  have hipos := S.pos
  have hw : type.size < 8 := lt_of_lt_of_le S.types.2.2 (by cases (base.insn root).type <;> decide)
  induction h with
  | @const n τ neg op sym =>
    refine ⟨fun hvis n' him => O.const_image R KL hvis neg sym him, fun h => ?_⟩
    obtain ⟨hinsn, hval⟩ := O.const_whole R neg.le h
    rw [← hval, ← hinsn]
    rw [← hinsn] at op sym
    exact .const (by rw [subst_of_ne (by omega)]; exact neg) op sym
  | @sym n τ neg sym =>
    refine ⟨fun hvis n' him => ?_, fun h => ?_⟩
    · cases K n hvis with
      | const _ hsym => rw [hsym] at sym; cases sym
      | _ pos => omega
    · obtain ⟨hinsn, -⟩ := O.const_whole R neg.le h
      rw [subst_of_ne (by omega)] at hinsn ⊢
      rw [← hinsn] at sym ⊢
      exact .sym neg sym
  | @data n τ ρ pos cls zero operands ih =>
    have hwhole : ∀ o ∈ (base.insn n).operands, o ≠ 0 → Whole base mid D i o →
        ctx'.Evaluates W (subst i ref' o) τ (ρ o) := fun o ho h0 h => (ih o ho h0).2 h
    have hlow : base.Visited root n → ∀ o ∈ base.narrowOps n, ∀ o', base.Image type mid o o' →
        ctx'.Evaluates W (subst i ref' o') τ (low type (ρ o)) := by
      intro hvis o ho o' him
      have hvis' := Ctx.Visited.operand hvis ho
      exact (ih o (mem_operands_of_narrowOps C ho) (K o hvis').ne_zero).1 hvis' o' him
    have hphi : (base.insn n).op ≠ .phi := by
      intro h
      rw [h] at cls
      cases cls
    have hkeep : base.Visited root n → base.narrowValue W type n ρ = low type (base.value W n ρ) := by
      intro hvis
      rw [← wideValue_pos pos]
      refine (keepsLow_iff C hi hw (K n hvis) hphi fun h => ?_).1 (KL.data n τ ρ hvis pos cls zero operands)
      have hmem : (base.insn n).op1 ∈ (base.insn n).operands := by
        rw [operands_ext C h.2.1]
        exact List.mem_singleton_self _
      have hrange := (operands _ hmem (S.separate.operand n hvis h).ne').range
      rwa [h.2.2, read_eq hi] at hrange
    -- the TRUNC itself
    have hstart : n = i → ctx'.Evaluates W ref' τ (base.value W n ρ) ∧
        low type (base.value W n ρ) = base.value W n ρ := by
      rintro rfl
      have hroot := (ih root (by rw [S.operands]; exact List.mem_singleton_self _) (K root .root).ne_zero).1
        .root ref' O.image
      rw [subst_of_ne O.ne_start] at hroot
      have hval : base.value W n ρ = low type (ρ root) := by
        rw [Ctx.value, S.operands, List.map_singleton, List.map_singleton, S.op, S.type_eq,
          compute_ext hi S.types.2.1 (.inl rfl)]
        exact read_low hi _
      rw [hval]
      exact ⟨hroot, low_low _ _⟩
    refine ⟨fun hvis n' him => ?_, fun h => ?_⟩
    · rcases him.cases with ⟨hneg, -⟩ | ⟨-, hby, rfl⟩ | ⟨-, hby, rfl⟩
      · omega
      · -- an extension that is left out
        have hmem : (base.insn n).op1 ∈ (base.insn n).operands := by
          rw [operands_ext C hby.2.1]
          exact List.mem_singleton_self _
        rw [← hkeep hvis, narrowValue_bypassed pos hby]
        exact hwhole _ hmem (S.separate.operand n hvis hby).ne' (O.whole_source hby)
      · by_cases hni : n' = i
        · obtain ⟨hstart, hlow⟩ := hstart hni
          rwa [hlow, hni, subst_start, ← hni]
        · rw [subst_of_ne hni, ← hkeep hvis]
          exact O.narrow_evaluates R K zero hwhole (hlow hvis) (O.visited_entered hvis pos hby) hni cls
    · by_cases hni : n = i
      · rw [hni, subst_start, ← hni]
        exact (hstart hni).1
      · rw [subst_of_ne hni]
        exact O.outside_evaluates R K zero hwhole pos cls (fun hD => hni (h.outside hD)) h.insn
  | @phi n o τ τ' k v pos op select input operand ih =>
    have hni : n ≠ i := by
      rintro rfl
      rw [S.op] at op
      cases op
    have hmem : o ∈ base.inputs n := List.mem_of_getElem? input
    have hops := R.operands n pos hni
    refine ⟨fun hvis n' him => ?_, fun h => ?_⟩
    · have hby : ¬base.Bypassed type n := fun h => by
        rw [Ctx.Bypassed, op] at h
        cases h.2.1
      obtain rfl : n' = n := by
        rcases him.cases with ⟨hneg, -⟩ | ⟨-, h, -⟩ | ⟨-, -, h⟩
        · omega
        · exact absurd h hby
        · exact h
      have hD := O.visited_entered hvis pos hby
      cases (O.done n' hD hni).2.2.2.1 with
      | plain hop => rw [op] at hop; exact absurd hop (by decide)
      | cond hop => rw [op] at hop; cases hop
      | fused hop => rw [op] at hop; cases hop
      | ext hop => rw [op] at hop; cases hop
      | phi _ op' type' inputs =>
        obtain ⟨o', hk, him'⟩ := forall₂_getElem? inputs input
        -- the PHI may be an input of its own
        have hvis' : base.Visited root o := by
          by_cases ho : o = n'
          · rw [ho]
            exact hvis
          · refine .operand hvis ?_
            rw [mem_narrowOps_phi pos op]
            exact List.mem_filter.2 ⟨hmem, by simpa using ho⟩
        have hE : ctx'.Evaluates W n' τ _ := .phi pos (by rw [R.op n' hni, op']) select
          (by rw [Ctx.inputs, hops, ← List.map_drop, List.getElem?_map]; exact congrArg _ hk) (ih.1 hvis' o' him')
        rw [R.type_eq n' hni, type', read_low hi] at hE
        rw [subst_of_ne hni]
        have hkeep : low type (read (base.insn n').type v) = low type v := by
          by_cases hmis : base.Misfit type n'
          · exact KL.phi n' o τ' v hvis op hmem operand hmis
          · unfold Ctx.Misfit at hmis
            push Not at hmis
            obtain ⟨hb, -, hti, hs⟩ := hmis
            rw [read_eq hti, low_eq hb, low_eq hb, wrap_wrap hs]
        rwa [hkeep]
    · have hD : ¬D n := fun hD => hni (h.outside hD)
      have ho : o ∈ (base.insn n).operands := List.mem_of_mem_drop hmem
      have hw : Whole base mid D i o := O.whole_of_operand ho (O.inv.operand_outside S hD ho)
        (.inr ⟨n, pos, hni, by rw [h.insn]; exact ho⟩)
      rw [h.insn] at hops
      rw [subst_of_ne hni, ← h.insn, ← R.type_eq n hni]
      exact .phi pos (by rw [R.op n hni, h.insn, op]) select
        (by rw [Ctx.inputs, hops, ← List.map_drop, List.getElem?_map]; exact congrArg _ input) (ih.2 hw)
  | @leaf n τ pos cls phi nop =>
    have hni : n ≠ i := by
      rintro rfl
      rw [S.op] at cls
      exact cls rfl
    refine ⟨fun hvis n' him => ?_, fun h => ?_⟩
    · cases K n hvis with
      | const neg => omega
      | ext _ op => exact absurd (cls_of_visited (.inl op)) cls
      | unary _ op => exact absurd (cls_of_visited (.inr (.inl op))) cls
      | binary _ op => exact absurd (cls_of_visited (.inr (.inr (.inl op)))) cls
      | cond _ op => exact absurd (cls_of_visited (.inr (.inr (.inr op)))) cls
      | phi _ op => exact absurd op phi
    · have hop : (ctx'.insn n).op = (base.insn n).op := by rw [R.op n hni, h.insn]
      rw [subst_of_ne hni, ← h.insn, ← R.type_eq n hni]
      exact .leaf pos (by rwa [hop]) (by rwa [hop]) (by rwa [hop])

end

end IrJit.Narrow
