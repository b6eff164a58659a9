import IrJit.IfConv.Outcome
import IrJit.Narrow.Simulation

/-!
# Narrow.Outcome — what the narrowing leaves of a TRUNC

The test of `ir_may_promote_trunc` lets every operator pass that `ir_promote_i2i` has a case for, also the ones
whose low bits need more than the low bits of the operands.
-/

namespace IrJit.Narrow

open Fold (IsInt valueOf)
open IfConv (Insn isConstRef refsFrom mem_refsFrom nopInsn)

variable {base ctx' : Ctx} {i ref' n : ℤ} {fuel : ℕ} {T : Type} {W : World T}

/-- The narrow graph has the low bits at the former TRUNC, and elsewhere the values of the wide one. -/
structure Ctx.NarrowsTo (base : Ctx) (W : World T) (i ref' : ℤ) (ctx' : Ctx) : Prop where
  low : ∀ τ v, base.Evaluates W (base.insn i).op1 τ v → ctx'.Evaluates W ref' τ (low (base.insn i).type v)
  trunc : ∀ τ v, base.Evaluates W i τ v → ctx'.Evaluates W ref' τ v
  others : ∀ n τ v, -(base.constsCount : ℤ) < n → n ≠ i → ¬(0 < n ∧ base.Visited (base.insn i).op1 n) →
    base.Evaluates W n τ v → ctx'.Evaluates W n τ v

/-- The TRUNC is gone, and what used it uses `ref'`. -/
structure Ctx.Retargeted (base : Ctx) (i ref' : ℤ) (ctx' : Ctx) : Prop where
  nop : (ctx'.insn i).op = .nop
  op : ∀ n, 0 < n → n ≠ i → ¬base.Visited (base.insn i).op1 n → (ctx'.insn n).op = (base.insn n).op
  operands : ∀ n, 0 < n → n ≠ i → ¬base.Visited (base.insn i).op1 n →
    (ctx'.insn n).operands = (base.insn n).operands.map (subst i ref')

/-- An instruction that is not narrowed is as it was. -/
theorem Walked.whole_of_not_visited {mid : Ctx} {type : IrType} {root : ℤ} {D : ℤ → Prop} {V : ℤ → List ℤ}
    {S : Start base type i root} (O : S.Over ref' D V mid) (hr : -(base.constsCount : ℤ) < n)
    (hvis : ¬(0 < n ∧ base.Visited root n)) : Whole base mid D i n := by
  have hD : D n → n = i := by
    intro hD
    by_contra hi
    obtain ⟨hpos, hvis', -⟩ := O.done n hD hi
    exact hvis ⟨hpos, hvis'⟩
  refine ⟨hr, hD, ?_⟩
  by_cases hpos : 0 < n
  · by_cases hDn : D n
    · rw [hD hDn]
      exact O.inv.start.2
    · rcases O.outside hpos hDn with h | ⟨-, hvis', -⟩
      · exact h
      · exact absurd ⟨hpos, hvis'⟩ hvis
  · exact (O.inv.consts n (not_lt.1 hpos) hr).1

/-- Where the test answers yes the TRUNC is replaced, and the graph keeps its values if the low bits are kept in
the expression; an instruction of the expression keeps them exactly when it meets the condition. -/
theorem Ctx.Checked.optTrunc_exact (C : base.Checked) (hop : (base.insn i).op = .trunc)
    (hsep : base.Separate (base.insn i).type (base.insn i).op1)
    (hmay : base.mayPromoteTrunc (base.insn i).type fuel (base.insn i).op1 = some true) :
    ∃ ref' ctx', base.optTrunc fuel i = some (true, ctx') ∧ base.Retargeted i ref' ctx' ∧
      ∀ (T : Type) (W : World T),
        (base.KeepsLowBits W (base.insn i).type (base.insn i).op1 → base.NarrowsTo W i ref' ctx') ∧
        ∀ n τ ρ, base.Visited (base.insn i).op1 n → 0 < n → (base.insn n).op.cls = .data →
          (∀ o ∈ (base.insn n).operands, base.Gives W τ o (ρ o)) →
          (base.KeepsLow W (base.insn i).type n ρ ↔
            base.narrowValue W (base.insn i).type n ρ = Narrow.low (base.insn i).type (base.value W n ρ)) := by
  have S : Start base (base.insn i).type i (base.insn i).op1 := ⟨C, hop, rfl, rfl, hsep⟩
  obtain ⟨ref', mid, hrun, D, V, O⟩ := S.over hmay
  have R := O.replaced O.ne_start
  have K : ∀ n, base.Visited (base.insn i).op1 n → base.Kind n := fun n h => h.kind C hmay
  refine ⟨ref', _, ?_, ⟨R.nop, ?_, ?_⟩, fun T W => ⟨fun KL => ⟨?_, ?_, ?_⟩, ?_⟩⟩
  · simp [Ctx.optTrunc, hmay, hrun]
  · intro n hpos hne hvis
    have hr : -(base.constsCount : ℤ) < n := by omega
    rw [R.op n hne, (O.whole_of_not_visited hr fun h => hvis h.2).insn]
  · intro n hpos hne hvis
    have hr : -(base.constsCount : ℤ) < n := by omega
    rw [R.operands n hpos hne, (O.whole_of_not_visited hr fun h => hvis h.2).insn]
  · intro τ v h
    have hroot := (O.simulates R K KL h).1 .root ref' O.image
    rwa [subst_of_ne O.ne_start] at hroot
  · intro τ v h
    have hstart := (O.simulates R K KL h).2 O.whole_start
    rwa [subst_start] at hstart
  · intro n τ v hr hne hvis h
    have hsame := (O.simulates R K KL h).2 (O.whole_of_not_visited hr hvis)
    rwa [subst_of_ne hne] at hsame
  · intro n τ ρ hvis hpos hcls hgives
    have hw : (base.insn i).type.size < 8 :=
      lt_of_lt_of_le S.types.2.2 (by cases (base.insn (base.insn i).op1).type <;> decide)
    rw [← wideValue_pos hpos]
    refine keepsLow_iff C S.types.1 hw (K n hvis) (fun h => by rw [h] at hcls; cases hcls) fun hby => ?_
    have hmem : (base.insn n).op1 ∈ (base.insn n).operands := by
      rw [operands_ext C hby.2.1]
      exact List.mem_singleton_self _
    have hpos' := hsep.operand n hvis hby
    have hrange := ((hgives _ hmem).resolve_left fun h => hpos'.ne' h.1).range
    rwa [hby.2.2, read_eq S.types.1] at hrange

/-! ## Expressions that are always kept -/

/-- What is closed under the operands of an expression has all of it. -/
theorem Ctx.Visited.mem_of_closed {root : ℤ} {l : List ℤ} (h : base.Visited root n) (hroot : root ∈ l)
    (hl : ∀ m ∈ l, ∀ o ∈ base.narrowOps m, o ∈ l) : n ∈ l := by
  induction h with
  | root => exact hroot
  | operand _ ho ih => exact hl _ ih _ ho

/-- Without MIN, MAX, ABS and SHL, and with the narrow type no larger than any other. -/
theorem Ctx.KeepsLowBits.of_fit {type : IrType} {root : ℤ} (W : World T) (h : ∀ n, base.Visited root n →
    ¬base.Misfit type n ∧ ¬((base.insn n).op = .min ∨ (base.insn n).op = .max ∨ (base.insn n).op = .abs ∨
      (base.insn n).op = .shl)) : base.KeepsLowBits W type root where
  const n hvis _ := ⟨fun hmis => absurd hmis (h n hvis).1, fun _ => commutes_of_ne (h n hvis).2⟩
  data n _ _ hvis _ _ _ _ := ⟨fun hmis => absurd hmis (h n hvis).1, fun _ => commutes_of_ne (h n hvis).2⟩
  phi n _ _ _ hvis _ _ _ hmis := absurd hmis (h n hvis).1

/-! ## A graph -/

instance (ctx : Ctx) (type : IrType) (n : ℤ) : Decidable (ctx.Bypassed type n) :=
  inferInstanceAs (Decidable (_ ∧ _ ∧ _))

instance (t : IrType) : Decidable (IsInt t) := inferInstanceAs (Decidable (_ ∧ _))

instance (op : IrOp) (t src : IrType) : Decidable (ExtTypes op t src) :=
  inferInstanceAs (Decidable (IsInt t ∧ IsInt src ∧ if op = .trunc then t.size < src.size else src.size < t.size))

instance (ctx : Ctx) (type : IrType) (n : ℤ) : Decidable (ctx.Misfit type n) :=
  inferInstanceAs (Decidable (_ ∨ _ ∨ ¬IsInt _ ∨ _))

/-- The tests of `Checked` at one instruction of a context without a PHI, whose references are `refs`. -/
def Ctx.ChecksAt (ctx : Ctx) (refs : List ℤ) (n : ℤ) : Prop :=
  let insn := ctx.insn n
  (n ≤ 0 → isConst insn.op = true)
    ∧ (insn.op.hasVarInputs = false → insn.inputsCount = insn.op.inputEdges)
    ∧ insn.operands.length = insn.inputsCount
    ∧ insn.op ≠ .phi
    ∧ (∀ o ∈ insn.operands, -(ctx.constsCount : ℤ) < o ∧ n ∉ (ctx.insn o).operands)
    ∧ (∀ w ∈ refs, 0 < w → (ctx.uses w).count n = insn.operands.count w)
    ∧ (∀ w ∈ insn.operands, w ∈ refs)
    ∧ (∀ u ∈ ctx.uses n, u ∈ refs)
    ∧ (isExt insn.op = true → ExtTypes insn.op insn.type (ctx.insn insn.op1).type)

instance (ctx : Ctx) (refs : List ℤ) (n : ℤ) : Decidable (ctx.ChecksAt refs n) :=
  inferInstanceAs (Decidable (_ ∧ _ ∧ _ ∧ _ ∧ _ ∧ _ ∧ _ ∧ _ ∧ _))

/-- A context is tested at its references; the other slots are unused. -/
theorem checked_of_checksAt {ctx : Ctx} (refs : List ℤ) (hout : ∀ n, n ∉ refs → ctx.insn n = nopInsn ∧ ctx.uses n = [])
    (zero : (ctx.insn 0).op = .nop) (constsCount : 3 < ctx.constsCount)
    (false_ : (ctx.insn Consts.irFalse).op = .cBool ∧ (ctx.insn Consts.irFalse).type = .bool ∧
      ctx.val Consts.irFalse = 0)
    (true_ : (ctx.insn Consts.irTrue).op = .cBool ∧ (ctx.insn Consts.irTrue).type = .bool ∧
      ctx.val Consts.irTrue = 1)
    (h : ∀ n ∈ refs, ctx.ChecksAt refs n) : ctx.Checked := by
  -- an unused slot passes the tests
  have hall : ∀ n, ctx.ChecksAt refs n := by
    intro n
    by_cases hn : n ∈ refs
    · exact h n hn
    · obtain ⟨hinsn, huses⟩ := hout n hn
      unfold Ctx.ChecksAt
      rw [hinsn, huses]
      refine ⟨fun _ => rfl, fun _ => rfl, rfl, by decide, fun o ho => absurd ho List.not_mem_nil, fun w hw _ => ?_,
        fun w hw => absurd hw List.not_mem_nil, fun u hu => absurd hu List.not_mem_nil, fun h => absurd h (by decide)⟩
      rw [List.count_eq_zero.2 fun hu => hn ((h w hw).2.2.2.2.2.2.2.1 n hu)]
      rfl
  refine ⟨fun n => (hall n).1, zero, constsCount, false_, true_, fun n => (hall n).2.1, fun n => (hall n).2.2.1,
    fun n hphi => absurd hphi (hall n).2.2.2.1, fun n o ho => ((hall n).2.2.2.2.1 o ho).1, fun w n hw => ?_,
    fun n => (hall n).2.2.2.2.2.2.2.2, fun n o _ _ ho => ((hall n).2.2.2.2.1 o ho).2⟩
  by_cases hmem : w ∈ refs
  · exact (hall n).2.2.2.2.2.1 w hmem hw
  · rw [(hout w hmem).2, List.count_nil, eq_comm, List.count_eq_zero]
    exact fun ho => hmem ((hall n).2.2.2.2.2.2.1 w ho)

/-- `RETURN(TRUNC_I8(op_I32(SEXT_I32(a), 300)))`. -/
def exprGraph (op : IrOp) : Ctx where
  insn
    | -4 => ⟨.cI32, .i32, 0, 0, 0, 0, []⟩
    | -3 => ⟨.cBool, .bool, 0, 0, 0, 0, []⟩
    | -2 => ⟨.cBool, .bool, 0, 0, 0, 0, []⟩
    | -1 => ⟨.cAddr, .addr, 0, 0, 0, 0, []⟩
    | 1 => ⟨.start, .void, 0, 0, 0, 0, []⟩
    | 2 => ⟨.param, .i8, 1, 1, 0, 0, []⟩
    | 3 => ⟨.sext, .i32, 1, 2, 0, 0, []⟩
    | 4 => ⟨op, .i32, 2, 3, -4, 0, []⟩
    | 5 => ⟨.trunc, .i8, 1, 4, 0, 0, []⟩
    | 6 => ⟨.ret, .void, 2, 1, 5, 0, []⟩
    | _ => nopInsn
  val
    | -4 => 300
    | -3 => 1
    | _ => 0
  constsCount := 5
  uses
    | 1 => [2, 6]
    | 2 => [3]
    | 3 => [4]
    | 4 => [5]
    | 5 => [6]
    | _ => []

theorem exprGraph_outside {op : IrOp} (h : n ∉ refsFrom (-4) 11) :
    (exprGraph op).insn n = nopInsn ∧ (exprGraph op).uses n = [] := by
  rw [mem_refsFrom] at h
  unfold exprGraph
  dsimp only
  constructor
  · split <;> first | rfl | omega
  · split <;> first | rfl | omega

/-- The expression under the TRUNC. -/
theorem exprGraph_visited {op : IrOp} (hop : op = .min ∨ op = .add) (h : (exprGraph op).Visited 4 n) :
    n ∈ [4, 3, -4] := by
  refine h.mem_of_closed List.mem_cons_self ?_
  rcases hop with rfl | rfl <;> decide

theorem exprGraph_separate {op : IrOp} (hop : op = .min ∨ op = .add) : (exprGraph op).Separate .i8 4 := by
  have htests : ∀ n ∈ ([4, 3, -4] : List ℤ), ((exprGraph op).insn n).op ≠ .phi ∧ ((exprGraph op).insn n).op ≠ .cond ∧
      ((exprGraph op).Bypassed .i8 n → 0 < ((exprGraph op).insn n).op1) := by
    rcases hop with rfl | rfl <;> decide
  refine ⟨fun n hvis => ?_, fun n hvis _ _ _ h => ?_, fun n hvis _ _ _ h => ?_⟩
  · exact (htests n (exprGraph_visited hop hvis)).2.2
  · exact absurd h (htests n (exprGraph_visited hop hvis)).2.1
  · exact absurd h (htests n (exprGraph_visited hop hvis)).1

theorem exprGraph_checked {op : IrOp} (hop : op = .min ∨ op = .add) : (exprGraph op).Checked := by
  rcases hop with rfl | rfl
  all_goals
    exact checked_of_checksAt (refsFrom (-4) 11) (fun n => exprGraph_outside) rfl (by decide) ⟨rfl, rfl, rfl⟩
      ⟨rfl, rfl, rfl⟩ (by decide)

theorem addGraph_narrowsTo : ∃ ref' ctx', (exprGraph .add).optTrunc 2 5 = some (true, ctx') ∧
    (exprGraph .add).Retargeted 5 ref' ctx' ∧ ∀ (T : Type) (W : World T), (exprGraph .add).NarrowsTo W 5 ref' ctx' := by
  obtain ⟨ref', ctx', hrun, hret, h⟩ := (exprGraph_checked (.inr rfl)).optTrunc_exact (i := 5) rfl
    (exprGraph_separate (.inr rfl)) (show (exprGraph .add).mayPromoteTrunc .i8 2 4 = some true from rfl)
  have htests : ∀ n ∈ ([4, 3, -4] : List ℤ), ¬(exprGraph .add).Misfit .i8 n ∧
      ¬(((exprGraph .add).insn n).op = .min ∨ ((exprGraph .add).insn n).op = .max ∨
        ((exprGraph .add).insn n).op = .abs ∨ ((exprGraph .add).insn n).op = .shl) := by decide
  exact ⟨ref', ctx', hrun, hret, fun T W => (h T W).1 (.of_fit W fun n hvis =>
    htests n (exprGraph_visited (.inr rfl) hvis))⟩

theorem Ctx.Evaluates.of_values {τ : T} {v : ℤ} (xs : List ℤ) (pos : 0 < n) (cls : (base.insn n).op.cls = .data)
    (h : List.Forall₂ (base.Gives W τ) (base.insn n).operands xs)
    (hv : compute W.other (base.insn n).op (base.insn n).type
      ((base.insn n).operands.map fun o => (base.insn o).type) xs = v) : base.Evaluates W n τ v :=
  hv ▸ .of_gives xs pos cls h

/-- Every leaf is `x`. -/
def constWorld (x : ℤ) : World Unit := ⟨fun _ _ _ => 0, fun _ _ => x, fun _ _ => (0, ())⟩

/-- The minimum of 100 and 300 is computed as that of 100 and 44. -/
theorem minGraph_narrowed : (exprGraph .min).Checked ∧ (exprGraph .min).mayPromoteTrunc .i8 2 4 = some true ∧
    ∃ ctx' : Ctx, (exprGraph .min).optTrunc 2 5 = some (true, ctx') ∧ (ctx'.insn 6).operands = [1, 4] ∧
      (exprGraph .min).Evaluates (constWorld 100) 5 () 100 ∧ ¬ctx'.Evaluates (constWorld 100) 4 () 100 := by
  refine ⟨exprGraph_checked (.inl rfl), rfl, _, rfl, rfl, ?_, fun h => ?_⟩
  · have h2 : (exprGraph .min).Evaluates (constWorld 100) 2 () 100 :=
      .leaf (by decide) (by decide) (by decide) (by decide)
    have h3 : (exprGraph .min).Evaluates (constWorld 100) 3 () 100 :=
      .of_values [100] (by decide) rfl (.cons (.inr h2) .nil) (by decide)
    have hc : (exprGraph .min).Evaluates (constWorld 100) (-4) () (valueOf .i32 300) :=
      .const (by decide) (by decide) rfl
    rw [show valueOf .i32 300 = 300 by decide] at hc
    have h4 : (exprGraph .min).Evaluates (constWorld 100) 4 () 100 :=
      .of_values [100, 300] (by decide) rfl (.cons (.inr h3) (.cons (.inr hc) .nil)) (by decide)
    exact .of_values [100] (by decide) rfl (.cons (.inr h4) .nil) (by decide)
  · refine absurd (h.unique (v := 44) ?_) (by decide)
    refine .of_values [100, 44] (by decide) rfl (.cons (.inr ?_) (.cons (.inr ?_) .nil)) (by decide)
    · exact .leaf (by decide) (by decide) (by decide) (by decide)
    · exact .const (by decide) (by decide) rfl

end IrJit.Narrow
