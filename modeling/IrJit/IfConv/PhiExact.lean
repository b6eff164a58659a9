import IrJit.IfConv.Value

/-!
# IfConv.PhiExact — when the replaced PHI keeps its value
-/

namespace IrJit.IfConv

open Fold

variable {ctx after : Ctx} {d : Diamond} {merge ref next : ℤ}
  {other : IrOp → IrType → List ℤ → ℤ} {ρ : ℤ → ℤ}

theorem taken_cases {l r : ℤ} (h : ((ctx.insn ref).op2 = l ∧ (ctx.insn ref).op3 = r) ∨
    ((ctx.insn ref).op3 = l ∧ (ctx.insn ref).op2 = r)) :
    (ctx.taken d ref = l ∧ ctx.notTaken d ref = r) ∨
      (ctx.taken d ref = r ∧ ctx.notTaken d ref = l) := by
  unfold Ctx.taken Ctx.notTaken
  split <;> rcases h with h | h <;> simp [h]

/-- A MIN or MAX is the PHI, unless the comparison was rewritten to a constant at the other end of
the type. -/
theorem minMax_kept_iff (C : Checked ctx) (T : Typed ctx ref) (E : Evaluation other ctx ρ)
    (ht : IsInt (ctx.insn ref).type) {cond' : Insn}
    (hm : ctx.minMaxMatch (ctx.insn ref) (ctx.insn d.cond) = some cond')
    (hphi : after.insn ref = minMaxInsn cond' (ctx.insn d.start1) (ctx.insn ref)) :
    after.eval other ρ ref = ctx.phiValue d ref ρ ↔
      cond'.op2 = (ctx.insn d.cond).op2 ∨
      Beside (ctx.insn d.cond).op (ρ (ctx.insn d.cond).op2) (ρ cond'.op2) ∨
      ρ cond'.op1 = ρ cond'.op2 := by
  obtain ⟨hcmp, hop, hop1, harms, hfix⟩ := minMaxMatch_eq_some hm
  have hty1 : (ctx.insn (ctx.insn d.cond).op1).type = (ctx.insn ref).type := by
    rw [← hop1]
    rcases harms with ⟨h1, -⟩ | ⟨h1, -⟩
    · rw [← h1, T.op2]
    · rw [← h1, T.op3]
  have hty2 : (ctx.insn cond'.op2).type = (ctx.insn ref).type := by
    rcases harms with ⟨-, h2⟩ | ⟨-, h2⟩
    · rw [← h2, T.op3]
    · rw [← h2, T.op2]
  have hr1 : InRange (ctx.insn ref).type (ρ (ctx.insn d.cond).op1) :=
    hty1 ▸ E.range _ (by rw [hty1]; exact ht)
  have hc := cond_value C T E ht hcmp (.inl hty1)
  have htaken := taken_cases (d := d) harms
  rw [minMax_value ht.1 hphi, phiValue_eq hc, chosen_value htaken, selected_value htaken, hop, hop1]
  rcases hfix with rfl | F
  · simp only [true_or, iff_true]
    obtain ⟨h1, h2⟩ := select_eq (order_le (x := ρ (ctx.insn d.cond).op1)
      (y := ρ (ctx.insn d.cond).op2) hcmp)
    rw [h1, h2]
  · rcases fixed_cases F E ht hty2 hcmp hr1 with ⟨hb, horder⟩ | ⟨hb, htrue, hbound⟩
    · simp only [hb, true_or, or_true, iff_true]
      obtain ⟨h1, h2⟩ := select_eq horder
      rw [h1, h2]
    · simp only [F.ne, hb, false_or, htrue, if_true]
      cases hless : isLess (ctx.insn ref).type (ctx.insn d.cond).op with
      | true =>
        simp only [hless, if_true] at hbound ⊢
        rw [min_eq_right hbound, max_eq_left hbound]
        split
        · exact eq_comm
        · exact Iff.rfl
      | false =>
        simp only [hless, Bool.false_eq_true, if_false] at hbound ⊢
        rw [max_eq_right hbound, min_eq_left hbound]
        split
        · exact eq_comm
        · exact Iff.rfl

/-! ## ABS -/

/-- The comparison of `x` with its constant gives what the comparison with `0` gives. -/
def Ctx.SameTest (ctx : Ctx) (ρ : ℤ → ℤ) (insn cond start1 : Insn) (x : ℤ) (negFirst : Bool) : Prop :=
  if ctx.zeroRight insn cond start1 x negFirst then
    order cond.op (ρ x) (ρ cond.op2) = order cond.op (ρ x) 0
  else order cond.op (ρ cond.op1) (ρ x) = order cond.op 0 (ρ x)

/-- When the ABS is the PHI: the operand is its own negation, or the constant, of which only the low
half is known to be zero, stands for `0`.  When both PHI operands are negations, the ABS is the one
of the wrong operand, which shows when the type is unsigned. -/
def Ctx.AbsHolds (ctx : Ctx) (d : Diamond) (ref : ℤ) (ρ : ℤ → ℤ) : Prop :=
  let insn := ctx.insn ref
  let cond := ctx.insn d.cond
  let start1 := ctx.insn d.start1
  let negFirst := ctx.absHalf insn cond start1 insn.op2 insn.op3 true
  let x := if negFirst then insn.op3 else insn.op2
  wrap insn.type (-ρ x) = ρ x ∨
    if negFirst = true ∨ (ctx.insn insn.op2).op ≠ .neg ∨ insn.type.isSigned = true then
      ctx.SameTest ρ insn cond start1 x negFirst
    else ¬ctx.First d ρ

variable {t : IrType} {a : ℤ}

/-- The absolute value as a selection between the negation and the number: the test `c` with the
constant must go as the test `z` with `0`. -/
theorem abs_select_iff (ht : IsInt t) (ha : InRange t a) {c z first : Bool}
    (h1 : z = first → a ≤ 0) (h2 : z ≠ first → 0 ≤ a) :
    (wrap t |a| = if c = first then wrap t (-a) else a) ↔ wrap t (-a) = a ∨ c = z := by
  have habs : wrap t |a| = if z = first then wrap t (-a) else a := by
    split
    · next h => rw [abs_of_nonpos (h1 h)]
    · next h => rw [abs_of_nonneg (h2 h), wrap_eq_self ht ha]
  rw [habs]
  cases c <;> cases z <;> cases first <;> simp [eq_comm]

/-- Negating twice is the absolute value again. -/
theorem abs_wrap_neg (ht : IsInt t) (hs : t.isSigned = true) (ha : InRange t a) :
    |wrap t (-a)| = |a| := by
  have h : wrap t (-a) = -a ∨ wrap t (-a) = a := by
    obtain ⟨hint, hvoid⟩ := ht
    cases t <;> simp [IrType.isInt, IrType.isSigned] at hint hvoid hs <;>
      simp [InRange, wrap, toI, IrType.isSigned, bits, IrType.size] at ha ⊢ <;> omega
  rcases h with h | h <;> rw [h]
  exact abs_neg a

/-- The PHI as a selection between the operand of the half and the other one. -/
theorem phiValue_half {neg x : ℤ} {negFirst c : Bool} (hc : ρ d.cond = if c then 1 else 0)
    (hops : (neg, x) = if negFirst then ((ctx.insn ref).op2, (ctx.insn ref).op3)
      else ((ctx.insn ref).op3, (ctx.insn ref).op2)) :
    ctx.phiValue d ref ρ =
      if c = decide (((ctx.insn d.start1).op = .ifTrue) = negFirst) then ρ neg else ρ x := by
  rw [phiValue_eq hc]
  unfold Ctx.taken Ctx.notTaken
  cases negFirst <;> simp only [Bool.false_eq_true, if_false, if_true, Prod.mk.injEq] at hops <;>
    obtain ⟨rfl, rfl⟩ := hops <;> cases c <;>
    by_cases h : (ctx.insn d.start1).op = .ifTrue <;> simp [h]

/-- A half of the test: the PHI is the negation of `x` or `x`, as the comparison says. -/
theorem absHalf_iff (C : Checked ctx) (T : Typed ctx ref) (E : Evaluation other ctx ρ)
    (ht : IsInt (ctx.insn ref).type) {neg x : ℤ} (negFirst : Bool)
    (hcmp : isCmp (ctx.insn ref).type (ctx.insn d.cond).op = true)
    (hops : (neg, x) = if negFirst then ((ctx.insn ref).op2, (ctx.insn ref).op3)
      else ((ctx.insn ref).op3, (ctx.insn ref).op2))
    (h : ctx.absHalf (ctx.insn ref) (ctx.insn d.cond) (ctx.insn d.start1) neg x negFirst = true) :
    ρ neg = wrap (ctx.insn ref).type (-ρ x) ∧
      (wrap (ctx.insn ref).type |ρ x| = ctx.phiValue d ref ρ ↔
        wrap (ctx.insn ref).type (-ρ x) = ρ x ∨
          ctx.SameTest ρ (ctx.insn ref) (ctx.insn d.cond) (ctx.insn d.start1) x negFirst) := by
  unfold Ctx.absHalf at h
  simp only [Bool.and_eq_true, Bool.or_eq_true, decide_eq_true_eq] at h
  obtain ⟨⟨⟨hneg, -⟩, hop1⟩, hzero⟩ := h
  have htypes : (ctx.insn neg).type = (ctx.insn ref).type ∧
      (ctx.insn x).type = (ctx.insn ref).type := by
    cases negFirst <;> simp only [Bool.false_eq_true, if_false, if_true, Prod.mk.injEq] at hops <;>
      obtain ⟨rfl, rfl⟩ := hops
    · exact ⟨T.op3, T.op2⟩
    · exact ⟨T.op2, T.op3⟩
  have hrx : InRange (ctx.insn ref).type (ρ x) :=
    htypes.2 ▸ E.range x (by rw [htypes.2]; exact ht)
  have hρ : ρ neg = wrap (ctx.insn ref).type (-ρ x) := by
    have hpos : 0 < neg := C.pos_of_cls (by rw [hneg]; decide)
    rw [E.data neg hpos (by rw [hneg]; rfl), eval_neg (by rw [htypes.1]; exact ht.1) hneg, hop1,
      htypes.1]
  refine ⟨hρ, ?_⟩
  have hx : (ctx.insn d.cond).op1 = x ∨ (ctx.insn d.cond).op2 = x := by
    rcases hzero with h | h
    · simp only [Ctx.zeroRight, Bool.and_eq_true, decide_eq_true_eq] at h
      exact .inl h.1.1
    · simp only [Ctx.zeroLeft, Bool.and_eq_true, decide_eq_true_eq] at h
      exact .inr h.1.1
  have hc := cond_value C T E ht hcmp (by rcases hx with h | h <;> rw [h] <;> simp [htypes.2])
  rw [phiValue_half hc hops, hρ]
  unfold Ctx.SameTest
  by_cases hright : ctx.zeroRight (ctx.insn ref) (ctx.insn d.cond) (ctx.insn d.start1) x negFirst = true
  · rw [if_pos hright]
    simp only [Ctx.zeroRight, Bool.and_eq_true, decide_eq_true_eq] at hright
    obtain ⟨⟨hx1, -⟩, hless⟩ := hright
    rw [← hless, hx1]
    have h0 := order_le (x := ρ x) (y := 0) hcmp
    exact abs_select_iff ht hrx h0.1 h0.2
  · rw [if_neg hright]
    have hleft := hzero.resolve_left hright
    simp only [Ctx.zeroLeft, Bool.and_eq_true, decide_eq_true_eq] at hleft
    obtain ⟨⟨hx2, -⟩, hless⟩ := hleft
    rw [hx2]
    have h0 := order_le (x := 0) (y := ρ x) hcmp
    refine abs_select_iff ht hrx (fun h => h0.2 ?_) (fun h => h0.1 ?_)
    · rw [h]
      exact hless.symm
    · exact (Bool.eq_not_of_ne h).trans (Bool.eq_not_of_ne hless).symm

/-- An ABS is the PHI under the condition of `AbsHolds`. -/
theorem abs_kept_iff (C : Checked ctx) (T : Typed ctx ref) (E : Evaluation other ctx ρ)
    (ht : IsInt (ctx.insn ref).type)
    (hm : ctx.absMatch (ctx.insn ref) (ctx.insn d.cond) (ctx.insn d.start1) = true)
    (hphi : after.insn ref = (absInsn ctx (ctx.insn ref)).1) :
    after.eval other ρ ref = ctx.phiValue d ref ρ ↔ ctx.AbsHolds d ref ρ := by
  simp only [Ctx.absMatch, Bool.and_eq_true, Bool.or_eq_true] at hm
  obtain ⟨hcmp, hhalf⟩ := hm
  have heval : after.eval other ρ ref =
      wrap (ctx.insn ref).type |ρ (absInsn ctx (ctx.insn ref)).1.op1| := by
    rw [eval_abs (by rw [hphi]; exact ht.1) (by rw [hphi]; rfl), hphi]
    rfl
  unfold Ctx.AbsHolds
  dsimp only
  rw [heval]
  by_cases hfirst : ctx.absHalf (ctx.insn ref) (ctx.insn d.cond) (ctx.insn d.start1)
      (ctx.insn ref).op2 (ctx.insn ref).op3 true = true
  · obtain ⟨-, hiff⟩ := absHalf_iff C T E ht true hcmp rfl hfirst
    have hneg : (ctx.insn (ctx.insn ref).op2).op = .neg := by
      simp only [Ctx.absHalf, Bool.and_eq_true, decide_eq_true_eq] at hfirst
      exact hfirst.1.1.1
    simpa [hfirst, absInsn, hneg] using hiff
  · have hsecond := hhalf.resolve_left hfirst
    obtain ⟨hρ, hiff⟩ := absHalf_iff C T E ht false hcmp rfl hsecond
    rw [Bool.not_eq_true] at hfirst
    simp only [hfirst, Bool.false_eq_true, if_false, false_or]
    by_cases hdouble : (ctx.insn (ctx.insn ref).op2).op = .neg
    · -- the code takes the first negation, so the operand is the other one
      have hop1 : (absInsn ctx (ctx.insn ref)).1.op1 = (ctx.insn ref).op3 := by
        simp [absInsn, hdouble]
      rw [hop1]
      have hr2 : InRange (ctx.insn ref).type (ρ (ctx.insn ref).op2) :=
        T.op2 ▸ E.range _ (by rw [T.op2]; exact ht)
      by_cases hs : (ctx.insn ref).type.isSigned = true
      · rw [hρ, abs_wrap_neg ht hs hr2, if_pos (.inr hs)]
        exact hiff
      · have hr3 : InRange (ctx.insn ref).type (ρ (ctx.insn ref).op3) :=
          T.op3 ▸ E.range _ (by rw [T.op3]; exact ht)
        have h0 : 0 ≤ ρ (ctx.insn ref).op3 := by
          unfold InRange at hr3
          rw [if_neg hs] at hr3
          split at hr3 <;> exact hr3.1
        rw [if_neg (by simp [hdouble, hs]), abs_of_nonneg h0, wrap_eq_self ht hr3, ← hρ]
        unfold Ctx.phiValue
        split <;> simp [*]
    · have hop1 : (absInsn ctx (ctx.insn ref)).1.op1 = (ctx.insn ref).op2 := by
        simp [absInsn, hdouble]
      rw [hop1, if_pos (.inl hdouble)]
      exact hiff

/-! ## The PHI as a whole -/

/-- A COND is the PHI. -/
theorem cond_kept {next : ℤ} (S : Site ctx merge ref next) (h : ctx.matchDiamond merge = some d)
    (hphi : after.insn ref = condInsn d.cond (ctx.insn d.start1) (ctx.insn ref)) :
    after.eval other ρ ref = ctx.phiValue d ref ρ := by
  rw [eval_cond (by rw [hphi]; rfl), hphi]
  unfold condInsn Ctx.phiValue
  by_cases hc : ρ d.cond = 0 <;> rcases S.start1_op h with hs | hs <;>
    simp [Ctx.First, hc, hs]

/-- The zeros of `double`. -/
def doubleZero (v : Val) : Bool := v = 0 || v = 0x8000000000000000

/-- The constant that the test for ABS has compared with. -/
def Ctx.against (ctx : Ctx) (insn cond start1 : Insn) : ℤ :=
  let negFirst := ctx.absHalf insn cond start1 insn.op2 insn.op3 true
  let x := if negFirst then insn.op3 else insn.op2
  if ctx.zeroRight insn cond start1 x negFirst then cond.op2 else cond.op1

/-- The instruction that replaces an integer PHI has its value, and an ABS that replaces a PHI of
doubles has been compared with a zero. -/
def Preserved (other : IrOp → IrType → List ℤ → ℤ) (ctx : Ctx) (merge ref : ℤ) (ρ : ℤ → ℤ) : Prop :=
  ∀ d, ctx.matchDiamond merge = some d → (ctx.optimizePhi merge ref).1 = true →
    (IsInt (ctx.insn ref).type →
      (ctx.optimizePhi merge ref).2.eval other ρ ref = ctx.phiValue d ref ρ) ∧
    ((ctx.insn ref).type = .double → ((ctx.optimizePhi merge ref).2.insn ref).op = .abs →
      doubleZero (ctx.val (ctx.against (ctx.insn ref) (ctx.insn d.cond) (ctx.insn d.start1))) = true)

/-- When it is preserved: the constant of a rewritten comparison is next to the new one, not at the
other end of the type, and the constant of an ABS is a zero in all its bits. -/
def Ctx.Harmless (ctx : Ctx) (d : Diamond) (ref : ℤ) (ρ : ℤ → ℤ) : Prop :=
  let insn := ctx.insn ref
  let cond := ctx.insn d.cond
  match ctx.minMaxMatch insn cond with
  | some cond' =>
    IsInt insn.type → cond'.op2 = cond.op2 ∨ Beside cond.op (ρ cond.op2) (ρ cond'.op2) ∨
      ρ cond'.op1 = ρ cond'.op2
  | none =>
    ctx.absMatch insn cond (ctx.insn d.start1) = true →
      (IsInt insn.type → ctx.AbsHolds d ref ρ) ∧
      (insn.type = .double →
        doubleZero (ctx.val (ctx.against insn cond (ctx.insn d.start1))) = true)

/-- `ir_optimize_phi` preserves the value of the PHI exactly when the constants it looks at only in
part are what it takes them for. -/
theorem optimize_phi_preserves (C : Checked ctx) (S : Site ctx merge ref next) (T : Typed ctx ref)
    (E : Evaluation other ctx ρ) :
    Preserved other ctx merge ref ρ ↔
      ∀ d, ctx.matchDiamond merge = some d → ctx.Harmless d ref ρ := by
  unfold Preserved
  refine forall_congr' fun d => forall_congr' fun h => ?_
  have O := outcome_optimizePhi C S h
  generalize ctx.optimizePhi merge ref = r at O ⊢
  unfold Ctx.Harmless
  dsimp only
  cases O with
  | minMax cond after hm hleft =>
    have hkept := fun ht => minMax_kept_iff C T E ht hm hleft.insn_phi
    have hop : (after.insn ref).op ≠ .abs := by
      rw [hleft.insn_phi]
      unfold minMaxInsn
      dsimp only
      split_ifs <;> simp
    simp only [hm, hop, false_implies, implies_true, and_true, forall_true_left]
    exact forall_congr' hkept
  | abs after hm habs hleft =>
    have hkept := fun ht => abs_kept_iff C T E ht habs hleft.insn_phi
    have hop : (after.insn ref).op = .abs := by
      rw [hleft.insn_phi]
      rfl
    simp only [hm, habs, hop, forall_true_left]
    exact and_congr (forall_congr' hkept) Iff.rfl
  | cond after hm habs hleft =>
    have hkept : after.eval other ρ ref = ctx.phiValue d ref ρ := cond_kept S h hleft.insn_phi
    have hop : (after.insn ref).op ≠ .abs := by
      rw [hleft.insn_phi]
      simp [condInsn]
    simp [hm, habs, hop, hkept]
  | none hm habs => simp [hm, habs]

/-- `x < c ? -x : x` for a parameter of type `int64_t`. -/
def absGraph (c : Val) : Ctx where
  insn
    | 1 => ⟨.start, .void, 0, 0, 0, 0, []⟩
    | 2 => ⟨.param, .i64, 1, 1, 0, 0, []⟩
    | 3 => ⟨.lt, .bool, 2, 2, -1, 0, []⟩
    | 4 => ⟨.ifOp, .void, 2, 1, 3, 0, []⟩
    | 5 => ⟨.ifTrue, .void, 1, 4, 0, 0, []⟩
    | 6 => ⟨.endOp, .void, 1, 5, 0, 0, []⟩
    | 7 => ⟨.ifFalse, .void, 1, 4, 0, 0, []⟩
    | 8 => ⟨.endOp, .void, 1, 7, 0, 0, []⟩
    | 9 => ⟨.merge, .void, 2, 6, 8, 0, []⟩
    | 10 => ⟨.neg, .i64, 1, 2, 0, 0, []⟩
    | 11 => ⟨.phi, .i64, 3, 9, 10, 2, []⟩
    | 12 => ⟨.ret, .void, 2, 9, 11, 0, []⟩
    | -1 => ⟨.cI64, .i64, 0, 0, 0, 0, []⟩
    | _ => nopInsn
  val _ := c
  uses
    | 1 => [2, 4]
    | 2 => [3, 10, 11]
    | 3 => [4]
    | 4 => [5, 7]
    | 5 => [6]
    | 6 => [9]
    | 7 => [8]
    | 8 => [9]
    | 9 => [11, 12]
    | 10 => [11]
    | 11 => [12]
    | _ => []
  iterWorklist _ := false

/-- Its values, for the constant `c` and the parameter `x`. -/
def absValues (c x : ℤ) : ℤ → ℤ
  | -1 => c
  | 2 => x
  | 3 => if x < c then 1 else 0
  | 10 => wrap .i64 (-x)
  | _ => 0

theorem absGraph_checked (c : Val) : Checked (absGraph c) := by
  refine checked_of_checksAt (-1) 14 (fun i hi => ?_) ?_
  · rw [mem_refsFrom] at hi
    constructor
    · unfold absGraph
      dsimp only
      split <;> first | rfl | omega
    · unfold absGraph
      dsimp only
      split <;> first | rfl | omega
  · show (refsFrom (-1) 14).all ((absGraph 0).checksAt (refsFrom (-1) 14)) = true
    decide

theorem absGraph_match (c : Val) : (absGraph c).matchDiamond 9 = some ⟨6, 8, 5, 7, 4, 3⟩ :=
  rfl

theorem absGraph_site (c : Val) : Site (absGraph c) 9 11 12 where
  merge_op := rfl
  merge_inputs := rfl
  phi_op := rfl
  phi_inputs := rfl
  phi_merge := rfl
  uses_merge := .inl rfl
  next_op := rfl
  arms d h := by
    rw [absGraph_match] at h
    cases h
    exact .inl ⟨rfl, rfl⟩
  vars d h u hu := by
    rw [absGraph_match] at h
    cases h
    rcases hu with ⟨h, -⟩ | ⟨h, -⟩ <;> exact absurd rfl h

theorem absGraph_typed (c : Val) : Typed (absGraph c) 11 where
  phi := by
    show IrType.i64 ≠ .void
    simp
  op2 := rfl
  op3 := rfl
  cmp i h := by
    unfold absGraph at h ⊢
    dsimp only at h ⊢
    split at h <;> first | rfl | cases h

theorem absGraph_evaluation {c : Val} {v x : ℤ} (hv : v = valueOf .i64 c) (hx : InRange .i64 x) :
    Evaluation other (absGraph c) (absValues v x) where
  const i h _ ht := by
    have hi : i = -1 := by
      unfold absGraph at ht
      dsimp only at ht
      split at ht <;> first | omega | exact absurd rfl ht.2
    subst hi
    exact hv
  data i hi h := by
    have hcls : i = 3 ∨ i = 10 := by
      unfold absGraph at h
      dsimp only at h
      split at h <;> first | omega | cases h
    rcases hcls with rfl | rfl
    · show (if x < v then (1 : ℤ) else 0) = if decide (x < v) = true then 1 else 0
      simp
    · show wrap .i64 (-x) = spec .neg .i64 .i64 .i64 x 0
      rfl
  range i ht := by
    have hi : i = -1 ∨ i = 2 ∨ i = 3 ∨ i = 10 ∨ i = 11 := by
      unfold absGraph at ht
      dsimp only at ht
      split at ht <;> first | exact absurd rfl ht.2 | simp
    rcases hi with rfl | rfl | rfl | rfl | rfl
    · show InRange .i64 v
      rw [hv]
      exact inRange_wrap ⟨rfl, by decide⟩ (by decide) _
    · exact hx
    · show InRange .bool (if x < v then 1 else 0)
      split <;> simp [InRange]
    · show InRange .i64 (wrap .i64 (-x))
      exact inRange_wrap ⟨rfl, by decide⟩ (by decide) _
    · show InRange .i64 0
      simp [InRange, IrType.isSigned, bits, IrType.size]

/-- `x < 2 ^ 32 ? -x : x` becomes `ABS(x)`. -/
theorem wideZero_not_preserved :
    Checked (absGraph 0x100000000) ∧ Site (absGraph 0x100000000) 9 11 12 ∧
      Typed (absGraph 0x100000000) 11 ∧
      Evaluation (fun _ _ _ => 0) (absGraph 0x100000000) (absValues 0x100000000 5) ∧
      ¬Preserved (fun _ _ _ => 0) (absGraph 0x100000000) 9 11 (absValues 0x100000000 5) := by
  refine ⟨absGraph_checked _, absGraph_site _, absGraph_typed _, absGraph_evaluation ?_ ?_, ?_⟩
  · decide
  · simp [InRange, IrType.isSigned, bits, IrType.size]
  · intro h
    have hvalue := (h _ (absGraph_match _) (by decide)).1 ⟨rfl, by decide⟩
    revert hvalue
    decide

/-- `x < 0 ? -x : x`. -/
theorem abs_preserved_iff :
    Preserved (fun _ _ _ => 0) (absGraph 0) 9 11 (absValues 0 (-5)) ↔
      ∀ d, (absGraph 0).matchDiamond 9 = some d → (absGraph 0).Harmless d 11 (absValues 0 (-5)) :=
  optimize_phi_preserves (absGraph_checked _) (absGraph_site _) (absGraph_typed _)
    (absGraph_evaluation (by decide)
      (by simp [InRange, IrType.isSigned, bits, IrType.size]))

end IrJit.IfConv
