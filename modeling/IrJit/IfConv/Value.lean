import IrJit.Fold.Arith
import IrJit.IfConv.Outcome
import Mathlib.Order.MinMax

/-!
# IfConv.Value — the value of the instruction that replaces the PHI

A valuation gives every reference an integer, the values of a type as `Fold.spec` reads them.  An
instruction is evaluated from the values of its operands; what the instructions outside the
conversion compute is a parameter.
-/

namespace IrJit.IfConv

open Fold

variable {ctx : Ctx} {d : Diamond} {merge ref next : ℤ} {other : IrOp → IrType → List ℤ → ℤ}
  {ρ : ℤ → ℤ} {t : IrType} {op : IrOp} {x y z : ℤ}

/-- What an instruction computes from the values `ρ` of its operands. -/
def Ctx.eval (ctx : Ctx) (other : IrOp → IrType → List ℤ → ℤ) (ρ : ℤ → ℤ) (i : ℤ) : ℤ :=
  let insn := ctx.insn i
  let t₁ := (ctx.insn insn.op1).type
  let t₂ := (ctx.insn insn.op2).type
  let rest := other insn.op insn.type (insn.dataOps.map ρ)
  match insn.op with
  | .eq | .ne | .lt | .ge | .le | .gt | .ult | .uge | .ule | .ugt =>
    if t₁.isInt then spec insn.op .bool t₁ t₂ (ρ insn.op1) (ρ insn.op2) else rest
  | .min | .max =>
    if insn.type.isInt then spec insn.op insn.type insn.type insn.type (ρ insn.op1) (ρ insn.op2)
    else rest
  | .neg | .abs =>
    if insn.type.isInt then spec insn.op insn.type insn.type insn.type (ρ insn.op1) 0 else rest
  | .cond => if ρ insn.op1 ≠ 0 then ρ insn.op2 else ρ insn.op3
  | _ => rest

/-- `ρ` is an evaluation of the graph. -/
structure Evaluation (other : IrOp → IrType → List ℤ → ℤ) (ctx : Ctx) (ρ : ℤ → ℤ) : Prop where
  const : ∀ c, c < 0 → (ctx.insn c).op.isSymConst = false → IsInt (ctx.insn c).type →
    ρ c = valueOf (ctx.insn c).type (ctx.val c)
  data : ∀ i, 0 < i → (ctx.insn i).op.cls = .data → ρ i = ctx.eval other ρ i
  range : ∀ i, IsInt (ctx.insn i).type → InRange (ctx.insn i).type (ρ i)

/-- The operands of the PHI have its type, and those of a comparison one type. -/
structure Typed (ctx : Ctx) (ref : ℤ) : Prop where
  phi : (ctx.insn ref).type ≠ .void
  op2 : (ctx.insn (ctx.insn ref).op2).type = (ctx.insn ref).type
  op3 : (ctx.insn (ctx.insn ref).op3).type = (ctx.insn ref).type
  cmp : ∀ i, isOrder (ctx.insn i).op = true →
    (ctx.insn (ctx.insn i).op2).type = (ctx.insn (ctx.insn i).op1).type

/-- The control flow comes in through the first input of the merge. -/
def Ctx.First (ctx : Ctx) (d : Diamond) (ρ : ℤ → ℤ) : Prop :=
  ρ d.cond ≠ 0 ↔ (ctx.insn d.start1).op = .ifTrue

instance (ctx : Ctx) (d : Diamond) (ρ : ℤ → ℤ) : Decidable (ctx.First d ρ) :=
  inferInstanceAs (Decidable (_ ↔ _))

/-- The value of the PHI. -/
def Ctx.phiValue (ctx : Ctx) (d : Diamond) (ref : ℤ) (ρ : ℤ → ℤ) : ℤ :=
  if ctx.First d ρ then ρ (ctx.insn ref).op2 else ρ (ctx.insn ref).op3

section

variable {i : ℤ} (ht : (ctx.insn i).type.isInt = true)
include ht

theorem eval_min (hop : (ctx.insn i).op = .min) :
    ctx.eval other ρ i = min (ρ (ctx.insn i).op1) (ρ (ctx.insn i).op2) := by
  unfold Ctx.eval
  simp only [hop, ht, if_true]
  rfl

theorem eval_max (hop : (ctx.insn i).op = .max) :
    ctx.eval other ρ i = max (ρ (ctx.insn i).op1) (ρ (ctx.insn i).op2) := by
  unfold Ctx.eval
  simp only [hop, ht, if_true]
  rfl

theorem eval_neg (hop : (ctx.insn i).op = .neg) :
    ctx.eval other ρ i = wrap (ctx.insn i).type (-ρ (ctx.insn i).op1) := by
  unfold Ctx.eval
  simp only [hop, ht, if_true]
  rfl

theorem eval_abs (hop : (ctx.insn i).op = .abs) :
    ctx.eval other ρ i = wrap (ctx.insn i).type |ρ (ctx.insn i).op1| := by
  unfold Ctx.eval
  simp only [hop, ht, if_true]
  rfl

omit ht in
theorem eval_cond (hop : (ctx.insn i).op = .cond) :
    ctx.eval other ρ i =
      if ρ (ctx.insn i).op1 ≠ 0 then ρ (ctx.insn i).op2 else ρ (ctx.insn i).op3 := by
  unfold Ctx.eval
  simp only [hop]

end

/-! ## Comparisons -/

/-- The order a comparison tests. -/
def order (op : IrOp) (x y : ℤ) : Bool :=
  match op with
  | .lt | .ult => x < y
  | .le | .ule => x ≤ y
  | .gt | .ugt => x > y
  | .ge | .uge => x ≥ y
  | _ => false

theorem toU_self (ht : IsInt t) (hs : t.isSigned = false) (hx : InRange t x) : toU (bits t) x = x := by
  have h := wrap_eq_self ht hx
  rwa [wrap, hs] at h

theorem spec_order (ht : IsInt t) (h : isCmp t op = true) (hx : InRange t x) (hy : InRange t y) :
    spec op .bool t t x y = if order op x y then 1 else 0 := by
  have hint := ht.1
  unfold isCmp at h
  rw [if_neg (by simp [hint])] at h
  by_cases hs : t.isSigned = true
  · rw [if_pos hs] at h
    simp only [Bool.or_eq_true, decide_eq_true_eq] at h
    rcases h with ((rfl | rfl) | rfl) | rfl <;> simp [spec, order]
  · rw [if_neg hs] at h
    simp only [Bool.or_eq_true, decide_eq_true_eq] at h
    have hx' := toU_self ht (by simpa using hs) hx
    have hy' := toU_self ht (by simpa using hs) hy
    rcases h with ((rfl | rfl) | rfl) | rfl <;> simp [spec, order, hx', hy']

/-- The smaller operand is the left one, when the comparison holds. -/
theorem order_le (h : isCmp t op = true) :
    (order op x y = isLess t op → x ≤ y) ∧ (order op x y ≠ isLess t op → y ≤ x) := by
  unfold isCmp at h
  unfold isLess
  cases op <;> simp at h <;> cases t <;> simp [IrType.isInt, IrType.isSigned] at h ⊢ <;>
    simp [order] <;> omega

/-- A selection by a comparison is a minimum or a maximum. -/
theorem select_eq {c less : Bool} (h : (c = less → x ≤ y) ∧ (c ≠ less → y ≤ x)) :
    (if c then x else y) = (if less then min x y else max x y) ∧
      (if c then y else x) = if less then max x y else min x y := by
  obtain ⟨h1, h2⟩ := h
  cases c <;> cases less
  · simp [h1 rfl]
  · simp [h2 (by simp)]
  · simp [h2 (by simp)]
  · simp [h1 rfl]

/-! ## The constant of a comparison -/

/-- The constant below another one, or the largest number below the smallest. -/
theorem valueOf_pred (ht : IsInt t) (v : Val) (h0 : InRange t (valueOf t v))
    (h1 : InRange t (valueOf t (v - 1))) :
    valueOf t (v - 1) = valueOf t v - 1 ∨ (valueOf t v < valueOf t (v - 1) ∧
      ∀ x, InRange t x → valueOf t v ≤ x ∧ x ≤ valueOf t (v - 1)) := by
  have hv := v.isLt
  obtain ⟨hint, hvoid⟩ := ht
  by_cases heq : valueOf t (v - 1) = valueOf t v - 1
  · exact .inl heq
  refine .inr ⟨?_, fun x hx => ?_⟩ <;>
    rw [valueOf, valueOf, BitVec.toNat_sub] at * <;>
    cases t <;> simp [IrType.isInt] at hint hvoid <;>
    simp [InRange, wrap, toU, toI, IrType.isSigned, bits, IrType.size] at * <;> omega

/-- Where the constant `z` of the comparison stands to the constant `y` it is replaced by. -/
def Beside (op : IrOp) (z y : ℤ) : Prop :=
  match op with
  | .le | .ule => z < y
  | .ge | .uge => y < z
  | _ => True

/-- The value of the condition, when it compares integers. -/
theorem eval_order {i : ℤ} (hop : isOrder (ctx.insn i).op = true) (ht : IsInt t)
    (h1 : (ctx.insn (ctx.insn i).op1).type = t) (h2 : (ctx.insn (ctx.insn i).op2).type = t) :
    ctx.eval other ρ i = spec (ctx.insn i).op .bool t t (ρ (ctx.insn i).op1)
      (ρ (ctx.insn i).op2) := by
  unfold Ctx.eval
  dsimp only
  rw [h1, h2]
  simp only [isOrder, Bool.or_eq_true, decide_eq_true_eq] at hop
  rcases hop with ((((((hop | hop) | hop) | hop) | hop) | hop) | hop) | hop <;>
    simp only [hop, ht.1, if_true]

/-- The condition of the diamond as a test of two values. -/
theorem cond_value (C : Checked ctx) (T : Typed ctx ref) (E : Evaluation other ctx ρ)
    (ht : IsInt t) (hcmp : isCmp t (ctx.insn d.cond).op = true)
    (h1 : (ctx.insn (ctx.insn d.cond).op1).type = t ∨ (ctx.insn (ctx.insn d.cond).op2).type = t) :
    ρ d.cond = if order (ctx.insn d.cond).op (ρ (ctx.insn d.cond).op1) (ρ (ctx.insn d.cond).op2)
      then 1 else 0 := by
  have horder := isOrder_of_isCmp hcmp
  obtain ⟨hcls, hedges, -⟩ := cls_of_isOrder horder
  have hty := T.cmp d.cond horder
  have hty1 : (ctx.insn (ctx.insn d.cond).op1).type = t := by
    rcases h1 with h1 | h1
    · exact h1
    · rw [← hty, h1]
  have hty2 := hty.trans hty1
  have hpos : 0 < d.cond := C.pos_of_cls (by rw [hedges]; decide)
  have hr1 : InRange t (ρ (ctx.insn d.cond).op1) := hty1 ▸ E.range _ (by rw [hty1]; exact ht)
  have hr2 : InRange t (ρ (ctx.insn d.cond).op2) := hty2 ▸ E.range _ (by rw [hty2]; exact ht)
  rw [E.data _ hpos hcls, eval_order horder ht hty1 hty2, spec_order ht hcmp hr1 hr2]

/-- The PHI operand of the arm that is taken when the condition holds, and the other one. -/
def Ctx.taken (ctx : Ctx) (d : Diamond) (ref : ℤ) : ℤ :=
  if (ctx.insn d.start1).op = .ifTrue then (ctx.insn ref).op2 else (ctx.insn ref).op3

def Ctx.notTaken (ctx : Ctx) (d : Diamond) (ref : ℤ) : ℤ :=
  if (ctx.insn d.start1).op = .ifTrue then (ctx.insn ref).op3 else (ctx.insn ref).op2

theorem phiValue_eq {c : Bool} (hc : ρ d.cond = if c then 1 else 0) :
    ctx.phiValue d ref ρ = if c then ρ (ctx.taken d ref) else ρ (ctx.notTaken d ref) := by
  have hfirst : ctx.First d ρ ↔ (c = true ↔ (ctx.insn d.start1).op = .ifTrue) := by
    rw [Ctx.First, hc]
    cases c <;> simp
  unfold Ctx.phiValue Ctx.taken Ctx.notTaken
  simp only [hfirst]
  cases c <;> by_cases h : (ctx.insn d.start1).op = .ifTrue <;> simp [h]

/-! ## MIN and MAX -/

/-- The value of the MIN or MAX. -/
theorem minMax_value {cond : Insn} {after : Ctx} (ht : (ctx.insn ref).type.isInt = true)
    (hphi : after.insn ref = minMaxInsn cond (ctx.insn d.start1) (ctx.insn ref)) :
    after.eval other ρ ref =
      if (if isLess (ctx.insn ref).type cond.op then cond.op1 else cond.op2) = ctx.taken d ref then
        min (ρ (ctx.taken d ref)) (ρ (ctx.notTaken d ref))
      else max (ρ (ctx.taken d ref)) (ρ (ctx.notTaken d ref)) := by
  have hmin : min (ρ (after.insn ref).op1) (ρ (after.insn ref).op2) =
      min (ρ (ctx.taken d ref)) (ρ (ctx.notTaken d ref)) := by
    rw [hphi]
    unfold minMaxInsn Ctx.taken Ctx.notTaken
    dsimp only
    split <;> split <;> simp [min_comm]
  have hmax : max (ρ (after.insn ref).op1) (ρ (after.insn ref).op2) =
      max (ρ (ctx.taken d ref)) (ρ (ctx.notTaken d ref)) := by
    rw [hphi]
    unfold minMaxInsn Ctx.taken Ctx.notTaken
    dsimp only
    split <;> split <;> simp [max_comm]
  have htype : (after.insn ref).type.isInt = true := by rw [hphi]; exact ht
  have hop : (after.insn ref).op = if (if isLess (ctx.insn ref).type cond.op then cond.op1
      else cond.op2) = ctx.taken d ref then .min else .max := by rw [hphi]; rfl
  by_cases hleft : (if isLess (ctx.insn ref).type cond.op then cond.op1 else cond.op2) =
      ctx.taken d ref
  · rw [if_pos hleft] at hop ⊢
    rw [eval_min htype hop, hmin]
  · rw [if_neg hleft] at hop ⊢
    rw [eval_max htype hop, hmax]

/-- The comparison with the old constant selects as one with the new constant, unless the old one
is at the other end of the type. -/
theorem fixed_cases {insn cond cond' : Insn} (F : Fixed ctx insn cond cond')
    (E : Evaluation other ctx ρ) (ht : IsInt t) (hty : (ctx.insn cond'.op2).type = t)
    (hcmp : isCmp t cond.op = true) (hx : InRange t x) :
    (Beside cond.op (ρ cond.op2) (ρ cond'.op2) ∧
      (order cond.op x (ρ cond.op2) = isLess t cond.op → x ≤ ρ cond'.op2) ∧
      (order cond.op x (ρ cond.op2) ≠ isLess t cond.op → ρ cond'.op2 ≤ x)) ∨
    (¬Beside cond.op (ρ cond.op2) (ρ cond'.op2) ∧ order cond.op x (ρ cond.op2) = true ∧
      if isLess t cond.op then ρ cond'.op2 ≤ x else x ≤ ρ cond'.op2) := by
  have hty0 : (ctx.insn cond.op2).type = t := F.type.trans hty
  have hc : ρ cond.op2 = valueOf t (ctx.val cond.op2) := by
    have h := E.const _ F.const.1 F.const.2 (by rw [hty0]; exact ht)
    rwa [hty0] at h
  have hc' : ρ cond'.op2 = valueOf t (ctx.val cond'.op2) := by
    have h := E.const _ F.const'.1 F.const'.2 (by rw [hty]; exact ht)
    rwa [hty] at h
  have hr : InRange t (ρ cond.op2) := hty0 ▸ E.range _ (by rw [hty0]; exact ht)
  have hr' : InRange t (ρ cond'.op2) := hty ▸ E.range _ (by rw [hty]; exact ht)
  rcases F.val with ⟨hop, hval⟩ | ⟨hop, hval⟩
  · -- `x <= c` and `c' = c + 1`
    rw [hval] at hc
    have hpred := valueOf_pred ht (ctx.val cond'.op2) (hc' ▸ hr') (hc ▸ hr)
    rw [← hc, ← hc'] at hpred
    have hless : isLess t cond.op = true := by
      unfold isCmp at hcmp
      unfold isLess
      rcases hop with hop | hop <;> rw [hop] at hcmp ⊢ <;> cases t <;>
        simp [IrType.isInt, IrType.isSigned] at hcmp ⊢
    rw [hless]
    rcases hpred with hpred | ⟨hlt, hpred⟩
    · left
      rcases hop with hop | hop <;> rw [hop] <;> simp [Beside, order] <;> omega
    · right
      have hx' := hpred x hx
      rcases hop with hop | hop <;> rw [hop] <;> simp [Beside, order] <;> omega
  · -- `x >= c` and `c' = c - 1`
    have hval' : ctx.val cond'.op2 = ctx.val cond.op2 - 1 := by rw [hval]; simp
    rw [hval'] at hc'
    have hpred := valueOf_pred ht (ctx.val cond.op2) (hc ▸ hr) (hc' ▸ hr')
    rw [← hc, ← hc'] at hpred
    have hless : isLess t cond.op = false := by
      unfold isCmp at hcmp
      unfold isLess
      rcases hop with hop | hop <;> rw [hop] at hcmp ⊢ <;> cases t <;>
        simp [IrType.isInt, IrType.isSigned] at hcmp ⊢
    rw [hless]
    rcases hpred with hpred | ⟨hlt, hpred⟩
    · left
      rcases hop with hop | hop <;> rw [hop] <;> simp [Beside, order] <;> omega
    · right
      have hx' := hpred x hx
      rcases hop with hop | hop <;> rw [hop] <;> simp [Beside, order] <;> omega

/-- The choice between MIN and MAX in terms of the operands `l` and `r` of the comparison. -/
theorem chosen_value {T N l r : ℤ} (h : (T = l ∧ N = r) ∨ (T = r ∧ N = l)) (less : Bool) :
    (if (if less then l else r) = T then min (ρ T) (ρ N) else max (ρ T) (ρ N)) =
      if T = l then (if less then min (ρ l) (ρ r) else max (ρ l) (ρ r))
      else if less then max (ρ l) (ρ r) else min (ρ l) (ρ r) := by
  rcases h with ⟨rfl, rfl⟩ | ⟨rfl, rfl⟩
  · cases less <;> simp
    rintro rfl
    simp
  · by_cases hlr : T = N
    · subst hlr
      cases less <;> simp
    · cases less <;> simp [hlr, min_comm, max_comm]
      exact fun h => absurd h.symm hlr

theorem selected_value {T N l r : ℤ} (h : (T = l ∧ N = r) ∨ (T = r ∧ N = l)) (c : Bool) :
    (if c then ρ T else ρ N) =
      if T = l then (if c then ρ l else ρ r) else if c then ρ r else ρ l := by
  rcases h with ⟨rfl, rfl⟩ | ⟨rfl, rfl⟩
  · simp
  · by_cases hlr : T = N
    · subst hlr
      simp
    · simp [hlr]

end IrJit.IfConv
