import IrJit.Fold.Terminates

/-!
# Fold.Frame — what a call of `ir_folding` does to a context with use lists (`ir_sccp.c`, 291–336
and 1449–1538)

The callers give the instructions of the operands; those of SCCP are constants where the lattice has
one.  A restart goes back to the caller, so that every call asks one question.  The engine may add
constants; only the rule of `SUB(ADD, ADD)` may add an instruction, a `BITCAST`.
-/

namespace IrJit.Fold

variable {F : FloatOps} {c c' : Ctx} {q q' : Question} {o1 o2 : IrOp} {a b : Insn}

/-! ## Calls with use lists -/

/-- One round of the loop over the masks, for operands given by the caller. -/
def attemptWith (F : FloatOps) (c : Ctx) (q : Question) (o1 o2 : IrOp) (a b : Insn) : Reply :=
  match findRule q.op o1 o2 with
  | some r => r.body F c q a b
  | none => .next

/-- `ir_folding` up to a restart. -/
def ask (F : FloatOps) (c : Ctx) (q : Question) (a b : Insn) : Reply :=
  (attemptWith F c q a.op b.op a b).orElse <| (attemptWith F c q .nop b.op a b).orElse <|
    (attemptWith F c q a.op .nop a b).orElse <| attemptWith F c q .nop .nop a b

theorem dispatch_eq_ask : dispatch F c q = ask F c q (c.insn q.op1) (c.insn q.op2) := rfl

/-- The context after a call. -/
def Reply.ctx (c : Ctx) : Reply → Ctx
  | .restart c' _ => c'
  | _ => c

/-- What the callers give for an operand: its instruction, or a constant of the lattice. -/
def Operand (c : Ctx) (r : ℤ) (i : Insn) : Prop := i = c.insn r ∨ isConstant i.op = true

/-! ## Contexts with more constants -/

/-- The instructions and the use lists stay, the table of constants may grow. -/
structure Kept (c c' : Ctx) : Prop where
  insns : c'.insns = c.insns
  consts : c.consts <+: c'.consts
  useLists : c'.useLists = c.useLists

theorem Kept.refl (c : Ctx) : Kept c c := ⟨rfl, List.prefix_rfl, rfl⟩

theorem Kept.trans {c₁ c₂ : Ctx} (h : Kept c c₁) (k : Kept c₁ c₂) : Kept c c₂ where
  insns := k.insns.trans h.insns
  consts := h.consts.trans k.consts
  useLists := k.useLists.trans h.useLists

theorem kept_const (c : Ctx) (v : Val) (t : IrType) : Kept c (c.const v t).1 := by
  obtain ⟨hi, hu⟩ := const_insns c v t
  refine ⟨hi, ?_, hu⟩
  rcases const_cases c v t with ⟨-, h | h⟩ | ⟨-, h⟩ | ⟨k, -, -, h⟩ | ⟨-, h⟩
  · rw [h]
  · rw [h]
  · rw [h]
  · rw [h]
  · rw [h]
    exact List.prefix_append _ _

theorem Kept.insn (h : Kept c c') {r : ℤ} (hr : c.valid r) : c'.insn r = c.insn r := by
  by_cases h0 : r < 0
  · have hlt : (-r - 1).toNat < c.consts.length := by
      have := hr.1
      omega
    obtain ⟨l, hl⟩ := h.consts
    rw [insn_of_neg h0, insn_of_neg h0, ← hl, List.getD_append _ _ _ _ hlt]
  · rw [insn_of_nonneg (by omega), insn_of_nonneg (by omega), h.insns]

/-- Nothing that exists is changed. -/
structure Grown (c c' : Ctx) : Prop where
  insns : c.insns <+: c'.insns
  consts : c.consts <+: c'.consts
  useLists : c'.useLists = c.useLists

theorem Kept.grown (h : Kept c c') : Grown c c' := ⟨by rw [h.insns], h.consts, h.useLists⟩

theorem Grown.trans {c₁ c₂ : Ctx} (h : Grown c c₁) (k : Grown c₁ c₂) : Grown c c₂ where
  insns := h.insns.trans k.insns
  consts := h.consts.trans k.consts
  useLists := k.useLists.trans h.useLists

/-! ## Answers without an instruction -/

/-- The answer leaves the instructions as they are. -/
def Reply.Keeps (c : Ctx) (r : Reply) : Prop := ∀ c' q', r = .restart c' q' → Kept c c'

namespace Reply

theorem Keeps.ctx {r : Reply} (h : r.Keeps c) : Kept c (r.ctx c) := by
  cases r with
  | restart c' q' => exact h c' q' rfl
  | _ => exact Kept.refl c

@[simp] theorem keeps_const (v : Val) : (const v).Keeps c := fun _ _ h => by cases h
@[simp] theorem keeps_copy (r : ℤ) : (copy r).Keeps c := fun _ _ h => by cases h
@[simp] theorem keeps_bool (b : Bool) : (bool b).Keeps c := fun _ _ h => by cases h
@[simp] theorem keeps_emit (n : ℕ) : (emit n).Keeps c := fun _ _ h => by cases h
@[simp] theorem keeps_next : next.Keeps c := fun _ _ h => by cases h

@[simp] theorem keeps_restart (q : Question) : (restart c q).Keeps c := by
  intro c' q' h
  cases h
  exact Kept.refl c

@[simp] theorem keeps_again (q : Question) (r s : ℤ) : (again c q r s).Keeps c := keeps_restart _

@[simp] theorem keeps_unary (q : Question) (op : IrOp) (t : IrType) (r : ℤ) :
    (unary c q op t r).Keeps c := keeps_restart _

@[simp] theorem keeps_withConst (q : Question) (op : IrOp) (r : ℤ) (v : Val) (t : IrType) :
    (withConst c q op r v t).Keeps c := by
  intro c' q' h
  rw [(withConst_eq h).1]
  exact kept_const c v t

@[simp] theorem keeps_constWith (q : Question) (op : IrOp) (v : Val) (t : IrType) (r : ℤ) :
    (constWith c q op v t r).Keeps c := by
  intro c' q' h
  rw [(constWith_eq h).1]
  exact kept_const c v t

@[simp] theorem keeps_ite {p : Prop} [Decidable p] {r s : Reply} :
    (if p then r else s).Keeps c ↔ (p → r.Keeps c) ∧ (¬p → s.Keeps c) := by
  by_cases hp : p
  · simp [hp]
  · simp [hp]

theorem Keeps.orElse {r s : Reply} (hr : r.Keeps c) (hs : s.Keeps c) : (r.orElse s).Keeps c := by
  intro c' q' h
  rcases orElse_eq_restart h with h | ⟨-, h⟩
  · exact hr c' q' h
  · exact hs c' q' h

end Reply

@[simp] theorem keeps_swapOps (c : Ctx) (q : Question) : (swapOps c q).Keeps c := by
  simp [swapOps]

@[simp] theorem keeps_swapOrder (c : Ctx) (q : Question) : (swapOrder c q).Keeps c := by
  simp [swapOrder]

@[simp] theorem keeps_castOr (c : Ctx) (q : Question) (r : ℤ) : (castOr c q r).Keeps c := by
  simp [castOr]

@[simp] theorem keeps_outOfRange (c : Ctx) (op : IrOp) (v : Val) : (outOfRange op v).Keeps c := by
  cases op <;> simp [outOfRange]

@[simp] theorem keeps_constSubAdd (c : Ctx) (q : Question) (a b : Insn) :
    (constSubAdd c q a b).Keeps c := by
  simp [constSubAdd]

@[simp] theorem keeps_xorBody (w : ℕ) (c : Ctx) (q : Question) (b : Insn) :
    (xorBody w c q b).Keeps c := by
  simp [xorBody]

theorem keeps_condBool (c : Ctx) (q : Question) (b : Insn) : (condBool c q b).Keeps c := by
  simp [condBool]

theorem keeps_condInt (c : Ctx) (q : Question) (a : Insn) : (condInt c q a).Keeps c := by
  simp [condInt]

theorem keeps_condCompare (c : Ctx) (q : Question) (a : Insn) : (condCompare c q a).Keeps c := by
  simp [condCompare]

theorem keeps_condAny (F : FloatOps) (c : Ctx) (q : Question) (a b : Insn) :
    (condAny.body F c q a b).Keeps c := by
  simp only [condAny, Reply.keeps_ite, Reply.keeps_copy, implies_true, true_and]
  intro _
  apply Reply.Keeps.orElse
  · simp [keeps_condBool, keeps_condInt]
  · exact keeps_condCompare c q a

/-- The rule of `SUB(ADD, ADD)` is the only one that may emit an instruction. -/
theorem keeps_of_mem : ∀ r ∈ restarting, r = subAddAdd ∨
    ∀ (F : FloatOps) (c : Ctx) (q : Question) (a b : Insn), (r.body F c q a b).Keeps c := by
  simp only [restarting, List.forall_mem_cons, List.not_mem_nil, false_imp_iff, implies_true,
    and_true, true_or, true_and]
  and_intros
  all_goals first
    | exact Or.inr keeps_condAny
    | refine Or.inr fun F c q a b => ?_
  all_goals simp [orderedConst, unorderedConst, absNeg, eqBool, neBool, cmpBitcast, cmpExt,
    cmpExtExt, orderZextZext, notCmp, eqSub, addZero, zeroAdd, zeroSub, ugtZero, uleZero, addNeg,
    addSubNeg, subThenAdd, addOfSub, addThenSub, subOfAdd, subThenSub, subOfSub, mulDivNegConst,
    mulDivNegFloat, mulDivNegDouble, mulI, mulDouble, mulFloat, divU, divI, modConst, divDouble,
    divFloat, mulDivNegNeg, xorBool, xor8, xor16, xor32, xor64, shlConst, truncExt, convertBitcast,
    bitcastTwice, convertTwice, sextZext, sextAnd, sextShr, truncAnd, andSext, shlAnd8, shlAnd16,
    shlAnd32, shlAnd64, shrAnd8, shrAnd16, shrAnd32, shrAnd64, cmpFp2fp, addAddConst, addSubU,
    addSubI, subAddU, subAddI, subConstAdd, subSubConst, subConstSub, mulMulConst, andAndConst,
    orOrConst, xorXorConst, rotate, swapAny, swapOv, addAny, idempotent, xorAny, eqAny, orderAny,
    unsignedOrderAny, shlAndBody, shrAndBody]

/-! ## The rule that emits -/

/-- `_ir_fold_cast` emits a `BITCAST`. -/
def castEmits (c : Ctx) (r : ℤ) (t : IrType) : Prop :=
  (c.insn r).type ≠ t ∧ ¬(r < 0 ∧ ¬(c.insn r).op.isSymConst)

instance (c : Ctx) (r : ℤ) (t : IrType) : Decidable (castEmits c r t) :=
  inferInstanceAs (Decidable (_ ∧ _))

/-- The operands of two sums that are left when a common one is dropped. -/
def uncommon (a b : Insn) : Option (ℤ × ℤ) :=
  if a.op1 = b.op1 then some (a.op2, b.op2)
  else if a.op1 = b.op2 then some (a.op2, b.op1)
  else if a.op2 = b.op1 then some (a.op1, b.op2)
  else if a.op2 = b.op2 then some (a.op1, b.op1)
  else none

/-- An integer difference of two sums with a common operand, and the operands that are left. -/
structure Meets (q : Question) (a b : Insn) (p : ℤ × ℤ) : Prop where
  sub : q.op = .sub
  left : a.op = .add
  right : b.op = .add
  int : q.type.isInt = true
  ne : q.op1 ≠ q.op2
  rest : uncommon a b = some p

/-- One of the operands left has another type than the difference, and is no number. -/
def Emits (c : Ctx) (q : Question) (a b : Insn) : Prop :=
  ∃ p, Meets q a b p ∧ (castEmits c p.1 q.type ∨ castEmits c p.2 q.type)

theorem kept_cast {r : ℤ} {t : IrType} (h : ¬castEmits c r t) : Kept c (c.cast r t).1 := by
  unfold castEmits at h
  unfold Ctx.cast
  split_ifs with ht hr
  · exact Kept.refl c
  · exact kept_const c _ t
  · exact absurd ⟨ht, hr⟩ h

theorem cast_insns_of_emits {r : ℤ} {t : IrType} (h : castEmits c r t) :
    (c.cast r t).1.insns = c.insns ++ [{ op := .bitcast, type := t, op1 := r }] := by
  unfold Ctx.cast
  rw [if_neg h.1, if_neg h.2]
  rfl

theorem grown_cast (c : Ctx) (r : ℤ) (t : IrType) : Grown c (c.cast r t).1 := by
  by_cases h : castEmits c r t
  · unfold Ctx.cast
    rw [if_neg h.1, if_neg h.2]
    exact ⟨List.prefix_append _ _, List.prefix_rfl, rfl⟩
  · exact (kept_cast h).grown

theorem Kept.castEmits_iff (h : Kept c c') {r : ℤ} (hr : c.valid r) (t : IrType) :
    castEmits c' r t ↔ castEmits c r t := by
  unfold castEmits
  rw [h.insn hr]

theorem castBoth_ctx (c : Ctx) (q : Question) (r s : ℤ) :
    (castBoth c q r s).ctx c = ((c.cast r q.type).1.cast s q.type).1 := rfl

/-- Two casts keep the instructions if and only if neither emits. -/
theorem kept_castBoth_iff (q : Question) {r s : ℤ} (hs : c.valid s) :
    Kept c ((castBoth c q r s).ctx c) ↔ ¬(castEmits c r q.type ∨ castEmits c s q.type) := by
  rw [castBoth_ctx, not_or]
  constructor
  · intro h
    have hr : ¬castEmits c r q.type := by
      intro he
      have hle := (grown_cast (c.cast r q.type).1 s q.type).insns.length_le
      rw [h.insns, cast_insns_of_emits he, List.length_append] at hle
      exact absurd hle (by simp)
    refine ⟨hr, fun he => ?_⟩
    have he' := ((kept_cast hr).castEmits_iff hs q.type).2 he
    have hlen := congrArg List.length h.insns
    rw [cast_insns_of_emits he', (kept_cast hr).insns, List.length_append] at hlen
    exact absurd hlen (by simp)
  · rintro ⟨hr, he⟩
    have he' : ¬castEmits (c.cast r q.type).1 s q.type := by
      rwa [(kept_cast hr).castEmits_iff hs]
    exact (kept_cast hr).trans (kept_cast he')

theorem subAddAdd_body (F : FloatOps) (c : Ctx) (q : Question) (a b : Insn) :
    subAddAdd.body F c q a b =
      if q.type.isInt = true then
        if q.op1 = q.op2 then .const 0
        else match uncommon a b with
          | some p => castBoth c q p.1 p.2
          | none => .next
      else .next := by
  simp only [subAddAdd, uncommon]
  split_ifs <;> rfl

/-! ## Keys -/

theorem keeps_attemptWith (F : FloatOps) (c : Ctx) (q : Question) (a b : Insn)
    (h : ¬(q.op = .sub ∧ o1 = .add ∧ o2 = .add)) : (attemptWith F c q o1 o2 a b).Keeps c := by
  unfold attemptWith
  cases hr : findRule q.op o1 o2 with
  | none => exact Reply.keeps_next
  | some r =>
    have hp : r.pattern q.op o1 o2 = true :=
      List.find?_some (p := fun r : Rule => r.pattern q.op o1 o2) hr
    rcases List.mem_append.1 (List.mem_of_find?_eq_some hr) with hm | hm
    · exact fun c' q' hb => absurd hb (quiet_of_mem r hm F c q a b c' q')
    · rcases keeps_of_mem r hm with rfl | hk
      · simp only [subAddAdd, Bool.and_eq_true, decide_eq_true_eq, and_assoc] at hp
        exact absurd hp h
      · exact hk F c q a b

theorem attemptWith_subAddAdd (F : FloatOps) (c : Ctx) (a b : Insn) (hq : q.op = .sub) :
    attemptWith F c q .add .add a b = subAddAdd.body F c q a b := by
  have hr : findRule .sub .add .add = some subAddAdd := rfl
  unfold attemptWith
  rw [hq, hr]

/-- The keys with a missing component. -/
theorem keeps_later (F : FloatOps) (c : Ctx) (q : Question) (a b : Insn) :
    ((attemptWith F c q .nop b.op a b).orElse <| (attemptWith F c q a.op .nop a b).orElse <|
      attemptWith F c q .nop .nop a b).Keeps c := by
  apply Reply.Keeps.orElse
  · exact keeps_attemptWith F c q a b (by simp)
  apply Reply.Keeps.orElse
  · exact keeps_attemptWith F c q a b (by simp)
  · exact keeps_attemptWith F c q a b (by simp)

theorem valid_uncommon {p : ℤ × ℤ} (h : uncommon a b = some p)
    (hb : c.valid b.op1 ∧ c.valid b.op2) : c.valid p.2 := by
  unfold uncommon at h
  split_ifs at h <;> cases h
  · exact hb.2
  · exact hb.1
  · exact hb.2
  · exact hb.1

/-- A sum that a caller gives is an instruction of the context. -/
theorem valid_of_operand (hw : c.WellFormed) {r : ℤ} (h : Operand c r b) (hop : b.op = .add) :
    c.valid b.op1 ∧ c.valid b.op2 := by
  rcases h with rfl | h
  · obtain ⟨W, hW⟩ := exists_weighed hw
    obtain ⟨h1, h2, -⟩ := deep2 hW hop rfl (by decide)
    exact ⟨h1, h2⟩
  · rw [hop] at h
    cases h

/-- A call casts the operands left of two sums, or emits nothing. -/
theorem ask_cases (F : FloatOps) (c : Ctx) (q : Question) (a b : Insn) :
    (∃ p, Meets q a b p ∧ ask F c q a b = castBoth c q p.1 p.2) ∨
      ((∀ p, ¬Meets q a b p) ∧ (ask F c q a b).Keeps c) := by
  have hlater := keeps_later F c q a b
  by_cases hkey : q.op = .sub ∧ a.op = .add ∧ b.op = .add
  · obtain ⟨hq, ha, hb⟩ := hkey
    have hask : ask F c q a b = (subAddAdd.body F c q a b).orElse
        ((attemptWith F c q .nop b.op a b).orElse <| (attemptWith F c q a.op .nop a b).orElse <|
          attemptWith F c q .nop .nop a b) := by
      unfold ask
      rw [ha, hb, attemptWith_subAddAdd F c a b hq]
    rw [hask, subAddAdd_body]
    by_cases hint : q.type.isInt = true
    · rw [if_pos hint]
      by_cases heq : q.op1 = q.op2
      · rw [if_pos heq]
        exact Or.inr ⟨fun p h => h.ne heq, Reply.keeps_const 0⟩
      rw [if_neg heq]
      cases hu : uncommon a b with
      | none =>
        refine Or.inr ⟨fun p h => ?_, hlater⟩
        have hrest := h.rest
        rw [hu] at hrest
        cases hrest
      | some p => exact Or.inl ⟨p, ⟨hq, ha, hb, hint, heq, hu⟩, rfl⟩
    · rw [if_neg hint]
      exact Or.inr ⟨fun p h => hint h.int, hlater⟩
  · have hfirst : (attemptWith F c q a.op b.op a b).Keeps c := keeps_attemptWith F c q a b hkey
    exact Or.inr ⟨fun p h => hkey ⟨h.sub, h.left, h.right⟩, hfirst.orElse hlater⟩

/-- Whatever is asked, what exists stays. -/
theorem ask_grown (F : FloatOps) (c : Ctx) (q : Question) (a b : Insn) :
    Grown c ((ask F c q a b).ctx c) := by
  rcases ask_cases F c q a b with ⟨p, -, h⟩ | ⟨-, h⟩
  · rw [h, castBoth_ctx]
    exact (grown_cast c p.1 q.type).trans (grown_cast _ p.2 q.type)
  · exact h.ctx.grown

/-- What exists stays in a run of the engine. -/
theorem folding_grown {c' : Ctx} {q' : Question} {rep : Reply} {n : ℕ} : ∀ {c q}, folding F n c q = some (c', q', rep) → Grown c c' := by
  induction n with
  | zero => exact fun h => nomatch h
  | succ n ih =>
    intro c q hrun
    have hgrown := ask_grown F c q (c.insn q.op1) (c.insn q.op2)
    rw [← dispatch_eq_ask] at hgrown
    unfold folding at hrun
    cases hd : dispatch F c q with
    | restart c₁ q₁ =>
      rw [hd] at hrun hgrown
      dsimp only at hrun
      split_ifs at hrun
      · exact hgrown.trans (ih hrun)
      · cases hrun
        exact hgrown
    | _ =>
      rw [hd] at hrun
      cases hrun
      exact (Kept.refl _).grown

/-- A context with the sums of an address and two integers. -/
def sumsCtx : Ctx where
  consts := [⟨.cAddr, .addr, 0, 0, 0, 0⟩, ⟨.cBool, .bool, 0, 0, 0, 0⟩, ⟨.cBool, .bool, 0, 0, 0, 1⟩]
  insns := [⟨.nop, .void, 0, 0, 0, 0⟩, ⟨.start, .void, 0, 0, 0, 0⟩, ⟨.param, .addr, 1, 0, 0, 0⟩,
    ⟨.param, .i64, 1, 0, 0, 0⟩, ⟨.param, .i64, 1, 0, 0, 0⟩, ⟨.add, .addr, 2, 3, 0, 0⟩,
    ⟨.add, .addr, 2, 4, 0, 0⟩]
  useLists := some fun r => if r = 1 then 3 else if r = 2 then 2 else 1

end IrJit.Fold
