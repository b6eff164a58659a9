import IrJit.IfConv.Phi

/-!
# IfConv.Left — the instructions that the rewritings leave

`Left` lists what one rewriting does to the instructions: the PHI, the operand of the next control
instruction, and the instructions that are gone; all else stays.
-/

namespace IrJit.IfConv

open Fold

variable {ctx : Ctx} {d : Diamond} {merge ref i j : ℤ}

/-! ## The instructions after each helper -/

@[simp] theorem Insn.makeNop_op (insn : Insn) : insn.makeNop.op = .nop := rfl
@[simp] theorem Insn.makeNop_makeNop (insn : Insn) : insn.makeNop.makeNop = insn.makeNop := rfl

namespace Ctx

theorem modify_insn (f : Insn → Insn) :
    (ctx.modify i f).insn j = if j = i then f (ctx.insn i) else ctx.insn j := by
  simp [modify, Function.update_apply]

@[simp] theorem modify_uses (f : Insn → Insn) : (ctx.modify i f).uses = ctx.uses := rfl
@[simp] theorem modify_val (f : Insn → Insn) : (ctx.modify i f).val = ctx.val := rfl
@[simp] theorem setUses_insn (l : List ℤ) : (ctx.setUses i l).insn = ctx.insn := rfl
@[simp] theorem useListRemoveOne_insn : (ctx.useListRemoveOne i j).insn = ctx.insn := rfl
@[simp] theorem useListReplaceOne_insn (use : ℤ) :
    (ctx.useListReplaceOne i use j).insn = ctx.insn := rfl
@[simp] theorem bitqueueAdd_insn : (ctx.bitqueueAdd i).insn = ctx.insn := rfl

@[simp] theorem revisit_insn (next : ℤ) : (ctx.revisit next).insn = ctx.insn := by
  unfold revisit
  dsimp only
  split <;> rfl

/-- `g` is `f` with the instructions of `S` gone. -/
def Wiped (S : ℤ → Prop) (f g : ℤ → Insn) : Prop :=
  ∀ i, (S i → (g i).op = .nop) ∧ (¬S i → g i = f i)

theorem Wiped.refl (f : ℤ → Insn) : Wiped (fun _ => False) f f := fun _ => ⟨False.elim, fun _ => rfl⟩

theorem Wiped.remove {S : ℤ → Prop} {f : ℤ → Insn} (h : Wiped S f ctx.insn) (r : ℤ) :
    Wiped (fun i => S i ∨ i = r) f (ctx.remove r).insn := by
  intro i
  rw [Ctx.remove, setUses_insn, modify_insn]
  constructor
  · rintro (hi | rfl)
    · split
      · rfl
      · exact (h i).1 hi
    · rw [if_pos rfl]
      rfl
  · intro hi
    push Not at hi
    rw [if_neg hi.2]
    exact (h i).2 hi.1

theorem Wiped.foldl_remove {S : ℤ → Prop} {f : ℤ → Insn} (l : List ℤ) : ∀ {ctx : Ctx},
    Wiped S f ctx.insn → Wiped (fun i => S i ∨ i ∈ l) f (l.foldl Ctx.remove ctx).insn := by
  induction l generalizing S with
  | nil => simp
  | cons a l ih =>
    intro ctx h
    have h' := ih (h.remove a)
    simpa only [List.foldl_cons, List.mem_cons, or_assoc] using h'

theorem foldl_vars_insn (last : ℤ) (l : List ℤ) : ∀ ctx : Ctx,
    (l.foldl (fun ctx use => if use ≠ last then ctx.modify use Insn.makeNop else ctx) ctx).insn j
      = if j ∈ l ∧ j ≠ last then (ctx.insn j).makeNop else ctx.insn j := by
  induction l with
  | nil => simp
  | cons a l ih =>
    intro ctx
    rw [List.foldl_cons, ih]
    by_cases ha : a = last
    · by_cases hj : j = last <;> simp [ha, hj]
    · rw [if_pos ha, modify_insn]
      by_cases hj : j = a
      · subst hj
        simp [ha]
      · simp [hj]

theorem foldl_vars_uses (last : ℤ) (l : List ℤ) : ∀ ctx : Ctx,
    (l.foldl (fun ctx use => if use ≠ last then ctx.modify use Insn.makeNop else ctx) ctx).uses
      = ctx.uses := by
  induction l with
  | nil => simp
  | cons a l ih =>
    intro ctx
    rw [List.foldl_cons, ih]
    split <;> rfl

end Ctx

/-- The instructions at the start of an arm, other than its end. -/
def ArmVar (ctx : Ctx) (d : Diamond) (i : ℤ) : Prop :=
  ((ctx.uses d.start1).length ≠ 1 ∧ i ∈ ctx.uses d.start1 ∧ i ≠ d.end1)
    ∨ (ctx.uses d.start2).length ≠ 1 ∧ i ∈ ctx.uses d.start2 ∧ i ≠ d.end2

/-- The control instructions of the diamond. -/
def Diamond.refs (d : Diamond) (merge : ℤ) : List ℤ :=
  [d.root, d.start1, d.start2, d.end1, d.end2, merge]

namespace Ctx

theorem clearArms_insn_of_var (h : ArmVar ctx d i) :
    (ctx.clearArms d).insn i = (ctx.insn i).makeNop := by
  unfold clearArms
  dsimp only
  rcases h with ⟨h, hi⟩ | ⟨h, hi⟩
  · rw [if_pos h]
    split
    · rw [removeUnusedVars, foldl_vars_insn, removeUnusedVars, foldl_vars_insn, if_pos hi]
      split <;> rfl
    · rw [removeUnusedVars, foldl_vars_insn, if_pos hi]
  · by_cases h1 : (ctx.uses d.start1).length ≠ 1
    · rw [if_pos h1, removeUnusedVars, foldl_vars_uses, if_pos h, removeUnusedVars,
        foldl_vars_uses, foldl_vars_insn, if_pos hi, foldl_vars_insn]
      split <;> rfl
    · rw [if_neg h1, if_pos h, removeUnusedVars, foldl_vars_insn, if_pos hi]

theorem clearArms_insn (h : ¬ArmVar ctx d i) : (ctx.clearArms d).insn i = ctx.insn i := by
  unfold ArmVar at h
  push Not at h
  have h2 : ∀ c : Ctx, c.uses = ctx.uses → (ctx.uses d.start2).length ≠ 1 →
      (c.removeUnusedVars d.start2 d.end2).insn i = c.insn i := by
    intro c hc hlen
    rw [removeUnusedVars, foldl_vars_insn, if_neg]
    rw [hc]
    exact fun hi => hi.2 (h.2 hlen hi.1)
  have h1 : (ctx.uses d.start1).length ≠ 1 →
      (ctx.removeUnusedVars d.start1 d.end1).insn i = ctx.insn i := by
    intro hlen
    rw [removeUnusedVars, foldl_vars_insn, if_neg]
    exact fun hi => hi.2 (h.1 hlen hi.1)
  have huses : (ctx.removeUnusedVars d.start1 d.end1).uses = ctx.uses := by
    rw [removeUnusedVars, foldl_vars_uses]
  unfold clearArms
  dsimp only
  by_cases hl1 : (ctx.uses d.start1).length ≠ 1
  · rw [if_pos hl1, huses]
    split
    · rw [h2 _ huses ‹_›, h1 hl1]
    · exact h1 hl1
  · rw [if_neg hl1]
    split
    · exact h2 _ rfl ‹_›
    · rfl

theorem clearArms_uses : (ctx.clearArms d).uses = ctx.uses := by
  unfold clearArms
  dsimp only
  split <;> split <;> simp only [removeUnusedVars, foldl_vars_uses]

theorem link_insn (next : ℤ) : (ctx.link d next).insn i =
    if i = next then { ctx.insn next with op1 := (ctx.insn d.root).op1 } else ctx.insn i := by
  rw [link, useListReplaceOne_insn, modify_insn]

theorem link_uses_length (next : ℤ) :
    ((ctx.link d next).uses i).length = (ctx.uses i).length := by
  rw [link, useListReplaceOne, setUses]
  by_cases h : i = (ctx.insn d.root).op1
  · subst h
    simp
  · simp [Function.update_of_ne h]

theorem Wiped.dropCond {S : ℤ → Prop} {f : ℤ → Insn} (h : Wiped S f ctx.insn) (ops : List ℤ) :
    Wiped (fun i => S i ∨ (ctx.uses d.cond).length = 1 ∧ i = d.cond) f (ctx.dropCond d ops).insn := by
  have hops : ∀ c : Ctx, (ops.foldl (fun ctx op =>
      if isConstRef op then ctx else ctx.useListRemoveOne op d.cond) c).insn = c.insn := by
    induction ops with
    | nil => simp
    | cons a ops ih =>
      intro c
      rw [List.foldl_cons, ih]
      split <;> rfl
  unfold Ctx.dropCond
  by_cases hlen : (ctx.uses d.cond).length = 1
  · rw [if_pos hlen]
    simp only [hlen, true_and]
    exact Wiped.remove (by rwa [hops]) d.cond
  · rw [if_neg hlen, useListRemoveOne_insn]
    simpa only [hlen, false_and, or_false] using h

end Ctx

/-! ## What a rewriting leaves -/

/-- `after` is `ctx` with the instruction `phi` in place of the PHI, the control input `prev` in
`next`, and without the instructions of `gone`. -/
structure Left (ctx after : Ctx) (ref next prev : ℤ) (phi : Insn) (gone : ℤ → Prop) : Prop where
  insn_phi : after.insn ref = phi
  op_gone : ∀ i, gone i → (after.insn i).op = .nop
  insn_next : ¬gone next → after.insn next = { ctx.insn next with op1 := prev }
  insn_same : ∀ i, ¬gone i → i ≠ ref → i ≠ next → after.insn i = ctx.insn i

/-- The instructions of the diamond. -/
def Diamond.Gone (ctx : Ctx) (d : Diamond) (merge i : ℤ) : Prop := i ∈ d.refs merge ∨ ArmVar ctx d i

/-- The references that a rewriting must keep apart. -/
structure Apart (ctx : Ctx) (d : Diamond) (merge ref : ℤ) : Prop where
  ref_gone : ¬d.Gone ctx merge ref
  ref_next : ref ≠ ctx.nextRef merge ref
  cond_var : ¬ArmVar ctx d d.cond
  start_var : ¬ArmVar ctx d d.start1
  root_var : ¬ArmVar ctx d d.root

theorem Apart.root_ne (A : Apart ctx d merge ref) : d.root ≠ ref := by
  rintro rfl
  exact A.ref_gone (.inl (by simp [Diamond.refs]))

namespace Ctx

/-- The steps that the rewritings share: the variables of the arms, the PHI, the next
instruction. -/
def common (ctx : Ctx) (d : Diamond) (ref next : ℤ) (phi : Insn) (i : ℤ) : Insn :=
  if i = next then { (ctx.clearArms d).insn next with op1 := (ctx.insn d.root).op1 }
  else if i = ref then phi
  else (ctx.clearArms d).insn i

theorem left_of_common (A : Apart ctx d merge ref) {after : Ctx} {phi : Insn} {S : ℤ → Prop}
    (href : ¬S ref) (h : Wiped S (ctx.common d ref (ctx.nextRef merge ref) phi) after.insn) :
    Left ctx after ref (ctx.nextRef merge ref) (ctx.insn d.root).op1 phi
      fun i => S i ∨ ArmVar ctx d i where
  insn_phi := by rw [(h ref).2 href, common, if_neg A.ref_next, if_pos rfl]
  op_gone i := by
    rintro (hi | hi)
    · exact (h i).1 hi
    · by_cases hSi : S i
      · exact (h i).1 hSi
      have hne : i ≠ ref := by
        rintro rfl
        exact A.ref_gone (.inr hi)
      rw [(h i).2 hSi, common, if_neg hne]
      split
      · next hn =>
        subst hn
        rw [clearArms_insn_of_var hi]
        rfl
      · rw [clearArms_insn_of_var hi]
        rfl
  insn_next hn := by
    push Not at hn
    rw [(h _).2 hn.1, common, if_pos rfl, clearArms_insn hn.2]
  insn_same i hi hne hnext := by
    push Not at hi
    rw [(h i).2 hi.1, common, if_neg hnext, if_neg hne, clearArms_insn hi.2]

/-- The PHI and the next instruction are written. -/
theorem common_insn (A : Apart ctx d merge ref) {f : Insn → Insn} {phi : Insn}
    (hphi : f (ctx.insn ref) = phi) :
    (((ctx.clearArms d).modify ref f).link d (ctx.nextRef merge ref)).insn =
      ctx.common d ref (ctx.nextRef merge ref) phi := by
  have hvar : ¬ArmVar ctx d ref := fun h => A.ref_gone (.inr h)
  funext i
  rw [link_insn, common, modify_insn, modify_insn, modify_insn, if_neg A.ref_next.symm,
    if_neg A.root_ne, clearArms_insn hvar, hphi, clearArms_insn A.root_var]

theorem left_toMinMax (A : Apart ctx d merge ref) (hcond : d.cond ≠ ref) :
    Left ctx (ctx.toMinMax d merge ref) ref (ctx.nextRef merge ref) (ctx.insn d.root).op1
      (minMaxInsn (ctx.insn d.cond) (ctx.insn d.start1) (ctx.insn ref))
      fun i => ((ctx.uses d.cond).length = 1 ∧ i = d.cond ∨ i ∈ d.refs merge) ∨ ArmVar ctx d i := by
  refine left_of_common A ?_ ?_
  · rintro (h | h)
    · exact hcond h.2.symm
    · exact A.ref_gone (.inl h)
  · rw [toMinMax, revisit_insn, removeDiamond, clearArms_insn A.cond_var,
      clearArms_insn A.start_var]
    have hmid := Wiped.refl (ctx.common d ref (ctx.nextRef merge ref)
      (minMaxInsn (ctx.insn d.cond) (ctx.insn d.start1) (ctx.insn ref)))
    rw [← common_insn A rfl] at hmid ⊢
    have h := fun ops => (hmid.dropCond (d := d) ops).foldl_remove (d.refs merge)
    simp only [link_uses_length, modify_uses, clearArms_uses, false_or] at h
    exact h _

theorem absInsn_clearArms (insn : Insn) (h : ¬ArmVar ctx d insn.op2) :
    absInsn (ctx.clearArms d) insn = absInsn ctx insn := by
  rw [absInsn, absInsn, clearArms_insn h]

theorem useListRemoveOne_uses (use : ℤ) (h : i ≠ j) :
    (ctx.useListRemoveOne i use).uses j = ctx.uses j := by
  exact Function.update_of_ne h.symm _ _

theorem Wiped.removeNeg {c : Ctx} {S : ℤ → Prop} {f : ℤ → Insn} (h : Wiped S f c.insn)
    (merge neg : ℤ) (ops : List ℤ) {x : ℤ} (hx : x ≠ d.cond) :
    Wiped (fun i => ((S i ∨ (c.uses d.cond).length = 1 ∧ i = d.cond) ∨ i ∈ d.refs merge) ∨ i = neg)
      f ((((c.useListRemoveOne x neg).dropCond d ops).removeDiamond d merge).remove neg).insn := by
  have hmid : Wiped S f (c.useListRemoveOne x neg).insn := h
  have h' := ((hmid.dropCond (d := d) ops).foldl_remove (d.refs merge)).remove neg
  rwa [useListRemoveOne_uses neg hx] at h'

theorem left_toAbs (A : Apart ctx d merge ref) (hcond : d.cond ≠ ref)
    (hop2 : ¬ArmVar ctx d (ctx.insn ref).op2)
    (hneg : (absInsn ctx (ctx.insn ref)).2 ≠ ref)
    (hx : (absInsn ctx (ctx.insn ref)).1.op1 ≠ d.cond) :
    Left ctx (ctx.toAbs d merge ref) ref (ctx.nextRef merge ref) (ctx.insn d.root).op1
      (absInsn ctx (ctx.insn ref)).1
      fun i => (((ctx.uses d.cond).length = 1 ∧ i = d.cond ∨ i ∈ d.refs merge) ∨
        i = (absInsn ctx (ctx.insn ref)).2) ∨ ArmVar ctx d i := by
  have hvar : ¬ArmVar ctx d ref := fun h => A.ref_gone (.inr h)
  have hphi : (absInsn (ctx.clearArms d) (ctx.insn ref)).1 = (absInsn ctx (ctx.insn ref)).1 := by
    rw [absInsn_clearArms _ hop2]
  have hmid := Wiped.refl (ctx.common d ref (ctx.nextRef merge ref)
    (absInsn ctx (ctx.insn ref)).1)
  rw [← common_insn A (f := fun insn => (absInsn (ctx.clearArms d) insn).1) hphi] at hmid
  have hop1 : ((((ctx.clearArms d).modify ref fun insn =>
      (absInsn (ctx.clearArms d) insn).1).link d (ctx.nextRef merge ref)).insn ref).op1 ≠
        d.cond := by
    rwa [common_insn A (f := fun insn => (absInsn (ctx.clearArms d) insn).1) hphi, common,
      if_neg A.ref_next, if_pos rfl]
  refine left_of_common A ?_ ?_
  · rintro ((h | h) | h)
    · exact hcond h.2.symm
    · exact A.ref_gone (.inl h)
    · exact hneg h.symm
  · rw [toAbs, revisit_insn, clearArms_insn hvar, absInsn_clearArms _ hop2]
    rw [← common_insn A (f := fun insn => (absInsn (ctx.clearArms d) insn).1) hphi]
    have h := fun ops => hmid.removeNeg (d := d) merge (absInsn ctx (ctx.insn ref)).2 ops hop1
    simp only [link_uses_length, modify_uses, clearArms_uses, false_or] at h
    exact h _

theorem left_toCond (A : Apart ctx d merge ref) :
    Left ctx (ctx.toCond d merge ref) ref (ctx.nextRef merge ref) (ctx.insn d.root).op1
      (condInsn d.cond (ctx.insn d.start1) (ctx.insn ref))
      fun i => i ∈ d.refs merge ∨ ArmVar ctx d i := by
  refine left_of_common A (fun h => A.ref_gone (.inl h)) ?_
  rw [toCond, revisit_insn, bitqueueAdd_insn, removeDiamond, clearArms_insn A.start_var]
  have hmid := Wiped.refl (ctx.common d ref (ctx.nextRef merge ref)
    (condInsn d.cond (ctx.insn d.start1) (ctx.insn ref)))
  rw [← common_insn A rfl, link, useListReplaceOne_insn] at hmid ⊢
  have h := fun (c : Ctx) (f : ℤ → Insn) (hc : Wiped (fun _ => False) f c.insn) =>
    hc.foldl_remove (d.refs merge)
  simp only [false_or] at h
  exact h _ _ hmid

end Ctx

end IrJit.IfConv
