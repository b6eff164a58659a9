import IrJit.Uses.Build
import Mathlib.Logic.Relation

/-!
# Uses.Inverse — use lists are the inverse of the operand edges

`Inverse` says that the list of every instruction `d` holds each instruction `u` as often as `d` is
an input of `u`, besides the soundness of the runs.  It holds after `ir_build_def_use_lists` and is
kept by `ir_update_op`, by `ir_replace` with the cleared list of the replaced instruction, and by
every change of operands that operations on the lists mirror.
-/

namespace IrJit.Uses

open Slice

/-- The use lists of a context are sound and the inverse of its edges. -/
structure Inverse (ctx : Ctx) : Prop where
  sound : Sound ctx
  count : ∀ d u, 0 < d → (ctx.uses d).count u = ctx.insns.edgeCount d u

/-! ## Operands -/

namespace Insns

variable {I : Insns} {u : ℕ}

/-- Setting an operand of `u` leaves the operands of every other instruction alone. -/
theorem inputs_insnSetOp_of_ne {v j : ℕ} {val : ℤ} (hu : u ∈ I.heads) (hv : v ∈ I.heads)
    (hne : v ≠ u) (h1 : 1 ≤ j) (hj : j ≤ I.inputsCount u) :
    (I.insnSetOp u j val).inputs v = I.inputs v := by
  apply slice_update_of_out
  show 4 * u + j < 4 * v + 1 ∨ 4 * v + 1 + I.inputsCount v ≤ 4 * u + j
  rcases Nat.lt_or_gt_of_ne hne with hlt | hlt
  · have := headsFrom_apart hv hu hlt
    unfold inputsToLen at this
    omega
  · have := headsFrom_apart hu hv hlt
    unfold inputsToLen at this
    omega

theorem inputs_insnSetOp_self {j : ℕ} {val : ℤ} (h1 : 1 ≤ j) (hj : j ≤ I.inputsCount u) :
    (I.insnSetOp u j val).inputs u = (I.inputs u).set (j - 1) val := by
  show slice (Function.update I.word (4 * u + j) val) (4 * u + 1) (I.inputsCount u) = _
  rw [show 4 * u + j = 4 * u + 1 + (j - 1) by omega, slice_update (by omega)]
  rfl

/-- Setting an operand of `u` removes the edge to the old value and adds one to the new value. -/
theorem edgeCount_insnSetOp {j : ℕ} (hu : u ∈ I.heads) (h1 : 1 ≤ j)
    (hj : j ≤ I.inputsCount u) (val : ℤ) (d v : ℕ) :
    (I.insnSetOp u j val).edgeCount d v + (if v = u ∧ I.insnOp u j = d then 1 else 0) =
      I.edgeCount d v + (if v = u ∧ val = d then 1 else 0) := by
  unfold edgeCount
  show (if v ∈ I.heads then _ else 0) + _ = _
  by_cases hvu : v = u
  · subst hvu
    have hlen : j - 1 < (I.inputs v).length := by
      rw [inputs, length_slice]
      omega
    have hget : (I.inputs v)[j - 1] = I.insnOp v j := by
      simp only [inputs, getElem_slice, insnOp]
      congr 1
      omega
    rw [if_pos hu, if_pos hu, inputs_insnSetOp_self h1 hj, List.count_set hlen, hget]
    have hle : (if (I.insnOp v j == (d : ℤ)) = true then 1 else 0) ≤ (I.inputs v).count (d : ℤ) := by
      split_ifs with h
      · rw [Nat.succ_le_iff, List.count_pos_iff, ← eq_of_beq h, ← hget]
        exact List.getElem_mem hlen
      · exact Nat.zero_le _
    simp only [true_and, beq_iff_eq] at hle ⊢
    omega
  · simp only [hvu, false_and, if_false, Nat.add_zero]
    split_ifs with hv
    · rw [inputs_insnSetOp_of_ne hu hv hvu h1 hj]
    · rfl

/-- An operand that is there is found. -/
theorem insnFindOp_spec {d : ℕ} (h : 0 < I.edgeCount d u) :
    u ∈ I.heads ∧ 1 ≤ I.insnFindOp u d ∧ I.insnFindOp u d ≤ I.inputsCount u ∧
      I.insnOp u (I.insnFindOp u d) = d := by
  unfold edgeCount at h
  split_ifs at h with hu
  · obtain ⟨i, hle, hlt, hi⟩ := mem_slice.mp (List.count_pos_iff.mp h)
    have hsome : ((List.range' 1 (I.inputsCount u)).find? fun j => I.insnOp u j = d).isSome := by
      rw [List.find?_isSome]
      refine ⟨i - 4 * u, List.mem_range'_1.mpr (by omega), ?_⟩
      rw [insnOp, show 4 * u + (i - 4 * u) = i by omega, hi]
      simp
    obtain ⟨j, hj⟩ := Option.isSome_iff_exists.mp hsome
    have hmem := List.mem_range'_1.mp (List.mem_of_find?_eq_some hj)
    have hop := List.find?_some hj
    unfold insnFindOp
    rw [hj]
    exact ⟨hu, by simpa using hmem.1, by simpa using (show j ≤ _ by omega), by simpa using hop⟩
  · omega

end Insns

/-! ## Operations on the lists -/

/-- An operation on one use list. -/
inductive ListOp
  | add (d use : ℕ)
  | removeOne (d use : ℕ)
  | removeAll (d use : ℕ)
  | replaceOne (d use newUse : ℕ)
  | replaceAll (d use newUse : ℕ)

namespace ListOp

/-- The uses put into a list are instructions. -/
def Valid : ListOp → Prop
  | add _ use => use ≠ 0
  | removeOne _ _ | removeAll _ _ => True
  | replaceOne _ _ newUse | replaceAll _ _ newUse => newUse ≠ 0

def apply (ctx : Ctx) : ListOp → Ctx
  | add d use => (useListAdd ctx d use).2
  | removeOne d use => useListRemoveOne ctx d use
  | removeAll d use => useListRemoveAll ctx d use
  | replaceOne d use newUse => useListReplaceOne ctx d use newUse
  | replaceAll d use newUse => useListReplaceAll ctx d use newUse

/-- The list an operation works on. -/
def target : ListOp → ℕ
  | add d _ | removeOne d _ | removeAll d _ | replaceOne d _ _ | replaceAll d _ _ => d

/-- What an operation does to the number of times each use is in its list. -/
def effect (C : ℕ → ℕ) : ListOp → ℕ → ℕ
  | add _ use => Function.update C use (C use + 1)
  | removeOne _ use => Function.update C use (C use - 1)
  | removeAll _ use => Function.update C use 0
  | replaceOne _ use newUse =>
    if C use = 0 then C
    else
      let C := Function.update C use (C use - 1)
      Function.update C newUse (C newUse + 1)
  | replaceAll _ use newUse =>
    let n := C use
    let C := Function.update C use 0
    Function.update C newUse (C newUse + n)

/-- The operation on the number of times `u` is in the list of `d`. -/
def effects (C : ℕ → ℕ → ℕ) (op : ListOp) : ℕ → ℕ → ℕ :=
  Function.update C op.target (op.effect (C op.target))

/-- The uses of the list after the operation. -/
def after (l : List ℕ) : ListOp → List ℕ
  | add _ use => l ++ [use]
  | removeOne _ use => l.erase use
  | removeAll _ use => l.filter (· ≠ use)
  | replaceOne _ use newUse => l.replace use newUse
  | replaceAll _ use newUse => l.map fun x => if x = use then newUse else x

theorem turns {ctx : Ctx} (S : Sound ctx) {op : ListOp} (h : op.Valid) :
    Turns ctx op.target (op.after (ctx.uses op.target)) (op.apply ctx) := by
  cases op with
  | add d use => exact S.useListAdd d h
  | removeOne d use => exact S.useListRemoveOne d use
  | removeAll d use => exact S.useListRemoveAll d use
  | replaceOne d use newUse => exact S.useListReplaceOne d use h
  | replaceAll d use newUse => exact S.useListReplaceAll d use h

theorem count_map_ite (l : List ℕ) (use newUse u : ℕ) :
    (l.map fun x => if x = use then newUse else x).count u =
      (if u = newUse then (if newUse = use then 0 else l.count newUse) + l.count use
        else if u = use then 0 else l.count u) := by
  induction l with
  | nil => simp
  | cons x l ih =>
    simp only [List.map_cons, List.count_cons, ih, beq_iff_eq]
    split_ifs <;> omega

/-- Counting the uses after an operation. -/
theorem count_after (l : List ℕ) (op : ListOp) (u : ℕ) :
    (op.after l).count u = op.effect (fun u => l.count u) u := by
  cases op with
  | add d use =>
    by_cases h : u = use
    · simp [after, effect, h]
    · simp [after, effect, h, Ne.symm h]
  | removeOne d use =>
    by_cases h : u = use
    · simp [after, effect, h]
    · simp [after, effect, h]
  | removeAll d use =>
    by_cases h : u = use
    · subst h
      simp [after, effect, List.count_eq_zero]
    · simp [after, effect, h]
  | replaceOne d use newUse =>
    have hmem : l.contains use = true ↔ ¬ l.count use = 0 := by
      rw [List.contains_iff_mem, List.count_eq_zero, not_not]
    simp only [after, effect, List.count_replace, hmem, beq_iff_eq]
    by_cases h0 : l.count use = 0
    · simp [h0]
    · simp only [h0, not_false_eq_true, if_true, if_false, Function.update_apply]
      split_ifs <;> subst_vars <;> omega
  | replaceAll d use newUse =>
    simp only [after, effect, count_map_ite, Function.update_apply]

/-- An operation keeps the lists sound and has its effect on the counts. -/
theorem count_apply {ctx : Ctx} (S : Sound ctx) {op : ListOp} (h : op.Valid) (d u : ℕ) :
    ((op.apply ctx).uses d).count u = op.effects (fun d u => (ctx.uses d).count u) d u := by
  have hturn := op.turns S h
  by_cases hd : d = op.target
  · subst hd
    rw [hturn.uses_self, count_after, effects, Function.update_self]
  · rw [hturn.uses_of_ne d hd, effects, Function.update_of_ne hd]

/-- A sequence of operations. -/
theorem count_foldl {ctx : Ctx} (S : Sound ctx) {ops : List ListOp} (h : ∀ op ∈ ops, op.Valid) :
    Sound (ops.foldl apply ctx) ∧ ∀ d u, ((ops.foldl apply ctx).uses d).count u =
      ops.foldl effects (fun d u => (ctx.uses d).count u) d u := by
  induction ops generalizing ctx with
  | nil => exact ⟨S, fun _ _ => rfl⟩
  | cons op ops ih =>
    have hop := h op List.mem_cons_self
    have hstep : (fun d u => ((op.apply ctx).uses d).count u) =
        op.effects fun d u => (ctx.uses d).count u := by
      ext d u
      exact count_apply S hop d u
    obtain ⟨S', hcount⟩ := ih (op.turns S hop).sound fun op' h' => h op' (List.mem_cons_of_mem _ h')
    refine ⟨S', fun d u => ?_⟩
    rw [List.foldl_cons, hcount, hstep, List.foldl_cons]

/-- Counts that agree above `0` still do after the operations. -/
theorem foldl_effects_congr {C C' : ℕ → ℕ → ℕ} {ops : List ListOp}
    (h : ∀ d u, 0 < d → C d u = C' d u) (d u : ℕ) (hd : 0 < d) :
    ops.foldl effects C d u = ops.foldl effects C' d u := by
  induction ops generalizing C C' with
  | nil => exact h d u hd
  | cons op ops ih =>
    refine ih fun d u hd => ?_
    unfold effects
    by_cases ht : d = op.target
    · subst ht
      have hC : C op.target = C' op.target := funext fun u => h op.target u hd
      rw [Function.update_self, Function.update_self, hC]
    · rw [Function.update_of_ne ht, Function.update_of_ne ht, h d u hd]

end ListOp

/-! ## `ir_update_op` -/

/-- Changing the instructions does not change the lists. -/
theorem Sound.withInsns {ctx : Ctx} (S : Sound ctx) (I : Insns) :
    Sound { ctx with insns := I } := ⟨S.inside, S.live, S.disjoint⟩

/-- Adding `u` to the list of an operand. -/
theorem sound_addOperand {ctx : Ctx} (S : Sound ctx) {u : ℕ} (hu : u ≠ 0) (val : ℤ) :
    Sound (if val > 0 then (useListAdd ctx val.toNat u).2 else ctx) ∧
    (if val > 0 then (useListAdd ctx val.toNat u).2 else ctx).insns = ctx.insns ∧
    ∀ d x, 0 < d → ((if val > 0 then (useListAdd ctx val.toNat u).2 else ctx).uses d).count x =
      (ctx.uses d).count x + if x = u ∧ val = d then 1 else 0 := by
  split_ifs with hval
  · have hturn := S.useListAdd val.toNat hu
    refine ⟨hturn.sound, hturn.insns, fun d x _ => ?_⟩
    by_cases hd : d = val.toNat
    · have hvd : val = d := by omega
      rw [hd, hturn.uses_self, List.count_append, List.count_singleton, ← hd]
      by_cases hx : x = u
      · simp [hx, hvd]
      · simp [hx, Ne.symm hx]
    · have hvd : ¬ val = d := by omega
      rw [hturn.uses_of_ne d hd]
      simp [hvd]
  · refine ⟨S, rfl, fun d x hd => ?_⟩
    have hvd : ¬ val = d := by omega
    simp [hvd]

/-- Removing `u` from the list of an operand. -/
theorem sound_removeOperand {ctx : Ctx} (S : Sound ctx) (u : ℕ) (val : ℤ) :
    Sound (if val > 0 then useListRemoveOne ctx val.toNat u else ctx) ∧
    (if val > 0 then useListRemoveOne ctx val.toNat u else ctx).insns = ctx.insns ∧
    ∀ d x, 0 < d → ((if val > 0 then useListRemoveOne ctx val.toNat u else ctx).uses d).count x =
      (ctx.uses d).count x - if x = u ∧ val = d then 1 else 0 := by
  split_ifs with hval
  · have hturn := S.useListRemoveOne val.toNat u
    refine ⟨hturn.sound, hturn.insns, fun d x _ => ?_⟩
    by_cases hd : d = val.toNat
    · have hvd : val = d := by omega
      rw [hd, hturn.uses_self, List.count_erase, ← hd]
      by_cases hx : x = u
      · simp [hx, hvd]
      · simp [hx, Ne.symm hx]
    · have hvd : ¬ val = d := by omega
      rw [hturn.uses_of_ne d hd]
      simp [hvd]
  · refine ⟨S, rfl, fun d x hd => ?_⟩
    have hvd : ¬ val = d := by omega
    simp [hvd]

theorem Inverse.updateOp {ctx : Ctx} (V : Inverse ctx) {u idx : ℕ} {newVal : ℤ}
    (hu : u ∈ ctx.insns.heads) (h1 : 1 ≤ idx) (hidx : idx ≤ ctx.insns.inputsCount u) :
    Inverse (updateOp ctx u idx newVal) := by
  have hu0 : u ≠ 0 := Nat.pos_iff_ne_zero.mp (Insns.heads_pos hu)
  obtain ⟨S₁, hI₁, hcount₁⟩ := sound_addOperand V.sound hu0 newVal
  unfold Uses.updateOp
  dsimp only
  set ctx₁ := if newVal > 0 then (useListAdd ctx newVal.toNat u).2 else ctx
  obtain ⟨S₂, hI₂, hcount₂⟩ := sound_removeOperand
    (S₁.withInsns (ctx₁.insns.insnSetOp u idx newVal)) u (ctx.insns.insnOp u idx)
  refine ⟨S₂, fun d x hd => ?_⟩
  have hedge := Insns.edgeCount_insnSetOp hu h1 hidx newVal d x
  rw [hcount₂ d x hd, hI₂]
  show (ctx₁.uses d).count x - _ = (ctx₁.insns.insnSetOp u idx newVal).edgeCount d x
  rw [hcount₁ d x hd, hI₁, V.count d x hd]
  omega

/-! ## `ir_replace` -/

theorem useLists_useListAdd_of_ne {ctx : Ctx} {d d' ref : ℕ} (h : d' ≠ d) :
    (useListAdd ctx d ref).2.useLists d' = ctx.useLists d' := by
  unfold useListAdd
  dsimp only
  split_ifs <;> exact Function.update_of_ne h _ _

/-- One round of the loops of `ir_replace`: the first operand of `use` that is `ref` is found and
replaced. -/
theorem edgeCount_replaceOp {I : Insns} {ref use : ℕ} {newRef : ℤ} (h : 0 < I.edgeCount ref use)
    (hne : newRef ≠ ref) :
    0 < I.insnFindOp use ref ∧ ∀ d x,
      (I.insnSetOp use (I.insnFindOp use ref) newRef).edgeCount d x =
        I.edgeCount d x - (if x = use ∧ d = ref then 1 else 0) +
          if x = use ∧ newRef = d then 1 else 0 := by
  obtain ⟨hu, h1, hj, hop⟩ := Insns.insnFindOp_spec h
  refine ⟨h1, fun d x => ?_⟩
  have hedge := Insns.edgeCount_insnSetOp hu h1 hj newRef d x
  rw [hop] at hedge
  by_cases hx : x = use
  · subst hx
    by_cases hd : d = ref
    · subst hd
      simp only [true_and, hne, if_true, if_false] at hedge ⊢
      omega
    · have hd' : ¬ (ref : ℤ) = d := fun h => hd (by omega)
      simp only [true_and, hd, hd', if_false] at hedge ⊢
      omega
  · simp only [hx, false_and, if_false] at hedge ⊢
    omega

/-- `ir_replace` by a constant removes the edges to `ref` and changes no other. -/
theorem replaceConstLoop_spec {edges : ℕ → ℕ} {ref : ℕ} {newRef : ℤ} (hnew : newRef ≤ 0)
    (href : 0 < ref) (n : ℕ) (I : Insns) (p : ℕ)
    (h : ∀ x, I.edgeCount ref x = (slice edges p n).count x) :
    ∃ I', replaceConstLoop edges ref newRef n I p = some I' ∧ (∀ x, I'.edgeCount ref x = 0) ∧
      ∀ d x, 0 < d → d ≠ ref → I'.edgeCount d x = I.edgeCount d x := by
  induction n generalizing I p with
  | zero => exact ⟨I, rfl, h, fun _ _ _ _ => rfl⟩
  | succ n ih =>
    have hpos : 0 < I.edgeCount ref (edges p) := by
      rw [h, slice_succ, List.count_cons_self]
      exact Nat.succ_pos _
    have hno : newRef ≠ ref := by omega
    obtain ⟨hfind, hcount⟩ := edgeCount_replaceOp hpos hno
    obtain ⟨I', hloop, hzero, hother⟩ := ih (I.insnSetOp (edges p) (I.insnFindOp (edges p) ref) newRef)
      (p + 1) fun x => by
        have hx := h x
        rw [slice_succ, List.count_cons] at hx
        rw [hcount, hx]
        by_cases hxp : x = edges p
        · simp [hxp, hno]
        · simp [hxp, Ne.symm hxp]
    refine ⟨I', ?_, hzero, fun d x hd hne => ?_⟩
    · rw [replaceConstLoop]
      simp only [gt_iff_lt, hfind, if_true]
      exact hloop
    · have hno : ¬ newRef = (d : ℤ) := by omega
      rw [hother d x hd hne, hcount]
      simp [hne, hno]

/-- `I'` is `I` with some operands `ref` replaced by `newRef`. -/
structure Substituted (ref : ℕ) (newRef : ℤ) (I I' : Insns) : Prop where
  op : I'.op = I.op
  inputsCount : I'.inputsCount = I.inputsCount
  insnsCount : I'.insnsCount = I.insnsCount
  word : ∀ x, I'.word x = I.word x ∨ (I.word x = ref ∧ I'.word x = newRef)

theorem Substituted.refl (ref : ℕ) (newRef : ℤ) (I : Insns) : Substituted ref newRef I I :=
  ⟨rfl, rfl, rfl, fun _ => Or.inl rfl⟩

theorem Substituted.trans {ref : ℕ} {newRef : ℤ} {I I' I'' : Insns} (h : Substituted ref newRef I I')
    (h' : Substituted ref newRef I' I'') : Substituted ref newRef I I'' where
  op := h'.op.trans h.op
  inputsCount := h'.inputsCount.trans h.inputsCount
  insnsCount := h'.insnsCount.trans h.insnsCount
  word x := by
    rcases h.word x with hx | ⟨hx, hnew⟩
    · rcases h'.word x with hx' | ⟨hx', hnew'⟩
      · exact Or.inl (hx'.trans hx)
      · exact Or.inr ⟨hx ▸ hx', hnew'⟩
    · rcases h'.word x with hx' | ⟨_, hnew'⟩
      · exact Or.inr ⟨hx, hx'.trans hnew⟩
      · exact Or.inr ⟨hx, hnew'⟩

theorem Substituted.heads {ref : ℕ} {newRef : ℤ} {I I' : Insns} (h : Substituted ref newRef I I') :
    I'.heads = I.heads := by
  unfold Insns.heads
  rw [h.inputsCount, h.insnsCount]

theorem substituted_setOp {I : Insns} {ref use j : ℕ} {newRef : ℤ} (hop : I.insnOp use j = ref) :
    Substituted ref newRef I (I.insnSetOp use j newRef) where
  op := rfl
  inputsCount := rfl
  insnsCount := rfl
  word x := by
    show Function.update I.word (4 * use + j) newRef x = _ ∨ _
    by_cases hx : x = 4 * use + j
    · subst hx
      exact Or.inr ⟨hop, Function.update_self _ _ _⟩
    · exact Or.inl (Function.update_of_ne hx _ _)

/-- The loop of `ir_replace` for another instruction, list by list: the uses of `ref` from `i` on are
appended to the list of `newRef` and have their operand replaced. -/
theorem replaceLoop_lists {ref newRef : ℕ} (hne : newRef ≠ ref) (m : ℕ) :
    ∀ (ctx : Ctx) (i : ℕ), Sound ctx → (ctx.useLists ref).count = i + m →
      (∀ x, ctx.insns.edgeCount ref x = ((ctx.uses ref).drop i).count x) →
      ∃ ctx', replaceLoop ref newRef m ctx i (i + m) ((ctx.useLists ref).refs + i) = some ctx' ∧
        Sound ctx' ∧ Substituted ref newRef ctx.insns ctx'.insns ∧
        ctx'.uses newRef = ctx.uses newRef ++ (ctx.uses ref).drop i ∧
        (∀ d, d ≠ newRef → ctx'.uses d = ctx.uses d) ∧
        ∀ d x, ctx'.insns.edgeCount d x =
          if d = ref then 0
          else ctx.insns.edgeCount d x + if d = newRef then ((ctx.uses ref).drop i).count x else 0 := by
  induction m with
  | zero =>
    intro ctx i S hlen href
    have hnil : (ctx.uses ref).drop i = [] := by
      apply List.drop_eq_nil_of_le
      rw [Ctx.uses, length_slice]
      omega
    refine ⟨ctx, ?_, S, Substituted.refl _ _ _, ?_, fun _ _ => rfl, fun d x => ?_⟩
    · rw [replaceLoop, if_neg (by omega)]
    · rw [hnil, List.append_nil]
    · rw [hnil]
      by_cases hd : d = ref
      · rw [if_pos hd, hd, href, hnil]
        rfl
      · simp [hd]
  | succ m ih =>
    intro ctx i S hlen href
    generalize hp : (ctx.useLists ref).refs + i = p
    have hrest : (ctx.uses ref).drop i = ctx.useEdges p :: (ctx.uses ref).drop (i + 1) := by
      have hi : i < (ctx.uses ref).length := by
        rw [Ctx.uses, length_slice]
        omega
      rw [List.drop_eq_getElem_cons hi]
      simp only [Ctx.uses, getElem_slice, hp]
    have huse : ctx.useEdges p ≠ 0 := S.live ref p ⟨by omega, by omega⟩
    have hpos : 0 < ctx.insns.edgeCount ref (ctx.useEdges p) := by
      rw [href, hrest, List.count_cons_self]
      exact Nat.succ_pos _
    have hno : (newRef : ℤ) ≠ ref := by omega
    obtain ⟨hfind, hcount⟩ := edgeCount_replaceOp hpos hno
    have hsubst : Substituted ref (newRef : ℤ) ctx.insns
        (ctx.insns.insnSetOp (ctx.useEdges p) (ctx.insns.insnFindOp (ctx.useEdges p) ref) newRef) :=
      substituted_setOp (Insns.insnFindOp_spec hpos).2.2.2
    rw [replaceLoop, if_pos (by omega)]
    dsimp only
    generalize ctx.useEdges p = use at *
    generalize ctx.insns.insnFindOp use ref = j at *
    have hturn := (S.withInsns (ctx.insns.insnSetOp use j newRef)).useListAdd newRef huse
    have hlist := @useLists_useListAdd_of_ne
      { ctx with insns := ctx.insns.insnSetOp use j newRef } newRef ref use hne.symm
    have huses := hturn.uses_of_ne ref hne.symm
    have hI := hturn.insns
    have hself := hturn.uses_self
    have hkeep := hturn.uses_of_ne
    have S₂ := hturn.sound
    simp only [gt_iff_lt, hfind, if_true]
    generalize useListAdd { ctx with insns := ctx.insns.insnSetOp use j newRef } newRef use = r at *
    obtain ⟨moved, ctx₂⟩ := r
    have hlist' : ctx₂.useLists ref = ctx.useLists ref := hlist
    have huses' : ctx₂.uses ref = ctx.uses ref := huses
    have hI' : ctx₂.insns = ctx.insns.insnSetOp use j newRef := hI
    have hself' : ctx₂.uses newRef = ctx.uses newRef ++ [use] := hself
    have href' : ∀ x, ctx₂.insns.edgeCount ref x = ((ctx₂.uses ref).drop (i + 1)).count x := by
      intro x
      rw [huses', hI', hcount, href, hrest, List.count_cons]
      by_cases hx : x = use
      · simp [hx, hno]
      · simp [hx, Ne.symm hx]
    obtain ⟨ctx', hloop, S', hsubst', hnew, hother, hedges⟩ :=
      ih ctx₂ (i + 1) S₂ (by rw [hlist']; omega) href'
    refine ⟨ctx', ?_, S', hsubst.trans (hI' ▸ hsubst'), ?_, ?_, ?_⟩
    · rw [hlist'] at hloop
      cases moved with
      | true =>
        rw [← hloop]
        show replaceLoop ref newRef m ctx₂ (i + 1) (ctx₂.useLists ref).count
          ((ctx₂.useLists ref).refs + i + 1) = _
        rw [hlist', hlen]
        congr 1
        omega
      | false =>
        rw [← hloop]
        show replaceLoop ref newRef m ctx₂ (i + 1) (i + (m + 1)) (p + 1) = _
        rw [← hp, Nat.add_assoc (ctx.useLists ref).refs, show i + (m + 1) = i + 1 + m by omega]
    · rw [hnew, hself', huses', hrest, List.append_assoc, List.singleton_append]
    · intro d hd
      rw [hother d hd]
      exact hkeep d hd
    · intro d x
      rw [hedges, hI', hcount, huses', hrest]
      by_cases hd : d = ref
      · simp [hd]
      · by_cases hdn : d = newRef
        · subst hdn
          rw [if_neg hd, if_neg hd, if_pos rfl, if_pos rfl, List.count_cons]
          by_cases hx : x = use
          · simp [hx, hd]
            omega
          · simp [hx, Ne.symm hx]
        · have hdn' : ¬ (newRef : ℤ) = d := by omega
          simp [hd, hdn, hdn']

/-- `ir_replace` returns and leaves no edge to `ref`; with the list of `ref` cleared the lists are
again the inverse of the edges. -/
theorem Inverse.replace {ctx : Ctx} (V : Inverse ctx) {ref : ℕ} {newRef : ℤ} (href : 0 < ref)
    (hne : newRef ≠ ref) :
    ∃ ctx', Uses.replace ctx ref newRef = some ctx' ∧ Inverse (clearUses ctx' ref) := by
  -- what both loops leave is enough
  have hclear : ∀ ctx' : Ctx, Sound ctx' → (∀ x, ctx'.insns.edgeCount ref x = 0) →
      (∀ d x, 0 < d → d ≠ ref → (ctx'.uses d).count x = ctx'.insns.edgeCount d x) →
      Inverse (clearUses ctx' ref) := by
    intro ctx' S hzero hother
    have hturn := S.clearUses ref
    refine ⟨hturn.sound, fun d x hd => ?_⟩
    rw [hturn.insns]
    by_cases h : d = ref
    · subst h
      rw [hturn.uses_self, hzero]
      rfl
    · rw [hturn.uses_of_ne d h]
      exact hother d x hd h
  unfold Uses.replace
  dsimp only
  split_ifs with hconst
  · obtain ⟨I, hloop, hzero, hother⟩ := replaceConstLoop_spec hconst href _ ctx.insns _
      fun x => (V.count ref x href).symm
    refine ⟨{ ctx with insns := I }, by rw [hloop]; rfl, ?_⟩
    refine hclear _ (V.sound.withInsns I) hzero fun d x hd h => ?_
    show (ctx.uses d).count x = I.edgeCount d x
    rw [hother d x hd h, V.count d x hd]
  · have hnat : newRef.toNat ≠ ref := by omega
    obtain ⟨ctx', hloop, S', -, hnew, hother, hedges⟩ := replaceLoop_lists hnat (ctx.useLists ref).count ctx 0
      V.sound (Nat.zero_add _).symm fun x => (V.count ref x href).symm
    rw [Nat.zero_add] at hloop
    refine ⟨ctx', hloop, hclear ctx' S' (fun x => by rw [hedges, if_pos rfl]) fun d x hd h => ?_⟩
    rw [hedges, if_neg h, ← V.count d x hd]
    by_cases hdn : d = newRef.toNat
    · rw [if_pos hdn, hdn, hnew, List.count_append]
    · rw [if_neg hdn, hother d hdn]
      rfl

/-! ## Runs -/

/-- A change of the operands and the use lists of a context: `ir_update_op` on an input edge,
`ir_replace` with the list of the replaced instruction cleared, or any new instructions whose edges
differ from the old ones as operations on the lists say. -/
inductive Step (ctx : Ctx) : Ctx → Prop
  | updateOp (u idx : ℕ) (newVal : ℤ) : u ∈ ctx.insns.heads → 1 ≤ idx →
      idx ≤ ctx.insns.inputsCount u → Step ctx (updateOp ctx u idx newVal)
  | replace (ref : ℕ) (newRef : ℤ) (ctx' : Ctx) : 0 < ref → newRef ≠ ref →
      Uses.replace ctx ref newRef = some ctx' → Step ctx (clearUses ctx' ref)
  | mirror (I : Insns) (ops : List ListOp) : (∀ op ∈ ops, op.Valid) →
      (∀ d u, 0 < d → I.edgeCount d u = ops.foldl ListOp.effects ctx.insns.edgeCount d u) →
      Step ctx { ops.foldl ListOp.apply ctx with insns := I }

theorem Inverse.step {ctx ctx' : Ctx} (V : Inverse ctx) (h : Step ctx ctx') : Inverse ctx' := by
  cases h with
  | updateOp u idx newVal hu h1 hidx => exact V.updateOp hu h1 hidx
  | replace ref newRef ctx₁ href hne hrun =>
    obtain ⟨ctx₂, hrun', hinv⟩ := V.replace href hne
    rw [hrun] at hrun'
    cases hrun'
    exact hinv
  | mirror I ops hvalid hedges =>
    obtain ⟨S, hcount⟩ := ListOp.count_foldl V.sound hvalid
    refine ⟨S.withInsns I, fun d u hd => ?_⟩
    show ((ops.foldl ListOp.apply ctx).uses d).count u = I.edgeCount d u
    rw [hcount, hedges d u hd]
    exact ListOp.foldl_effects_congr V.count d u hd

theorem Inverse.run {ctx ctx' : Ctx} (V : Inverse ctx) (h : Relation.ReflTransGen Step ctx ctx') :
    Inverse ctx' := by
  induction h with
  | refl => exact V
  | tail _ hstep ih => exact ih.step hstep

/-- `ir_build_def_use_lists` returns on every instruction stream, and in every state that a run of
changes reaches from there the use lists are the inverse of the edges and `ir_replace` returns. -/
theorem inverse_of_run {I : Insns} (hI : I.InRange) (linked₀ : ℕ → ℤ) (edges₀ : ℕ → ℕ) :
    ∃ ctx₀, buildDefUseLists I linked₀ edges₀ = some ctx₀ ∧
      ∀ ctx, Relation.ReflTransGen Step ctx₀ ctx → Inverse ctx ∧
        ∀ (ref : ℕ) (newRef : ℤ), 0 < ref → newRef ≠ ref → (replace ctx ref newRef).isSome := by
  obtain ⟨ctx₀, hbuild, S, hcount⟩ := build_spec hI linked₀ edges₀
  refine ⟨ctx₀, hbuild, fun ctx hrun => ?_⟩
  have V : Inverse ctx := Inverse.run ⟨S, hcount⟩ hrun
  refine ⟨V, fun ref newRef href hne => ?_⟩
  obtain ⟨ctx', h, -⟩ := V.replace href hne
  rw [h]
  rfl

/-- `start; x = param; y = x + x; return y`. -/
def doubleInsns : Insns where
  op := fun i => [.nop, .start, .param, .add, .ret].getD i .nop
  inputsCount := fun _ => 0
  word := fun w => [0, 0, 0, 0, 0, 0, 0, 0, 0, 1, 0, 0, 0, 2, 2, 0, 0, 1, 3, 0].getD w 0
  insnsCount := 5

theorem doubleInsns_inverse :
    ∃ ctx₀ ctx, buildDefUseLists doubleInsns (fun _ => 0) (fun _ => 0) = some ctx₀ ∧
      replace ctx₀ 2 (-1) = some ctx ∧ Inverse (clearUses ctx 2) := by
  have hrange : doubleInsns.InRange := by
    unfold Insns.InRange
    decide
  obtain ⟨ctx₀, hbuild, hrun⟩ := inverse_of_run hrange (fun _ => 0) (fun _ => 0)
  obtain ⟨ctx, hreplace⟩ := Option.isSome_iff_exists.mp
    ((hrun ctx₀ .refl).2 2 (-1) (by decide) (by decide))
  have hstep := Step.replace 2 (-1) ctx (by decide) (by decide) hreplace
  exact ⟨ctx₀, ctx, hbuild, hreplace, (hrun _ (.single hstep)).1⟩

end IrJit.Uses
