import IrJit.Cfg.Layout

/-!
# Cfg.LayoutSpec — when the code follows the edges

Falling through is right when all blocks passed over up to the next one have no code.  They are empty, but
those that are `ENTRY` blocks are emitted: each must have an empty prologue and no jump of its own.
-/

namespace IrJit.Cfg.Blocks

open FallThrough

/-- What `ir_build_cfg` says about the ends of blocks.  The C back end does not know `ENTRY`. -/
structure Shape (c : Blocks) (backend : Backend) : Prop where
  no_entry : backend = .c → ∀ b, c.graph.isEntry b = false
  end_successors : ∀ b, 1 ≤ b → b ≤ c.blocksCount → c.endOp b = .endOp ∨ c.endOp b = .loopEnd →
    c.graph.successors b ≠ []
  if_successors : ∀ b, 1 ≤ b → b ≤ c.blocksCount → c.endOp b = .ifOp →
    ∃ s s', (c.graph.successors b = [s, s'] ∨ c.graph.successors b = [s', s]) ∧
      c.startOp s = .ifTrue ∧ c.startOp s' = .ifFalse
  switch_successors : ∀ b, c.endOp b = .switch → ∀ y ∈ c.graph.successors b,
    c.startOp y = .caseVal ∨ c.startOp y = .caseRange ∨ c.startOp y = .caseDefault
  goto_successors : ∀ b, c.endOp b = .igoto ∨ c.endOp b = .ijmp → ∀ y ∈ c.graph.successors b,
    c.startOp y = .beginOp ∧ c.startOp2 y ≠ 0

/-- What both ways to mark blocks ensure. -/
def Marked (c : Blocks) : Prop :=
  ∀ b, c.isEmpty b = true → (c.endOp b = .endOp ∨ c.endOp b = .loopEnd) ∧ ∃ y, c.graph.successors b = [y]

theorem mark_marked (c : Blocks) (backend : Backend) (onlyEnd dessaMoves : ℕ → Bool) :
    (c.mark backend onlyEnd dessaMoves).Marked := by
  intro b hb
  show (c.endOp b = _ ∨ c.endOp b = _) ∧ ∃ y, c.graph.successors b = [y]
  cases backend with
  | x86 =>
    simp only [mark, matchEmpty, Bool.and_eq_true, beq_iff_eq, Bool.or_eq_true] at hb
    exact ⟨hb.1.1.1.1.2, List.length_eq_one_iff.mp hb.1.1.1.1.1⟩
  | c =>
    simp only [mark, cEmpty, Bool.and_eq_true, beq_iff_eq, Bool.or_eq_true] at hb
    exact ⟨hb.1.2, List.length_eq_one_iff.mp hb.1.1.2⟩

variable {c : Blocks} {backend : Backend} {entryCode : ℕ → Bool} {schedule : Option (List ℕ)}
variable {a b e p prev t t' y : ℕ} {fuel : ℕ} {l pre rest : List ℕ} {code : List (Item ℕ)}

/-! ## Targets -/

theorem Marked.successor (M : c.Marked) (h : c.isEmpty b = true) : c.graph.successors b = [c.successor b] := by
  obtain ⟨_, y, hy⟩ := M b h
  unfold Blocks.successor
  rw [hy]
  rfl

theorem isEmpty_of_emptyBlock (h : c.emptyBlock b = true) : c.isEmpty b = true := by
  simp only [emptyBlock, Bool.and_eq_true] at h
  exact h.1.1

theorem FirstNonEmpty.refl (h : c.emptyBlock y = false) : c.FirstNonEmpty y y :=
  ⟨0, rfl, h, fun j hj => absurd hj (Nat.not_lt_zero j)⟩

theorem FirstNonEmpty.step (he : c.emptyBlock y = true) (h : c.FirstNonEmpty (c.successor y) t) :
    c.FirstNonEmpty y t := by
  obtain ⟨k, hk, ht, hlt⟩ := h
  refine ⟨k + 1, hk, ht, fun j hj => ?_⟩
  cases j with
  | zero => exact he
  | succ j => exact hlt j (by omega)

theorem FirstNonEmpty.unique (h : c.FirstNonEmpty y t) (h' : c.FirstNonEmpty y t') : t = t' := by
  obtain ⟨k, hk, ht, hlt⟩ := h
  obtain ⟨k', hk', ht', hlt'⟩ := h'
  have hkk : k = k' := by
    rcases Nat.lt_trichotomy k k' with h | h | h
    · have := hlt' k h
      rw [hk, ht] at this
      exact absurd this Bool.false_ne_true
    · exact h
    · have := hlt k' h
      rw [hk', ht'] at this
      exact absurd this Bool.false_ne_true
  rw [← hk, ← hk', hkk]

theorem FirstNonEmpty.nonEmpty (h : c.FirstNonEmpty y t) : c.emptyBlock t = false := by
  obtain ⟨k, _, ht, _⟩ := h
  exact ht

theorem FirstNonEmpty.ends (h : c.FirstNonEmpty y t) : c.Ends y := by
  obtain ⟨k, hk, ht, _⟩ := h
  exact ⟨k, by rw [hk]; exact ht⟩

/-- A first block that is not `y` itself comes after an empty block. -/
theorem FirstNonEmpty.last (M : c.Marked) (h : c.FirstNonEmpty y t) :
    t = y ∨ ∃ q ∈ c.graph.predecessors t, c.emptyBlock q = true := by
  obtain ⟨k, hk, _, hlt⟩ := h
  cases k with
  | zero => exact Or.inl hk.symm
  | succ k =>
    have he := hlt k (Nat.lt_succ_self k)
    refine Or.inr ⟨c.successor^[k] y, ?_, he⟩
    rw [← c.graph.mem_successors, M.successor (isEmpty_of_emptyBlock he), ← hk, Function.iterate_succ_apply']
    exact List.mem_singleton_self _

theorem FirstNonEmpty.range (M : c.Marked) (h : c.FirstNonEmpty y t) (hy : 1 ≤ y ∧ y ≤ c.blocksCount) :
    1 ≤ t ∧ t ≤ c.blocksCount := by
  rcases h.last M with rfl | ⟨q, hq, _⟩
  · exact hy
  · exact (c.graph.pred_range t q hq).2

theorem skipEmptyBlocks_first (h : c.skipEmptyBlocks fuel y = some t) : c.FirstNonEmpty y t := by
  induction fuel generalizing y with
  | zero => simp [skipEmptyBlocks] at h
  | succ fuel ih =>
    rw [skipEmptyBlocks] at h
    by_cases he : c.emptyBlock y = true
    · rw [if_pos he] at h
      exact FirstNonEmpty.step he (ih h)
    · rw [if_neg he, Option.some.injEq] at h
      rw [Bool.not_eq_true] at he
      rw [← h]
      exact FirstNonEmpty.refl he

/-- One number of steps is enough for finitely many targets. -/
theorem exists_fuel {ys : List ℕ} (h : ∀ y ∈ ys, c.Ends y) :
    ∃ fuel, ∀ y ∈ ys, ∃ t, c.skipEmptyBlocks fuel y = some t := by
  have hbound : ∃ bound, ∀ y ∈ ys, ∃ k < bound, c.emptyBlock (c.successor^[k] y) = false := by
    induction ys with
    | nil => exact ⟨0, fun y hy => by simp at hy⟩
    | cons a ys ih =>
      obtain ⟨bound, hb⟩ := ih fun y hy => h y (List.mem_cons_of_mem a hy)
      obtain ⟨k, hk⟩ := h a List.mem_cons_self
      refine ⟨max bound (k + 1), fun y hy => ?_⟩
      rcases List.mem_cons.mp hy with rfl | hy
      · exact ⟨k, by omega, hk⟩
      · obtain ⟨k', hk', he⟩ := hb y hy
        exact ⟨k', by omega, he⟩
  obtain ⟨bound, hb⟩ := hbound
  refine ⟨bound, fun y hy => ?_⟩
  obtain ⟨k, hk, he⟩ := hb y hy
  exact skipEmptyBlocks_isSome he hk

/-! ## The next block -/

theorem firstNumbered_eq (left : ℕ) : c.firstNumbered left b = c.firstKept (List.range' b left) := by
  induction left generalizing b with
  | zero => rfl
  | succ left ih => rw [firstNumbered, List.range'_succ, firstKept, ih]

/-- `ir_next_block` is the first block kept behind position `b`, with a schedule and without. -/
theorem nextBlock_eq : c.nextBlock schedule b = c.firstKept ((c.order schedule).drop b) := by
  cases schedule with
  | some l => rfl
  | none =>
    show c.firstNumbered _ _ = c.firstKept ((List.range' 1 c.blocksCount).drop b)
    rw [firstNumbered_eq, List.drop_range', Nat.mul_one, Nat.add_comm]

theorem passedOver_of_emptyBlock (h : c.emptyBlock b = true) : c.passedOver b = true := by
  simp only [emptyBlock, Bool.and_eq_true] at h
  simp only [passedOver, Bool.and_eq_true]
  exact h.1

theorem not_emptyBlock_of_kept (h : c.passedOver b = false) : c.emptyBlock b = false := by
  by_contra he
  rw [Bool.not_eq_false] at he
  rw [passedOver_of_emptyBlock he] at h
  exact absurd h.symm Bool.false_ne_true

/-- The block that is passed over but emitted is an empty `ENTRY`. -/
theorem entry_of_passedOver (h : c.passedOver b = true) (he : c.emptyBlock b = false) :
    c.graph.isEntry b = true := by
  simp only [passedOver, Bool.and_eq_true] at h
  simpa [emptyBlock, h.1, h.2] using he

theorem firstKept_spec (h : c.firstKept l ≠ 0) : c.firstKept l ∈ l ∧ c.passedOver (c.firstKept l) = false := by
  induction l with
  | nil => exact absurd rfl h
  | cons b rest ih =>
    rw [firstKept] at h ⊢
    by_cases hb : c.passedOver b = true
    · rw [if_pos hb] at h ⊢
      exact ⟨List.mem_cons_of_mem b (ih h).1, (ih h).2⟩
    · rw [if_neg hb]
      rw [Bool.not_eq_true] at hb
      exact ⟨List.mem_cons_self, hb⟩

/-! ## The ends of blocks -/

/-- Control can fall through at the end of the block. -/
def FallsThrough (c : Blocks) (b : ℕ) : Prop := c.endOp b = .endOp ∨ c.endOp b = .loopEnd ∨ c.endOp b = .ifOp

/-- The end of a block leads to `t` along `y` by a jump. -/
def Jumps (branch : List (Item ℕ)) (y t : ℕ) : Prop :=
  ∀ silent code rest, leavesTo silent code y t (branch ++ rest) = code.contains (.label t)

/-- The end of a block leads to `t` along `y` by falling through. -/
def Falls (branch : List (Item ℕ)) (y t : ℕ) : Prop :=
  ∀ silent code rest, Starts rest → leavesTo silent code y t (branch ++ rest) = passesTo silent t rest

theorem emitTable_some {target : ℕ → Option ℕ} {ys : List ℕ} {items : List (Item ℕ)}
    (h : emitTable target ys = some items) :
    ∃ f : ℕ → ℕ, items = ys.map (fun y => .jcc y (f y)) ∧ ∀ y ∈ ys, target y = some (f y) := by
  refine ⟨fun y => (target y).getD 0, ?_⟩
  induction ys generalizing items with
  | nil =>
    rw [emitTable, Option.some.injEq] at h
    exact ⟨h.symm, fun y hy => by simp at hy⟩
  | cons a ys ih =>
    simp only [emitTable, Option.bind_eq_bind, Option.bind_eq_some_iff, Option.some.injEq] at h
    obtain ⟨t, ht, tail, htail, rfl⟩ := h
    obtain ⟨hmap, hall⟩ := ih htail
    refine ⟨by simp [hmap, ht], fun y hy => ?_⟩
    rcases List.mem_cons.mp hy with rfl | hy
    · simp [ht]
    · exact hall y hy

theorem emitTable_jumps {target : ℕ → Option ℕ} {ys : List ℕ} {items : List (Item ℕ)}
    (h : emitTable target ys = some items) (hy : y ∈ ys) : ∃ t, target y = some t ∧ Jumps items y t := by
  obtain ⟨f, rfl, hf⟩ := emitTable_some h
  refine ⟨f y, hf y hy, fun silent code rest => ?_⟩
  rw [leavesTo_table f hy, beq_self_eq_true, Bool.true_and]

theorem emitTable_isSome {target : ℕ → Option ℕ} {ys : List ℕ} (h : ∀ y ∈ ys, ∃ t, target y = some t) :
    ∃ items, emitTable target ys = some items := by
  induction ys with
  | nil => exact ⟨[], rfl⟩
  | cons a ys ih =>
    obtain ⟨t, ht⟩ := h a List.mem_cons_self
    obtain ⟨items, hitems⟩ := ih fun y hy => h y (List.mem_cons_of_mem a hy)
    exact ⟨.jcc a t :: items, by simp [emitTable, ht, hitems]⟩

/-- An `END` falls through exactly when its target is the next block. -/
theorem emitEnd_spec {next : ℕ} {branch : List (Item ℕ)} (h : c.emitEnd backend fuel b next = some branch) :
    ∃ t, c.skipEmptyBlocks fuel (c.endSuccessor backend b) = some t ∧
      (t = next ∧ branch = [] ∨ t ≠ next ∧ branch = [.jmp t]) := by
  simp only [emitEnd, Option.bind_eq_bind, Option.bind_eq_some_iff, Option.some.injEq] at h
  obtain ⟨t, ht, rfl⟩ := h
  refine ⟨t, ht, ?_⟩
  by_cases hn : t = next
  · exact Or.inl ⟨hn, by rw [if_neg (not_not.mpr hn)]⟩
  · exact Or.inr ⟨hn, by rw [if_pos hn]⟩

theorem emitIf_spec {next : ℕ} {branch : List (Item ℕ)} (h : c.emitIf fuel b next = some branch) :
    ∃ t f, c.skipEmptyBlocks fuel (c.ifSuccessors b).1 = some t ∧
      c.skipEmptyBlocks fuel (c.ifSuccessors b).2 = some f ∧
      branch = (if t = next then [.jcc (c.ifSuccessors b).2 f]
        else if f = next then [.jcc (c.ifSuccessors b).1 t]
        else [.jcc (c.ifSuccessors b).1 t, .jmp f]) := by
  simp only [emitIf, trueFalseBlocks, Option.bind_eq_bind, Option.bind_eq_some_iff, Option.some.injEq] at h
  obtain ⟨⟨t, f⟩, ⟨t', ht', f', hf', heq⟩, rfl⟩ := h
  rw [Prod.mk.injEq] at heq
  obtain ⟨rfl, rfl⟩ := heq
  exact ⟨t', f', ht', hf', rfl⟩

/-- The successors of an `IF` in their order, told apart by what they start with. -/
theorem Shape.ifSuccessors (S : c.Shape backend) (hb : 1 ≤ b ∧ b ≤ c.blocksCount) (h : c.endOp b = .ifOp) :
    (c.ifSuccessors b).1 ∈ c.graph.successors b ∧ (c.ifSuccessors b).2 ∈ c.graph.successors b ∧
      (c.ifSuccessors b).1 ≠ (c.ifSuccessors b).2 := by
  obtain ⟨s, s', hs, h1, h2⟩ := S.if_successors b hb.1 hb.2 h
  have hne : s ≠ s' := by
    rintro rfl
    rw [h1] at h2
    exact IrOp.noConfusion h2
  have hop : c.startOp s' ≠ .ifTrue := by
    rw [h2]
    exact IrOp.noConfusion
  rcases hs with hs | hs
  · simp [Blocks.ifSuccessors, hs, h1, hne]
  · simp [Blocks.ifSuccessors, hs, hop, hne]

theorem Shape.endSuccessor_mem (S : c.Shape backend) (hb : 1 ≤ b ∧ b ≤ c.blocksCount)
    (h : c.endOp b = .endOp ∨ c.endOp b = .loopEnd) : c.endSuccessor backend b ∈ c.graph.successors b := by
  have hne := S.end_successors b hb.1 hb.2 h
  have hhead : c.successor b ∈ c.graph.successors b := by
    unfold Blocks.successor
    obtain ⟨y, ys, hys⟩ := List.exists_cons_of_ne_nil hne
    rw [hys]
    exact List.mem_cons_self
  unfold endSuccessor
  split
  · rename_i s s' hs
    rw [hs]
    split
    · exact List.mem_cons_of_mem s List.mem_cons_self
    · exact List.mem_cons_self
  · exact hhead

theorem Shape.exits_mem (S : c.Shape backend) (hb : 1 ≤ b ∧ b ≤ c.blocksCount) (hy : y ∈ c.exits backend b) :
    y ∈ c.graph.successors b := by
  unfold exits at hy
  split at hy
  · rw [List.mem_singleton.mp hy]
    exact S.endSuccessor_mem hb (Or.inl (by assumption))
  · rw [List.mem_singleton.mp hy]
    exact S.endSuccessor_mem hb (Or.inr (by assumption))
  · obtain ⟨h1, h2, _⟩ := S.ifSuccessors hb (by assumption)
    rcases List.mem_cons.mp hy with rfl | hy
    · exact h1
    · rw [List.mem_singleton.mp hy]
      exact h2
  · exact hy
  · exact hy
  · exact hy
  · simp at hy

/-- Does the way out go through a label address in C? -/
def ByAddress (c : Blocks) (backend : Backend) (b : ℕ) : Prop :=
  backend = .c ∧ (c.endOp b = .igoto ∨ c.endOp b = .ijmp)

/-- How the end of a block leads along `y`: to its target, by falling through only when this is the next block.
When both ways of an `IF` lead to the next block, the true one falls through. -/
theorem emitBranch_spec (S : c.Shape backend) (hb : 1 ≤ b ∧ b ≤ c.blocksCount) {next : ℕ}
    {branch : List (Item ℕ)} (h : c.emitBranch backend fuel b next = some branch)
    (hy : y ∈ c.exits backend b) (hc : ¬ c.ByAddress backend b) :
    ∃ t, c.FirstNonEmpty y t ∧
      ((t = next ∧ c.FallsThrough b ∧ Falls branch y t) ∨
        (Jumps branch y t ∧ (c.FallsThrough b → t = next →
          ∃ y' ∈ c.exits backend b, y' ≠ y ∧ c.FirstNonEmpty y' next ∧ Falls branch y' next))) := by
  have hend : c.endOp b = .endOp ∨ c.endOp b = .loopEnd → ∃ t, c.FirstNonEmpty y t ∧
      ((t = next ∧ c.FallsThrough b ∧ Falls branch y t) ∨
        (Jumps branch y t ∧ (c.FallsThrough b → t = next →
          ∃ y' ∈ c.exits backend b, y' ≠ y ∧ c.FirstNonEmpty y' next ∧ Falls branch y' next))) := by
    intro hop
    have hemit : c.emitEnd backend fuel b next = some branch := by
      rcases hop with hop | hop
      all_goals
        simp only [emitBranch, hop] at h
        exact h
    have hy' : y = c.endSuccessor backend b := by
      rcases hop with hop | hop
      all_goals
        rw [exits, hop] at hy
        exact List.mem_singleton.mp hy
    obtain ⟨t, ht, ⟨hn, rfl⟩ | ⟨hn, rfl⟩⟩ := emitEnd_spec hemit
    · rw [← hy'] at ht
      refine ⟨t, skipEmptyBlocks_first ht, Or.inl ⟨hn, ?_, fun silent code rest hs => ?_⟩⟩
      · exact hop.imp id Or.inl
      · exact leavesTo_starts hs
    · rw [← hy'] at ht
      refine ⟨t, skipEmptyBlocks_first ht, Or.inr ⟨fun silent code rest => ?_, fun _ ht => absurd ht hn⟩⟩
      rw [List.singleton_append, leavesTo_jmp, beq_self_eq_true, Bool.true_and]
  have htable : ∀ {ys : List ℕ}, emitTable (c.skipEmptyBlocks fuel) ys = some branch → y ∈ ys →
      ¬ c.FallsThrough b → ∃ t, c.FirstNonEmpty y t ∧
      ((t = next ∧ c.FallsThrough b ∧ Falls branch y t) ∨
        (Jumps branch y t ∧ (c.FallsThrough b → t = next →
          ∃ y' ∈ c.exits backend b, y' ≠ y ∧ c.FirstNonEmpty y' next ∧ Falls branch y' next))) := by
    intro ys hemit hys hop
    obtain ⟨t, ht, hjumps⟩ := emitTable_jumps hemit hys
    exact ⟨t, skipEmptyBlocks_first ht, Or.inr ⟨hjumps, fun hf => absurd hf hop⟩⟩
  cases hop : c.endOp b with
  | endOp => exact hend (Or.inl hop)
  | loopEnd => exact hend (Or.inr hop)
  | switch =>
    simp only [emitBranch, hop] at h
    rw [exits, hop] at hy
    exact htable h hy (by simp [FallsThrough, hop])
  | igoto =>
    simp only [emitBranch, hop] at h
    rw [exits, hop] at hy
    cases backend with
    | x86 => exact htable h hy (by simp [FallsThrough, hop])
    | c => exact absurd ⟨rfl, Or.inl hop⟩ hc
  | ijmp =>
    simp only [emitBranch, hop] at h
    rw [exits, hop] at hy
    cases backend with
    | x86 => exact htable h hy (by simp [FallsThrough, hop])
    | c => exact absurd ⟨rfl, Or.inr hop⟩ hc
  | ifOp =>
    simp only [emitBranch, hop] at h
    obtain ⟨_, _, hne⟩ := S.ifSuccessors hb hop
    obtain ⟨t, f, ht, hf, rfl⟩ := emitIf_spec h
    have htrue : ∀ {s' f t : ℕ}, (c.ifSuccessors b).1 = y → s' ≠ y → Falls [.jcc s' f] y t := by
      intro s' f t hs hs' silent code rest hrest
      rw [List.singleton_append, leavesTo_jcc, if_neg hs']
      exact leavesTo_starts hrest
    rw [exits, hop] at hy
    rcases List.mem_cons.mp hy with rfl | hy
    · -- the true way
      refine ⟨t, skipEmptyBlocks_first ht, ?_⟩
      by_cases hn : t = next
      · rw [if_pos hn]
        exact Or.inl ⟨hn, Or.inr (Or.inr hop), htrue rfl hne.symm⟩
      · refine Or.inr ⟨fun silent code rest => ?_, fun _ h => absurd h hn⟩
        rw [if_neg hn]
        split
        · simp
        · simp
    · -- the false way
      rw [List.mem_singleton] at hy
      subst hy
      refine ⟨f, skipEmptyBlocks_first hf, ?_⟩
      by_cases hn : t = next
      · rw [if_pos hn]
        refine Or.inr ⟨fun silent code rest => ?_, fun _ _ => ?_⟩
        · simp
        · refine ⟨(c.ifSuccessors b).1, by rw [exits, hop]; exact List.mem_cons_self, hne, ?_, ?_⟩
          · rw [← hn]
            exact skipEmptyBlocks_first ht
          · intro silent code rest hrest
            rw [List.singleton_append, leavesTo_jcc, if_neg hne.symm]
            exact leavesTo_starts hrest
      · rw [if_neg hn]
        by_cases hfn : f = next
        · rw [if_pos hfn]
          refine Or.inl ⟨hfn, Or.inr (Or.inr hop), fun silent code rest hrest => ?_⟩
          rw [List.singleton_append, leavesTo_jcc, if_neg hne]
          exact leavesTo_starts hrest
        · rw [if_neg hfn]
          refine Or.inr ⟨fun silent code rest => ?_, fun _ h => absurd h hfn⟩
          simp [hne]
  | _ =>
    rw [exits, hop] at hy
    simp at hy

/-- The end of a block consists of jumps. -/
theorem emitBranch_no_body {next : ℕ} {branch : List (Item ℕ)}
    (h : c.emitBranch backend fuel b next = some branch) : Item.body a ∉ branch := by
  have htable : ∀ {target : ℕ → Option ℕ} {ys : List ℕ}, emitTable target ys = some branch →
      Item.body a ∉ branch := by
    intro target ys hemit
    obtain ⟨f, rfl, _⟩ := emitTable_some hemit
    simp
  unfold emitBranch at h
  split at h
  · obtain ⟨t, _, ⟨_, rfl⟩ | ⟨_, rfl⟩⟩ := emitEnd_spec h
    all_goals simp
  · obtain ⟨t, _, ⟨_, rfl⟩ | ⟨_, rfl⟩⟩ := emitEnd_spec h
    all_goals simp
  · obtain ⟨t, f, _, _, rfl⟩ := emitIf_spec h
    split_ifs
    all_goals simp
  · exact htable h
  · split at h
    all_goals exact htable h
  · split at h
    all_goals exact htable h
  · rw [Option.some.injEq] at h
    simp [← h]

theorem emitBranch_isSome {next : ℕ} (h : ∀ y ∈ c.exits backend b, ∃ t, c.skipEmptyBlocks fuel y = some t) :
    ∃ branch, c.emitBranch backend fuel b next = some branch := by
  have hc : ∀ {ys : List ℕ}, ∃ items, emitTable some ys = some items :=
    emitTable_isSome fun y _ => ⟨y, rfl⟩
  unfold exits at h
  unfold emitBranch
  split
  · rename_i hop
    simp only [hop] at h
    obtain ⟨t, ht⟩ := h _ (List.mem_singleton_self _)
    simp [emitEnd, ht]
  · rename_i hop
    simp only [hop] at h
    obtain ⟨t, ht⟩ := h _ (List.mem_singleton_self _)
    simp [emitEnd, ht]
  · rename_i hop
    simp only [hop] at h
    obtain ⟨t, ht⟩ := h _ List.mem_cons_self
    obtain ⟨f, hf⟩ := h _ (List.mem_cons_of_mem _ (List.mem_singleton_self _))
    simp [emitIf, trueFalseBlocks, ht, hf]
  · rename_i hop
    simp only [hop] at h
    exact emitTable_isSome h
  · rename_i hop
    simp only [hop] at h
    cases backend with
    | x86 => exact emitTable_isSome h
    | c => exact hc
  · rename_i hop
    simp only [hop] at h
    cases backend with
    | x86 => exact emitTable_isSome h
    | c => exact hc
  · exact ⟨[], rfl⟩

/-! ## The loop over the blocks -/

theorem emitBlocks_empty (he : c.emptyBlock b = true) :
    c.emitBlocks backend entryCode schedule fuel p prev (b :: rest)
      = c.emitBlocks backend entryCode schedule fuel (p + 1) prev rest := by
  rw [emitBlocks, if_pos he]

theorem emitBlocks_cons (he : c.emptyBlock b = false)
    (h : c.emitBlocks backend entryCode schedule fuel p prev (b :: rest) = some code) :
    ∃ branch tail, c.emitBranch backend fuel b (c.nextBlock schedule p) = some branch ∧
      c.emitBlocks backend entryCode schedule fuel (p + 1) b rest = some tail ∧
      code = c.blockStart backend entryCode prev b ++ .body b :: (branch ++ tail) := by
  rw [emitBlocks, if_neg (by simp [he])] at h
  simp only [Option.bind_eq_bind, Option.bind_eq_some_iff, Option.some.injEq] at h
  obtain ⟨branch, hbranch, tail, htail, rfl⟩ := h
  exact ⟨branch, tail, hbranch, htail, rfl⟩

theorem blockStart_no_body : Item.body a ∉ c.blockStart backend entryCode prev b := by
  unfold blockStart
  split_ifs
  all_goals simp

theorem emitBlocks_starts (h : c.emitBlocks backend entryCode schedule fuel p prev l = some code) :
    Starts code := by
  induction l generalizing p prev code with
  | nil =>
    rw [emitBlocks, Option.some.injEq] at h
    rw [← h]
    trivial
  | cons b rest ih =>
    cases he : c.emptyBlock b with
    | true =>
      rw [emitBlocks_empty he] at h
      exact ih h
    | false =>
      obtain ⟨branch, tail, _, _, rfl⟩ := emitBlocks_cons he h
      unfold blockStart
      split_ifs
      all_goals trivial

/-- Where a block stands: its body, its end, and the blocks behind it. -/
theorem emitBlocks_split (he : c.emptyBlock b = false) (hnd : (pre ++ b :: rest).Nodup)
    (h : c.emitBlocks backend entryCode schedule fuel p prev (pre ++ b :: rest) = some code) :
    ∃ branch tail, c.emitBranch backend fuel b (c.nextBlock schedule (p + pre.length)) = some branch ∧
      c.emitBlocks backend entryCode schedule fuel (p + pre.length + 1) b rest = some tail ∧
      afterBody b code = branch ++ tail := by
  induction pre generalizing p prev code with
  | nil =>
    obtain ⟨branch, tail, hbranch, htail, rfl⟩ := emitBlocks_cons he h
    exact ⟨branch, tail, hbranch, htail, afterBody_append blockStart_no_body⟩
  | cons a pre ih =>
    rw [List.cons_append] at h hnd
    rw [List.nodup_cons] at hnd
    rw [List.length_cons, show p + (pre.length + 1) = p + 1 + pre.length by omega]
    cases ha : c.emptyBlock a with
    | true =>
      rw [emitBlocks_empty ha] at h
      exact ih hnd.2 h
    | false =>
      obtain ⟨branch, tail, hbranch, htail, rfl⟩ := emitBlocks_cons ha h
      obtain ⟨branch', tail', hbranch', htail', hafter⟩ := ih hnd.2 htail
      refine ⟨branch', tail', hbranch', htail', ?_⟩
      have hab : b ≠ a := by
        rintro rfl
        exact hnd.1 (List.mem_append_right pre List.mem_cons_self)
      rw [← hafter, ← List.cons_append, ← List.append_assoc]
      refine afterBody_skip fun hmem => ?_
      rcases List.mem_append.mp hmem with hmem | hmem
      · exact blockStart_no_body hmem
      · rcases List.mem_cons.mp hmem with hmem | hmem
        · exact hab (Item.body.inj hmem)
        · exact emitBranch_no_body hbranch hmem

/-- The block emitted last on a list. -/
def lastEmitted (c : Blocks) (prev : ℕ) (l : List ℕ) : ℕ :=
  l.foldl (fun prev b => if c.emptyBlock b then prev else b) prev

theorem emitBlocks_label (he : c.emptyBlock b = false)
    (h : c.emitBlocks backend entryCode schedule fuel p prev (pre ++ b :: rest) = some code)
    (hl : c.labelled backend (c.lastEmitted prev pre) b = true) : Item.label b ∈ code := by
  induction pre generalizing p prev code with
  | nil =>
    obtain ⟨branch, tail, _, _, rfl⟩ := emitBlocks_cons he h
    have hl : c.labelled backend prev b = true := hl
    simp [blockStart, hl]
  | cons a pre ih =>
    rw [List.cons_append] at h
    cases ha : c.emptyBlock a with
    | true =>
      rw [emitBlocks_empty ha] at h
      refine ih h ?_
      simpa [lastEmitted, ha] using hl
    | false =>
      obtain ⟨branch, tail, _, htail, rfl⟩ := emitBlocks_cons ha h
      have hmem : Item.label b ∈ tail := ih htail (by simpa [lastEmitted, ha] using hl)
      simp [hmem]

theorem emitBlocks_isSome (h : ∀ b ∈ l, c.emptyBlock b = false → ∀ y ∈ c.exits backend b,
    ∃ t, c.skipEmptyBlocks fuel y = some t) :
    ∃ code, c.emitBlocks backend entryCode schedule fuel p prev l = some code := by
  induction l generalizing p prev with
  | nil => exact ⟨[], rfl⟩
  | cons b rest ih =>
    have hrest : ∀ b ∈ rest, c.emptyBlock b = false → ∀ y ∈ c.exits backend b,
        ∃ t, c.skipEmptyBlocks fuel y = some t := fun a ha => h a (List.mem_cons_of_mem b ha)
    cases he : c.emptyBlock b with
    | true =>
      rw [emitBlocks_empty he]
      exact ih hrest
    | false =>
      obtain ⟨branch, hbranch⟩ : ∃ branch, c.emitBranch backend fuel b (c.nextBlock schedule p) = some branch :=
        emitBranch_isSome (h b List.mem_cons_self he)
      obtain ⟨tail, htail⟩ := @ih (p + 1) b hrest
      rw [emitBlocks, if_neg (by simp [he])]
      simp [hbranch, htail]

/-! ## Falling through -/

/-- The emitted `ENTRY` blocks in front of the next block have no code. -/
def SilentEntries (c : Blocks) (entryCode : ℕ → Bool) (l : List ℕ) : Prop :=
  ∀ e ∈ l.takeWhile c.passedOver, c.graph.isEntry e = true →
    entryCode e = false ∧ c.FirstNonEmpty (c.successor e) (c.firstKept l)

/-- An empty block ends with a jump exactly when its target is not the next block. -/
theorem emptyEntry_branch (M : c.Marked) (he : c.isEmpty e = true) {next : ℕ} {branch : List (Item ℕ)}
    (h : c.emitBranch backend fuel e next = some branch) :
    ∃ t, c.FirstNonEmpty (c.successor e) t ∧ (t = next ∧ branch = [] ∨ t ≠ next ∧ branch = [.jmp t]) := by
  have hsucc : c.endSuccessor backend e = c.successor e := by
    unfold endSuccessor
    split
    · rename_i s s' hs
      rw [M.successor he] at hs
      simp at hs
    · rfl
  have hemit : c.emitEnd backend fuel e next = some branch := by
    rcases (M e he).1 with hop | hop
    all_goals
      simp only [emitBranch, hop] at h
      exact h
  obtain ⟨t, ht, hcases⟩ := emitEnd_spec hemit
  rw [hsucc] at ht
  exact ⟨t, skipEmptyBlocks_first ht, hcases⟩

theorem passes_iff (M : c.Marked) (S : c.Shape backend) {q : ℕ} (hl : (c.order schedule).drop q = l)
    (h : c.emitBlocks backend entryCode schedule fuel (q + 1) prev l = some code) (h0 : c.firstKept l ≠ 0) :
    passesTo c.isEmpty (c.firstKept l) code = true ↔ c.SilentEntries entryCode l := by
  induction l generalizing q prev code with
  | nil => exact absurd rfl h0
  | cons e rest ih =>
    have hrest : (c.order schedule).drop (q + 1) = rest := by
      rw [← List.drop_drop, hl]
      rfl
    have hx86 : c.graph.isEntry e = true → backend = .x86 := by
      intro hentry
      cases backend with
      | x86 => rfl
      | c =>
        rw [S.no_entry rfl e] at hentry
        exact absurd hentry Bool.false_ne_true
    unfold SilentEntries
    by_cases hpass : c.passedOver e = true
    · -- `e` is passed over: emitted only when it is an `ENTRY`
      rw [firstKept, if_pos hpass] at h0 ⊢
      rw [List.takeWhile_cons_of_pos hpass]
      have htail := fun prev code h => @ih prev code (q + 1) hrest h h0
      cases he : c.emptyBlock e with
      | true =>
        rw [emitBlocks_empty he] at h
        rw [htail _ _ h]
        have hentry : c.graph.isEntry e = false := by
          simp only [emptyBlock, Bool.and_eq_true, Bool.not_eq_true'] at he
          exact he.2
        simp [SilentEntries, hentry]
      | false =>
        obtain ⟨branch, tail, hbranch, hcode, rfl⟩ := emitBlocks_cons he h
        have hentry := entry_of_passedOver hpass he
        have hempty : c.isEmpty e = true := by
          simp only [passedOver, Bool.and_eq_true] at hpass
          exact hpass.1
        rw [nextBlock_eq, hrest] at hbranch
        obtain ⟨t, ht, hcases⟩ := emptyEntry_branch M hempty hbranch
        have hne : e ≠ c.firstKept rest := by
          intro heq
          rw [heq, (firstKept_spec h0).2] at hpass
          exact absurd hpass Bool.false_ne_true
        have hlab : c.labelled backend prev e = true := by rw [hx86 hentry]; rfl
        have hstep : passesTo c.isEmpty (c.firstKept rest)
            (c.blockStart backend entryCode prev e ++ .body e :: (branch ++ tail))
            = (!entryCode e && passesTo c.isEmpty (c.firstKept rest) (branch ++ tail)) := by
          unfold blockStart
          rw [if_pos hlab, hentry]
          cases entryCode e <;> simp [hne, hempty]
        rw [hstep, Bool.and_eq_true, Bool.not_eq_true', List.forall_mem_cons]
        rcases hcases with ⟨rfl, rfl⟩ | ⟨hn, rfl⟩
        · rw [List.nil_append, htail _ _ hcode]
          constructor
          · rintro ⟨h1, h2⟩
            exact ⟨fun _ => ⟨h1, ht⟩, h2⟩
          · rintro ⟨h1, h2⟩
            exact ⟨(h1 hentry).1, h2⟩
        · constructor
          · rintro ⟨_, h2⟩
            rw [List.singleton_append, passesTo_jmp] at h2
            exact absurd h2 Bool.false_ne_true
          · rintro ⟨h1, _⟩
            exact absurd (ht.unique (h1 hentry).2) hn
    · -- `e` is the next block
      rw [firstKept, if_neg hpass]
      rw [List.takeWhile_cons_of_neg hpass]
      rw [Bool.not_eq_true] at hpass
      obtain ⟨branch, tail, _, _, rfl⟩ := emitBlocks_cons (not_emptyBlock_of_kept hpass) h
      refine ⟨fun _ a ha => by simp at ha, fun _ => ?_⟩
      unfold blockStart
      cases backend with
      | x86 => simp [labelled]
      | c =>
        rw [S.no_entry rfl e]
        split <;> simp

/-! ## Labels -/

theorem lastEmitted_spec : c.lastEmitted prev l = prev ∨
    ∃ pre mid, l = pre ++ c.lastEmitted prev l :: mid ∧ c.emptyBlock (c.lastEmitted prev l) = false ∧
      ∀ x ∈ mid, c.emptyBlock x = true := by
  induction l using List.reverseRecOn with
  | nil => exact Or.inl rfl
  | append_singleton l a ih =>
    have hlast : c.lastEmitted prev (l ++ [a]) = if c.emptyBlock a then c.lastEmitted prev l else a := by
      simp [lastEmitted, List.foldl_append]
    cases ha : c.emptyBlock a with
    | true =>
      rw [hlast, if_pos ha]
      rcases ih with ih | ⟨pre, mid, hl, he, hmid⟩
      · exact Or.inl ih
      · refine Or.inr ⟨pre, mid ++ [a], ?_, he, ?_⟩
        · rw [← List.cons_append, ← List.append_assoc, ← hl]
        · intro x hx
          rcases List.mem_append.mp hx with hx | hx
          · exact hmid x hx
          · rw [List.mem_singleton.mp hx, ha]
    | false =>
      rw [hlast, if_neg (by simp [ha])]
      exact Or.inr ⟨l, [], rfl, ha, fun x hx => by simp at hx⟩

theorem firstKept_append (hmid : ∀ x ∈ pre, c.passedOver x = true) (ht : c.passedOver t = false) :
    c.firstKept (pre ++ t :: rest) = t := by
  induction pre with
  | nil => rw [List.nil_append, firstKept, if_neg (by simp [ht])]
  | cons a pre ih =>
    rw [List.cons_append, firstKept, if_pos (hmid a List.mem_cons_self)]
    exact ih fun x hx => hmid x (List.mem_cons_of_mem a hx)

/-- A block without a label in C is entered from the block emitted before it alone. -/
theorem preds_of_not_labelled (h : c.labelled .c prev t = false) (hq : e ∈ c.graph.predecessors t) :
    c.graph.predecessors t = [e] ∧ e = prev := by
  simp only [labelled, Bool.or_eq_false_iff, Bool.and_eq_false_iff, decide_eq_false_iff_not, not_lt,
    beq_eq_false_iff_ne, bne_eq_false_iff_eq] at h
  have hlen : (c.graph.predecessors t).length = 1 := by
    have := List.length_pos_of_mem hq
    omega
  obtain ⟨q, hpreds⟩ := List.length_eq_one_iff.mp hlen
  rw [hpreds] at hq h
  rw [hpreds, List.mem_singleton.mp hq]
  simpa using h.1.1.1.1.2

/-- The target of a jump gets a label. -/
theorem target_labelled (M : c.Marked) (S : c.Shape backend) (hy : y ∈ c.exits backend b)
    (hyb : y ∈ c.graph.successors b) (hfirst : c.FirstNonEmpty y t)
    (hjump : ∀ pre rest, c.order schedule = pre ++ b :: rest → c.FallsThrough b → t = c.firstKept rest →
      ∃ y' ∈ c.exits backend b, y' ≠ y ∧ c.FirstNonEmpty y' t)
    (horder : c.order schedule = pre ++ t :: rest) :
    c.labelled backend (c.lastEmitted 0 pre) t = true := by
  have hpy := (c.graph.mem_successors b y).mp hyb
  cases backend with
  | x86 => rfl
  | c =>
    by_contra hlab
    rw [Bool.not_eq_true] at hlab
    -- its only predecessor is the block emitted before it
    have hpred : ∀ q ∈ c.graph.predecessors t, q = c.lastEmitted 0 pre := fun q hq =>
      (preds_of_not_labelled hlab hq).2
    have hself : ∀ {z : ℕ}, c.FirstNonEmpty z t → t = z := by
      intro z hz
      rcases hz.last M with h | ⟨q, hq, he⟩
      · exact h
      · rcases @lastEmitted_spec c 0 pre with h0 | ⟨_, _, _, hne, _⟩
        · rw [hpred q hq, h0] at hq
          have := (c.graph.pred_range t 0 hq).1.1
          omega
        · rw [← hpred q hq, he] at hne
          exact absurd hne.symm Bool.false_ne_true
    have hty := hself hfirst
    subst hty
    have hbl := hpred b hpy
    rcases @lastEmitted_spec c 0 pre with h0 | ⟨pre', mid, hpre, _, hmid⟩
    · have := (c.graph.pred_range t b hpy).1.1
      omega
    · rw [← hbl] at hpre
      have hkept : c.firstKept (mid ++ t :: rest) = t := by
        refine firstKept_append (fun x hx => passedOver_of_emptyBlock (hmid x hx)) ?_
        by_contra hp
        rw [Bool.not_eq_false] at hp
        have := entry_of_passedOver hp hfirst.nonEmpty
        rw [S.no_entry rfl t] at this
        exact absurd this Bool.false_ne_true
      have hsplit : c.order schedule = pre' ++ b :: (mid ++ t :: rest) := by
        rw [horder, hpre]
        simp
      by_cases hfall : c.FallsThrough b
      · obtain ⟨y', hy', hne, hfirst'⟩ := hjump _ _ hsplit hfall hkept.symm
        exact hne (hself hfirst').symm
      · -- `SWITCH` and the ways through addresses: the start of the block calls for a label
        simp only [labelled, Bool.or_eq_false_iff, Bool.and_eq_false_iff, beq_eq_false_iff_ne,
          bne_eq_false_iff_eq] at hlab
        obtain ⟨⟨⟨⟨_, h1⟩, h2⟩, h3⟩, h4⟩ := hlab
        have hgoto : ¬ (c.endOp b = .igoto ∨ c.endOp b = .ijmp) := by
          intro hop
          obtain ⟨h5, h6⟩ := S.goto_successors b hop t hyb
          exact h4.elim (fun h => h h5) (fun h => h6 h)
        have hswitch : c.endOp b ≠ .switch := by
          intro hop
          rcases S.switch_successors b hop t hyb with h | h | h
          · exact h1 h
          · exact h2 h
          · exact h3 h
        simp only [FallsThrough, not_or] at hfall
        rw [not_or] at hgoto
        unfold exits at hy
        split at hy
        · exact hfall.1 (by assumption)
        · exact hfall.2.1 (by assumption)
        · exact hfall.2.2 (by assumption)
        · exact hswitch (by assumption)
        · exact hgoto.1 (by assumption)
        · exact hgoto.2 (by assumption)
        · exact List.not_mem_nil hy

/-- The target of a jump has a label. -/
theorem target_label (M : c.Marked) (S : c.Shape backend)
    (hperm : (c.order schedule).Perm (List.range' 1 c.blocksCount))
    (hcode : c.emitCode backend entryCode schedule fuel = some code) (hb : 1 ≤ b ∧ b ≤ c.blocksCount)
    (hy : y ∈ c.exits backend b) (hfirst : c.FirstNonEmpty y t)
    (hjump : ∀ pre rest, c.order schedule = pre ++ b :: rest → c.FallsThrough b → t = c.firstKept rest →
      ∃ y' ∈ c.exits backend b, y' ≠ y ∧ c.FirstNonEmpty y' t) : Item.label t ∈ code := by
  have hyb := S.exits_mem hb hy
  have hpy := (c.graph.mem_successors b y).mp hyb
  have hrange := hfirst.range M (c.graph.pred_range y b hpy).2
  have hmem : t ∈ c.order schedule := by
    rw [hperm.mem_iff, List.mem_range'_1]
    omega
  obtain ⟨pre, rest, horder⟩ := List.append_of_mem hmem
  unfold emitCode at hcode
  rw [horder] at hcode
  exact emitBlocks_label hfirst.nonEmpty hcode (target_labelled M S hy hyb hfirst hjump horder)

/-! ## The condition -/

/-- The layouts that are right. -/
structure LayoutOk (c : Blocks) (backend : Backend) (entryCode : ℕ → Bool) (schedule : Option (List ℕ)) :
    Prop where
  /-- No way leads into a cycle of empty blocks. -/
  ends : ∀ b, 1 ≤ b → b ≤ c.blocksCount → c.emptyBlock b = false → ∀ y ∈ c.exits backend b, c.Ends y
  /-- Where a block falls through, the `ENTRY` blocks in between have no code. -/
  entries : ∀ pre b rest, c.order schedule = pre ++ b :: rest → c.emptyBlock b = false → c.FallsThrough b →
    ∀ y ∈ c.exits backend b, c.FirstNonEmpty y (c.firstKept rest) → c.SilentEntries entryCode rest
  /-- In C no empty block has its address taken. -/
  addresses : ∀ b, 1 ≤ b → b ≤ c.blocksCount → c.emptyBlock b = false → c.ByAddress backend b →
    ∀ y ∈ c.exits backend b, c.emptyBlock y = false

/-- The place of a block in the order, what is emitted at its end and behind it. -/
theorem emitCode_split (hperm : (c.order schedule).Perm (List.range' 1 c.blocksCount))
    (hcode : c.emitCode backend entryCode schedule fuel = some code) (he : c.emptyBlock b = false)
    (horder : c.order schedule = pre ++ b :: rest) :
    ∃ branch tail, c.emitBranch backend fuel b (c.firstKept rest) = some branch ∧
      c.emitBlocks backend entryCode schedule fuel (pre.length + 1 + 1) b rest = some tail ∧
      (c.order schedule).drop (pre.length + 1) = rest ∧ afterBody b code = branch ++ tail := by
  have hnd : (pre ++ b :: rest).Nodup := by
    rw [← horder, hperm.nodup_iff]
    exact List.nodup_range'
  have hdrop : (c.order schedule).drop (pre.length + 1) = rest := by
    rw [horder, ← List.drop_drop, List.drop_left]
    rfl
  unfold emitCode at hcode
  rw [horder] at hcode
  obtain ⟨branch, tail, hbranch, htail, hafter⟩ := emitBlocks_split he hnd hcode
  rw [Nat.add_comm 1 pre.length] at hbranch htail
  rw [nextBlock_eq, hdrop] at hbranch
  exact ⟨branch, tail, hbranch, htail, hdrop, hafter⟩

theorem layoutOk_of_followsEdges (M : c.Marked) (S : c.Shape backend)
    (hperm : (c.order schedule).Perm (List.range' 1 c.blocksCount))
    (h : c.FollowsEdges backend entryCode schedule) : c.LayoutOk backend entryCode schedule := by
  obtain ⟨fuel, code, hcode, hedges⟩ := h
  have hrange : ∀ {pre rest b}, c.order schedule = pre ++ b :: rest → 1 ≤ b ∧ b ≤ c.blocksCount := by
    intro pre rest b horder
    have : b ∈ List.range' 1 c.blocksCount := by
      rw [← hperm.mem_iff, horder]
      exact List.mem_append_right pre List.mem_cons_self
    rw [List.mem_range'_1] at this
    omega
  constructor
  · intro b h1 hn he y hy
    obtain ⟨t, ht, _⟩ := hedges b h1 hn he y hy
    exact ht.ends
  · intro pre b rest horder he hfall y hy hfirst
    have hb := hrange horder
    have hnot : ¬ c.ByAddress backend b := by
      rintro ⟨_, hop⟩
      rcases hop with hop | hop
      all_goals simp [FallsThrough, hop] at hfall
    obtain ⟨branch, tail, hbranch, htail, hdrop, hafter⟩ := emitCode_split hperm hcode he horder
    -- some way falls through to the next block
    have hfalls : ∃ y' ∈ c.exits backend b, c.FirstNonEmpty y' (c.firstKept rest) ∧
        Falls branch y' (c.firstKept rest) := by
      obtain ⟨t, ht, ⟨hn, _, hf⟩ | ⟨_, hj⟩⟩ := emitBranch_spec S hb hbranch hy hnot
      · rw [hn] at ht hf
        exact ⟨y, hy, ht, hf⟩
      · obtain ⟨y', hy', _, hfirst', hf⟩ := hj hfall (ht.unique hfirst)
        exact ⟨y', hy', hfirst', hf⟩
    obtain ⟨y', hy', hfirst', hf⟩ := hfalls
    obtain ⟨t, ht, hleave⟩ := hedges b hb.1 hb.2 he y' hy'
    rw [ht.unique hfirst', hafter, hf _ _ _ (emitBlocks_starts htail)] at hleave
    have hy'b := S.exits_mem hb hy'
    have hpos := hfirst'.range M (c.graph.pred_range y' b ((c.graph.mem_successors b y').mp hy'b)).2
    exact (passes_iff M S hdrop htail (by omega)).mp hleave
  · intro b h1 hn he haddr y hy
    obtain ⟨t, ht, hleave⟩ := hedges b h1 hn he y hy
    have hmem : b ∈ c.order schedule := by
      rw [hperm.mem_iff, List.mem_range'_1]
      omega
    obtain ⟨pre, rest, horder⟩ := List.append_of_mem hmem
    obtain ⟨branch, tail, hbranch, _, _, hafter⟩ := emitCode_split hperm hcode he horder
    obtain ⟨f, hbr, hf⟩ : ∃ f : ℕ → ℕ, branch = (c.graph.successors b).map (fun y => .jcc y (f y)) ∧
        ∀ y ∈ c.graph.successors b, some y = some (f y) := by
      rcases haddr with ⟨rfl, hop | hop⟩
      all_goals
        simp only [emitBranch, hop] at hbranch
        exact emitTable_some hbranch
    have hyb := S.exits_mem ⟨h1, hn⟩ hy
    rw [hafter, hbr, leavesTo_table f hyb, ← Option.some.inj (hf y hyb), Bool.and_eq_true, beq_iff_eq] at hleave
    rw [hleave.1]
    exact ht.nonEmpty

theorem followsEdges_of_layoutOk (M : c.Marked) (S : c.Shape backend)
    (hperm : (c.order schedule).Perm (List.range' 1 c.blocksCount))
    (h : c.LayoutOk backend entryCode schedule) : c.FollowsEdges backend entryCode schedule := by
  obtain ⟨fuel, hfuel⟩ := @exists_fuel c
    (((c.order schedule).filter fun b => !c.emptyBlock b).flatMap (c.exits backend)) (by
      intro y hy
      obtain ⟨b, hb, hy⟩ := List.mem_flatMap.mp hy
      rw [List.mem_filter, hperm.mem_iff, List.mem_range'_1, Bool.not_eq_true'] at hb
      exact h.ends b (by omega) (by omega) hb.2 y hy)
  obtain ⟨code, hcode⟩ : ∃ code, c.emitCode backend entryCode schedule fuel = some code :=
    emitBlocks_isSome fun b hb he y hy => hfuel y (List.mem_flatMap.mpr
      ⟨b, List.mem_filter.mpr ⟨hb, by simp [he]⟩, hy⟩)
  refine ⟨fuel, code, hcode, fun b h1 hn he y hy => ?_⟩
  have hmem : b ∈ c.order schedule := by
    rw [hperm.mem_iff, List.mem_range'_1]
    omega
  obtain ⟨pre, rest, horder⟩ := List.append_of_mem hmem
  obtain ⟨branch, tail, hbranch, htail, hdrop, hafter⟩ := emitCode_split hperm hcode he horder
  have hrest : ∀ {pre' rest'}, c.order schedule = pre' ++ b :: rest' → c.firstKept rest' = c.firstKept rest := by
    intro pre' rest' horder'
    have hnd : (pre ++ b :: rest).Nodup := by
      rw [← horder, hperm.nodup_iff]
      exact List.nodup_range'
    rw [List.nodup_middle, List.nodup_cons, List.mem_append, not_or] at hnd
    rw [horder, List.append_cons_inj_of_notMem hnd.1.1 hnd.1.2] at horder'
    rw [horder'.2.2]
  rw [hafter]
  by_cases haddr : c.ByAddress backend b
  · have hy0 := h.addresses b h1 hn he haddr y hy
    have hyb := S.exits_mem ⟨h1, hn⟩ hy
    have hlabel := target_label M S hperm hcode ⟨h1, hn⟩ hy (FirstNonEmpty.refl hy0) (by
      intro _ _ _ hfall
      rcases haddr.2 with hop | hop
      all_goals simp [FallsThrough, hop] at hfall)
    obtain ⟨t, ht, hjumps⟩ : ∃ t, some y = some t ∧ Jumps branch y t := by
      rcases haddr with ⟨rfl, hop | hop⟩
      all_goals
        simp only [emitBranch, hop] at hbranch
        exact emitTable_jumps hbranch hyb
    rw [Option.some.injEq] at ht
    subst ht
    exact ⟨y, FirstNonEmpty.refl hy0, by rw [hjumps]; simpa using hlabel⟩
  · obtain ⟨t, ht, ⟨hnext, hfall, hf⟩ | ⟨hjumps, hother⟩⟩ := emitBranch_spec S ⟨h1, hn⟩ hbranch hy haddr
    · refine ⟨t, ht, ?_⟩
      have hyb := S.exits_mem ⟨h1, hn⟩ hy
      have hpos := ht.range M (c.graph.pred_range y b ((c.graph.mem_successors b y).mp hyb)).2
      rw [hf _ _ _ (emitBlocks_starts htail), hnext]
      rw [hnext] at ht hpos
      rw [passes_iff M S hdrop htail (by omega)]
      exact h.entries pre b rest horder he hfall y hy ht
    · refine ⟨t, ht, ?_⟩
      have hlabel := target_label M S hperm hcode ⟨h1, hn⟩ hy ht (by
        intro pre' rest' horder' hfall hnext
        rw [hrest horder'] at hnext
        obtain ⟨y', hy', hne, hfirst', _⟩ := hother hfall hnext
        rw [← hnext] at hfirst'
        exact ⟨y', hy', hne, hfirst'⟩)
      rw [hjumps]
      simpa using hlabel

theorem Shape.mark (S : c.Shape backend) (marker : Backend) (onlyEnd dessaMoves : ℕ → Bool) :
    (c.mark marker onlyEnd dessaMoves).Shape backend :=
  ⟨S.no_entry, S.end_successors, S.if_successors, S.switch_successors, S.goto_successors⟩

/-- The code follows the edges of a control flow graph, marked by `ir_match` or the C back end, exactly when
no way leads into a cycle of empty blocks, no block falls into the code of an `ENTRY`, and in C no empty block
has its address taken. -/
theorem layout_exact (c : Blocks) (backend : Backend) (onlyEnd dessaMoves entryCode : ℕ → Bool)
    (schedule : Option (List ℕ)) (S : c.Shape backend)
    (hperm : ∀ l, schedule = some l → l.Perm (List.range' 1 c.blocksCount)) :
    (c.mark backend onlyEnd dessaMoves).FollowsEdges backend entryCode schedule ↔
      (c.mark backend onlyEnd dessaMoves).LayoutOk backend entryCode schedule := by
  have M := c.mark_marked backend onlyEnd dessaMoves
  have horder : ((c.mark backend onlyEnd dessaMoves).order schedule).Perm (List.range' 1 c.blocksCount) := by
    cases schedule with
    | none => exact List.Perm.refl _
    | some l => exact hperm l rfl
  exact ⟨layoutOk_of_followsEdges M (S.mark backend onlyEnd dessaMoves) horder,
    followsEdges_of_layoutOk M (S.mark backend onlyEnd dessaMoves) horder⟩

/-! ### An empty `ENTRY` on the way -/

/-- Block `1` ends with an `END` to block `3`; block `2` is an `ENTRY` that goes to block `3`, too. -/
def entryGraph : Graph where
  blocksCount := 3
  predecessors b := if b = 2 then [1] else if b = 3 then [1, 2] else []
  successors b := if b = 1 then [3, 2] else if b = 2 then [3] else []
  isEntry b := b == 2
  pred_range b p h := by
    split_ifs at h
    all_goals
      simp at h
      try omega
  mem_successors p b := by
    split_ifs
    all_goals
      simp
      try omega
  entry_pred b h := by
    rw [beq_iff_eq] at h
    subst h
    exact Nat.le_refl 1

/-- Its blocks, with `IR_MERGE_EMPTY_ENTRIES`. -/
def entryBlocks : Blocks where
  graph := entryGraph
  isStart b := b == 1
  isEmpty _ := false
  isLoopHeader _ := false
  prevEmptyEntry b := b == 3
  loopDepth _ := 0
  startOp b := if b = 1 then .start else if b = 2 then .entry else .merge
  startOp2 _ := 0
  startOp3 _ := 0
  endOp b := if b = 1 ∨ b = 2 then .endOp else .ret
  entries := [2]
  mergeEmptyEntries := true
  irreducibleCfg := false
  unreachableStops := []
  debugGraph := false

theorem entryBlocks_shape : entryBlocks.Shape .x86 where
  no_entry h := by cases h
  end_successors b _ _ h := by
    by_cases h1 : b = 1
    · subst h1
      simp [entryBlocks, entryGraph]
    · by_cases h2 : b = 2
      · subst h2
        simp [entryBlocks, entryGraph]
      · simp [entryBlocks, h1, h2] at h
  if_successors b _ _ h := by
    simp only [entryBlocks] at h
    split_ifs at h
  switch_successors b h := by
    simp only [entryBlocks] at h
    split_ifs at h
  goto_successors b h := by
    simp only [entryBlocks] at h
    split_ifs at h
    all_goals simp at h

/-- The blocks as `ir_match` marks them: block `2` is empty. -/
def entryMarked : Blocks := entryBlocks.mark .x86 (fun b => b == 2) (fun _ => false)

/-- With an empty prologue the layout of these blocks is right. -/
theorem entry_layout_exact :
    entryMarked.FollowsEdges .x86 (fun _ => false) none ↔ entryMarked.LayoutOk .x86 (fun _ => false) none :=
  layout_exact entryBlocks .x86 (fun b => b == 2) (fun _ => false) (fun _ => false) none entryBlocks_shape
    (fun _ h => by cases h)

/-- Block `1` needs no jump to block `3`, since `ir_next_block` passes over block `2`; but block `2` is emitted
in between, and control falls into its prologue. -/
theorem entry_prologue_entered : entryBlocks.Shape .x86 ∧
    ¬ entryMarked.FollowsEdges .x86 (fun _ => true) none := by
  refine ⟨entryBlocks_shape, ?_⟩
  rintro ⟨fuel, code, hcode, hedges⟩
  cases fuel with
  | zero => cases hcode
  | succ fuel =>
    have hlayout : entryMarked.emitCode .x86 (fun _ => true) none (fuel + 1)
        = some [.label 1, .body 1, .label 2, .entry 2, .body 2, .label 3, .body 3] := rfl
    rw [hlayout, Option.some.injEq] at hcode
    subst hcode
    obtain ⟨t, ht, hleave⟩ := hedges 1 (by omega) (by decide) rfl 3 List.mem_cons_self
    have ht3 : t = 3 := ht.unique (FirstNonEmpty.refl rfl)
    subst ht3
    exact absurd hleave (by decide)

end IrJit.Cfg.Blocks
