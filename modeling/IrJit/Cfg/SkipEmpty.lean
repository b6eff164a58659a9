import IrJit.Cfg.LayoutSpec
import IrJit.Lib.Chase
import IrJit.Lib.Orbit

/-!
# Cfg.SkipEmpty — skipping empty blocks comes to an end (`_ir_skip_empty_blocks`)

`ir_match` decides block by block whether a block is empty, and excludes only a block that is its own successor.
The skipping of empty blocks ends from every block when, and only when, there is no loop of two or more blocks
that do nothing.
-/

namespace IrJit.Cfg

namespace Blocks

variable (c : Blocks) (onlyEnd dessaMoves : ℕ → Bool)

/-- The block does nothing but go on to its successor: no instruction stands between its start and its `END` or
`LOOP_END`, it receives no moves, and it is not entered from outside. -/
def idle (b : ℕ) : Bool :=
  (c.graph.successors b).length == 1 && (c.endOp b == .endOp || c.endOp b == .loopEnd) && onlyEnd b
    && !dessaMoves b && !c.isStart b && !c.graph.isEntry b

/-- The block is on a loop of two or more blocks that do nothing. -/
def IdleLoop (b : ℕ) : Prop :=
  c.successor b ≠ b ∧ ∃ k, 0 < k ∧ c.successor^[k] b = b ∧ ∀ j < k, c.idle onlyEnd dessaMoves (c.successor^[j] b)

/-- From every block the skipping comes to a block that is not empty. -/
def SkipEnds : Prop :=
  ∀ b, 1 ≤ b → b ≤ c.blocksCount → ∃ fuel t, c.skipEmptyBlocks fuel b = some t ∧ c.emptyBlock t = false

variable {c onlyEnd dessaMoves} {b : ℕ}

/-- A block is taken for empty when it does nothing and is not its own successor. -/
theorem emptyBlock_mark : (c.mark .x86 onlyEnd dessaMoves).emptyBlock b
    = (c.idle onlyEnd dessaMoves b && c.successor b != b) := by
  simp only [emptyBlock, mark, matchEmpty, idle]
  cases c.graph.isEntry b
  · cases c.isStart b <;> cases dessaMoves b <;> simp [Bool.and_assoc]
  · simp

theorem idle_range (h : c.idle onlyEnd dessaMoves b = true) :
    1 ≤ c.successor b ∧ c.successor b ≤ c.blocksCount := by
  simp only [idle, Bool.and_eq_true, beq_iff_eq] at h
  obtain ⟨y, hy⟩ := List.length_eq_one_iff.mp h.1.1.1.1.1
  have hmem : c.successor b ∈ c.graph.successors b := by
    rw [successor, hy]
    exact List.mem_singleton_self y
  exact (c.graph.pred_range _ _ ((c.graph.mem_successors _ _).mp hmem)).2

/-- The skipping ends from a block when a non-empty block follows it. -/
theorem ends_iff_skip : c.Ends b ↔ ∃ fuel t, c.skipEmptyBlocks fuel b = some t ∧ c.emptyBlock t = false := by
  constructor
  · rintro ⟨k, hk⟩
    obtain ⟨t, ht⟩ := skipEmptyBlocks_isSome hk (Nat.lt_succ_self k)
    exact ⟨k + 1, t, ht, (skipEmptyBlocks_first ht).nonEmpty⟩
  · rintro ⟨fuel, t, ht, _⟩
    exact (skipEmptyBlocks_first ht).ends

/-- On an idle loop every block is empty, and so are all blocks that follow. -/
theorem IdleLoop.empty (h : c.IdleLoop onlyEnd dessaMoves b) (j : ℕ) :
    (c.mark .x86 onlyEnd dessaMoves).emptyBlock (c.successor^[j] b) = true := by
  obtain ⟨hne, k, hk, hback, hidle⟩ := h
  have hmod : c.successor^[j] b = c.successor^[j % k] b := iterate_mod hback j
  rw [emptyBlock_mark, hmod, hidle _ (Nat.mod_lt j hk), Bool.true_and, bne_iff_ne]
  intro hself
  -- a block that is its own successor would be the whole loop
  have hrest : c.successor^[k - j % k] (c.successor^[j % k] b) = c.successor^[j % k] b :=
    Function.iterate_fixed hself _
  rw [← Function.iterate_add_apply, Nat.sub_add_cancel (Nat.mod_lt j hk).le, hback] at hrest
  rw [← hrest] at hself
  exact hne hself

/-- The skipping never ends from a block only when it runs into an idle loop. -/
theorem exists_idleLoop (hb : b ≤ c.blocksCount) (h : ¬ (c.mark .x86 onlyEnd dessaMoves).Ends b) :
    ∃ b', c.IdleLoop onlyEnd dessaMoves b' := by
  have hempty : ∀ j, (c.idle onlyEnd dessaMoves (c.successor^[j] b) = true) ∧
      c.successor (c.successor^[j] b) ≠ c.successor^[j] b := by
    intro j
    have he : (c.mark .x86 onlyEnd dessaMoves).emptyBlock (c.successor^[j] b) = true := by
      by_contra hne
      rw [Bool.not_eq_true] at hne
      exact h ⟨j, hne⟩
    rw [emptyBlock_mark, Bool.and_eq_true, bne_iff_ne] at he
    exact he
  have hlt : ∀ j, c.successor^[j] b < c.blocksCount + 1 := by
    intro j
    cases j with
    | zero => exact Nat.lt_succ_of_le hb
    | succ j =>
      rw [Function.iterate_succ_apply']
      exact Nat.lt_succ_of_le (idle_range (hempty j).1).2
  obtain ⟨i, k, hk, hback⟩ := exists_iterate_periodic hlt
  refine ⟨c.successor^[i] b, (hempty i).2, k, hk, hback, fun j _ => ?_⟩
  rw [← Function.iterate_add_apply]
  exact (hempty _).1

theorem IdleLoop.range (h : c.IdleLoop onlyEnd dessaMoves b) : 1 ≤ b ∧ b ≤ c.blocksCount := by
  obtain ⟨_, k, hk, hback, hidle⟩ := h
  have hlast := idle_range (hidle (k - 1) (by omega))
  rwa [← Function.iterate_succ_apply' c.successor, Nat.succ_eq_add_one, Nat.sub_add_cancel hk, hback] at hlast

theorem IdleLoop.not_skipEnds (h : c.IdleLoop onlyEnd dessaMoves b) :
    ¬ (c.mark .x86 onlyEnd dessaMoves).SkipEnds := by
  intro hends
  obtain ⟨j, hj⟩ := ends_iff_skip.mpr (hends b h.range.1 h.range.2)
  have he := h.empty j
  rw [show (c.mark .x86 onlyEnd dessaMoves).successor = c.successor from rfl, he] at hj
  exact absurd hj (by simp)

/-- **Exactly the idle loops keep the skipping of empty blocks from ending.** -/
theorem skip_empty_blocks_ends (c : Blocks) (onlyEnd dessaMoves : ℕ → Bool) :
    (c.mark .x86 onlyEnd dessaMoves).SkipEnds ↔ ¬ ∃ b, c.IdleLoop onlyEnd dessaMoves b := by
  constructor
  · rintro hends ⟨b, hloop⟩
    exact hloop.not_skipEnds hends
  · intro hno b _ hb
    by_contra hne
    exact hno (exists_idleLoop hb fun hends => hne (ends_iff_skip.mp hends))

/-! ## An endless loop -/

/-- `START, END`; `LOOP_BEGIN, END`; `BEGIN, LOOP_END`. -/
def endlessGraph : Graph where
  blocksCount := 3
  predecessors b := match b with
    | 2 => [1, 3]
    | 3 => [2]
    | _ => []
  successors b := match b with
    | 1 => [2]
    | 2 => [3]
    | 3 => [2]
    | _ => []
  isEntry _ := false
  pred_range b p h := by
    split at h
    · simp only [List.mem_cons, List.not_mem_nil, or_false] at h
      omega
    · simp only [List.mem_singleton] at h
      omega
    · simp at h
  mem_successors p b := by
    split <;> split <;> simp_all
  entry_pred b h := by cases h

def endlessBlocks : Blocks where
  graph := endlessGraph
  isStart b := b == 1
  isEmpty _ := false
  isLoopHeader b := b == 2
  prevEmptyEntry _ := false
  loopDepth b := if b == 1 then 0 else 1
  startOp b := match b with
    | 1 => .start
    | 2 => .loopBegin
    | _ => .beginOp
  startOp2 _ := 0
  startOp3 _ := 0
  endOp b := if b == 3 then .loopEnd else .endOp
  entries := []
  mergeEmptyEntries := false
  irreducibleCfg := false
  unreachableStops := []
  debugGraph := false

/-- Blocks `2` and `3` of the endless loop are both taken for empty. -/
theorem endless_blocks_skip : ¬ (endlessBlocks.mark .x86 (fun _ => true) (fun _ => false)).SkipEnds := by
  have hloop : endlessBlocks.IdleLoop (fun _ => true) (fun _ => false) 2 := by
    refine ⟨by decide, 2, by omega, rfl, fun j hj => ?_⟩
    match j, hj with
    | 0, _ => rfl
    | 1, _ => rfl
  exact hloop.not_skipEnds

end Blocks

end IrJit.Cfg
