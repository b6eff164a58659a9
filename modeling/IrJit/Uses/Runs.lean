import IrJit.Uses.Lists

/-!
# Uses.Runs — the runs of the use lists and what each operation does to them

`Sound` says that the runs of the use lists lie inside the used part of the array, hold no
`IR_UNUSED` and do not overlap.  Every operation on a list keeps this, changes the uses of its own
list as its name says, and leaves the uses of every other list alone.
-/

namespace IrJit.Uses

open Slice

/-- Cell `i` belongs to the list of `d`. -/
def Ctx.InRun (ctx : Ctx) (d i : ℕ) : Prop :=
  (ctx.useLists d).refs ≤ i ∧ i < (ctx.useLists d).refs + (ctx.useLists d).count

/-- The runs of the use lists are inside the used part, free of `IR_UNUSED` and disjoint. -/
structure Sound (ctx : Ctx) : Prop where
  inside : ∀ d, (ctx.useLists d).refs + (ctx.useLists d).count ≤ ctx.useEdgesCount
  live : ∀ d i, ctx.InRun d i → ctx.useEdges i ≠ 0
  disjoint : ∀ d d' i, ctx.InRun d i → ctx.InRun d' i → d = d'

/-- `ctx'` is sound, has the uses `l` for `d` and those of `ctx` for every other instruction. -/
structure Turns (ctx : Ctx) (d : ℕ) (l : List ℕ) (ctx' : Ctx) : Prop where
  sound : Sound ctx'
  insns : ctx'.insns = ctx.insns
  uses_self : ctx'.uses d = l
  uses_of_ne : ∀ d', d' ≠ d → ctx'.uses d' = ctx.uses d'

section Turns

variable {ctx ctx' : Ctx} {d : ℕ} {l : List ℕ}

/-- Giving `d` the run of `c` cells from `r` on, which no other list uses. -/
theorem Sound.turns (S : Sound ctx) {r c : ℕ} (hinsns : ctx'.insns = ctx.insns)
    (hlists : ctx'.useLists = Function.update ctx.useLists d ⟨r, c⟩)
    (hcount : ctx.useEdgesCount ≤ ctx'.useEdgesCount) (hinside : r + c ≤ ctx'.useEdgesCount)
    (hkeep : ∀ d' i, d' ≠ d → ctx.InRun d' i →
      ctx'.useEdges i = ctx.useEdges i ∧ ¬ (r ≤ i ∧ i < r + c))
    (hl : slice ctx'.useEdges r c = l) (hzero : 0 ∉ l) : Turns ctx d l ctx' := by
  have hself : ctx'.useLists d = ⟨r, c⟩ := by rw [hlists, Function.update_self]
  have hother : ∀ d', d' ≠ d → ctx'.useLists d' = ctx.useLists d' := fun d' h => by
    rw [hlists, Function.update_of_ne h]
  have hrun : ∀ i, ctx'.InRun d i ↔ r ≤ i ∧ i < r + c := fun i => by rw [Ctx.InRun, hself]
  have hrun' : ∀ d' i, d' ≠ d → (ctx'.InRun d' i ↔ ctx.InRun d' i) := fun d' i h => by
    rw [Ctx.InRun, hother d' h, Ctx.InRun]
  refine ⟨⟨?_, ?_, ?_⟩, hinsns, ?_, ?_⟩
  · intro d'
    by_cases h : d' = d
    · rw [h, hself]
      exact hinside
    · rw [hother d' h]
      exact Nat.le_trans (S.inside d') hcount
  · intro d' i hi h0
    by_cases h : d' = d
    · subst h
      rw [hrun] at hi
      exact hzero (hl ▸ mem_slice.mpr ⟨i, hi.1, hi.2, h0⟩)
    · rw [hrun' d' i h] at hi
      rw [(hkeep d' i h hi).1] at h0
      exact S.live d' i hi h0
  · intro a b i ha hb
    by_cases hda : a = d <;> by_cases hdb : b = d
    · rw [hda, hdb]
    · subst hda
      rw [hrun] at ha
      rw [hrun' b i hdb] at hb
      exact absurd ha (hkeep b i hdb hb).2
    · subst hdb
      rw [hrun] at hb
      rw [hrun' a i hda] at ha
      exact absurd hb (hkeep a i hda ha).2
    · rw [hrun' a i hda] at ha
      rw [hrun' b i hdb] at hb
      exact S.disjoint a b i ha hb
  · rw [Ctx.uses, hself]
    exact hl
  · intro d' h
    rw [Ctx.uses, hother d' h]
    exact slice_congr fun i hle hlt => (hkeep d' i h ⟨hle, hlt⟩).1

/-- The uses of a list are not `IR_UNUSED`. -/
theorem Sound.zero_notMem (S : Sound ctx) (d : ℕ) : 0 ∉ ctx.uses d := by
  intro h
  obtain ⟨i, hle, hlt, h0⟩ := mem_slice.mp h
  exact S.live d i ⟨hle, hlt⟩ h0

/-- Changing cells of the run of `d` and shortening it. -/
theorem Sound.inPlace (S : Sound ctx) {count : ℕ} {edges : ℕ → ℕ}
    (hcount : count ≤ (ctx.useLists d).count)
    (hout : ∀ i, ¬ ctx.InRun d i → edges i = ctx.useEdges i)
    (hl : slice edges (ctx.useLists d).refs count = l) (hzero : 0 ∉ l) :
    Turns ctx d l
      { ctx with
        useLists := Function.update ctx.useLists d { ctx.useLists d with count := count }
        useEdges := edges } := by
  have hinside : (ctx.useLists d).refs + count ≤ ctx.useEdgesCount :=
    Nat.le_trans (Nat.add_le_add_left hcount _) (S.inside d)
  refine S.turns rfl rfl le_rfl hinside ?_ hl hzero
  intro d' i hne hi
  have hfree : ¬ ctx.InRun d i := fun h => hne (S.disjoint d' d i hi h)
  refine ⟨hout i hfree, fun h => hfree ⟨h.1, by omega⟩⟩

end Turns

/-! ## `ir_use_list_add` -/

theorem slice_copyEdges (edges : ℕ → ℕ) (dst src n : ℕ) :
    slice (copyEdges edges dst src n) dst n = slice edges src n := by
  apply slice_shift
  intro i hi
  rw [copyEdges, if_pos (by omega)]
  congr 1
  omega

theorem slice_snoc {edges : ℕ → ℕ} {a n ref : ℕ} :
    slice (Function.update edges (a + n) ref) a (n + 1) = slice edges a n ++ [ref] := by
  rw [slice_concat, slice_update_of_out (.inr le_rfl), Function.update_self]

/-- `ir_use_list_add` appends a use, in place or not. -/
theorem Sound.useListAdd {ctx : Ctx} (S : Sound ctx) (d : ℕ) {ref : ℕ} (hr : ref ≠ 0) :
    Turns ctx d (ctx.uses d ++ [ref]) (useListAdd ctx d ref).2 := by
  have hinside := S.inside d
  have hzero : 0 ∉ ctx.uses d ++ [ref] := by
    simp only [List.mem_append, List.mem_singleton, not_or]
    exact ⟨S.zero_notMem d, hr.symm⟩
  have hbelow : ∀ d' i, ctx.InRun d' i → i < ctx.useEdgesCount := fun d' i hi =>
    lt_of_lt_of_le hi.2 (S.inside d')
  -- a cell of another list is outside the run of `d`
  have hapart : ∀ d' i, d' ≠ d → ctx.InRun d' i → ¬ ctx.InRun d i := fun d' i hne hi h =>
    hne (S.disjoint d' d i hi h)
  unfold Uses.useListAdd
  dsimp only
  split_ifs with hhole hlast
  · -- the cell after the run is free
    refine S.turns rfl rfl le_rfl hhole.1 ?_ slice_snoc hzero
    intro d' i hne hi
    have hi0 : i ≠ (ctx.useLists d).refs + (ctx.useLists d).count := by
      rintro rfl
      exact S.live d' _ hi hhole.2
    refine ⟨Function.update_of_ne hi0 _ _, fun h => hapart d' i hne hi ⟨h.1, ?_⟩⟩
    omega
  · -- the run ends where the used part does
    refine S.turns rfl rfl (Nat.le_succ _) (Nat.succ_le_succ hinside) ?_ slice_snoc hzero
    intro d' i hne hi
    have hlt := hbelow d' i hi
    refine ⟨Function.update_of_ne (by omega) _ _, fun h => hapart d' i hne hi ⟨h.1, ?_⟩⟩
    omega
  · -- the list moves to the end of the used part
    refine S.turns (r := ctx.useEdgesCount) (c := (ctx.useLists d).count + 1) rfl rfl
      (Nat.le_add_right _ _) le_rfl ?_ ?_ hzero
    · intro d' i hne hi
      have hlt := hbelow d' i hi
      refine ⟨?_, fun h => absurd h.1 (not_le.mpr hlt)⟩
      show Function.update _ _ _ i = _
      rw [Function.update_of_ne (by omega), copyEdges, if_neg (by omega)]
    · rw [slice_snoc, slice_copyEdges]
      rfl

/-! ## The other operations on one list -/

theorem shiftDown_spec (n : ℕ) (edges : ℕ → ℕ) (p : ℕ) :
    slice (shiftDown n edges p) p n = slice edges (p + 1) n ∧
      ∀ i, i < p ∨ p + n < i → shiftDown n edges p i = edges i := by
  induction n generalizing edges p with
  | zero =>
    refine ⟨rfl, fun i hi => ?_⟩
    exact Function.update_of_ne (by omega) _ _
  | succ n ih =>
    obtain ⟨hslice, hout⟩ := ih (Function.update edges p (edges (p + 1))) (p + 1)
    refine ⟨?_, fun i hi => ?_⟩
    · rw [slice_succ, slice_succ, shiftDown, hout p (by omega), Function.update_self, hslice,
        slice_update_of_out (by omega)]
    · rw [shiftDown, hout i (by omega), Function.update_of_ne (by omega)]

theorem removeOneLoop_none {ref n p : ℕ} {edges : ℕ → ℕ}
    (h : removeOneLoop ref n edges p = none) : ref ∉ slice edges p n := by
  induction n generalizing p with
  | zero => simp
  | succ n ih =>
    rw [removeOneLoop] at h
    split_ifs at h with hp
    rw [slice_succ, List.mem_cons, not_or]
    exact ⟨Ne.symm hp, ih h⟩

theorem removeOneLoop_some {ref n p : ℕ} {edges edges' : ℕ → ℕ}
    (h : removeOneLoop ref n edges p = some edges') :
    0 < n ∧ slice edges' p (n - 1) = (slice edges p n).erase ref ∧
      ∀ i, i < p ∨ p + n ≤ i → edges' i = edges i := by
  induction n generalizing p with
  | zero => simp [removeOneLoop] at h
  | succ n ih =>
    rw [removeOneLoop] at h
    split_ifs at h with hp
    · obtain ⟨hslice, hout⟩ := shiftDown_spec n edges p
      cases h
      refine ⟨Nat.succ_pos n, ?_, fun i hi => hout i (by omega)⟩
      rw [Nat.add_sub_cancel, hslice, slice_succ, hp, List.erase_cons_head]
    · obtain ⟨hn, hslice, hout⟩ := ih h
      refine ⟨Nat.succ_pos n, ?_, fun i hi => hout i (by omega)⟩
      obtain ⟨n, rfl⟩ : ∃ m, n = m + 1 := ⟨n - 1, by omega⟩
      rw [Nat.add_sub_cancel] at hslice ⊢
      rw [slice_succ edges p, List.erase_cons_tail (by simpa using hp), ← hslice, slice_succ,
        hout p (by omega)]

/-- `ir_use_list_remove_one` removes the first occurrence of a use, if there is one. -/
theorem Sound.useListRemoveOne {ctx : Ctx} (S : Sound ctx) (d ref : ℕ) :
    Turns ctx d ((ctx.uses d).erase ref) (useListRemoveOne ctx d ref) := by
  have hzero : 0 ∉ (ctx.uses d).erase ref := fun h => S.zero_notMem d (List.mem_of_mem_erase h)
  unfold Uses.useListRemoveOne
  dsimp only
  cases hloop : removeOneLoop ref (ctx.useLists d).count ctx.useEdges (ctx.useLists d).refs with
  | none =>
    have hout := removeOneLoop_none hloop
    refine ⟨S, rfl, ?_, fun _ _ => rfl⟩
    rw [Ctx.uses, List.erase_of_not_mem hout]
  | some edges =>
    obtain ⟨hn, hslice, hout⟩ := removeOneLoop_some hloop
    refine S.inPlace (Nat.sub_le _ _) ?_ hslice hzero
    intro i hi
    refine hout i ?_
    by_contra h
    exact hi ⟨by omega, by omega⟩

theorem removeAllLoop_spec (ref n : ℕ) (edges : ℕ → ℕ) {p q : ℕ} (hq : q ≤ p) :
    ∃ edges' q', removeAllLoop ref n edges p q = (edges', p + n, q') ∧ q ≤ q' ∧ q' ≤ p + n ∧
      slice edges' q (q' - q) = (slice edges p n).filter (· ≠ ref) ∧
      ∀ i, i < q ∨ p + n ≤ i → edges' i = edges i := by
  induction n generalizing edges p q with
  | zero => exact ⟨edges, q, rfl, le_rfl, hq, by simp, fun _ _ => rfl⟩
  | succ n ih =>
    rw [removeAllLoop]
    by_cases hp : edges p = ref
    · obtain ⟨edges', q', hloop, hle, hle', hslice, hout⟩ :=
        ih edges (p := p + 1) (q := q) (by omega)
      refine ⟨edges', q', ?_, hle, by omega, ?_, fun i hi => hout i (by omega)⟩
      · rw [if_neg (not_not.mpr hp), hloop, Nat.add_right_comm, Nat.add_assoc]
      · rw [hslice, slice_succ, List.filter_cons_of_neg (by simpa using hp)]
    · -- the use is kept: it moves down to `q`, which is not after `p`
      have hmove : ∀ i, (if p ≠ q then Function.update edges q (edges p) else edges) i =
          if i = q then edges p else edges i := by
        intro i
        by_cases hpq : p = q
        · by_cases hi : i = q <;> simp [hpq, hi]
        · simp [hpq, Function.update_apply]
      obtain ⟨edges', q', hloop, hle, hle', hslice, hout⟩ :=
        ih (if p ≠ q then Function.update edges q (edges p) else edges) (p := p + 1) (q := q + 1)
          (by omega)
      refine ⟨edges', q', ?_, by omega, by omega, ?_, ?_⟩
      · rw [if_pos hp, hloop, Nat.add_right_comm, Nat.add_assoc]
      · obtain ⟨m, hm⟩ : ∃ m, q' - q = m + 1 := ⟨q' - q - 1, by omega⟩
        have hm' : q' - (q + 1) = m := by omega
        have hkeep : slice (if p ≠ q then Function.update edges q (edges p) else edges) (p + 1) n =
            slice edges (p + 1) n :=
          slice_congr fun i hi _ => by rw [hmove, if_neg (by omega)]
        rw [hm, slice_succ, slice_succ, List.filter_cons_of_pos (by simpa using hp), ← hkeep,
          ← hslice, hm', hout q (by omega), hmove, if_pos rfl]
      · intro i hi
        rw [hout i (by omega), hmove, if_neg (by omega)]

theorem fillUnused_of_out {n q i : ℕ} {edges : ℕ → ℕ} (h : i < q ∨ q + n ≤ i) :
    fillUnused n edges q i = edges i := by
  induction n generalizing edges q with
  | zero => rfl
  | succ n ih => rw [fillUnused, ih (by omega), Function.update_of_ne (by omega)]

/-- `ir_use_list_remove_all` removes every occurrence of a use. -/
theorem Sound.useListRemoveAll {ctx : Ctx} (S : Sound ctx) (d ref : ℕ) :
    Turns ctx d ((ctx.uses d).filter (· ≠ ref)) (useListRemoveAll ctx d ref) := by
  have hzero : 0 ∉ (ctx.uses d).filter (· ≠ ref) := fun h =>
    S.zero_notMem d (List.mem_filter.mp h).1
  obtain ⟨edges, q, hloop, hle, hle', hslice, hout⟩ :=
    removeAllLoop_spec ref (ctx.useLists d).count ctx.useEdges (le_refl (ctx.useLists d).refs)
  have hrun : ∀ i, ¬ ctx.InRun d i → edges i = ctx.useEdges i := by
    intro i hi
    refine hout i ?_
    by_contra h
    exact hi ⟨by omega, by omega⟩
  unfold Uses.useListRemoveAll
  dsimp only
  rw [hloop]
  dsimp only
  split_ifs with hq
  · have hcount : (ctx.useLists d).count - ((ctx.useLists d).refs + (ctx.useLists d).count - q) =
        q - (ctx.useLists d).refs := by omega
    rw [hcount]
    refine S.inPlace (by omega) ?_ ?_ hzero
    · intro i hi
      rw [← hrun i hi]
      refine fillUnused_of_out ?_
      by_contra h
      exact hi ⟨by omega, by omega⟩
    · rw [slice_congr fun i _ hlt => fillUnused_of_out (.inl (by omega))]
      exact hslice
  · have hsame : q - (ctx.useLists d).refs = (ctx.useLists d).count := by omega
    rw [hsame] at hslice
    have hturn := S.inPlace le_rfl hrun hslice hzero
    rwa [Function.update_eq_self] at hturn

theorem replaceOneLoop_spec (use newUse n : ℕ) (edges : ℕ → ℕ) (p : ℕ) :
    slice (replaceOneLoop use newUse n edges p) p n = (slice edges p n).replace use newUse ∧
      ∀ i, i < p ∨ p + n ≤ i → replaceOneLoop use newUse n edges p i = edges i := by
  induction n generalizing p with
  | zero => exact ⟨rfl, fun _ _ => rfl⟩
  | succ n ih =>
    obtain ⟨hslice, hout⟩ := ih (p + 1)
    rw [replaceOneLoop]
    split_ifs with hp
    · refine ⟨?_, fun i hi => Function.update_of_ne (by omega) _ _⟩
      rw [slice_succ, slice_succ, Function.update_self, slice_update_of_out (by omega), hp,
        List.replace_cons_self]
    · refine ⟨?_, fun i hi => hout i (by omega)⟩
      rw [slice_succ, slice_succ, hout p (by omega), hslice, List.replace_cons]
      have hbeq : (use == edges p) = false := by simpa using Ne.symm hp
      simp [hbeq]

theorem replaceAllLoop_spec (use newUse n : ℕ) (edges : ℕ → ℕ) (p : ℕ) :
    slice (replaceAllLoop use newUse n edges p) p n =
        (slice edges p n).map (fun x => if x = use then newUse else x) ∧
      ∀ i, i < p ∨ p + n ≤ i → replaceAllLoop use newUse n edges p i = edges i := by
  induction n generalizing edges p with
  | zero => exact ⟨rfl, fun _ _ => rfl⟩
  | succ n ih =>
    have hwrite : ∀ i, (if edges p = use then Function.update edges p newUse else edges) i =
        if i = p then (if edges p = use then newUse else edges p) else edges i := by
      intro i
      by_cases hp : edges p = use <;> by_cases hi : i = p <;> simp [hp, hi]
    obtain ⟨hslice, hout⟩ :=
      ih (if edges p = use then Function.update edges p newUse else edges) (p + 1)
    rw [replaceAllLoop]
    refine ⟨?_, fun i hi => ?_⟩
    · rw [slice_succ, slice_succ, List.map_cons, hout p (by omega), hwrite, if_pos rfl, hslice]
      congr 2
      exact slice_congr fun i hi _ => by rw [hwrite, if_neg (by omega)]
    · rw [hout i (by omega), hwrite, if_neg (by omega)]

/-- Replacing uses in place. -/
theorem Sound.rewrite {ctx : Ctx} (S : Sound ctx) {d : ℕ} {edges : ℕ → ℕ} {l : List ℕ}
    (hslice : slice edges (ctx.useLists d).refs (ctx.useLists d).count = l)
    (hout : ∀ i, i < (ctx.useLists d).refs ∨
      (ctx.useLists d).refs + (ctx.useLists d).count ≤ i → edges i = ctx.useEdges i)
    (hzero : 0 ∉ l) : Turns ctx d l { ctx with useEdges := edges } := by
  have hturn := S.inPlace le_rfl (fun i hi => hout i ?_) hslice hzero
  · rwa [Function.update_eq_self] at hturn
  · by_contra h
    exact hi ⟨by omega, by omega⟩

/-- `ir_use_list_replace_one` replaces the first occurrence of a use. -/
theorem Sound.useListReplaceOne {ctx : Ctx} (S : Sound ctx) (d use : ℕ) {newUse : ℕ}
    (hnew : newUse ≠ 0) :
    Turns ctx d ((ctx.uses d).replace use newUse) (useListReplaceOne ctx d use newUse) := by
  obtain ⟨hslice, hout⟩ := replaceOneLoop_spec use newUse (ctx.useLists d).count ctx.useEdges
    (ctx.useLists d).refs
  refine S.rewrite hslice hout fun h => ?_
  have h0 : (ctx.uses d).count 0 = 0 := List.count_eq_zero.mpr (S.zero_notMem d)
  change 0 ∈ (ctx.uses d).replace use newUse at h
  rw [← List.count_pos_iff, List.count_replace, h0] at h
  simp [hnew] at h

/-- `ir_use_list_replace_all` replaces every occurrence of a use. -/
theorem Sound.useListReplaceAll {ctx : Ctx} (S : Sound ctx) (d use : ℕ) {newUse : ℕ}
    (hnew : newUse ≠ 0) :
    Turns ctx d ((ctx.uses d).map fun x => if x = use then newUse else x)
      (useListReplaceAll ctx d use newUse) := by
  obtain ⟨hslice, hout⟩ := replaceAllLoop_spec use newUse (ctx.useLists d).count ctx.useEdges
    (ctx.useLists d).refs
  refine S.rewrite hslice hout fun h => ?_
  obtain ⟨x, hx, h0⟩ := List.mem_map.mp h
  split_ifs at h0
  · exact hnew h0
  · exact S.zero_notMem d (h0 ▸ hx)

/-- `CLEAR_USES` empties a list. -/
theorem Sound.clearUses {ctx : Ctx} (S : Sound ctx) (d : ℕ) : Turns ctx d [] (clearUses ctx d) :=
  S.inPlace (Nat.zero_le _) (fun _ _ => rfl) rfl (by simp)

end IrJit.Uses
