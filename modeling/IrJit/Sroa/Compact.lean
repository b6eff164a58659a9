import IrJit.Sroa.Allocas

/-!
# Sroa.Compact — the uses of the old node

The loop at the end of `ir_mem2ssa_split_alloca` goes over the uses of the old `ALLOCA`.  Loads, stores and
the control link stay in the list; an addition is replaced by the node of its part.  When that is the old
node itself, the uses of the addition are appended to the list that the loop goes over.
-/

namespace IrJit.Sroa.Ctx

open Slice

open Uses (Insns)

/-- What the loop starts from: `t` is the node of the part at an offset. -/
structure Ready (c : Ctx) (var next : ℕ) (t : ℕ → ℕ) : Prop where
  inverse : Uses.Inverse c.uses
  tight : c.insns.Tight
  var_mem : var ∈ c.insns.heads
  var_op : c.op var = .alloca
  next_op : c.op next ≠ .add
  uses_var : ∀ u ∈ (c.uses.uses var).erase next, (c.op u = .load ∨ c.op u = .store) ∨ c.Offset var u
  offset_inputs : ∀ a, c.Offset var a → c.insns.inputsCount a = 2
  offset_uses : ∀ a, c.Offset var a → ∀ u ∈ c.uses.uses a, c.op u = .load ∨ c.op u = .store
  target_mem : ∀ a, c.Offset var a → t (c.offsetOf a) ∈ c.insns.heads
  target_op : ∀ a, c.Offset var a → c.op (t (c.offsetOf a)) = .alloca

/-- An operand is as it was, or was an offset into `var` and is the node of its part. -/
def Moved (c : Ctx) (var : ℕ) (t : ℕ → ℕ) (old new : ℤ) : Prop :=
  new = old ∨ ∃ a, c.Offset var a ∧ old = a ∧ new = t (c.offsetOf a)

/-- The loop has read the cells `kept ++ stale` of the list of `var`; `kept` stays, and `rest` is to come. -/
structure Compacting (c : Ctx) (var : ℕ) (t : ℕ → ℕ) (c' : Ctx) (skip : ℕ) (kept stale rest : List ℕ) :
    Prop where
  sound : Uses.Sound c'.uses
  tight : c'.insns.Tight
  val : c'.val = c.val
  type : c'.type = c.type
  constsCount : c'.constsCount = c.constsCount
  heads : ∀ u, u ∈ c'.insns.heads ↔ u ∈ c.insns.heads
  cells : c'.uses.uses var = kept ++ stale ++ rest
  count_var : ∀ u, (kept ++ rest).count u = c'.insns.edgeCount var u
  count : ∀ d u, 0 < d → d ≠ var → (c'.uses.uses d).count u = c'.insns.edgeCount d u
  not_offset : ¬ c.Offset var skip
  todo : ∀ u ∈ rest.erase skip, (c.op u = .load ∨ c.op u = .store) ∨ c.Offset var u
  pending : ∀ a, c.Offset var a → a ∈ rest → c'.op a = .add ∧ c'.insns.inputsCount a = 2 ∧
    c'.insnOp a 1 = var ∧ c'.insnOp a 2 = c.insnOp a 2 ∧ c'.uses.uses a = c.uses.uses a
  done : ∀ a, c.Offset var a → a ∉ rest → ∀ u, c'.insns.edgeCount a u = 0
  other : ∀ u ∈ c.insns.heads, c.op u ≠ .add → c'.op u = c.op u ∧
    c'.insns.inputsCount u = c.insns.inputsCount u ∧
    ∀ j, 1 ≤ j → j ≤ 3 → c.Moved var t (c.insnOp u j) (c'.insnOp u j)

variable {c c' : Ctx} {var next skip : ℕ} {t : ℕ → ℕ} {kept stale rest : List ℕ}

theorem Offset.not_access (h : c.Offset var a) : ¬ (c.op a = .load ∨ c.op a = .store) := by
  rw [h.op]
  simp

theorem Ready.offset_mem (R : Ready c var next t) (h : c.Offset var a) : a ∈ c.uses.uses var :=
  R.inverse.mem_uses (Insns.heads_pos R.var_mem) h.mem (le_refl 1)
    (by rw [R.offset_inputs a h]; omega) h.base

theorem Ready.offset_ne (R : Ready c var next t) (h : c.Offset var a) : a ≠ var := by
  rintro rfl
  have := h.op
  rw [R.var_op] at this
  simp at this

theorem Ready.target_ne (R : Ready c var next t) (h : c.Offset var a) {b : ℕ} (hb : c.Offset var b) :
    t (c.offsetOf a) ≠ b := by
  rintro rfl
  have := hb.op
  rw [R.target_op a h] at this
  simp at this

/-- The start of the loop. -/
theorem Ready.compacting (R : Ready c var next t) :
    Compacting c var t c next [] [] (c.uses.uses var) where
  sound := R.inverse.sound
  tight := R.tight
  val := rfl
  type := rfl
  constsCount := rfl
  heads _ := Iff.rfl
  cells := rfl
  count_var u := R.inverse.count var u (Insns.heads_pos R.var_mem)
  count d u hd _ := R.inverse.count d u hd
  not_offset h := R.next_op h.op
  todo := R.uses_var
  pending a ha _ := ⟨ha.op, R.offset_inputs a ha, ha.base, rfl, rfl⟩
  done _ ha hnot := absurd (R.offset_mem ha) hnot
  other _ _ _ := ⟨rfl, rfl, fun _ _ _ => Or.inl rfl⟩

/-- A use that stays is written to the next cell. -/
theorem Compacting.keep (R : Ready c var next t) {u skip' : ℕ} {stale' : List ℕ} {uses' : Uses.Ctx}
    (h : Compacting c var t c' skip kept stale (u :: rest)) (hu : ¬ c.Offset var u)
    (hskip : ¬ c.Offset var skip')
    (htodo : ∀ v ∈ rest.erase skip', (c.op v = .load ∨ c.op v = .store) ∨ c.Offset var v)
    (hturn : Uses.Turns c'.uses var (kept ++ [u] ++ stale' ++ rest) uses') :
    Compacting c var t { c' with uses := uses' } skip' (kept ++ [u]) stale' rest := by
  obtain ⟨I, useLists, useEdges, useEdgesCount⟩ := uses'
  obtain rfl : I = c'.uses.insns := hturn.insns
  refine ⟨hturn.sound, h.tight, h.val, h.type, h.constsCount, h.heads, hturn.uses_self, ?_, ?_, hskip, htodo,
    ?_, ?_, h.other⟩
  · intro v
    rw [List.append_assoc, List.singleton_append]
    exact h.count_var v
  · intro d v hd hne
    rw [hturn.uses_of_ne d hne]
    exact h.count d v hd hne
  · intro a ha hmem
    obtain ⟨hop, hinputs, hop1, hop2, huses⟩ := h.pending a ha (List.mem_cons_of_mem u hmem)
    exact ⟨hop, hinputs, hop1, hop2, (hturn.uses_of_ne a (R.offset_ne ha)).trans huses⟩
  · intro a ha hnot
    have hne : a ≠ u := by
      rintro rfl
      exact hu ha
    exact h.done a ha (by rw [List.mem_cons, not_or]; exact ⟨hne, hnot⟩)

/-- An addition has one edge, to `var`. -/
theorem edgeCount_offset {I : Insns} {a d : ℕ} (ha : a ∈ I.heads) (hinputs : I.inputsCount a = 2)
    (h1 : I.insnOp a 1 = var) (h2 : I.insnOp a 2 < 0) : I.edgeCount d a = if d = var then 1 else 0 := by
  have hlist : I.inputs a = [(var : ℤ), I.insnOp a 2] := by
    unfold Insns.inputs
    rw [hinputs, slice_succ, slice_succ, slice_zero, ← h1]
    rfl
  have hneg : ¬ I.insnOp a 2 = (d : ℤ) := by omega
  unfold Insns.edgeCount
  rw [if_pos ha, hlist, List.count_cons, List.count_singleton]
  by_cases hd : d = var
  · simp [hd, hd ▸ hneg]
  · have hd' : ¬ (var : ℤ) = d := by omega
    simp [hd, hd', hneg]

/-- The operands of the first slot of another instruction after a replacement. -/
theorem insnOp_makeNop_of_ne {I : Insns} {a u j : ℕ} (hne : u ≠ a) (hj : j ≤ 3) :
    (I.makeNop a).insnOp u j = I.insnOp u j := by
  show Function.update _ _ _ _ = _
  rw [Function.update_of_ne (by omega), Function.update_of_ne (by omega), Function.update_of_ne (by omega)]
  rfl

/-- The uses that a replaced addition adds to the list of `var`. -/
def appended (c : Ctx) (var : ℕ) (t : ℕ → ℕ) (a : ℕ) : List ℕ :=
  if t (c.offsetOf a) = var then c.uses.uses a else []

theorem Ready.mem_appended (R : Ready c var next t) {a u : ℕ} (ha : c.Offset var a)
    (h : u ∈ c.appended var t a) : c.op u = .load ∨ c.op u = .store := by
  unfold appended at h
  split_ifs at h
  · exact R.offset_uses a ha u h
  · simp at h

/-- An addition is replaced by the node of its part. -/
theorem Compacting.replace (R : Ready c var next t) {a : ℕ}
    (h : Compacting c var t c' skip kept stale (a :: rest)) (ha : c.Offset var a) :
    ∃ uses, Uses.replace c'.uses a (t (c.offsetOf a)) = some uses ∧
      Compacting c var t
        { c' with uses := Uses.clearUses { uses with insns := uses.insns.makeNop a } a } skip kept
        (stale ++ [a]) (rest ++ c.appended var t a) := by
  obtain ⟨hop, hinputs, hop1, hop2, huses⟩ := h.pending a ha List.mem_cons_self
  have ha0 := Insns.heads_pos ha.mem
  have hav := R.offset_ne ha
  have hr0 := Insns.heads_pos (R.target_mem a ha)
  have hra := R.target_ne ha ha
  have hmem' : a ∈ c'.insns.heads := (h.heads a).mpr ha.mem
  have hsingle : ∀ d, c'.insns.edgeCount d a = if d = var then 1 else 0 := fun d =>
    edgeCount_offset hmem' hinputs hop1 (by rw [show c'.insns.insnOp a 2 = c.insnOp a 2 from hop2]; exact ha.const)
  obtain ⟨uses, hrep, S, hsub, hself, hkeep, hedge⟩ :=
    Uses.replace_lists h.sound hr0 hra fun x => (h.count a x ha0 hav).symm
  have hinputs₁ : uses.insns.inputsCount a < 4 := by
    rw [hsub.inputsCount, show c'.uses.insns.inputsCount a = 2 from hinputs]
    omega
  have hmem₁ : a ∈ uses.insns.heads := by
    rw [hsub.heads]
    exact hmem'
  have hnop : ∀ d x, (uses.insns.makeNop a).edgeCount d x = if x = a then 0 else uses.insns.edgeCount d x :=
    fun d x => Insns.edgeCount_makeNop hmem₁ hinputs₁
  have hturn := (S.withInsns (uses.insns.makeNop a)).clearUses a
  -- the addition is in the list once
  have honce : kept.count a = 0 ∧ rest.count a = 0 := by
    have := h.count_var a
    rw [hsingle, if_pos rfl, List.count_append, List.count_cons_self] at this
    omega
  have hself0 : (c.uses.uses a).count a = 0 :=
    List.count_eq_zero.mpr fun hm => ha.not_access (R.offset_uses a ha a hm)
  have hrest : a ∉ rest := List.count_eq_zero.mp honce.2
  have hopOther : ∀ u, u ≠ a → (uses.insns.makeNop a).op u = c'.insns.op u := by
    intro u hu
    refine (Function.update_of_ne hu _ _).trans ?_
    rw [hsub.op]
  have hinputsOther : ∀ u, u ≠ a → (uses.insns.makeNop a).inputsCount u = c'.insns.inputsCount u := by
    intro u hu
    refine (Function.update_of_ne hu _ _).trans ?_
    rw [hsub.inputsCount]
  have hword : ∀ u j, u ≠ a → j ≤ 3 → (uses.insns.makeNop a).insnOp u j = c'.insnOp u j ∨
      (c'.insnOp u j = a ∧ (uses.insns.makeNop a).insnOp u j = t (c.offsetOf a)) := by
    intro u j hu hj
    rw [insnOp_makeNop_of_ne hu hj]
    exact hsub.word _
  refine ⟨uses, hrep, hturn.sound, ?_, h.val, h.type, h.constsCount, ?_, ?_, ?_, ?_, h.not_offset, ?_, ?_, ?_,
    ?_⟩
  · have ht : uses.insns.Tight := by
      unfold Insns.Tight
      rw [hsub.inputsCount, hsub.insnsCount]
      exact h.tight
    exact ht.makeNop hinputs₁
  · intro u
    refine (Insns.mem_heads_makeNop hinputs₁).trans ?_
    rw [hsub.heads]
    exact h.heads u
  · refine (hturn.uses_of_ne var hav.symm).trans ?_
    show uses.uses var = _
    unfold appended
    by_cases hr : t (c.offsetOf a) = var
    · rw [hr] at hself
      rw [if_pos hr, hself, h.cells, huses]
      simp
    · rw [if_neg hr, hkeep var (Ne.symm hr), h.cells]
      simp
  · intro u
    show _ = (uses.insns.makeNop a).edgeCount var u
    have hold : (kept ++ a :: rest).count u = c'.uses.insns.edgeCount var u := h.count_var u
    rw [List.count_append, List.count_cons] at hold
    rw [hnop, hedge, if_neg hav.symm, huses, List.count_append, List.count_append]
    unfold appended
    by_cases hu : u = a
    · subst hu
      rw [if_pos rfl, honce.1, honce.2]
      split_ifs <;> simp [hself0]
    · have hau : ¬ (a == u) = true := by simpa using Ne.symm hu
      rw [if_neg hau] at hold
      rw [if_neg hu]
      by_cases hr : t (c.offsetOf a) = var
      · rw [if_pos hr, if_pos hr.symm]
        omega
      · rw [if_neg hr, if_neg (Ne.symm hr), List.count_nil]
        omega
  · intro d u hd hdv
    show _ = (uses.insns.makeNop a).edgeCount d u
    rw [hnop, hedge]
    by_cases hda : d = a
    · subst hda
      rw [hturn.uses_self, if_pos rfl, ite_self, List.count_nil]
    · rw [hturn.uses_of_ne d hda, if_neg hda]
      show (uses.uses d).count u = _
      have hold := h.count d u hd hdv
      have hsd := hsingle d
      rw [if_neg hdv] at hsd
      by_cases hdr : d = t (c.offsetOf a)
      · subst hdr
        rw [hself, List.count_append, if_pos rfl, hold]
        by_cases hu : u = a
        · subst hu
          rw [if_pos rfl, hsd, huses, hself0]
        · rw [if_neg hu]
      · rw [hkeep d hdr, if_neg hdr, hold]
        by_cases hu : u = a
        · subst hu
          rw [if_pos rfl, hsd]
        · rw [if_neg hu, Nat.add_zero]
  · intro u hu
    have hold : ∀ v ∈ rest.erase skip, (c.op v = .load ∨ c.op v = .store) ∨ c.Offset var v := by
      have hne : a ≠ skip := by
        rintro rfl
        exact h.not_offset ha
      have := h.todo
      rw [List.erase_cons_tail (by simpa using hne)] at this
      exact fun v hv => this v (List.mem_cons_of_mem a hv)
    rw [List.erase_append] at hu
    split_ifs at hu with hs
    · rcases List.mem_append.mp hu with hu | hu
      · exact hold u hu
      · exact Or.inl (R.mem_appended ha hu)
    · rcases List.mem_append.mp hu with hu | hu
      · exact hold u (by rwa [List.erase_of_not_mem hs])
      · exact Or.inl (R.mem_appended ha (List.mem_of_mem_erase hu))
  · intro b hb hmem
    have hbrest : b ∈ rest := by
      rcases List.mem_append.mp hmem with hmem | hmem
      · exact hmem
      · exact absurd (R.mem_appended ha hmem) hb.not_access
    have hba : b ≠ a := fun e => hrest (e ▸ hbrest)
    obtain ⟨hopb, hinputsb, hop1b, hop2b, husesb⟩ := h.pending b hb (List.mem_cons_of_mem a hbrest)
    refine ⟨(hopOther b hba).trans hopb, (hinputsOther b hba).trans hinputsb, ?_, ?_, ?_⟩
    · rcases hword b 1 hba (by omega) with hw | ⟨hw, _⟩
      · exact hw.trans hop1b
      · rw [hop1b] at hw
        omega
    · rcases hword b 2 hba (by omega) with hw | ⟨hw, _⟩
      · exact hw.trans hop2b
      · have := hb.const
        rw [hop2b] at hw
        omega
    · refine (hturn.uses_of_ne b hba).trans ?_
      exact (hkeep b (R.target_ne ha hb).symm).trans husesb
  · intro b hb hnot u
    show (uses.insns.makeNop a).edgeCount b u = 0
    rw [hnop, hedge]
    by_cases hba : b = a
    · rw [if_pos hba, ite_self]
    · rw [List.mem_append, not_or] at hnot
      have hzero := h.done b hb (by rw [List.mem_cons, not_or]; exact ⟨hba, hnot.1⟩) u
      rw [if_neg hba, if_neg (R.target_ne ha hb).symm, hzero, ite_self]
  · intro u hu hopu
    have hua : u ≠ a := by
      rintro rfl
      exact hopu ha.op
    obtain ⟨ho, hi, hj⟩ := h.other u hu hopu
    refine ⟨(hopOther u hua).trans ho, (hinputsOther u hua).trans hi, fun j h1 h3 => ?_⟩
    show c.Moved var t (c.insnOp u j) ((uses.insns.makeNop a).insnOp u j)
    rcases hword u j hua h3 with hw | ⟨hw, hnew⟩
    · rw [hw]
      exact hj j h1 h3
    · rcases hj j h1 h3 with hold | ⟨b, hb, _, hb'⟩
      · exact Or.inr ⟨a, ha, by rw [← hold, hw], hnew⟩
      · rw [hw] at hb'
        exact absurd (Int.ofNat_inj.mp hb').symm (R.target_ne hb ha)

/-- The steps that the loop needs for a use: one, and one for every use of an addition. -/
def work (c : Ctx) (u : ℕ) : ℕ := if c.op u = .add then 1 + (c.uses.uses u).length else 1

theorem Ready.work_appended (R : Ready c var next t) {a : ℕ} (ha : c.Offset var a) :
    ((c.appended var t a).map c.work).sum < c.work a := by
  have hone : ∀ l : List ℕ, (∀ u ∈ l, c.op u = .load ∨ c.op u = .store) → (l.map c.work).sum = l.length := by
    intro l
    induction l with
    | nil => exact fun _ => rfl
    | cons u l ih =>
      intro hl
      have hu : c.work u = 1 := by
        refine if_neg fun hadd => ?_
        have := hl u List.mem_cons_self
        rw [hadd] at this
        simp at this
      rw [List.map_cons, List.sum_cons, hu, ih fun v hv => hl v (List.mem_cons_of_mem u hv), List.length_cons]
      omega
  rw [hone _ fun u hu => R.mem_appended ha hu, work, if_pos ha.op]
  unfold appended
  split_ifs
  · omega
  · simp only [List.length_nil]
    omega

theorem Compacting.head (h : Compacting c var t c' skip kept stale (u :: rest)) :
    c'.uses.useEdges ((c'.uses.useLists var).refs + (kept.length + stale.length)) = u := by
  have hcells := h.cells
  unfold Uses.Ctx.uses at hcells
  have hget : (slice c'.uses.useEdges (c'.uses.useLists var).refs
      (c'.uses.useLists var).count)[kept.length + stale.length]? = some u := by
    rw [hcells, List.getElem?_append_right (by simp)]
    simp
  obtain ⟨hlt, hu⟩ := List.getElem?_eq_some_iff.mp hget
  rw [← hu, getElem_slice]

theorem Compacting.length (h : Compacting c var t c' skip kept stale rest) :
    (c'.uses.useLists var).count = kept.length + stale.length + rest.length := by
  have hcells := congrArg List.length h.cells
  unfold Uses.Ctx.uses at hcells
  rwa [length_slice, List.length_append, List.length_append] at hcells

/-- The write of a use that stays. -/
theorem Compacting.write (h : Compacting c var t c' skip kept stale (u :: rest)) :
    ∃ stale' uses', stale'.length = stale.length ∧
      (if kept.length + stale.length ≠ kept.length then
        { c' with uses := c'.uses.setEdge ((c'.uses.useLists var).refs + kept.length) u } else c') =
        { c' with uses := uses' } ∧
      Uses.Turns c'.uses var (kept ++ [u] ++ stale' ++ rest) uses' := by
  have hlen := h.length
  rw [List.length_cons] at hlen
  rcases stale with _ | ⟨s, stale⟩
  · refine ⟨[], c'.uses, rfl, if_neg (by simp), h.sound, rfl, ?_, fun _ _ => rfl⟩
    rw [h.cells]
    simp
  · refine ⟨stale ++ [u], c'.uses.setEdge ((c'.uses.useLists var).refs + kept.length) u, by simp,
      if_pos (by simp), ?_⟩
    have hset : slice (Function.update c'.uses.useEdges ((c'.uses.useLists var).refs + kept.length) u)
        (c'.uses.useLists var).refs (c'.uses.useLists var).count = kept ++ [u] ++ (stale ++ [u]) ++ rest := by
      rw [slice_update (by omega)]
      have hcells := h.cells
      unfold Uses.Ctx.uses at hcells
      rw [hcells]
      simp
    refine h.sound.rewrite hset (fun i hi => Function.update_of_ne (by omega) _ _) ?_
    intro h0
    refine h.sound.zero_notMem var ?_
    rw [h.cells]
    simp only [List.mem_append, List.mem_cons] at h0 ⊢
    tauto

/-- The loop ends, with the uses that stay in the first cells. -/
theorem compactUses_spec {firstNew : ℕ} {sizes : ℕ → ℕ} (R : Ready c var next (target var firstNew sizes))
    (fuel : ℕ) :
    ∀ (c' : Ctx) (skip : ℕ) (kept stale rest : List ℕ),
      Compacting c var (target var firstNew sizes) c' skip kept stale rest →
      (rest.map c.work).sum < fuel →
      ∃ c'' skip' kept' stale',
        compactUses var firstNew sizes fuel c' skip (kept.length + stale.length) kept.length =
          some (c'', kept'.length) ∧
        Compacting c var (target var firstNew sizes) c'' skip' kept' stale' [] := by
  induction fuel with
  | zero =>
    intro _ _ _ _ _ _ hfuel
    omega
  | succ fuel ih =>
    intro c' skip kept stale rest h hfuel
    have hlen := h.length
    rcases rest with _ | ⟨u, rest⟩
    · refine ⟨c', skip, kept, stale, ?_, h⟩
      rw [compactUses]
      exact if_neg (by rw [hlen]; simp)
    rw [List.map_cons, List.sum_cons] at hfuel
    have hwork : 1 ≤ c.work u := by
      unfold work
      split_ifs <;> omega
    have hmem : u ∈ c.insns.heads := by
      rw [← h.heads]
      apply Insns.mem_heads_of_edgeCount
      rw [← h.count_var u, List.count_append, List.count_cons_self]
      omega
    rw [compactUses]
    dsimp only
    rw [if_pos (by rw [hlen, List.length_cons]; omega), h.head]
    -- a use that stays
    have hkeep : ∀ skip', ¬ c.Offset var u → ¬ c.Offset var skip' →
        (∀ v ∈ rest.erase skip', (c.op v = .load ∨ c.op v = .store) ∨ c.Offset var v) →
        ∃ c'' skip'' kept' stale',
          compactUses var firstNew sizes fuel
            (if kept.length + stale.length ≠ kept.length then
              { c' with uses := c'.uses.setEdge ((c'.uses.useLists var).refs + kept.length) u } else c')
            skip' (kept.length + stale.length + 1) (kept.length + 1) = some (c'', kept'.length) ∧
          Compacting c var (target var firstNew sizes) c'' skip'' kept' stale' [] := by
      intro skip' hu hskip htodo
      obtain ⟨stale', uses', hlen', hwrite, hturn⟩ := h.write
      have hnext := ih _ skip' _ stale' rest (h.keep R hu hskip htodo hturn) (by omega)
      rw [hwrite]
      rw [List.length_append, List.length_singleton, hlen'] at hnext
      rwa [show kept.length + stale.length + 1 = kept.length + 1 + stale.length by omega]
    by_cases hskip : u = skip
    · rw [if_pos hskip]
      have hzero : 0 ∉ rest := by
        intro h0
        refine h.sound.zero_notMem var ?_
        rw [h.cells]
        simp [h0]
      refine hkeep 0 (hskip ▸ h.not_offset) (fun h0 => (Insns.heads_pos h0.mem).ne rfl) ?_
      rw [List.erase_of_not_mem hzero]
      have htodo := h.todo
      rwa [← hskip, List.erase_cons_head] at htodo
    rw [if_neg hskip]
    have htodo := h.todo
    rw [List.erase_cons_tail (by simpa using hskip)] at htodo
    rcases htodo u List.mem_cons_self with hacc | ha
    · have hnot : ¬ c.Offset var u := fun ha => ha.not_access hacc
      have hop : c'.op u = c.op u := by
        refine (h.other u hmem fun hadd => ?_).1
        rw [hadd] at hacc
        simp at hacc
      rw [if_pos (by rw [hop]; exact hacc)]
      exact hkeep skip hnot h.not_offset fun v hv => htodo v (List.mem_cons_of_mem u hv)
    · obtain ⟨hop, _, _, hop2, _⟩ := h.pending u ha List.mem_cons_self
      obtain ⟨uses, hrep, hstep⟩ := h.replace R ha
      have hoff : (c'.val (c'.insnOp u 2)).toNat = c.offsetOf u := by
        rw [h.val, hop2]
        rfl
      have hsum : ((rest ++ c.appended var (target var firstNew sizes) u).map c.work).sum < fuel := by
        have := R.work_appended ha
        rw [List.map_append, List.sum_append]
        omega
      rw [if_neg (by rw [hop]; simp), hoff]
      have hrep' : Uses.replace c'.uses u
          ((if sizes (c.offsetOf u) = 0 then var else firstNew + sizes (c.offsetOf u) - 1 : ℕ) : ℤ) =
          some uses := hrep
      rw [hrep']
      have hnext := ih _ skip kept (stale ++ [u]) _ hstep hsum
      rw [List.length_append, List.length_singleton, ← Nat.add_assoc] at hnext
      exact hnext

/-- The tail of the list is cut off, and the lists are the inverse of the edges again. -/
theorem Compacting.cutUses (h : Compacting c var t c' skip kept stale []) :
    Uses.Inverse (c'.cutUses var kept.length).uses := by
  have hlen := h.length
  rw [List.length_nil] at hlen
  have hcells := h.cells
  unfold Uses.Ctx.uses at hcells
  have hkept : slice (Uses.fillUnused ((c'.uses.useLists var).count - kept.length) c'.uses.useEdges
      ((c'.uses.useLists var).refs + kept.length)) (c'.uses.useLists var).refs kept.length = kept := by
    rw [slice_congr fun i _ hlt => Uses.fillUnused_of_out (.inl hlt)]
    rw [hlen, Nat.add_zero, slice_append, List.append_nil] at hcells
    exact (List.append_inj hcells (by rw [length_slice])).1
  have hturn := h.sound.inPlace (d := var) (show kept.length ≤ (c'.uses.useLists var).count by omega)
    (fun i hi => Uses.fillUnused_of_out (by
      by_contra hin
      exact hi ⟨by omega, by omega⟩)) hkept (by
      intro h0
      refine h.sound.zero_notMem var ?_
      rw [h.cells]
      simp [h0])
  refine ⟨hturn.sound, fun d u hd => ?_⟩
  show _ = c'.insns.edgeCount d u
  by_cases hdv : d = var
  · rw [hdv, ← h.count_var u, List.append_nil]
    exact congrArg (List.count u) hturn.uses_self
  · rw [← h.count d u hd hdv]
    exact congrArg (List.count u) (hturn.uses_of_ne d hdv)

/-- After the loop an access has the node of its part. -/
theorem Compacting.addr (R : Ready c var next t) (h : Compacting c var t c' skip kept stale []) {u : ℕ}
    (hu : u ∈ c.insns.heads) (hop : c.op u ≠ .add) (hinputs : 2 ≤ c.insns.inputsCount u) :
    (c.insnOp u 2 = var → c'.insnOp u 2 = var) ∧
      ∀ a, c.Offset var a → c.insnOp u 2 = a → c'.insnOp u 2 = t (c.offsetOf a) := by
  obtain ⟨_, hcount, hmoved⟩ := h.other u hu hop
  constructor
  · intro haddr
    rcases hmoved 2 (by omega) (by omega) with hsame | ⟨a, ha, hold, _⟩
    · rw [hsame, haddr]
    · rw [haddr] at hold
      exact absurd (Int.ofNat_inj.mp hold).symm (R.offset_ne ha)
  · intro a ha haddr
    rcases hmoved 2 (by omega) (by omega) with hsame | ⟨b, _, hold, hnew⟩
    · -- the edge to a replaced addition is gone
      have hpos : 0 < c'.insns.edgeCount a u :=
        Insns.edgeCount_pos ((h.heads u).mpr hu) (by omega)
          (show 2 ≤ c'.insns.inputsCount u by rw [hcount]; exact hinputs) (hsame.trans haddr)
      rw [h.done a ha (by simp) u] at hpos
      omega
    · rw [haddr] at hold
      obtain rfl : a = b := Int.ofNat_inj.mp hold
      exact hnew

/-- The nodes of the parts are as they were. -/
theorem Compacting.part (h : Compacting c var t c' skip kept stale rest) {ref s : ℕ} (hp : c.Part ref s) :
    c'.Part ref s := by
  obtain ⟨hop, hinputs, hmoved⟩ := h.other ref hp.mem (by rw [hp.op]; simp)
  have hop2 : c'.insnOp ref 2 = c.insnOp ref 2 := by
    rcases hmoved 2 (by omega) (by omega) with hsame | ⟨a, _, hold, _⟩
    · exact hsame
    · have := hp.const.1
      omega
  refine ⟨(h.heads ref).mpr hp.mem, hop.trans hp.op, hinputs.trans hp.inputsCount, ?_, ?_⟩
  · rw [hop2, h.constsCount]
    exact hp.const
  · rw [hop2, h.val]
    exact hp.size

end IrJit.Sroa.Ctx
