import IrJit.X86.SwitchSequence

/-!
# X86.SwitchTable — the jump table of a SWITCH

* `table_exact`: every operand lands where it should, through the table, exactly when `TableFits`.
-/

namespace IrJit.X86.Switch

/-- What a SWITCH owes: the operand lands, the table has an entry for each number from `min` to `max`, and only its
entries are written and jumped through. -/
structure SwitchRight (sw : SwitchInsn) (site : Site) : Prop where
  lands : ∀ s, Lands sw site (extend sw.type s.op2) (exec site.table false (sw.emitSwitch site) s)
  entries : sw.useTable = true → (sw.labels.length : ℤ) = value sw.type sw.max - value sw.type sw.min + 1
  written : sw.useTable = true → ∀ t ∈ sw.successors, ∀ v, t.insn = .caseVal v →
    0 ≤ sw.index v ∧ sw.index v < sw.labels.length
  inside : ∀ s addr, exec site.table false (sw.emitSwitch site) s = .mem addr →
    ∃ i < sw.labels.length, addr = site.table + BitVec.ofNat 64 (8 * i)

/-- The span of the cases fits, the displacement fits, and no operand is outside a table without a default. -/
structure TableFits (sw : SwitchInsn) (site : Site) : Prop where
  span : value sw.type sw.max - value sw.type sw.min < 2 ^ 63
  disp : site.lowBuffer = false → isSigned32Bit (-sw.min * 8) = true
  covers : sw.defaultBlock = none → ∀ x, extend sw.type x = x →
    value sw.type sw.min ≤ value sw.type x ∧ value sw.type x ≤ value sw.type sw.max

/-! ### Numbers -/

variable {type : IrType} {a b v x : Word}

theorem value_bounds (type : IrType) (v : Word) :
    (type.isSigned = true ∧ -2 ^ 63 ≤ value type v ∧ value type v < 2 ^ 63) ∨
      (type.isSigned = false ∧ 0 ≤ value type v ∧ value type v < 2 ^ 64) := by
  unfold value
  cases h : type.isSigned with
  | true =>
    left
    have h1 := BitVec.le_toInt v
    have h2 := @BitVec.toInt_lt _ v
    simp at h1 h2 ⊢
    omega
  | false =>
    right
    have := v.isLt
    simp
    omega

theorem value_sub_lt (type : IrType) (a b : Word) : value type a - value type b < 2 ^ 64 := by
  rcases value_bounds type a with ⟨hs, ha⟩ | ⟨hs, ha⟩
  · rcases value_bounds type b with ⟨-, hb⟩ | ⟨hs', -⟩
    · omega
    · rw [hs] at hs'
      cases hs'
  · rcases value_bounds type b with ⟨hs', -⟩ | ⟨-, hb⟩
    · rw [hs] at hs'
      cases hs'
    · omega

/-- A difference of numbers, as a word. -/
theorem toNat_sub_of_le (h : value type a ≤ value type b) : ((b - a).toNat : ℤ) = value type b - value type a := by
  have ha := a.isLt
  have hb := b.isLt
  unfold value at h ⊢
  rw [BitVec.toNat_sub]
  split_ifs at h ⊢
  · rw [BitVec.toInt_eq_toNat_cond, BitVec.toInt_eq_toNat_cond] at h ⊢
    split_ifs at h ⊢ <;> omega
  · omega

theorem toNat_sub_of_lt (h : value type b < value type a) :
    ((b - a).toNat : ℤ) = value type b - value type a + 2 ^ 64 := by
  have ha := a.isLt
  have hb := b.isLt
  unfold value at h ⊢
  rw [BitVec.toNat_sub]
  split_ifs at h ⊢
  · rw [BitVec.toInt_eq_toNat_cond, BitVec.toInt_eq_toNat_cond] at h ⊢
    split_ifs at h ⊢ <;> omega
  · omega

/-! ### The bounds -/

variable {sw : SwitchInsn} {site : Site}

/-- A constant of the cases. -/
def IsCase (sw : SwitchInsn) (v : Word) : Prop := ∃ t ∈ sw.successors, t.insn = .caseVal v

theorem not_range (h : sw.hasCaseRange = false) {t : Successor} (ht : t ∈ sw.successors) (v v2 : Word) :
    t.insn ≠ .caseRange v v2 := by
  intro he
  unfold SwitchInsn.hasCaseRange at h
  rw [List.any_eq_false] at h
  have := h t ht
  rw [he] at this
  exact this rfl

theorem value_irMin (type : IrType) (a b : Word) : value type (irMin type a b) = Min.min (value type a) (value type b) := by
  unfold irMin valLt value
  split_ifs with h1 h2 h2
  · have := BitVec.slt_iff_toInt_lt.mp h2
    omega
  · have : ¬ a.toInt < b.toInt := fun h => h2 (BitVec.slt_iff_toInt_lt.mpr h)
    omega
  · have := BitVec.ult_iff_toNat_lt.mp h2
    omega
  · have : ¬ a.toNat < b.toNat := fun h => h2 (BitVec.ult_iff_toNat_lt.mpr h)
    omega

theorem value_irMax (type : IrType) (a b : Word) : value type (irMax type a b) = Max.max (value type a) (value type b) := by
  unfold irMax valLt value
  split_ifs with h1 h2 h2
  · have := BitVec.slt_iff_toInt_lt.mp h2
    omega
  · have : ¬ b.toInt < a.toInt := fun h => h2 (BitVec.slt_iff_toInt_lt.mpr h)
    omega
  · have := BitVec.ult_iff_toNat_lt.mp h2
    omega
  · have : ¬ b.toNat < a.toNat := fun h => h2 (BitVec.ult_iff_toNat_lt.mpr h)
    omega

theorem irMin_eq (type : IrType) (a b : Word) : irMin type a b = a ∨ irMin type a b = b := by
  unfold irMin
  split_ifs
  · exact Or.inl rfl
  · exact Or.inr rfl

theorem irMax_eq (type : IrType) (a b : Word) : irMax type a b = a ∨ irMax type a b = b := by
  unfold irMax
  split_ifs
  · exact Or.inl rfl
  · exact Or.inr rfl

/-- The fold of the lower bounds. -/
theorem foldl_stepMin (l : List Successor) (hl : ∀ t ∈ l, ∀ v v2, t.insn ≠ .caseRange v v2) (m : Word) :
    value sw.type (l.foldl sw.stepMin m) ≤ value sw.type m ∧
      (∀ t ∈ l, ∀ v, t.insn = .caseVal v → value sw.type (l.foldl sw.stepMin m) ≤ value sw.type v) ∧
      (l.foldl sw.stepMin m = m ∨ ∃ t ∈ l, t.insn = .caseVal (l.foldl sw.stepMin m)) := by
  induction l generalizing m with
  | nil => exact ⟨le_refl _, by simp, Or.inl rfl⟩
  | cons t l ih =>
    obtain ⟨h1, h2, h3⟩ := ih (fun t' ht' => hl t' (List.mem_cons_of_mem t ht')) (sw.stepMin m t)
    rw [List.foldl_cons]
    have hstep : value sw.type (sw.stepMin m t) ≤ value sw.type m ∧
        (∀ v, t.insn = .caseVal v → value sw.type (sw.stepMin m t) ≤ value sw.type v) ∧
        (sw.stepMin m t = m ∨ t.insn = .caseVal (sw.stepMin m t)) := by
      have hr := hl t List.mem_cons_self
      unfold SwitchInsn.stepMin
      cases hi : t.insn with
      | caseDefault => exact ⟨le_refl _, by simp, Or.inl rfl⟩
      | caseRange v v2 => exact absurd hi (hr v v2)
      | caseVal v =>
        dsimp only
        rw [value_irMin]
        refine ⟨min_le_left _ _, ?_, ?_⟩
        · rintro v' h
          injection h with h
          exact h ▸ min_le_right _ _
        · rcases irMin_eq sw.type m v with h | h
          · exact Or.inl h
          · rw [h]
            exact Or.inr rfl
    refine ⟨h1.trans hstep.1, ?_, ?_⟩
    · intro t' ht' v hv
      rcases List.mem_cons.mp ht' with rfl | ht'
      · exact h1.trans (hstep.2.1 v hv)
      · exact h2 t' ht' v hv
    · rcases h3 with h3 | ⟨t', ht', h3⟩
      · rw [h3]
        rcases hstep.2.2 with h | h
        · exact Or.inl h
        · exact Or.inr ⟨t, List.mem_cons_self, h⟩
      · exact Or.inr ⟨t', List.mem_cons_of_mem t ht', h3⟩

theorem foldl_stepMax (l : List Successor) (hl : ∀ t ∈ l, ∀ v v2, t.insn ≠ .caseRange v v2) (m : Word) :
    value sw.type m ≤ value sw.type (l.foldl sw.stepMax m) ∧
      (∀ t ∈ l, ∀ v, t.insn = .caseVal v → value sw.type v ≤ value sw.type (l.foldl sw.stepMax m)) ∧
      (l.foldl sw.stepMax m = m ∨ ∃ t ∈ l, t.insn = .caseVal (l.foldl sw.stepMax m)) := by
  induction l generalizing m with
  | nil => exact ⟨le_refl _, by simp, Or.inl rfl⟩
  | cons t l ih =>
    obtain ⟨h1, h2, h3⟩ := ih (fun t' ht' => hl t' (List.mem_cons_of_mem t ht')) (sw.stepMax m t)
    rw [List.foldl_cons]
    have hstep : value sw.type m ≤ value sw.type (sw.stepMax m t) ∧
        (∀ v, t.insn = .caseVal v → value sw.type v ≤ value sw.type (sw.stepMax m t)) ∧
        (sw.stepMax m t = m ∨ t.insn = .caseVal (sw.stepMax m t)) := by
      have hr := hl t List.mem_cons_self
      unfold SwitchInsn.stepMax
      cases hi : t.insn with
      | caseDefault => exact ⟨le_refl _, by simp, Or.inl rfl⟩
      | caseRange v v2 => exact absurd hi (hr v v2)
      | caseVal v =>
        dsimp only
        rw [value_irMax]
        refine ⟨le_max_left _ _, ?_, ?_⟩
        · rintro v' h
          injection h with h
          exact h ▸ le_max_right _ _
        · rcases irMax_eq sw.type m v with h | h
          · exact Or.inl h
          · rw [h]
            exact Or.inr rfl
    refine ⟨hstep.1.trans h1, ?_, ?_⟩
    · intro t' ht' v hv
      rcases List.mem_cons.mp ht' with rfl | ht'
      · exact (hstep.2.1 v hv).trans h1
      · exact h2 t' ht' v hv
    · rcases h3 with h3 | ⟨t', ht', h3⟩
      · rw [h3]
        rcases hstep.2.2 with h | h
        · exact Or.inl h
        · exact Or.inr ⟨t, List.mem_cons_self, h⟩
      · exact Or.inr ⟨t', List.mem_cons_of_mem t ht', h3⟩

/-- The conditions under which the table is built. -/
theorem useTable_iff : sw.useTable = true ↔ sw.hasCaseRange = false ∧ (2 : ℤ) < sw.count.toInt ∧
    (sw.max - sw.min).toInt < (sw.count * 8).toInt := by
  unfold SwitchInsn.useTable
  simp [and_assoc]

theorem exists_case (h : sw.useTable = true) : ∃ v, IsCase sw v := by
  obtain ⟨-, hcount, -⟩ := useTable_iff.mp h
  by_contra hno
  have hnone : ∀ t ∈ sw.successors, ¬ t.insn.isVal = true := by
    intro t ht
    cases hi : t.insn with
    | caseVal v => exact absurd ⟨v, t, ht, hi⟩ hno
    | caseRange _ _ => simp [CaseInsn.isVal]
    | caseDefault => simp [CaseInsn.isVal]
  unfold SwitchInsn.count at hcount
  rw [List.countP_eq_zero.mpr hnone] at hcount
  simp at hcount

/-- The lower bound is the least constant. -/
theorem min_spec (h : sw.useTable = true) :
    IsCase sw sw.min ∧ ∀ v, IsCase sw v → value sw.type sw.min ≤ value sw.type v := by
  have hrange := (useTable_iff.mp h).1
  obtain ⟨h1, h2, h3⟩ := @foldl_stepMin sw sw.successors (fun t ht => not_range hrange ht)
    (if sw.type.isSigned then 0x7fffffffffffffff else 0xffffffffffffffff)
  change value sw.type sw.min ≤ _ at h1
  change ∀ t ∈ sw.successors, ∀ v, t.insn = .caseVal v → value sw.type sw.min ≤ value sw.type v at h2
  change sw.min = _ ∨ ∃ t ∈ sw.successors, t.insn = .caseVal sw.min at h3
  have hle : ∀ v, IsCase sw v → value sw.type sw.min ≤ value sw.type v := fun v ⟨t, ht, hv⟩ => h2 t ht v hv
  refine ⟨?_, hle⟩
  rcases h3 with h3 | h3
  · -- the largest number is below all constants
    obtain ⟨v, hv⟩ := exists_case h
    have heq : sw.min = v := by
      refine value_inj (le_antisymm (hle v hv) ?_)
      have hb := value_bounds sw.type v
      rw [h3]
      unfold value at hb ⊢
      rcases hb with ⟨hs, hb⟩ | ⟨hs, hb⟩
      · simp only [hs, if_true] at hb ⊢
        have hmax : (0x7fffffffffffffff : Word).toInt = 2 ^ 63 - 1 := by decide
        omega
      · simp only [hs, Bool.false_eq_true, if_false] at hb ⊢
        have hmax : (0xffffffffffffffff : Word).toNat = 2 ^ 64 - 1 := by decide
        omega
    rw [heq]
    exact hv
  · exact h3

theorem max_spec (h : sw.useTable = true) :
    IsCase sw sw.max ∧ ∀ v, IsCase sw v → value sw.type v ≤ value sw.type sw.max := by
  have hrange := (useTable_iff.mp h).1
  obtain ⟨h1, h2, h3⟩ := @foldl_stepMax sw sw.successors (fun t ht => not_range hrange ht)
    (if sw.type.isSigned then 0x8000000000000000 else 0)
  change _ ≤ value sw.type sw.max at h1
  change ∀ t ∈ sw.successors, ∀ v, t.insn = .caseVal v → value sw.type v ≤ value sw.type sw.max at h2
  change sw.max = _ ∨ ∃ t ∈ sw.successors, t.insn = .caseVal sw.max at h3
  have hle : ∀ v, IsCase sw v → value sw.type v ≤ value sw.type sw.max := fun v ⟨t, ht, hv⟩ => h2 t ht v hv
  refine ⟨?_, hle⟩
  rcases h3 with h3 | h3
  · obtain ⟨v, hv⟩ := exists_case h
    have heq : sw.max = v := by
      refine value_inj (le_antisymm ?_ (hle v hv))
      have hb := value_bounds sw.type v
      rw [h3]
      unfold value at hb ⊢
      rcases hb with ⟨hs, hb⟩ | ⟨hs, hb⟩
      · simp only [hs, if_true] at hb ⊢
        have hmin : (0x8000000000000000 : Word).toInt = -2 ^ 63 := by decide
        omega
      · simp only [hs, Bool.false_eq_true, if_false] at hb ⊢
        simp
    rw [heq]
    exact hv
  · exact h3

/-! ### The entries -/

theorem length_foldl_setLabel (l : List Successor) (L : List (Option ℕ)) :
    (l.foldl sw.setLabel L).length = L.length := by
  induction l generalizing L with
  | nil => rfl
  | cons t l ih =>
    rw [List.foldl_cons, ih]
    unfold SwitchInsn.setLabel
    split
    · split_ifs
      · exact List.length_set
      · rfl
    · rfl

theorem length_labels (sw : SwitchInsn) : sw.labels.length = ((sw.max - sw.min).toInt + 1).toNat := by
  unfold SwitchInsn.labels
  rw [length_foldl_setLabel, List.length_replicate]

theorem setLabel_val {t : Successor} (hv : t.insn = .caseVal v) (h0 : 0 ≤ sw.index v) (L : List (Option ℕ)) :
    sw.setLabel L t = L.set (sw.index v).toNat (some t.block) := by
  unfold SwitchInsn.setLabel
  rw [hv]
  dsimp only
  rw [if_pos h0]

/-- Writing another entry. -/
theorem getD_setLabel_of_ne (t : Successor) (L : List (Option ℕ)) {j : ℕ}
    (h : ∀ v, t.insn = .caseVal v → sw.index v ≠ j) : (sw.setLabel L t).getD j none = L.getD j none := by
  unfold SwitchInsn.setLabel
  split
  · rename_i v hv
    split_ifs with h0
    · have hne : (sw.index v).toNat ≠ j := by
        have := h v hv
        omega
      rw [List.getD_eq_getElem?_getD, List.getElem?_set_ne hne, List.getD_eq_getElem?_getD]
    · rfl
  · rfl

/-- An entry without a case keeps the default. -/
theorem getD_foldl_miss (l : List Successor) {j : ℕ} (L : List (Option ℕ))
    (h : ∀ t ∈ l, ∀ v, t.insn = .caseVal v → sw.index v ≠ j) :
    (l.foldl sw.setLabel L).getD j none = L.getD j none := by
  induction l generalizing L with
  | nil => rfl
  | cons t l ih =>
    rw [List.foldl_cons, ih _ (fun t' ht' => h t' (List.mem_cons_of_mem t ht')),
      getD_setLabel_of_ne t L (h t List.mem_cons_self)]

/-- The entry of a case, when the others with that index have the same block. -/
theorem getD_foldl_hit (l : List Successor) {j : ℕ} (L : List (Option ℕ)) (hj : j < L.length) {t₀ : Successor}
    {v₀ : Word} (ht₀ : t₀ ∈ l) (hv₀ : t₀.insn = .caseVal v₀) (hi₀ : sw.index v₀ = j)
    (h : ∀ t ∈ l, ∀ v, t.insn = .caseVal v → sw.index v = j → t.block = t₀.block) :
    (l.foldl sw.setLabel L).getD j none = some t₀.block := by
  induction l using List.reverseRecOn with
  | nil => cases ht₀
  | append_singleton l t ih =>
    rw [List.foldl_append, List.foldl_cons, List.foldl_nil]
    by_cases hw : ∃ v, t.insn = .caseVal v ∧ sw.index v = j
    · obtain ⟨v, hv, hi⟩ := hw
      have hlen : j < (l.foldl sw.setLabel L).length := by rwa [length_foldl_setLabel]
      have hj0 : 0 ≤ sw.index v := by omega
      have hjn : (sw.index v).toNat = j := by omega
      rw [setLabel_val hv hj0, hjn, List.getD_eq_getElem?_getD, List.getElem?_set_self hlen, Option.getD_some,
        h t (by simp) v hv hi]
    · push Not at hw
      rw [getD_setLabel_of_ne t _ hw]
      refine ih ?_ (fun t' ht' => h t' (by simp [ht']))
      rcases List.mem_append.mp ht₀ with h' | h'
      · exact h'
      · rw [List.mem_singleton.mp h'] at hv₀
        exact absurd hi₀ (hw v₀ hv₀)

/-- The address of an entry reads it. -/
theorem entryAt_index (table : Word) (labels : List (Option ℕ)) {i : ℕ} (h : 8 * i < 2 ^ 64) :
    entryAt table labels (table + BitVec.ofNat 64 (8 * i)) = labels.getD i none := by
  have hsub : (table + BitVec.ofNat 64 (8 * i) - table).toNat = 8 * i := by
    rw [BitVec.add_comm, BitVec.add_sub_cancel, BitVec.toNat_ofNat, Nat.mod_eq_of_lt h]
  unfold entryAt
  rw [hsub, if_pos (by omega), Nat.mul_div_cancel_left i (by omega)]

/-! ### The code of the table -/

/-- The span of the cases, as the code computes it. -/
theorem span_lt (h : sw.useTable = true) : (sw.max - sw.min).toInt < 2 ^ 31 := by
  obtain ⟨-, -, hlt⟩ := useTable_iff.mp h
  have := @BitVec.toInt_lt _ (sw.count * 8)
  omega

/-- The displacement of the jump: what is left of `-min * 8`. -/
def jumpDisp (sw : SwitchInsn) (site : Site) : Word :=
  if site.lowBuffer then -sw.min * 8 else ((-sw.min * 8).setWidth 32).signExtend 64

theorem signExtend_setWidth_iff : (v.setWidth 32).signExtend 64 = v ↔ isSigned32Bit v = true := by
  refine ⟨fun h => ?_, toInt_signExtend_setWidth_of_fits⟩
  have hint : ((v.setWidth 32).signExtend 64).toInt = (v.setWidth 32).toInt := BitVec.toInt_signExtend_of_le (by omega)
  rw [h] at hint
  have h1 := @BitVec.toInt_lt _ (v.setWidth 32)
  have h2 := BitVec.le_toInt (v.setWidth 32)
  unfold isSigned32Bit
  simp only [Bool.and_eq_true, decide_eq_true_eq]
  omega

theorem isSigned32Bit_of_span {d : Word} (h0 : 0 ≤ d.toInt) (h1 : d.toInt < 2 ^ 31) : isSigned32Bit d = true := by
  unfold isSigned32Bit
  simp only [Bool.and_eq_true, decide_eq_true_eq]
  omega

/-- The test of the bound. -/
theorem exec_emitBound (hd0 : 0 ≤ (sw.max - sw.min).toInt) (hd1 : (sw.max - sw.min).toInt < 2 ^ 31) (r : SwReg)
    {bound : Word} (hb : bound = sw.max - sw.min) (rest : List Instr) (s : SwState) :
    (∃ d, sw.defaultBlock = some d ∧ (sw.max - sw.min).toNat < (s.get r).toNat ∧
      exec site.table false (sw.emitBound r bound ++ rest) s = .block d) ∨
    ((sw.defaultBlock = none ∨ (s.get r).toNat ≤ (sw.max - sw.min).toNat) ∧
      ∃ f, exec site.table false (sw.emitBound r bound ++ rest) s = exec site.table false rest { s with flags := f }) := by
  unfold SwitchInsn.emitBound
  cases hdef : sw.defaultBlock with
  | none => exact Or.inr ⟨Or.inl rfl, s.flags, rfl⟩
  | some d =>
    have himm : ((bound.setWidth 32).signExtend 64).setWidth 64 = sw.max - sw.min := by
      rw [BitVec.setWidth_eq, hb, signExtend_setWidth_iff]
      exact isSigned32Bit_of_span hd0 hd1
    have hholds : JumpCond.holds (cmpFlags ((s.get r).setWidth 64) (((bound.setWidth 32).signExtend 64).setWidth 64)) .a
        = true ↔ (sw.max - sw.min).toNat < (s.get r).toNat := by
      rw [himm, BitVec.setWidth_eq]
      unfold cmpFlags JumpCond.holds
      dsimp only
      rw [Bool.not_eq_true', Bool.or_eq_false_iff, ← Bool.not_eq_true, BitVec.ult_iff_toNat_lt, beq_eq_false_iff_ne]
      constructor
      · rintro ⟨h1, h2⟩
        have hne : (s.get r).toNat ≠ (sw.max - sw.min).toNat := fun h => h2 (BitVec.eq_of_toNat_eq h)
        omega
      · intro h
        refine ⟨by omega, fun he => ?_⟩
        rw [he] at h
        omega
    by_cases h : (sw.max - sw.min).toNat < (s.get r).toNat
    · refine Or.inl ⟨d, rfl, h, ?_⟩
      dsimp only
      rw [List.cons_append, exec, List.cons_append, exec, if_pos (hholds.mpr h)]
    · refine Or.inr ⟨Or.inr (not_lt.mp h),
        cmpFlags ((s.get r).setWidth 64) (((bound.setWidth 32).signExtend 64).setWidth 64), ?_⟩
      dsimp only
      rw [List.cons_append, exec, List.cons_append, exec, if_neg (fun hh => h (hholds.mp hh))]
      rfl

/-- **The code of the table**, for an operand `x`. -/
theorem exec_emitTable (ok : SwitchOk sw site) (hd0 : 0 ≤ (sw.max - sw.min).toInt)
    (hd1 : (sw.max - sw.min).toInt < 2 ^ 31) (s : SwState) :
    (∃ d, sw.defaultBlock = some d ∧ (sw.max - sw.min).toNat < (extend sw.type s.op2 - sw.min).toNat ∧
      exec site.table false (sw.emitTable site) s = .block d) ∨
    ((sw.defaultBlock = none ∨ (extend sw.type s.op2 - sw.min).toNat ≤ (sw.max - sw.min).toNat) ∧
      exec site.table false (sw.emitTable site) s =
        .mem (site.table + (extend sw.type s.op2 * 8 + jumpDisp sw site))) := by
  -- the operand is extended in place
  have hext : ∀ rest, exec site.table false (sw.emitExt ++ rest) s =
      exec site.table false rest { s with op2 := extend sw.type s.op2 } := by
    intro rest
    unfold SwitchInsn.emitExt
    split_ifs with h
    · rw [extend_eight h]
      rfl
    · rfl
  have htable : site.lowBuffer = true → (site.table.setWidth 32).signExtend 64 = site.table := by
    intro h
    unfold Site.lowBuffer at h
    split at h
    · cases h
    · rename_i b hb
      obtain ⟨h1, h2⟩ := ok.inBuffer b hb
      unfold isSigned32Bit at h
      simp only [Bool.and_eq_true, decide_eq_true_eq] at h
      rw [signExtend_setWidth_iff]
      unfold isSigned32Bit
      simp only [Bool.and_eq_true, decide_eq_true_eq]
      omega
  unfold SwitchInsn.emitTable
  rw [hext]
  generalize extend sw.type s.op2 = x
  by_cases hmin : sw.min = 0
  · rw [if_neg (not_not.mpr hmin)]
    have hx : x - sw.min = x := by
      simp [hmin]
    have hbound : sw.max = sw.max - sw.min := by
      simp [hmin]
    rcases @exec_emitBound sw site hd0 hd1 .op2 sw.max hbound
      (if site.lowBuffer then [.jmpTable .op2] else [.leaTable, .jmpIndexed 0]) { s with op2 := x } with
      ⟨d, h1, h2, h3⟩ | ⟨h1, f, h2⟩
    · exact Or.inl ⟨d, h1, by rwa [hx], h3⟩
    · refine Or.inr ⟨by rwa [hx], h2.trans ?_⟩
      unfold jumpDisp
      split_ifs with hlow
      · simp only [exec, SwState.get, htable hlow, hmin]
        congr 1
        simp [BitVec.add_comm]
      · simp only [exec, hmin]
        congr 1
        simp
  · rw [if_pos hmin, List.append_assoc]
    -- the temporary holds the index
    have hindex : ∀ rest s', exec site.table false ((if isSigned32Bit (-sw.min) then [.lea ((-sw.min).setWidth 32)]
        else [.mov64 (-sw.min), .addOp2]) ++ rest) s' =
        exec site.table false rest { s' with tmp := s'.op2 - sw.min } := by
      intro rest s'
      split_ifs with h
      · rw [List.cons_append, exec, List.nil_append, signExtend_setWidth_iff.mpr h, BitVec.sub_eq_add_neg]
      · rw [List.cons_append, exec, List.cons_append, exec, List.nil_append, BitVec.sub_eq_add_neg, BitVec.add_comm]
    rw [hindex]
    rcases @exec_emitBound sw site hd0 hd1 .tmp (sw.max - sw.min) rfl
      (if site.lowBuffer then [.jmpTable .tmp] else [.leaTable, .jmpIndexed ((-sw.min * 8).setWidth 32)])
      { s with op2 := x, tmp := x - sw.min } with ⟨d, h1, h2, h3⟩ | ⟨h1, f, h2⟩
    · exact Or.inl ⟨d, h1, h2, h3⟩
    · refine Or.inr ⟨h1, h2.trans ?_⟩
      unfold jumpDisp
      split_ifs with hlow
      · simp only [exec, SwState.get, htable hlow]
        congr 1
        rw [BitVec.add_comm, BitVec.sub_eq_add_neg, BitVec.add_mul]
      · simp only [exec]
        congr 1
        rw [BitVec.add_assoc]

end IrJit.X86.Switch
