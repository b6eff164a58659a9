import IrJit.Fold.Weight

/-!
# Fold.Decrease — every restart lowers the measure

One lemma for each shape of restart, then one for each rule that restarts the engine.
-/

namespace IrJit.Fold

variable {F : FloatOps} {c c' : Ctx} {W : ℤ → ℕ} {q q' : Question} {o1 o2 : IrOp}

/-- The component of a key: the opcode of the operand, or nothing. -/
def Key (o x : IrOp) : Prop := o = .nop ∨ o = x

theorem Key.eq {o x : IrOp} (h : Key o x) (hne : o ≠ .nop) : x = o := by
  rcases h with rfl | rfl
  · exact absurd rfl hne
  · rfl

/-- A new question, with lower measure. -/
def Descends (c : Ctx) (W : ℤ → ℕ) (q : Question) (c' : Ctx) (q' : Question) : Prop :=
  ∃ W', Extends c W c' W' ∧ q'.valid c' ∧ measure c' W' q' < measure c W q

/-- Two floating point constants of one type are left to the constant rules. -/
def Fresh (c : Ctx) (q : Question) : Prop :=
  ¬(isF (c.insn q.op1).op = true ∧ (c.insn q.op1).op = (c.insn q.op2).op ∧
    (q.op = .add ∨ q.op = .ordered ∨ q.op = .unordered))

/-- The rule only restarts with a lower measure. -/
def Decreases (r : Rule) : Prop :=
  ∀ (F : FloatOps) (c : Ctx) (W : ℤ → ℕ) (q : Question) (o1 o2 : IrOp) (c' : Ctx) (q' : Question),
    Weighed c W → q.valid c → Key o1 (c.insn q.op1).op → Key o2 (c.insn q.op2).op →
    r.pattern q.op o1 o2 = true → Fresh c q →
    r.body F c q (c.insn q.op1) (c.insn q.op2) = .restart c' q' → Descends c W q c' q'

/-! ## Operands -/

theorem deep1 (hw : Weighed c W) {r : ℤ} {o : IrOp} (ha : (c.insn r).op = o)
    (ho : isDataOp o = true) :
    c.valid (c.insn r).op1 ∧ 2 * W (c.insn r).op1 + 3 ≤ W r :=
  hw.one r (by rw [ha]; exact ho)

theorem deep2 (hw : Weighed c W) {r : ℤ} {o : IrOp} (ha : (c.insn r).op = o)
    (ho : isDataOp o = true) (h2 : 2 ≤ o.inputEdges) :
    c.valid (c.insn r).op1 ∧ c.valid (c.insn r).op2 ∧
      2 * (W (c.insn r).op1 + W (c.insn r).op2) + 4 ≤ W r := by
  have hr : isDataOp (c.insn r).op = true := by
    rw [ha]
    exact ho
  obtain ⟨hv2, hle⟩ := hw.two r hr (by rw [ha]; exact h2)
  exact ⟨(hw.one r hr).1, hv2, hle⟩

theorem weight_pos (hw : Weighed c W) {r : ℤ} {o : IrOp} (ha : (c.insn r).op = o) (ho : o ≠ .nop) :
    1 ≤ W r :=
  hw.one_le (ne_zero_of_op hw (by rw [ha]; exact ho))

theorem ops_le_load (W : ℤ → ℕ) (q : Question) : W q.op1 + W q.op2 ≤ load W q := by
  unfold load
  omega

theorem load_eq (W : ℤ → ℕ) (h : q.op ≠ .cond) : load W q = W q.op1 + W q.op2 := by
  unfold load
  rw [if_neg h, Nat.add_zero]

/-! ## Shapes of restarts -/

theorem descends_same (hw : Weighed c W) (hv : q'.valid c) (hlt : measure c W q' < measure c W q) :
    Descends c W q c q' :=
  ⟨W, Extends.refl hw, hv, hlt⟩

theorem withConst_eq {op : IrOp} {r : ℤ} {v : Val} {t : IrType}
    (hb : Reply.withConst c q op r v t = .restart c' q') :
    c' = (c.const v t).1 ∧ q' = { q with op := op, op1 := r, op2 := (c.const v t).2 } := by
  have heq : Reply.withConst c q op r v t =
      .restart (c.const v t).1 { q with op := op, op1 := r, op2 := (c.const v t).2 } := rfl
  rw [heq] at hb
  exact ⟨(Reply.restart.inj hb).1.symm, (Reply.restart.inj hb).2.symm⟩

theorem constWith_eq {op : IrOp} {r : ℤ} {v : Val} {t : IrType}
    (hb : Reply.constWith c q op v t r = .restart c' q') :
    c' = (c.const v t).1 ∧ q' = { q with op := op, op1 := (c.const v t).2, op2 := r } := by
  have heq : Reply.constWith c q op v t r =
      .restart (c.const v t).1 { q with op := op, op1 := (c.const v t).2, op2 := r } := rfl
  rw [heq] at hb
  exact ⟨(Reply.restart.inj hb).1.symm, (Reply.restart.inj hb).2.symm⟩

/-- `op2` becomes a constant, `op1` the lighter `r`. -/
theorem descends_withConst {op : IrOp} {r : ℤ} {v : Val} {t : IrType} (hw : Weighed c W)
    (hv : q.valid c) (hr : c.valid r) (hop : op ≠ .cond)
    (hlt : 2 * (W r + 1) + 2 ≤ load W q ∨ (isPlain op = true ∧ W r + 1 + 2 ≤ load W q))
    (hb : Reply.withConst c q op r v t = .restart c' q') : Descends c W q c' q' := by
  obtain ⟨rfl, rfl⟩ := withConst_eq hb
  have hk := hw.const _ (const_neg c v t)
  refine ⟨W, hw.extends_const v t, ⟨valid_const v t hr, const_valid hw v t,
    valid_const v t hv.2.2⟩, ?_⟩
  rcases hlt with hlt | ⟨hp, hlt⟩
  · apply measure_lt_of_double
    rw [load_eq W (by exact hop)]
    show 2 * (W r + W (c.const v t).2) + 2 ≤ _
    rwa [hk]
  · apply measure_lt_of_plain hp
    rw [load_eq W (by exact hop)]
    show W r + W (c.const v t).2 + 2 ≤ _
    rwa [hk]

/-- `op1` becomes a constant, `op2` the lighter `r`. -/
theorem descends_constWith {op : IrOp} {r : ℤ} {v : Val} {t : IrType} (hw : Weighed c W)
    (hv : q.valid c) (hr : c.valid r) (hop : op ≠ .cond)
    (hlt : 2 * (W r + 1) + 2 ≤ load W q)
    (hb : Reply.constWith c q op v t r = .restart c' q') : Descends c W q c' q' := by
  obtain ⟨rfl, rfl⟩ := constWith_eq hb
  have hk := hw.const _ (const_neg c v t)
  refine ⟨W, hw.extends_const v t, ⟨const_valid hw v t, valid_const v t hr,
    valid_const v t hv.2.2⟩, ?_⟩
  apply measure_lt_of_double
  rw [load_eq W (by exact hop)]
  show 2 * (W (c.const v t).2 + W r) + 2 ≤ _
  rw [hk]
  omega

/-- One operand is left. -/
theorem descends_unary {op : IrOp} {t : IrType} {r : ℤ} (hw : Weighed c W) (hv : q.valid c)
    (hr : c.valid r) (hp : isPlain op = true) (ha : op ≠ .add) (hop : op ≠ .cond)
    (hlt : W r < load W q) (hb : Reply.unary c q op t r = .restart c' q') :
    Descends c W q c' q' := by
  cases hb
  refine descends_same hw ⟨hr, hw.valid_zero, hv.2.2⟩ ?_
  apply measure_lt_of_light hp ha
  rw [load_eq W (by exact hop)]
  show W r + W 0 < _
  rwa [hw.zero]

/-- `op1` is an instruction and `op2` a constant: the operand of the instruction meets another
constant. -/
theorem descends_deepConst {o op : IrOp} {v : Val} {t : IrType} (hw : Weighed c W)
    (hv : q.valid c) (ha : (c.insn q.op1).op = o) (ho : isDataOp o = true) (h2 : 1 ≤ W q.op2)
    (hop : op ≠ .cond) (hb : Reply.withConst c q op (c.insn q.op1).op1 v t = .restart c' q') :
    Descends c W q c' q' := by
  obtain ⟨hv1, h1⟩ := deep1 hw ha ho
  have hl := ops_le_load W q
  exact descends_withConst hw hv hv1 hop (Or.inl (by omega)) hb

/-- The same with the second operand, which becomes `op2`. -/
theorem descends_constDeep {o op : IrOp} {v : Val} {t : IrType} (hw : Weighed c W)
    (hv : q.valid c) (ha : (c.insn q.op1).op = o) (ho : isDataOp o = true)
    (he : 2 ≤ o.inputEdges) (hop : op ≠ .cond)
    (hb : Reply.constWith c q op v t (c.insn q.op1).op2 = .restart c' q') :
    Descends c W q c' q' := by
  obtain ⟨-, hv2, h1⟩ := deep2 hw ha ho he
  have hl := ops_le_load W q
  exact descends_constWith hw hv hv2 hop (by omega) hb

/-- The operand of an instruction is the only one. -/
theorem descends_deepUnary {o op : IrOp} {t : IrType} (hw : Weighed c W) (hv : q.valid c)
    (ha : (c.insn q.op1).op = o) (ho : isDataOp o = true) (hp : isPlain op = true)
    (hadd : op ≠ .add) (hop : op ≠ .cond)
    (hb : Reply.unary c q op t (c.insn q.op1).op1 = .restart c' q') : Descends c W q c' q' := by
  obtain ⟨hv1, h1⟩ := deep1 hw ha ho
  have hl := ops_le_load W q
  exact descends_unary hw hv hv1 hp hadd hop (by omega) hb

/-- `op1` becomes the operand of an instruction, `op2` stays. -/
theorem descends_deepFirst {o op : IrOp} {t : IrType} (hw : Weighed c W) (hv : q.valid c)
    (ha : (c.insn q.op1).op = o) (ho : isDataOp o = true) (hp : isPlain op = true)
    (hop : op ≠ .cond) :
    Descends c W q c { q with op := op, type := t, op1 := (c.insn q.op1).op1 } := by
  obtain ⟨hv1, h1⟩ := deep1 hw ha ho
  have hl := ops_le_load W q
  refine descends_same hw ⟨hv1, hv.2⟩ ?_
  apply measure_lt_of_plain hp
  rw [load_eq W (by exact hop)]
  show W (c.insn q.op1).op1 + W q.op2 + 2 ≤ _
  omega

/-- Both operands become operands of instructions. -/
theorem descends_deepBoth {o o' op : IrOp} {t : IrType} (hw : Weighed c W) (hv : q.valid c)
    (ha : (c.insn q.op1).op = o) (ho : isDataOp o = true) (hb : (c.insn q.op2).op = o')
    (ho' : isDataOp o' = true) (hop : op ≠ .cond) :
    Descends c W q c
      { q with op := op, type := t, op1 := (c.insn q.op1).op1, op2 := (c.insn q.op2).op1 } := by
  obtain ⟨hv1, h1⟩ := deep1 hw ha ho
  obtain ⟨hv2, h2⟩ := deep1 hw hb ho'
  have hl := ops_le_load W q
  refine descends_same hw ⟨hv1, hv2, hv.2.2⟩ ?_
  apply measure_lt_of_double
  rw [load_eq W (by exact hop)]
  show 2 * (W (c.insn q.op1).op1 + W (c.insn q.op2).op1) + 2 ≤ _
  omega

/-- Both operands become those of the instruction in `op1`. -/
theorem descends_deepPair {o op : IrOp} {t : IrType} (hw : Weighed c W) (hv : q.valid c)
    (ha : (c.insn q.op1).op = o) (ho : isDataOp o = true) (he : 2 ≤ o.inputEdges)
    (hop : op ≠ .cond) :
    Descends c W q c
      { q with op := op, type := t, op1 := (c.insn q.op1).op1, op2 := (c.insn q.op1).op2 } := by
  obtain ⟨hv1, hv2, h1⟩ := deep2 hw ha ho he
  have hl := ops_le_load W q
  refine descends_same hw ⟨hv1, hv2, hv.2.2⟩ ?_
  apply measure_lt_of_double
  rw [load_eq W (by exact hop)]
  show 2 * (W (c.insn q.op1).op1 + W (c.insn q.op1).op2) + 2 ≤ _
  omega

theorem ne_nop_of_isUIA {o : IrOp} (h : isUIA o = true) : o ≠ .nop := by
  rintro rfl
  cases h

theorem isUIA_of_isUA {o : IrOp} (h : isUA o = true) : isUIA o = true := by
  simp only [isUA, isUIA, Bool.or_eq_true] at h ⊢
  tauto

theorem isUIA_of_isI {o : IrOp} (h : isI o = true) : isUIA o = true := by
  simp [isUIA, h]

theorem isUIA_of_isU {o : IrOp} (h : isU o = true) : isUIA o = true := by
  simp [isUIA, h]

theorem isUIA_of_isUI {o : IrOp} (h : isUI o = true) : isUIA o = true := by
  simp only [isUI, isUIA, Bool.or_eq_true] at h ⊢
  tauto

/-- An operand that a pattern names as a constant. -/
theorem const_pos (hw : Weighed c W) {r : ℤ} {o : IrOp} (k : Key o (c.insn r).op) (h : o ≠ .nop) :
    1 ≤ W r :=
  weight_pos hw (k.eq h) h

/-! ## Constants and comparisons -/

/-- `ORDERED(a, C)` and `UNORDERED(a, C)` become `ORDERED(a, a)` and `UNORDERED(a, a)`. -/
theorem descends_ordered (hw : Weighed c W) (hv : q.valid c) (hf : Fresh c q)
    (hop : q.op = .ordered ∨ q.op = .unordered) (hb : isF (c.insn q.op2).op = true) :
    Descends c W q c { q with op1 := q.op1, op2 := q.op1 } := by
  refine descends_same hw ⟨hv.1, hv.1, hv.2.2⟩ ?_
  have h2 := hw.weight_of_isF hb
  have hadd : q.op ≠ .add := by rcases hop with h | h <;> rw [h] <;> decide
  have hcond : q.op ≠ .cond := by rcases hop with h | h <;> rw [h] <;> decide
  have hd : doubles c q = true := by rcases hop with h | h <;> simp [doubles, h, hb]
  have hm : mass c W q = 2 * (W q.op1 + 1) := by
    unfold mass
    rw [if_neg hadd, if_pos hd, load_eq W hcond, h2]
  by_cases ha : isF (c.insn q.op1).op = true
  · -- two constants of different types
    have hne : (c.insn q.op1).op ≠ (c.insn q.op2).op := by
      intro heq
      refine hf ⟨ha, heq, ?_⟩
      rcases hop with h | h
      · exact Or.inr (Or.inl h)
      · exact Or.inr (Or.inr h)
    have h1 := hw.weight_of_isF ha
    apply measure_lt_of_rewritten
    · rw [hm]
      refine (mass_le _ _ _).trans ?_
      rw [load_eq W (by exact hcond)]
      show max 1 (2 * (W q.op1 + W q.op1)) ≤ _
      omega
    · rcases hop with h | h <;> simp [isRewritten, h, hne]
    · rcases hop with h | h <;> simp [isRewritten, h]
  · apply measure_lt
    have hd' : doubles c { q with op1 := q.op1, op2 := q.op1 } = false := by
      rcases hop with h | h <;> simp [doubles, h, ha]
    unfold mass at hm ⊢
    rw [hm, if_neg (by exact hadd), hd', load_eq W (by exact hcond)]
    show W q.op1 + W q.op1 < _
    omega

theorem orderedConst_decreases : Decreases orderedConst := by
  intro F c W q o1 o2 c' q' hw hv k1 k2 hp hf hb
  simp only [orderedConst, Bool.and_eq_true, decide_eq_true_eq] at hp hb
  obtain ⟨⟨hop, -⟩, h2⟩ := hp
  have hb2 : isF (c.insn q.op2).op = true := by
    rw [k2.eq (by rintro rfl; cases h2)]
    exact h2
  split_ifs at hb
  cases hb
  exact descends_ordered hw hv hf (Or.inl hop) hb2

theorem unorderedConst_decreases : Decreases unorderedConst := by
  intro F c W q o1 o2 c' q' hw hv k1 k2 hp hf hb
  simp only [unorderedConst, Bool.and_eq_true, decide_eq_true_eq] at hp hb
  obtain ⟨⟨hop, -⟩, h2⟩ := hp
  have hb2 : isF (c.insn q.op2).op = true := by
    rw [k2.eq (by rintro rfl; cases h2)]
    exact h2
  split_ifs at hb
  cases hb
  exact descends_ordered hw hv hf (Or.inr hop) hb2

theorem absNeg_decreases : Decreases absNeg := by
  intro F c W q o1 o2 c' q' hw hv k1 k2 hp hf hb
  simp only [absNeg, Bool.and_eq_true, decide_eq_true_eq] at hp hb
  obtain ⟨⟨hop, rfl⟩, -⟩ := hp
  obtain ⟨hv1, h1⟩ := deep1 hw (k1.eq (by decide)) rfl
  cases hb
  refine descends_same hw ⟨hv1, hv.2⟩ ?_
  apply measure_lt_of_light (by rw [hop]; rfl) (by rw [hop]; decide)
  rw [load_eq W (by rw [hop]; decide), load_eq W (by rw [hop]; decide)]
  show W (c.insn q.op1).op1 + W q.op2 < _
  omega

theorem eqBool_decreases : Decreases eqBool := by
  intro F c W q o1 o2 c' q' hw hv k1 k2 hp hf hb
  simp only [eqBool, Bool.and_eq_true, decide_eq_true_eq] at hp hb
  obtain ⟨⟨hop, -⟩, rfl⟩ := hp
  have h2 := weight_pos hw (k2.eq (by decide)) (by decide)
  have hl := ops_le_load W q
  split_ifs at hb
  exact descends_unary hw hv hv.1 rfl (by decide) (by decide) (by omega) hb

theorem neBool_decreases : Decreases neBool := by
  intro F c W q o1 o2 c' q' hw hv k1 k2 hp hf hb
  simp only [neBool, Bool.and_eq_true, decide_eq_true_eq] at hp hb
  obtain ⟨⟨hop, -⟩, rfl⟩ := hp
  have h2 := weight_pos hw (k2.eq (by decide)) (by decide)
  have hl := ops_le_load W q
  split_ifs at hb
  exact descends_unary hw hv hv.1 rfl (by decide) (by decide) (by omega) hb

theorem cmpBitcast_decreases : Decreases cmpBitcast := by
  intro F c W q o1 o2 c' q' hw hv k1 k2 hp hf hb
  simp only [cmpBitcast, Bool.and_eq_true, Bool.or_eq_true, decide_eq_true_eq] at hp hb
  obtain ⟨⟨hop, rfl⟩, h2⟩ := hp
  have hc : 1 ≤ W q.op2 := const_pos hw k2 (by rintro rfl; rcases h2 with h | h <;> cases h)
  have ha := k1.eq (by decide)
  split_ifs at hb
  · exact descends_deepUnary hw hv ha rfl rfl (by decide) (by decide) hb
  · exact descends_deepConst hw hv ha rfl hc (by rcases hop with h | h <;> rw [h] <;> decide) hb

theorem cmpExt_decreases : Decreases cmpExt := by
  intro F c W q o1 o2 c' q' hw hv k1 k2 hp hf hb
  simp only [cmpExt, Bool.and_eq_true, Bool.or_eq_true, decide_eq_true_eq] at hp hb
  obtain ⟨h2, h1⟩ := hp
  have hc : 1 ≤ W q.op2 := const_pos hw k2 (by rintro rfl; cases h2)
  have hd : isDataOp o1 = true ∧ q.op ≠ .cond := by
    rcases h1 with (⟨h | h, rfl | rfl⟩ | ⟨((h | h) | h) | h, rfl⟩) | ⟨((h | h) | h) | h, rfl⟩ <;>
      rw [h] <;> decide
  have ha := k1.eq (by rintro rfl; exact absurd hd.1 (by decide))
  split_ifs at hb
  · exact descends_deepUnary hw hv ha hd.1 rfl (by decide) (by decide) hb
  · simp only [outOfRange] at hb
    split at hb <;> cases hb
  · exact descends_deepConst hw hv ha hd.1 hc hd.2 hb

theorem cmpExtExt_decreases : Decreases cmpExtExt := by
  intro F c W q o1 o2 c' q' hw hv k1 k2 hp hf hb
  simp only [cmpExtExt, Bool.and_eq_true, Bool.or_eq_true, decide_eq_true_eq] at hp hb
  obtain ⟨rfl, h1⟩ := hp
  have hd : isDataOp o1 = true ∧ q.op ≠ .cond := by
    rcases h1 with (⟨h | h, rfl | rfl⟩ | ⟨((h | h) | h) | h, rfl⟩) | ⟨((h | h) | h) | h, rfl⟩ <;>
      rw [h] <;> decide
  have hne : o1 ≠ .nop := by
    rintro rfl
    exact absurd hd.1 (by decide)
  split_ifs at hb
  cases hb
  exact descends_deepBoth hw hv (k1.eq hne) hd.1 (k2.eq hne) hd.1 hd.2

theorem orderZextZext_decreases : Decreases orderZextZext := by
  intro F c W q o1 o2 c' q' hw hv k1 k2 hp hf hb
  simp only [orderZextZext, Bool.and_eq_true, Bool.or_eq_true, decide_eq_true_eq] at hp hb
  obtain ⟨⟨hop, rfl⟩, rfl⟩ := hp
  split_ifs at hb
  cases hb
  refine descends_deepBoth hw hv (k1.eq (by decide)) rfl (k2.eq (by decide)) rfl ?_
  rcases hop with ((h | h) | h) | h <;> rw [h] <;> decide

theorem notCmp_decreases : Decreases notCmp := by
  intro F c W q o1 o2 c' q' hw hv k1 k2 hp hf hb
  simp only [notCmp, Bool.and_eq_true, Bool.or_eq_true, decide_eq_true_eq] at hp hb
  obtain ⟨⟨hop, h1⟩, -⟩ := hp
  have hd : isDataOp o1 = true ∧ 2 ≤ o1.inputEdges ∧ xorOne o1 ≠ .cond := by
    simp only [isCmp, Bool.or_eq_true, decide_eq_true_eq] at h1
    rcases h1 with ((((((((((h | h) | h) | h) | h) | h) | h) | h) | h) | h) | h) | h <;> rw [h] <;>
      decide
  have ha : (c.insn q.op1).op = o1 := k1.eq (by rintro rfl; exact absurd hd.1 (by decide))
  split_ifs at hb
  cases hb
  exact descends_deepPair hw hv ha hd.1 hd.2.1 (by rw [ha]; exact hd.2.2)

theorem eqSub_decreases : Decreases eqSub := by
  intro F c W q o1 o2 c' q' hw hv k1 k2 hp hf hb
  simp only [eqSub, Bool.and_eq_true, Bool.or_eq_true, decide_eq_true_eq] at hp hb
  obtain ⟨⟨hop, rfl⟩, h2⟩ := hp
  split_ifs at hb
  cases hb
  exact descends_deepPair hw hv (k1.eq (by decide)) rfl (by decide)
    (by rcases hop with h | h <;> rw [h] <;> decide)

/-! ## Sums and differences -/

theorem addZero_decreases : Decreases addZero := by
  intro F c W q o1 o2 c' q' hw hv k1 k2 hp hf hb
  simp only [addZero, Bool.and_eq_true, Bool.or_eq_true, decide_eq_true_eq] at hp hb
  have hc := const_pos hw k2 (ne_nop_of_isUIA hp.2)
  have hl := ops_le_load W q
  split_ifs at hb
  exact descends_unary hw hv hv.1 rfl (by decide) (by decide) (by omega) hb

theorem zeroAdd_decreases : Decreases zeroAdd := by
  intro F c W q o1 o2 c' q' hw hv k1 k2 hp hf hb
  simp only [zeroAdd, Bool.and_eq_true, decide_eq_true_eq] at hp hb
  have hc := const_pos hw k1 (ne_nop_of_isUIA hp.1.2)
  have hl := ops_le_load W q
  split_ifs at hb
  exact descends_unary hw hv hv.2.1 rfl (by decide) (by decide) (by omega) hb

theorem zeroSub_decreases : Decreases zeroSub := by
  intro F c W q o1 o2 c' q' hw hv k1 k2 hp hf hb
  simp only [zeroSub, Bool.and_eq_true, decide_eq_true_eq] at hp hb
  have hc := const_pos hw k1 (ne_nop_of_isUIA (isUIA_of_isI hp.1.2))
  have hl := ops_le_load W q
  split_ifs at hb
  exact descends_unary hw hv hv.2.1 rfl (by decide) (by decide) (by omega) hb

/-- A comparison with zero that becomes `EQ` or `NE`. -/
theorem descends_toEq {op : IrOp} (hw : Weighed c W) (hv : q.valid c)
    (hop : q.op = .ugt ∨ q.op = .ule) (hop' : op = .ne ∨ op = .eq) :
    Descends c W q c { q with op := op, type := .bool } := by
  have hne : isPlain op = true ∧ op ≠ .add ∧ op ≠ .cond := by rcases hop' with rfl | rfl <;> decide
  refine descends_same hw hv ?_
  apply measure_lt_of_rewritten
  · rw [mass_eq (by exact hne.1) (by exact hne.2.1), load_eq W (by exact hne.2.2)]
    exact (ops_le_load W q).trans (load_le_mass c W q)
  · rcases hop with h | h <;> simp [isRewritten, h]
  · rcases hop' with rfl | rfl <;> simp [isRewritten]

theorem ugtZero_decreases : Decreases ugtZero := by
  intro F c W q o1 o2 c' q' hw hv k1 k2 hp hf hb
  simp only [ugtZero, Bool.and_eq_true, decide_eq_true_eq] at hp hb
  split_ifs at hb
  cases hb
  exact descends_toEq hw hv (Or.inl hp.1.1) (Or.inl rfl)

theorem uleZero_decreases : Decreases uleZero := by
  intro F c W q o1 o2 c' q' hw hv k1 k2 hp hf hb
  simp only [uleZero, Bool.and_eq_true, decide_eq_true_eq] at hp hb
  split_ifs at hb
  cases hb
  exact descends_toEq hw hv (Or.inr hp.1.1) (Or.inr rfl)

theorem addNeg_decreases : Decreases addNeg := by
  intro F c W q o1 o2 c' q' hw hv k1 k2 hp hf hb
  simp only [addNeg, Bool.and_eq_true, decide_eq_true_eq] at hp hb
  obtain ⟨⟨hop, rfl⟩, -⟩ := hp
  obtain ⟨hv1, h1⟩ := deep1 hw (k1.eq (by decide)) rfl
  have hl := ops_le_load W q
  have hne : succ q.op ≠ .cond := by
    rw [hop]
    decide
  cases hb
  refine descends_same hw ⟨hv.2.1, hv1, hv.2.2⟩ ?_
  apply measure_lt_of_plain (by rw [hop]; rfl)
  rw [load_eq W (by exact hne)]
  show W q.op2 + W (c.insn q.op1).op1 + 2 ≤ _
  omega

theorem addSubNeg_decreases : Decreases addSubNeg := by
  intro F c W q o1 o2 c' q' hw hv k1 k2 hp hf hb
  simp only [addSubNeg, Bool.and_eq_true, Bool.or_eq_true, decide_eq_true_eq] at hp hb
  obtain ⟨⟨hop, -⟩, rfl⟩ := hp
  obtain ⟨hv1, h1⟩ := deep1 hw (k2.eq (by decide)) rfl
  have hl := ops_le_load W q
  have hne : xorOne q.op ≠ .cond := by rcases hop with h | h <;> rw [h] <;> decide
  cases hb
  refine descends_same hw ⟨hv.1, hv1, hv.2.2⟩ ?_
  apply measure_lt_of_plain (by rcases hop with h | h <;> rw [h] <;> rfl)
  rw [load_eq W (by exact hne)]
  show W q.op1 + W (c.insn q.op2).op1 + 2 ≤ _
  omega

/-- A cast of an operand of an operand. -/
theorem descends_castOr {r : ℤ} (hw : Weighed c W) (hv : q.valid c) (hr : c.valid r)
    (hlt : W r < load W q) (hb : castOr c q r = .restart c' q') : Descends c W q c' q' := by
  unfold castOr at hb
  split_ifs at hb
  exact descends_unary hw hv hr rfl (by decide) (by decide) hlt hb

theorem subThenAdd_decreases : Decreases subThenAdd := by
  intro F c W q o1 o2 c' q' hw hv k1 k2 hp hf hb
  simp only [subThenAdd, Bool.and_eq_true, decide_eq_true_eq] at hp hb
  obtain ⟨⟨hop, rfl⟩, -⟩ := hp
  obtain ⟨hv1, h1⟩ := deep1 hw (k1.eq (by decide)) rfl
  have hl := ops_le_load W q
  split_ifs at hb
  exact descends_castOr hw hv hv1 (by omega) hb

theorem addOfSub_decreases : Decreases addOfSub := by
  intro F c W q o1 o2 c' q' hw hv k1 k2 hp hf hb
  simp only [addOfSub, Bool.and_eq_true, decide_eq_true_eq] at hp hb
  obtain ⟨⟨hop, -⟩, rfl⟩ := hp
  obtain ⟨hv1, h1⟩ := deep1 hw (k2.eq (by decide)) rfl
  have hl := ops_le_load W q
  split_ifs at hb
  exact descends_castOr hw hv hv1 (by omega) hb

theorem addThenSub_decreases : Decreases addThenSub := by
  intro F c W q o1 o2 c' q' hw hv k1 k2 hp hf hb
  simp only [addThenSub, Bool.and_eq_true, decide_eq_true_eq] at hp hb
  obtain ⟨⟨hop, rfl⟩, -⟩ := hp
  obtain ⟨hv1, hv2, h1⟩ := deep2 hw (k1.eq (by decide)) rfl (by decide)
  have hl := ops_le_load W q
  split_ifs at hb
  · exact descends_castOr hw hv hv2 (by omega) hb
  · exact descends_castOr hw hv hv1 (by omega) hb

theorem subOfAdd_decreases : Decreases subOfAdd := by
  intro F c W q o1 o2 c' q' hw hv k1 k2 hp hf hb
  simp only [subOfAdd, Bool.and_eq_true, decide_eq_true_eq] at hp hb
  obtain ⟨⟨hop, -⟩, rfl⟩ := hp
  obtain ⟨hv1, hv2, h1⟩ := deep2 hw (k2.eq (by decide)) rfl (by decide)
  have hl := ops_le_load W q
  split_ifs at hb
  · exact descends_unary hw hv hv2 rfl (by decide) (by decide) (by omega) hb
  · exact descends_unary hw hv hv1 rfl (by decide) (by decide) (by omega) hb

theorem subThenSub_decreases : Decreases subThenSub := by
  intro F c W q o1 o2 c' q' hw hv k1 k2 hp hf hb
  simp only [subThenSub, Bool.and_eq_true, decide_eq_true_eq] at hp hb
  obtain ⟨⟨hop, rfl⟩, -⟩ := hp
  obtain ⟨-, hv2, h1⟩ := deep2 hw (k1.eq (by decide)) rfl (by decide)
  have hl := ops_le_load W q
  split_ifs at hb
  exact descends_unary hw hv hv2 rfl (by decide) (by decide) (by omega) hb

theorem subOfSub_decreases : Decreases subOfSub := by
  intro F c W q o1 o2 c' q' hw hv k1 k2 hp hf hb
  simp only [subOfSub, Bool.and_eq_true, decide_eq_true_eq] at hp hb
  obtain ⟨⟨hop, -⟩, rfl⟩ := hp
  obtain ⟨-, hv2, h1⟩ := deep2 hw (k2.eq (by decide)) rfl (by decide)
  have hl := ops_le_load W q
  split_ifs at hb
  exact descends_castOr hw hv hv2 (by omega) hb

theorem descends_castBoth {r s : ℤ} (hw : Weighed c W) (hv : q.valid c) (hr : c.valid r)
    (hs : c.valid s) (hop : q.op = .sub) (hlt : 2 * W r + 3 + (2 * W s + 3) + 2 ≤ load W q)
    (hb : castBoth c q r s = .restart c' q') : Descends c W q c' q' := by
  obtain ⟨W₁, he₁, hv₁, hw₁⟩ := hw.extends_cast hr q.type
  obtain ⟨W₂, he₂, hv₂, hw₂⟩ := he₁.weighed.extends_cast (he₁.valid s hs) q.type
  cases hb
  refine ⟨W₂, he₁.trans he₂, ⟨he₂.valid _ hv₁, hv₂, he₂.valid _ (he₁.valid _ hv.2.2)⟩, ?_⟩
  rw [he₁.weight s hs] at hw₂
  have h₁ := he₂.weight _ hv₁
  apply measure_lt_of_plain (by rw [hop]; rfl)
  rw [load_eq W₂ (by rw [hop]; decide)]
  show W₂ (c.cast r q.type).2 + W₂ ((c.cast r q.type).1.cast s q.type).2 + 2 ≤ _
  omega

theorem subAddAdd_decreases : Decreases subAddAdd := by
  intro F c W q o1 o2 c' q' hw hv k1 k2 hp hf hb
  simp only [subAddAdd, Bool.and_eq_true, decide_eq_true_eq] at hp hb
  obtain ⟨⟨hop, rfl⟩, rfl⟩ := hp
  have ha := k1.eq (by decide)
  have hb' := k2.eq (by decide)
  obtain ⟨hv1, hv2, h1⟩ := deep2 hw ha rfl (by decide)
  obtain ⟨hv3, hv4, h2⟩ := deep2 hw hb' rfl (by decide)
  have hl := ops_le_load W q
  split_ifs at hb
  · exact descends_castBoth hw hv hv2 hv4 hop (by omega) hb
  · exact descends_castBoth hw hv hv2 hv3 hop (by omega) hb
  · exact descends_castBoth hw hv hv1 hv4 hop (by omega) hb
  · exact descends_castBoth hw hv hv1 hv3 hop (by omega) hb

/-! ## Products, quotients and remainders -/

theorem mulDivNegConst_decreases : Decreases mulDivNegConst := by
  intro F c W q o1 o2 c' q' hw hv k1 k2 hp hf hb
  simp only [mulDivNegConst, Bool.and_eq_true, Bool.or_eq_true, decide_eq_true_eq] at hp hb
  obtain ⟨⟨hop, rfl⟩, h2⟩ := hp
  have hc := const_pos hw k2 (ne_nop_of_isUIA (isUIA_of_isI h2))
  exact descends_deepConst hw hv (k1.eq (by decide)) rfl hc
    (by rcases hop with h | h <;> rw [h] <;> decide) hb

theorem mulDivNegFloat_decreases : Decreases mulDivNegFloat := by
  intro F c W q o1 o2 c' q' hw hv k1 k2 hp hf hb
  simp only [mulDivNegFloat, Bool.and_eq_true, Bool.or_eq_true, decide_eq_true_eq] at hp hb
  obtain ⟨⟨hop, rfl⟩, rfl⟩ := hp
  have hc := const_pos hw k2 (by decide)
  exact descends_deepConst hw hv (k1.eq (by decide)) rfl hc
    (by rcases hop with h | h <;> rw [h] <;> decide) hb

theorem mulDivNegDouble_decreases : Decreases mulDivNegDouble := by
  intro F c W q o1 o2 c' q' hw hv k1 k2 hp hf hb
  simp only [mulDivNegDouble, Bool.and_eq_true, Bool.or_eq_true, decide_eq_true_eq] at hp hb
  obtain ⟨⟨hop, rfl⟩, rfl⟩ := hp
  have hc := const_pos hw k2 (by decide)
  exact descends_deepConst hw hv (k1.eq (by decide)) rfl hc
    (by rcases hop with h | h <;> rw [h] <;> decide) hb

theorem mulI_decreases : Decreases mulI := by
  intro F c W q o1 o2 c' q' hw hv k1 k2 hp hf hb
  simp only [mulI, Bool.and_eq_true, decide_eq_true_eq] at hp hb
  have hc := const_pos hw k2 (ne_nop_of_isUIA (isUIA_of_isI hp.2))
  have hl := ops_le_load W q
  split_ifs at hb
  exact descends_unary hw hv hv.1 rfl (by decide) (by decide) (by omega) hb

/-- `a * 2.0` and `a << 1` become `a + a`. -/
theorem descends_toAdd (hw : Weighed c W) (hv : q.valid c) (hd : doubles c q = true)
    (hop : q.op = .mul ∨ q.op = .shl) (hc : 1 ≤ W q.op2) :
    Descends c W q c { q with op := .add, op2 := q.op1 } := by
  have hadd : q.op ≠ .add := by rcases hop with h | h <;> rw [h] <;> decide
  have hcond : q.op ≠ .cond := by rcases hop with h | h <;> rw [h] <;> decide
  refine descends_same hw ⟨hv.1, hv.1, hv.2.2⟩ ?_
  apply measure_lt
  unfold mass
  rw [if_pos rfl, if_neg hadd, if_pos hd, load_eq W hcond, load_eq W (by simp)]
  show max 1 (W q.op1 + W q.op1) < _
  omega

theorem mulDouble_decreases : Decreases mulDouble := by
  intro F c W q o1 o2 c' q' hw hv k1 k2 hp hf hb
  simp only [mulDouble, Bool.and_eq_true, decide_eq_true_eq] at hp hb
  obtain ⟨⟨hop, -⟩, rfl⟩ := hp
  have hb2 := k2.eq (by decide)
  have hc := weight_pos hw hb2 (by decide)
  have hl := ops_le_load W q
  split_ifs at hb
  · cases hb
    exact descends_toAdd hw hv (by simp [doubles, hop, hb2, isF]) (Or.inl hop) hc
  · exact descends_unary hw hv hv.1 rfl (by decide) (by decide) (by omega) hb

theorem mulFloat_decreases : Decreases mulFloat := by
  intro F c W q o1 o2 c' q' hw hv k1 k2 hp hf hb
  simp only [mulFloat, Bool.and_eq_true, decide_eq_true_eq] at hp hb
  obtain ⟨⟨hop, -⟩, rfl⟩ := hp
  have hb2 := k2.eq (by decide)
  have hc := weight_pos hw hb2 (by decide)
  have hl := ops_le_load W q
  split_ifs at hb
  · cases hb
    exact descends_toAdd hw hv (by simp [doubles, hop, hb2, isF]) (Or.inl hop) hc
  · exact descends_unary hw hv hv.1 rfl (by decide) (by decide) (by omega) hb

/-- A division or a remainder by a constant becomes a shift or a mask. -/
theorem descends_inPlace {op : IrOp} {v : Val} {t : IrType} (hw : Weighed c W) (hv : q.valid c)
    (hop : q.op = .div ∨ q.op = .mod) (hop' : op = .shr ∨ op = .and) (hc : 1 ≤ W q.op2)
    (hb : Reply.withConst c q op q.op1 v t = .restart c' q') : Descends c W q c' q' := by
  obtain ⟨rfl, rfl⟩ := withConst_eq hb
  have hk := hw.const _ (const_neg c v t)
  have hne : isPlain op = true ∧ op ≠ .add ∧ op ≠ .cond := by rcases hop' with rfl | rfl <;> decide
  refine ⟨W, hw.extends_const v t, ⟨valid_const v t hv.1, const_valid hw v t,
    valid_const v t hv.2.2⟩, ?_⟩
  apply measure_lt_of_rewritten
  · refine le_trans ?_ (load_le_mass c W q)
    rw [mass_eq (by exact hne.1) (by exact hne.2.1), load_eq W (by exact hne.2.2)]
    have hl := ops_le_load W q
    show W q.op1 + W (c.const v t).2 ≤ _
    omega
  · rcases hop with h | h <;> simp [isRewritten, h]
  · rcases hop' with rfl | rfl <;> simp [isRewritten]

theorem divU_decreases : Decreases divU := by
  intro F c W q o1 o2 c' q' hw hv k1 k2 hp hf hb
  simp only [divU, Bool.and_eq_true, decide_eq_true_eq] at hp hb
  have hc := const_pos hw k2 (ne_nop_of_isUIA (isUIA_of_isU hp.2))
  split_ifs at hb
  exact descends_inPlace hw hv (Or.inl hp.1.1) (Or.inl rfl) hc hb

theorem divI_decreases : Decreases divI := by
  intro F c W q o1 o2 c' q' hw hv k1 k2 hp hf hb
  simp only [divI, Bool.and_eq_true, decide_eq_true_eq] at hp hb
  have hc := const_pos hw k2 (ne_nop_of_isUIA (isUIA_of_isI hp.2))
  have hl := ops_le_load W q
  split_ifs at hb
  · exact descends_unary hw hv hv.1 rfl (by decide) (by decide) (by omega) hb
  · exact descends_inPlace hw hv (Or.inl hp.1.1) (Or.inl rfl) hc hb

theorem modConst_decreases : Decreases modConst := by
  intro F c W q o1 o2 c' q' hw hv k1 k2 hp hf hb
  simp only [modConst, Bool.and_eq_true, decide_eq_true_eq] at hp hb
  have hc := const_pos hw k2 (ne_nop_of_isUIA (isUIA_of_isUI hp.2))
  split_ifs at hb
  exact descends_inPlace hw hv (Or.inr hp.1.1) (Or.inr rfl) hc hb

theorem divDouble_decreases : Decreases divDouble := by
  intro F c W q o1 o2 c' q' hw hv k1 k2 hp hf hb
  simp only [divDouble, Bool.and_eq_true, decide_eq_true_eq] at hp hb
  obtain ⟨-, rfl⟩ := hp
  have hc := const_pos hw k2 (by decide)
  have hl := ops_le_load W q
  split_ifs at hb
  exact descends_unary hw hv hv.1 rfl (by decide) (by decide) (by omega) hb

theorem divFloat_decreases : Decreases divFloat := by
  intro F c W q o1 o2 c' q' hw hv k1 k2 hp hf hb
  simp only [divFloat, Bool.and_eq_true, decide_eq_true_eq] at hp hb
  obtain ⟨-, rfl⟩ := hp
  have hc := const_pos hw k2 (by decide)
  have hl := ops_le_load W q
  split_ifs at hb
  exact descends_unary hw hv hv.1 rfl (by decide) (by decide) (by omega) hb

theorem mulDivNegNeg_decreases : Decreases mulDivNegNeg := by
  intro F c W q o1 o2 c' q' hw hv k1 k2 hp hf hb
  simp only [mulDivNegNeg, Bool.and_eq_true, Bool.or_eq_true, decide_eq_true_eq] at hp hb
  obtain ⟨⟨hop, rfl⟩, rfl⟩ := hp
  cases hb
  exact descends_deepBoth hw hv (k1.eq (by decide)) rfl (k2.eq (by decide)) rfl
    (by rcases hop with h | h <;> rw [h] <;> decide)

end IrJit.Fold
