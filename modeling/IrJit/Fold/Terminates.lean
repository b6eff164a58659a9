import IrJit.Fold.Decrease
import Mathlib.Tactic.IntervalCases

/-!
# Fold.Terminates — the folding engine performs finitely many restarts

The rest of the rules, and the induction on the measure.
-/

namespace IrJit.Fold

variable {F : FloatOps} {c c' : Ctx} {W : ℤ → ℕ} {q q' : Question} {o1 o2 : IrOp}

/-! ## Bitwise operations and shifts -/

theorem xorBool_decreases : Decreases xorBool := by
  intro F c W q o1 o2 c' q' hw hv k1 k2 hp hf hb
  simp only [xorBool, Bool.and_eq_true, decide_eq_true_eq] at hp hb
  obtain ⟨-, rfl⟩ := hp
  have hc := const_pos hw k2 (by decide)
  have hl := ops_le_load W q
  split_ifs at hb
  exact descends_unary hw hv hv.1 rfl (by decide) (by decide) (by omega) hb

theorem descends_xorBody {w : ℕ} {b : Insn} (hw : Weighed c W) (hv : q.valid c)
    (hc : 1 ≤ W q.op2) (hb : xorBody w c q b = .restart c' q') : Descends c W q c' q' := by
  have hl := ops_le_load W q
  simp only [xorBody] at hb
  split_ifs at hb
  exact descends_unary hw hv hv.1 rfl (by decide) (by decide) (by omega) hb

theorem xor_decreases (p : IrOp → Bool) (hp : p .nop = false) (w : ℕ) :
    Decreases ⟨fun o o1 o2 => o = .xor && o1 = .nop && p o2, fun _ c q _ b => xorBody w c q b⟩ := by
  intro F c W q o1 o2 c' q' hw hv k1 k2 h hf hb
  simp only [Bool.and_eq_true] at h
  refine descends_xorBody hw hv (const_pos hw k2 ?_) hb
  rintro rfl
  rw [hp] at h
  exact absurd h.2 Bool.false_ne_true

theorem shlConst_decreases : Decreases shlConst := by
  intro F c W q o1 o2 c' q' hw hv k1 k2 hp hf hb
  simp only [shlConst, Bool.and_eq_true, decide_eq_true_eq] at hp hb
  have hc := const_pos hw k2 (ne_nop_of_isUIA (isUIA_of_isUI hp.2))
  split_ifs at hb
  cases hb
  exact descends_toAdd hw hv (by simp [doubles, hp.1.1]) (Or.inr hp.1.1) hc

/-! ## Conversions and masks -/

theorem truncExt_decreases : Decreases truncExt := by
  intro F c W q o1 o2 c' q' hw hv k1 k2 hp hf hb
  simp only [truncExt, Bool.and_eq_true, Bool.or_eq_true, decide_eq_true_eq] at hp hb
  obtain ⟨⟨hop, h1⟩, -⟩ := hp
  have hd : isDataOp o1 = true ∧ isPlain o1 = true ∧ o1 ≠ .cond ∧ o1 ≠ .nop := by
    rcases h1 with rfl | rfl <;> decide
  have ha := k1.eq hd.2.2.2
  split_ifs at hb
  · cases hb
    exact descends_deepFirst hw hv ha hd.1 rfl (by decide)
  · cases hb
    exact descends_deepFirst hw hv ha hd.1 rfl (by decide)
  · cases hb
    exact descends_deepFirst hw hv ha hd.1 (by rw [ha]; exact hd.2.1) (by rw [ha]; exact hd.2.2.1)

theorem convertBitcast_decreases : Decreases convertBitcast := by
  intro F c W q o1 o2 c' q' hw hv k1 k2 hp hf hb
  simp only [convertBitcast, Bool.and_eq_true, Bool.or_eq_true, decide_eq_true_eq] at hp hb
  obtain ⟨⟨hop, rfl⟩, -⟩ := hp
  have hq : isPlain q.op = true ∧ q.op ≠ .cond := by
    rcases hop with (h | h) | h <;> rw [h] <;> decide
  split_ifs at hb
  cases hb
  exact descends_deepFirst hw hv (k1.eq (by decide)) rfl hq.1 hq.2

theorem bitcastTwice_decreases : Decreases bitcastTwice := by
  intro F c W q o1 o2 c' q' hw hv k1 k2 hp hf hb
  simp only [bitcastTwice, Bool.and_eq_true, decide_eq_true_eq] at hp hb
  obtain ⟨⟨hop, rfl⟩, -⟩ := hp
  split_ifs at hb
  cases hb
  exact descends_deepFirst hw hv (k1.eq (by decide)) rfl (by rw [hop]; rfl) (by rw [hop]; decide)

theorem convertTwice_decreases : Decreases convertTwice := by
  intro F c W q o1 o2 c' q' hw hv k1 k2 hp hf hb
  simp only [convertTwice, Bool.and_eq_true, Bool.or_eq_true, decide_eq_true_eq] at hp hb
  obtain ⟨⟨hop, rfl⟩, -⟩ := hp
  have hq : isDataOp q.op = true ∧ isPlain q.op = true ∧ q.op ≠ .cond ∧ q.op ≠ .nop := by
    rcases hop with (h | h) | h <;> rw [h] <;> decide
  cases hb
  exact descends_deepFirst hw hv (k1.eq hq.2.2.2) hq.1 hq.2.1 hq.2.2.1

theorem sextZext_decreases : Decreases sextZext := by
  intro F c W q o1 o2 c' q' hw hv k1 k2 hp hf hb
  simp only [sextZext, Bool.and_eq_true, decide_eq_true_eq] at hp hb
  obtain ⟨⟨hop, rfl⟩, -⟩ := hp
  cases hb
  exact descends_deepFirst hw hv (k1.eq (by decide)) rfl rfl (by decide)

/-- A sign extension of a value that is not negative. -/
theorem descends_toZext (hw : Weighed c W) (hv : q.valid c) (hop : q.op = .sext) :
    Descends c W q c { q with op := .zext } := by
  refine descends_same hw hv ?_
  apply measure_lt_of_rewritten
  · refine le_trans ?_ (load_le_mass c W q)
    rw [mass_eq (by rfl) (by simp), load_eq W (by simp)]
    exact ops_le_load W q
  · simp [isRewritten, hop]
  · simp [isRewritten]

theorem sextAnd_decreases : Decreases sextAnd := by
  intro F c W q o1 o2 c' q' hw hv k1 k2 hp hf hb
  simp only [sextAnd, Bool.and_eq_true, decide_eq_true_eq] at hp hb
  split_ifs at hb
  cases hb
  exact descends_toZext hw hv hp.1.1

theorem sextShr_decreases : Decreases sextShr := by
  intro F c W q o1 o2 c' q' hw hv k1 k2 hp hf hb
  simp only [sextShr, Bool.and_eq_true, decide_eq_true_eq] at hp hb
  split_ifs at hb
  cases hb
  exact descends_toZext hw hv hp.1.1

theorem truncAnd_decreases : Decreases truncAnd := by
  intro F c W q o1 o2 c' q' hw hv k1 k2 hp hf hb
  simp only [truncAnd, Bool.and_eq_true, decide_eq_true_eq] at hp hb
  obtain ⟨⟨hop, rfl⟩, -⟩ := hp
  split_ifs at hb
  cases hb
  exact descends_deepFirst hw hv (k1.eq (by decide)) rfl (by rw [hop]; rfl) (by rw [hop]; decide)

theorem andSext_decreases : Decreases andSext := by
  intro F c W q o1 o2 c' q' hw hv k1 k2 hp hf hb
  simp only [andSext, Bool.and_eq_true, decide_eq_true_eq] at hp hb
  obtain ⟨⟨hop, rfl⟩, -⟩ := hp
  split_ifs at hb
  exact descends_deepUnary hw hv (k1.eq (by decide)) rfl rfl (by decide) (by decide) hb

theorem descends_shlAndBody {w : ℕ} {b : Insn} (hw : Weighed c W) (hv : q.valid c)
    (hop : q.op = .shl) (ha : (c.insn q.op1).op = .and)
    (hb : shlAndBody w c q (c.insn q.op1) b = .restart c' q') : Descends c W q c' q' := by
  obtain ⟨hv1, h1⟩ := deep1 hw ha rfl
  simp only [shlAndBody] at hb
  split_ifs at hb
  cases hb
  refine descends_same hw ⟨hv1, hv.2⟩ ?_
  apply measure_lt
  -- both shifts count double
  have hm : ∀ p : Question, p.op = .shl → mass c W p = 2 * (W p.op1 + W p.op2) := by
    intro p hp
    unfold mass
    rw [if_neg (by rw [hp]; decide), if_pos (by simp [doubles, hp]),
      load_eq W (by rw [hp]; decide)]
  rw [hm q hop, hm _ (by exact hop)]
  show 2 * (W (c.insn q.op1).op1 + W q.op2) < _
  omega

theorem descends_shrAndBody {w : ℕ} {b : Insn} (hw : Weighed c W) (hv : q.valid c)
    (hop : q.op = .shr) (ha : (c.insn q.op1).op = .and)
    (hb : shrAndBody w c q (c.insn q.op1) b = .restart c' q') : Descends c W q c' q' := by
  simp only [shrAndBody] at hb
  split_ifs at hb
  cases hb
  exact descends_deepFirst hw hv ha rfl (by rw [hop]; rfl) (by rw [hop]; decide)

theorem shlAnd_decreases (p : IrOp → Bool) (w : ℕ) :
    Decreases ⟨fun o o1 o2 => o = .shl && o1 = .and && p o2, fun _ => shlAndBody w⟩ := by
  intro F c W q o1 o2 c' q' hw hv k1 k2 h hf hb
  simp only [Bool.and_eq_true, decide_eq_true_eq] at h
  obtain ⟨⟨hop, rfl⟩, -⟩ := h
  exact descends_shlAndBody hw hv hop (k1.eq (by decide)) hb

theorem shrAnd_decreases (p : IrOp → Bool) (w : ℕ) :
    Decreases ⟨fun o o1 o2 => o = .shr && o1 = .and && p o2, fun _ => shrAndBody w⟩ := by
  intro F c W q o1 o2 c' q' hw hv k1 k2 h hf hb
  simp only [Bool.and_eq_true, decide_eq_true_eq] at h
  obtain ⟨⟨hop, rfl⟩, -⟩ := h
  exact descends_shrAndBody hw hv hop (k1.eq (by decide)) hb

theorem cmpFp2fp_decreases : Decreases cmpFp2fp := by
  intro F c W q o1 o2 c' q' hw hv k1 k2 hp hf hb
  simp only [cmpFp2fp, Bool.and_eq_true, decide_eq_true_eq] at hp hb
  obtain ⟨⟨hop, rfl⟩, rfl⟩ := hp
  have hc := const_pos hw k2 (by decide)
  split_ifs at hb
  refine descends_deepConst hw hv (k1.eq (by decide)) rfl hc ?_ hb
  intro h
  rw [h] at hop
  cases hop

/-! ## Reassociation -/

/-- The constant rules of `(x op c1) op c2`. -/
theorem assocConst_decreases (o : IrOp) (f : Val → Val → Val) (ho : isDataOp o = true)
    (hne : o ≠ .cond) :
    Decreases ⟨fun p o1 o2 => p = o && o1 = o && isUIA o2, fun _ c q a b =>
      if c.isNumber a.op2 then .withConst c q q.op a.op1 (f (c.insn a.op2).val b.val) b.type
      else .next⟩ := by
  intro F c W q o1 o2 c' q' hw hv k1 k2 hp hf hb
  simp only [Bool.and_eq_true, decide_eq_true_eq] at hp hb
  obtain ⟨⟨hop, rfl⟩, h2⟩ := hp
  have hc := const_pos hw k2 (ne_nop_of_isUIA h2)
  split_ifs at hb
  exact descends_deepConst hw hv (k1.eq (by rintro rfl; cases ho)) ho hc (by rw [hop]; exact hne) hb

theorem descends_constSubAdd {b : Insn} (hw : Weighed c W) (hv : q.valid c)
    (ha : (c.insn q.op1).op = .sub) (hop : q.op = .add)
    (hb : constSubAdd c q (c.insn q.op1) b = .restart c' q') : Descends c W q c' q' := by
  unfold constSubAdd at hb
  split_ifs at hb
  exact descends_constDeep hw hv ha rfl (by decide) (by rw [hop]; decide) hb

theorem addSubU_decreases : Decreases addSubU := by
  intro F c W q o1 o2 c' q' hw hv k1 k2 hp hf hb
  simp only [addSubU, Bool.and_eq_true, decide_eq_true_eq] at hp hb
  obtain ⟨⟨hop, rfl⟩, h2⟩ := hp
  have hc := const_pos hw k2 (ne_nop_of_isUIA (isUIA_of_isUA h2))
  have ha := k1.eq (by decide)
  split_ifs at hb
  · exact descends_deepConst hw hv ha rfl hc (by rw [hop]; decide) hb
  · exact descends_constSubAdd hw hv ha hop hb

theorem addSubI_decreases : Decreases addSubI := by
  intro F c W q o1 o2 c' q' hw hv k1 k2 hp hf hb
  simp only [addSubI, Bool.and_eq_true, decide_eq_true_eq] at hp hb
  obtain ⟨⟨hop, rfl⟩, h2⟩ := hp
  have hc := const_pos hw k2 (ne_nop_of_isUIA (isUIA_of_isI h2))
  have ha := k1.eq (by decide)
  split_ifs at hb
  · exact descends_deepConst hw hv ha rfl hc (by rw [hop]; decide) hb
  · exact descends_deepConst hw hv ha rfl hc (by rw [hop]; decide) hb
  · exact descends_constSubAdd hw hv ha hop hb

theorem subAddU_decreases : Decreases subAddU := by
  intro F c W q o1 o2 c' q' hw hv k1 k2 hp hf hb
  simp only [subAddU, Bool.and_eq_true, decide_eq_true_eq] at hp hb
  obtain ⟨⟨hop, rfl⟩, h2⟩ := hp
  have hc := const_pos hw k2 (ne_nop_of_isUIA (isUIA_of_isUA h2))
  split_ifs at hb
  exact descends_deepConst hw hv (k1.eq (by decide)) rfl hc (by decide) hb

theorem subAddI_decreases : Decreases subAddI := by
  intro F c W q o1 o2 c' q' hw hv k1 k2 hp hf hb
  simp only [subAddI, Bool.and_eq_true, decide_eq_true_eq] at hp hb
  obtain ⟨⟨hop, rfl⟩, h2⟩ := hp
  have hc := const_pos hw k2 (ne_nop_of_isUIA (isUIA_of_isI h2))
  have ha := k1.eq (by decide)
  split_ifs at hb
  · exact descends_deepConst hw hv ha rfl hc (by rw [hop]; decide) hb
  · exact descends_deepConst hw hv ha rfl hc (by decide) hb

theorem subConstAdd_decreases : Decreases subConstAdd := by
  intro F c W q o1 o2 c' q' hw hv k1 k2 hp hf hb
  simp only [subConstAdd, Bool.and_eq_true, decide_eq_true_eq] at hp hb
  obtain ⟨⟨hop, h1⟩, rfl⟩ := hp
  have hc := const_pos hw k1 (ne_nop_of_isUIA h1)
  obtain ⟨hv1, hle⟩ := deep1 hw (k2.eq (by decide)) rfl
  have hl := ops_le_load W q
  split_ifs at hb
  exact descends_constWith hw hv hv1 (by rw [hop]; decide) (by omega) hb

theorem subSubConst_decreases : Decreases subSubConst := by
  intro F c W q o1 o2 c' q' hw hv k1 k2 hp hf hb
  simp only [subSubConst, Bool.and_eq_true, decide_eq_true_eq] at hp hb
  obtain ⟨⟨hop, rfl⟩, h2⟩ := hp
  have hc := const_pos hw k2 (ne_nop_of_isUIA h2)
  have ha := k1.eq (by decide)
  split_ifs at hb
  · exact descends_deepConst hw hv ha rfl hc (by decide) hb
  · exact descends_deepConst hw hv ha rfl hc (by rw [hop]; decide) hb
  · exact descends_constDeep hw hv ha rfl (by decide) (by rw [hop]; decide) hb

theorem subConstSub_decreases : Decreases subConstSub := by
  intro F c W q o1 o2 c' q' hw hv k1 k2 hp hf hb
  simp only [subConstSub, Bool.and_eq_true, decide_eq_true_eq] at hp hb
  obtain ⟨⟨hop, h1⟩, rfl⟩ := hp
  have hc := const_pos hw k1 (ne_nop_of_isUIA h1)
  obtain ⟨hv1, hv2, hle⟩ := deep2 hw (k2.eq (by decide)) rfl (by decide)
  have hl := ops_le_load W q
  split_ifs at hb
  · exact descends_constWith hw hv hv1 (by rw [hop]; decide) (by omega) hb
  · exact descends_withConst hw hv hv2 (by rw [hop]; decide) (Or.inl (by omega)) hb
  · exact descends_withConst hw hv hv2 (by rw [hop]; decide) (Or.inl (by omega)) hb

theorem rotate_decreases : Decreases rotate := by
  intro F c W q o1 o2 c' q' hw hv k1 k2 hp hf hb
  simp only [rotate, Bool.and_eq_true, Bool.or_eq_true, decide_eq_true_eq] at hp hb
  have h12 : ∀ o, o = .shl ∨ o = .shr →
      isDataOp o = true ∧ 2 ≤ o.inputEdges ∧ plusThree o ≠ .cond ∧ o ≠ .nop := by
    rintro o (rfl | rfl) <;> decide
  have h1 := h12 o1 (hp.2.elim (fun h => Or.inl h.1) fun h => Or.inr h.1)
  have h2 := h12 o2 (hp.2.elim (fun h => Or.inr h.2) fun h => Or.inl h.2)
  have ha := k1.eq h1.2.2.2
  have hb' := k2.eq h2.2.2.2
  split_ifs at hb
  · cases hb
    exact descends_deepPair hw hv ha h1.1 h1.2.1 (by rw [ha]; exact h1.2.2.1)
  · cases hb
    exact descends_deepPair hw hv ha h1.1 h1.2.1 (by rw [ha]; exact h1.2.2.1)
  · -- the operands of the second shift
    obtain ⟨hv1, hv2, hle⟩ := deep2 hw hb' h2.1 h2.2.1
    have hne : plusThree (c.insn q.op2).op ≠ .cond := by
      rw [hb']
      exact h2.2.2.1
    have hl := ops_le_load W q
    cases hb
    refine descends_same hw ⟨hv1, hv2, hv.2.2⟩ ?_
    apply measure_lt_of_double
    rw [load_eq W (by exact hne)]
    show 2 * (W (c.insn q.op2).op1 + W (c.insn q.op2).op2) + 2 ≤ _
    omega

/-! ## Any operands -/

theorem load_swap (W : ℤ → ℕ) (q : Question) :
    load W { q with op1 := q.op2, op2 := q.op1 } = load W q := by
  unfold load
  dsimp only
  omega

theorem descends_swapOps (hw : Weighed c W) (hv : q.valid c)
    (hb : swapOps c q = .restart c' q') : Descends c W q c' q' := by
  unfold swapOps at hb
  split_ifs at hb with hlt
  cases hb
  refine descends_same hw ⟨hv.2.1, hv.1, hv.2.2⟩ ?_
  apply measure_lt_of_swap _ _ hlt (by dsimp only; omega)
  · apply le_of_eq
    unfold mass
    have hd : doubles c { q with op1 := q.op2, op2 := q.op1 } = doubles c q := by
      unfold doubles
      rw [Bool.or_comm (isF (c.insn q.op1).op)]
    rw [hd, load_swap]
  · intro h
    have hcomm : decide ((c.insn q.op2).op ≠ (c.insn q.op1).op) =
        decide ((c.insn q.op1).op ≠ (c.insn q.op2).op) := decide_eq_decide.2 ne_comm
    unfold isRewritten at h ⊢
    dsimp only at h
    rwa [hcomm] at h

theorem swapAny_decreases : Decreases swapAny :=
  fun _ _ _ _ _ _ _ _ hw hv _ _ _ _ hb => descends_swapOps hw hv hb

theorem swapOv_decreases : Decreases swapOv := by
  intro F c W q o1 o2 c' q' hw hv k1 k2 hp hf hb
  simp only [swapOv] at hb
  split_ifs at hb with hlt
  exact descends_swapOps hw hv (by rw [swapOps, if_pos hlt]; exact hb)

theorem idempotent_decreases : Decreases idempotent := by
  intro F c W q o1 o2 c' q' hw hv k1 k2 hp hf hb
  simp only [idempotent] at hb
  split_ifs at hb
  exact descends_swapOps hw hv hb

theorem xorAny_decreases : Decreases xorAny := by
  intro F c W q o1 o2 c' q' hw hv k1 k2 hp hf hb
  simp only [xorAny] at hb
  split_ifs at hb
  exact descends_swapOps hw hv hb

theorem eqAny_decreases : Decreases eqAny := by
  intro F c W q o1 o2 c' q' hw hv k1 k2 hp hf hb
  simp only [eqAny] at hb
  split_ifs at hb
  · exact descends_swapOps hw hv hb
  · cases hb

/-- `a + a => a * 2`; the product counts single. -/
theorem descends_toMul (hw : Weighed c W) (hv : q.valid c) (hf : Fresh c q) (hop : q.op = .add)
    (ht : q.type.isInt = true) (heq : q.op1 = q.op2)
    (hb : Reply.withConst c q .mul q.op1 2 q.type = .restart c' q') : Descends c W q c' q' := by
  obtain ⟨rfl, rfl⟩ := withConst_eq hb
  have hk := hw.const _ (const_neg c 2 q.type)
  have ha : isF (c.insn q.op1).op = false := by
    rw [← Bool.not_eq_true]
    intro h
    exact hf ⟨h, by rw [heq], Or.inl hop⟩
  have hb : isF (constOp q.type) = false := by
    generalize q.type = t at ht
    cases t <;> first | rfl | cases ht
  refine ⟨W, hw.extends_const 2 q.type, ⟨valid_const 2 _ hv.1, const_valid hw 2 _,
    valid_const 2 _ hv.2.2⟩, ?_⟩
  apply measure_lt_of_rewritten
  · unfold mass
    rw [if_neg (by simp), if_pos hop, if_neg ?_, load_eq W (by simp),
      load_eq W (by rw [hop]; decide)]
    · show W q.op1 + W (c.const 2 q.type).2 ≤ _
      rw [hk, ← heq]
      omega
    · unfold doubles
      dsimp only
      rw [const_insn 2 q.type hv.1, const_op hw, ha, hb]
      simp
  · simp [isRewritten, hop]
  · simp [isRewritten]

theorem addAny_decreases : Decreases addAny := by
  intro F c W q o1 o2 c' q' hw hv k1 k2 hp hf hb
  simp only [addAny, Bool.and_eq_true, decide_eq_true_eq] at hp hb
  split_ifs at hb with h
  · exact descends_toMul hw hv hf hp.1.1 h.1 h.2 hb
  · exact descends_swapOps hw hv hb

theorem descends_swapOrder (hw : Weighed c W) (hv : q.valid c)
    (hop : isPlain q.op = true ∧ q.op ≠ .add ∧ q.op ≠ .cond ∧ isPlain (xorThree q.op) = true ∧
      xorThree q.op ≠ .add ∧ xorThree q.op ≠ .cond)
    (hrw : isRewritten c { q with op := xorThree q.op, op1 := q.op2, op2 := q.op1 } =
      isRewritten c q)
    (hb : swapOrder c q = .restart c' q') : Descends c W q c' q' := by
  obtain ⟨h1, h2, h3, h4, h5, h6⟩ := hop
  unfold swapOrder at hb
  split_ifs at hb with hlt
  cases hb
  refine descends_same hw ⟨hv.2.1, hv.1, hv.2.2⟩ ?_
  apply measure_lt_of_swap _ _ hlt (by dsimp only; omega)
  · rw [mass_eq h1 h2, mass_eq (by exact h4) (by exact h5), load_eq W h3, load_eq W (by exact h6)]
    dsimp only
    omega
  · rw [hrw]
    exact id

theorem orderAny_decreases : Decreases orderAny := by
  intro F c W q o1 o2 c' q' hw hv k1 k2 hp hf hb
  simp only [orderAny, Bool.and_eq_true, Bool.or_eq_true, decide_eq_true_eq] at hp hb
  split_ifs at hb
  · cases hb
  · refine descends_swapOrder hw hv ?_ ?_ hb
    · rcases hp.1.1 with ((h | h) | h) | h <;> rw [h] <;> decide
    · rcases hp.1.1 with ((h | h) | h) | h <;> simp [isRewritten, h, xorThree]

theorem unsignedOrderAny_decreases : Decreases unsignedOrderAny := by
  intro F c W q o1 o2 c' q' hw hv k1 k2 hp hf hb
  simp only [unsignedOrderAny, Bool.and_eq_true, Bool.or_eq_true, decide_eq_true_eq] at hp hb
  split_ifs at hb
  · cases hb
  · refine descends_swapOrder hw hv ?_ ?_ hb
    · rcases hp.1.1 with ((h | h) | h) | h <;> rw [h] <;> decide
    · rcases hp.1.1 with ((h | h) | h) | h <;> simp [isRewritten, h, xorThree]

/-! ## Conditions -/

theorem load_cond (W : ℤ → ℕ) (hop : q.op = .cond) : load W q = W q.op1 + W q.op2 + W q.op3 := by
  unfold load
  rw [if_pos hop]

theorem weight_true (hw : Weighed c W) : W irTrue = 1 := hw.const _ (by decide)

theorem weight_false (hw : Weighed c W) : W irFalse = 1 := hw.const _ (by decide)

/-- A condition that becomes an operation on two of its operands or less. -/
theorem descends_ofCond {op : IrOp} {t : IrType} {r s : ℤ} (hw : Weighed c W) (hr : c.valid r)
    (hs : c.valid s) (hp : isPlain op = true) (hadd : op ≠ .add) (hop : op ≠ .cond)
    (hlt : W r + W s < load W q) :
    Descends c W q c { q with op := op, type := t, op1 := r, op2 := s, op3 := 0 } := by
  refine descends_same hw ⟨hr, hs, hw.valid_zero⟩ ?_
  apply measure_lt_of_light hp hadd
  rw [load_eq W (by exact hop)]
  exact hlt

theorem descends_condBool {b : Insn} (hw : Weighed c W) (hv : q.valid c) (hop : q.op = .cond)
    (hb : condBool c q b = .restart c' q') : Descends c W q c' q' := by
  have hl := load_cond W hop
  have hT := weight_true hw
  have hF := weight_false hw
  have h0 := hw.zero
  unfold condBool at hb
  split_ifs at hb with h1 h2 h3 h4 h5 h6 h7
  · cases hb
    rw [h1] at hl
    exact descends_ofCond hw hv.1 hv.2.2 rfl (by decide) (by decide) (by omega)
  · cases hb
    rw [h3] at hl
    exact descends_ofCond hw hv.1 hv.2.1 rfl (by decide) (by decide) (by omega)
  · cases hb
    rw [h4, h5] at hl
    exact descends_ofCond hw hv.1 hw.valid_zero rfl (by decide) (by decide) (by omega)
  · cases hb
    have hk := hw.const _ h6.2.1
    exact descends_ofCond hw hv.1 hw.valid_zero rfl (by decide) (by decide) (by omega)
  · cases hb
    have hk := hw.const _ h6.2.1
    exact descends_ofCond hw hv.1 hw.valid_zero rfl (by decide) (by decide) (by omega)

/-- `COND` of an integer becomes a comparison with zero. -/
theorem descends_condInt (hw : Weighed c W) (hv : q.valid c) (hop : q.op = .cond)
    (hb : condInt c q (c.insn q.op1) = .restart c' q') : Descends c W q c' q' := by
  have hl := load_cond W hop
  have hT := weight_true hw
  have hF := weight_false hw
  -- one of two constants goes, the other becomes the zero
  have hcmp : ∀ op, isPlain op = true → op ≠ .add → op ≠ .cond → W q.op2 = 1 → W q.op3 = 1 →
      Reply.withConst c { q with type := .bool, op3 := 0 } op q.op1 0 (c.insn q.op1).type =
        .restart c' q' → Descends c W q c' q' := by
    intro op hp hadd hne h2 h3 heq
    obtain ⟨rfl, rfl⟩ := withConst_eq heq
    have hk := hw.const _ (const_neg c 0 (c.insn q.op1).type)
    refine ⟨W, hw.extends_const 0 _, ⟨valid_const 0 _ hv.1, const_valid hw 0 _,
      valid_const 0 _ hw.valid_zero⟩, ?_⟩
    apply measure_lt_of_light hp hadd
    rw [load_eq W (by exact hne)]
    show W q.op1 + W (c.const 0 (c.insn q.op1).type).2 < _
    omega
  unfold condInt at hb
  split_ifs at hb with h1 h2
  · exact hcmp .ne rfl (by decide) (by decide) (by rw [h1.1, hT]) (by rw [h1.2, hF]) hb
  · exact hcmp .eq rfl (by decide) (by decide) (by rw [h2.1, hF]) (by rw [h2.2, hT]) hb

/-- `COND` of a comparison with zero takes the operand of the comparison. -/
theorem descends_condCompare (hw : Weighed c W) (hv : q.valid c) (hop : q.op = .cond)
    (hb : condCompare c q (c.insn q.op1) = .restart c' q') : Descends c W q c' q' := by
  have hl := load_cond W hop
  have hplain : isPlain q.op = true ∧ q.op ≠ .add := by
    rw [hop]
    decide
  unfold condCompare at hb
  dsimp only at hb
  split_ifs at hb with h1 h2
  · obtain ⟨hv1, hle⟩ := deep1 hw h1.1 rfl
    obtain ⟨rfl, rfl⟩ := Reply.restart.inj hb
    refine descends_same hw ⟨hv1, hv.2⟩ ?_
    apply measure_lt_of_light (by exact hplain.1) (by exact hplain.2)
    rw [load_cond W (by exact hop)]
    show W (c.insn q.op1).op1 + W q.op2 + W q.op3 < _
    omega
  · obtain ⟨hv1, hle⟩ := deep1 hw h2.1 rfl
    obtain ⟨rfl, rfl⟩ := Reply.restart.inj hb
    refine descends_same hw ⟨hv1, hv.2.2, hv.2.1⟩ ?_
    apply measure_lt_of_light (by exact hplain.1) (by exact hplain.2)
    rw [load_cond W (by exact hop)]
    show W (c.insn q.op1).op1 + W q.op3 + W q.op2 < _
    omega

theorem orElse_eq_restart {r s : Reply} (h : r.orElse s = .restart c' q') :
    r = .restart c' q' ∨ (r = .next ∧ s = .restart c' q') := by
  cases r with
  | next => exact Or.inr ⟨rfl, h⟩
  | _ => exact Or.inl h

theorem condAny_decreases : Decreases condAny := by
  intro F c W q o1 o2 c' q' hw hv k1 k2 hp hf hb
  simp only [condAny, Bool.and_eq_true, decide_eq_true_eq] at hp hb
  have hop := hp.1.1
  split_ifs at hb
  · rcases orElse_eq_restart hb with h | ⟨-, h⟩
    · exact descends_condBool hw hv hop h
    · exact descends_condCompare hw hv hop h
  · rcases orElse_eq_restart hb with h | ⟨-, h⟩
    · exact descends_condInt hw hv hop h
    · exact descends_condCompare hw hv hop h
  · exact descends_condCompare hw hv hop hb

/-! ## Rules that answer or pass on -/

/-- The rule never restarts the engine. -/
def Quiet (r : Rule) : Prop :=
  ∀ (F : FloatOps) (c : Ctx) (q : Question) (a b : Insn) (c' : Ctx) (q' : Question),
    r.body F c q a b ≠ .restart c' q'

theorem Quiet.decreases {r : Rule} (h : Quiet r) : Decreases r :=
  fun F c _ q _ _ c' q' _ _ _ _ _ _ hb => absurd hb (h F c q _ _ c' q')

theorem ofOutcome_ne_restart (o : Outcome) : Reply.ofOutcome o ≠ .restart c' q' := by
  cases o <;> exact Reply.noConfusion

theorem constants_quiet : Quiet constants := by
  intro F c q a b c' q' hb
  simp only [constants] at hb
  split_ifs at hb
  exact ofOutcome_ne_restart _ hb

theorem quiet_of_mem : ∀ r ∈ answering, Quiet r := by
  simp only [answering, List.forall_mem_cons, List.not_mem_nil, false_imp_iff, implies_true,
    and_true]
  refine ⟨constants_quiet, ?_⟩
  and_intros <;> intro F c q a b c' q' hb <;>
    simp only [minMaxConst, floatCompare, floatArith, floatUnary, floatMinMax, floatConvert,
      compareNaN, neNaN, addOvU, addOvI, subOvU, subOvI, mulOvU, mulOvI, overflowOf, copyRule,
      phiRule, condConst, bitcastSame, absAbs, involution, ugeZero, ultZero, mulU, andBool, orBool,
      and8, and16, and32, and64, or8, or16, or32, or64, shiftZero, zeroShift, fixed8, fixed16,
      fixed32, fixed64, ltAbs, geAbs, fp2fpTwice, fp2intInt2fp, andZext, andShr8, andShr16,
      andShr32, andShr64, andShl8, andShl16, andShl32, andShl64, absorb, xorXor, subAny, subOvAny,
      Reply.bool, andBody, orBody, fixedBody, andShrBody, andShlBody, reduceCtorEq] at hb
  all_goals split_ifs at hb

/-! ## Runs of the engine -/

theorem decreases_of_mem : ∀ r ∈ restarting, Decreases r := by
  simp only [restarting, List.forall_mem_cons, List.not_mem_nil, false_imp_iff, implies_true,
    and_true]
  exact ⟨orderedConst_decreases, unorderedConst_decreases, absNeg_decreases, eqBool_decreases,
    neBool_decreases, cmpBitcast_decreases, cmpExt_decreases, cmpExtExt_decreases,
    orderZextZext_decreases, notCmp_decreases, eqSub_decreases, addZero_decreases,
    zeroAdd_decreases, zeroSub_decreases, ugtZero_decreases, uleZero_decreases, addNeg_decreases,
    addSubNeg_decreases, subThenAdd_decreases, addOfSub_decreases, addThenSub_decreases,
    subOfAdd_decreases, subThenSub_decreases, subOfSub_decreases, subAddAdd_decreases,
    mulDivNegConst_decreases, mulDivNegFloat_decreases, mulDivNegDouble_decreases, mulI_decreases,
    mulDouble_decreases, mulFloat_decreases, divU_decreases, divI_decreases, modConst_decreases,
    divDouble_decreases, divFloat_decreases, mulDivNegNeg_decreases, xorBool_decreases,
    xor_decreases isWidth8 rfl 8, xor_decreases isWidth16 rfl 16, xor_decreases isWidth32 rfl 32,
    xor_decreases isWidth64 rfl 64, shlConst_decreases, truncExt_decreases,
    convertBitcast_decreases, bitcastTwice_decreases, convertTwice_decreases, sextZext_decreases,
    sextAnd_decreases, sextShr_decreases, truncAnd_decreases, andSext_decreases,
    shlAnd_decreases (fun o => o = .cI8 || o = .cU8) 8, shlAnd_decreases isWidth16 16,
    shlAnd_decreases isWidth32 32, shlAnd_decreases isWidth64 64,
    shrAnd_decreases (fun o => o = .cI8 || o = .cU8) 8, shrAnd_decreases isWidth16 16,
    shrAnd_decreases isWidth32 32, shrAnd_decreases isWidth64 64, cmpFp2fp_decreases,
    assocConst_decreases .add (· + ·) rfl (by decide), addSubU_decreases, addSubI_decreases,
    subAddU_decreases, subAddI_decreases, subConstAdd_decreases, subSubConst_decreases,
    subConstSub_decreases, assocConst_decreases .mul (· * ·) rfl (by decide),
    assocConst_decreases .and (· &&& ·) rfl (by decide),
    assocConst_decreases .or (· ||| ·) rfl (by decide),
    assocConst_decreases .xor (· ^^^ ·) rfl (by decide), rotate_decreases, swapAny_decreases,
    swapOv_decreases, addAny_decreases, idempotent_decreases, xorAny_decreases, eqAny_decreases,
    orderAny_decreases, unsignedOrderAny_decreases, condAny_decreases⟩

theorem decreases_of_findRule {o : IrOp} {r : Rule} (h : findRule o o1 o2 = some r) :
    Decreases r ∧ r.pattern o o1 o2 = true := by
  refine ⟨?_, List.find?_some (p := fun r : Rule => r.pattern o o1 o2) h⟩
  rcases List.mem_append.1 (List.mem_of_find?_eq_some h) with hr | hr
  · exact (quiet_of_mem r hr).decreases
  · exact decreases_of_mem r hr

/-- One round of the loop over the masks. -/
theorem descends_attempt (hw : Weighed c W) (hv : q.valid c) (k1 : Key o1 (c.insn q.op1).op)
    (k2 : Key o2 (c.insn q.op2).op) (hf : Fresh c q)
    (hb : attempt F c q o1 o2 = .restart c' q') : Descends c W q c' q' := by
  unfold attempt at hb
  cases hr : findRule q.op o1 o2 with
  | none =>
    rw [hr] at hb
    cases hb
  | some r =>
    rw [hr] at hb
    obtain ⟨hdec, hp⟩ := decreases_of_findRule hr
    exact hdec F c W q o1 o2 c' q' hw hv k1 k2 hp hf hb

/-- Two floating point constants find a constant rule under the first key. -/
theorem fresh_of_restart (hb : dispatch F c q = .restart c' q') : Fresh c q := by
  rintro ⟨hF, heq, hop⟩
  have hrule : ∃ r, findRule q.op (c.insn q.op1).op (c.insn q.op2).op = some r ∧
      (r = floatArith ∨ r = floatCompare) := by
    rw [← heq]
    simp only [isF, Bool.or_eq_true, decide_eq_true_eq] at hF
    rcases hF with h | h <;> rw [h] <;> rcases hop with h' | h' | h' <;> rw [h']
    · exact ⟨floatArith, rfl, Or.inl rfl⟩
    · exact ⟨floatCompare, rfl, Or.inr rfl⟩
    · exact ⟨floatCompare, rfl, Or.inr rfl⟩
    · exact ⟨floatArith, rfl, Or.inl rfl⟩
    · exact ⟨floatCompare, rfl, Or.inr rfl⟩
    · exact ⟨floatCompare, rfl, Or.inr rfl⟩
  obtain ⟨r, hr, hcase⟩ := hrule
  unfold dispatch attempt at hb
  simp only [hr] at hb
  rcases hcase with rfl | rfl <;> cases hb

/-- Every restart lowers the measure. -/
theorem descends_dispatch (hw : Weighed c W) (hv : q.valid c)
    (hb : dispatch F c q = .restart c' q') : Descends c W q c' q' := by
  have hf := fresh_of_restart hb
  unfold dispatch at hb
  rcases orElse_eq_restart hb with h | ⟨-, hb⟩
  · exact descends_attempt hw hv (Or.inr rfl) (Or.inr rfl) hf h
  rcases orElse_eq_restart hb with h | ⟨-, hb⟩
  · exact descends_attempt hw hv (Or.inl rfl) (Or.inr rfl) hf h
  rcases orElse_eq_restart hb with h | ⟨-, hb⟩
  · exact descends_attempt hw hv (Or.inr rfl) (Or.inl rfl) hf h
  · exact descends_attempt hw hv (Or.inl rfl) (Or.inl rfl) hf hb

/-- An answer other than a restart ends the run. -/
theorem folding_succ_of_answer (h : ∀ c' q', dispatch F c q ≠ .restart c' q') (m : ℕ) :
    folding F (m + 1) c q = some (c, q, dispatch F c q) := by
  unfold folding
  cases hd : dispatch F c q with
  | restart c' q' => exact absurd hd (h c' q')
  | _ => rfl

theorem folding_succ_of_restart (h : dispatch F c q = .restart c' q') (hu : c'.useLists = none)
    (m : ℕ) : folding F (m + 1) c q = folding F m c' q' := by
  rw [folding, h]
  simp [hu]

/-- Without use lists the engine returns an answer that is no restart, after finitely many
questions. -/
theorem folding_returns (F : FloatOps) (c : Ctx) (q : Question) (h : c.WellFormed)
    (hu : c.useLists = none) (hv : q.valid c) :
    ∃ n c' q' r, (∀ c'' q'', r ≠ .restart c'' q'') ∧
      ∀ m, n ≤ m → folding F m c q = some (c', q', r) := by
  obtain ⟨W, hw⟩ := exists_weighed h
  clear h
  induction hn : measure c W q using Nat.strong_induction_on generalizing c W q with
  | _ n ih =>
    by_cases hd : ∃ c' q', dispatch F c q = .restart c' q'
    · obtain ⟨c', q', hd⟩ := hd
      obtain ⟨W', hext, hv', hlt⟩ := descends_dispatch hw hv hd
      have hu' : c'.useLists = none := hext.useLists.trans hu
      obtain ⟨k, c'', q'', r, hr, hall⟩ :=
        ih _ (hn ▸ hlt) c' q' hu' hv' W' hext.weighed rfl
      refine ⟨k + 1, c'', q'', r, hr, fun m hm => ?_⟩
      obtain ⟨m, rfl⟩ : ∃ j, m = j + 1 := ⟨m - 1, by omega⟩
      rw [folding_succ_of_restart hd hu']
      exact hall m (by omega)
    · simp only [not_exists] at hd
      refine ⟨1, c, q, dispatch F c q, hd, fun m hm => ?_⟩
      obtain ⟨m, rfl⟩ : ∃ j, m = j + 1 := ⟨m - 1, by omega⟩
      exact folding_succ_of_answer hd m

/-- A context with a parameter, `1` and the sum of the parameter and `1`. -/
def sumCtx : Ctx where
  consts := [⟨.cAddr, .addr, 0, 0, 0, 0⟩, ⟨.cBool, .bool, 0, 0, 0, 0⟩, ⟨.cBool, .bool, 0, 0, 0, 1⟩,
    ⟨.cI32, .i32, 0, 0, 0, 1⟩]
  insns := [⟨.nop, .void, 0, 0, 0, 0⟩, ⟨.start, .void, 0, 0, 0, 0⟩, ⟨.param, .i32, 1, 0, 0, 0⟩,
    ⟨.add, .i32, 2, -4, 0, 0⟩]
  useLists := none

/-- Floating point operations of a function that has none. -/
def noFloats : FloatOps where
  isNaN _ _ := false
  isZero _ _ := false
  compare _ _ _ _ := false
  arith _ _ _ _ := 0
  convert _ _ _ _ := 0
  fitsFloat _ := false
  stale := 0

theorem sumCtx_wellFormed : sumCtx.WellFormed := by
  refine ⟨by decide, rfl, by decide, by decide, ⟨rfl, rfl, rfl⟩, Int.toNat, ?_⟩
  intro r hr o ho
  have hpos := pos_of_isDataOp (c := sumCtx) rfl (by decide) hr
  have hlen : (sumCtx.insns.length : ℤ) = 4 := rfl
  rw [hlen] at hpos
  obtain ⟨h0, h4⟩ := hpos
  interval_cases r
  · cases hr
  · cases hr
  · have ho' : o ∈ [(2 : ℤ), -4] := ho
    simp only [List.mem_cons, List.not_mem_nil, or_false] at ho'
    rcases ho' with rfl | rfl
    · exact ⟨by decide, fun _ => by decide⟩
    · exact ⟨by decide, fun h => absurd h (by decide)⟩

/-- The sum shifted by one: `SHL`, `ADD` and `MUL`. -/
theorem folding_returns_sumCtx :
    sumCtx.WellFormed ∧ Question.valid sumCtx ⟨.shl, .i32, 3, -4, 0⟩ ∧
      ∃ n c' q' r, (∀ c'' q'', r ≠ .restart c'' q'') ∧
        ∀ m, n ≤ m → folding noFloats m sumCtx ⟨.shl, .i32, 3, -4, 0⟩ = some (c', q', r) := by
  have hv : Question.valid sumCtx ⟨.shl, .i32, 3, -4, 0⟩ := by decide
  exact ⟨sumCtx_wellFormed, hv, folding_returns noFloats sumCtx _ sumCtx_wellFormed rfl hv⟩

end IrJit.Fold
