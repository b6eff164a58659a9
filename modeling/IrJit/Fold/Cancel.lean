import IrJit.Fold.Reassociate

/-!
# Fold.Cancel — operands that absorb or cancel each other (`ir_fold.h`, 2124–2263, 3553–3572, 3613–3734)

The sums and differences in which an operand occurs twice, `op(op(a, b), a)`, and `op(a, a)`.  All of
the rules but one reply the value of the question.  `absorb` copies the second operand of the question
where the first one, which is `op(a, b)`, has the value.
-/

namespace IrJit.Fold

/-! ## References that can stand for the question -/

section Like

variable {c c' : Ctx} {ρ : ℤ → ℤ} {q : Question} {W : ℤ → ℕ} {t : IrType} {r s : ℤ} {w : ℕ}

/-- A reference to integers of the bits of a type, both boolean or none. -/
structure Like (c : Ctx) (t : IrType) (r : ℤ) : Prop extends HasBits c (bits t) r where
  bool : (c.insn r).type = .bool ↔ t = .bool

theorem Compat.like (h : Compat t (c.insn r).type) (ht : IsInt t) : Like c t r :=
  ⟨⟨h.isInt ht, h.bits_eq.symm⟩, h.bool_iff.symm⟩

theorem Question.Typed.like (hq : q.Typed c) (h : isRing q.op = true) :
    Like c q.type q.op1 ∧ Like c q.type q.op2 := by
  obtain ⟨h1, h2⟩ := accepts_of_isRing h hq.accepts
  exact ⟨h1.like hq.int, h2.like hq.int⟩

/-- The operands of an operation of the group. -/
theorem Like.operands (hr : Like c t r) (hc : c.Typed) (h : isRing (c.insn r).op = true) :
    Like c t (c.insn r).op1 ∧ Like c t (c.insn r).op2 := by
  obtain ⟨h1, h2⟩ := hr.toHasBits.operands hc h
  obtain ⟨k1, k2⟩ := accepts_of_isRing h (hc.insns r (computes_of_isRing h).1)
  exact ⟨⟨h1, k1.bool_iff.symm.trans hr.bool⟩, ⟨h2, k2.bool_iff.symm.trans hr.bool⟩⟩

theorem bits_bitcast (hw : bits t = w) (hb : t ≠ .bool) (t₁ t₂ : IrType) (x y : ℤ) :
    BitVec.ofInt w (result .bitcast t t₁ t₂ x y) = BitVec.ofInt w x := by
  have heq : result .bitcast t t₁ t₂ x y = wrap t x := if_neg hb
  rw [heq, ofInt_wrap hw]

theorem ofInt_constValue_zero (t : IrType) : BitVec.ofInt (bits t) (constValue t 0) = 0 := by
  unfold constValue
  split_ifs with hb h0
  · exact absurd rfl h0
  · exact BitVec.ofInt_natCast ..
  · rw [ofInt_valueOf rfl]
    exact BitVec.setWidth_zero ..

/-! ## Replies without constants -/

section Replies

variable (hq : q.Typed c) (hop : isRing q.op = true)

include hq hop

theorem means_copy : (Reply.copy r).Means c ρ q ↔
    bitsOf ρ q r = onBits q.op (bitsOf ρ q q.op1) (bitsOf ρ q q.op2) := by
  rw [Reply.Means, agree_iff rfl, hq.bits_value hop]

theorem means_zero : (Reply.const 0).Means c ρ q ↔
    0 = onBits q.op (bitsOf ρ q q.op1) (bitsOf ρ q q.op2) := by
  rw [Reply.Means, agree_iff rfl, hq.bits_value hop, ofInt_constValue_zero]

theorem means_castOr (hr : Like c q.type r) : (castOr c q r).Means c ρ q ↔
    bitsOf ρ q r = onBits q.op (bitsOf ρ q q.op1) (bitsOf ρ q q.op2) := by
  unfold castOr
  by_cases ht : (c.insn r).type ≠ q.type
  · have hb : q.type ≠ .bool := fun hb => ht (by rw [hr.bool.2 hb, hb])
    rw [if_pos ht, Reply.unary, Reply.Means, Question.value, agree_iff rfl]
    dsimp only
    rw [bits_bitcast rfl hb, hq.bits_value hop]
  · rw [if_neg ht]
    exact means_copy hq hop

theorem means_negate : (Reply.unary c q .neg q.type r).Means c ρ q ↔
    -bitsOf ρ q r = onBits q.op (bitsOf ρ q q.op1) (bitsOf ρ q q.op2) := by
  rw [Reply.unary, Reply.Means, Question.value, agree_iff rfl]
  dsimp only
  rw [bits_neg rfl, hq.bits_value hop]

end Replies

/-! ## Casts -/

section Cast

/-- The types of the instructions of a larger graph. -/
theorem Ctx.Typed.grown (hc : c.Typed) (hW : Weighed c W) (hg : Grown c c')
    (hconsts : ∀ i ∈ c'.consts, i.op.isConstOp = true → i.op = constOp i.type)
    (hnew : ∀ r, ¬c.valid r → computes (c'.insn r).op = true → Accepts (c'.insn r).op (c'.insn r).type
      (c'.insn (c'.insn r).op1).type (c'.insn (c'.insn r).op2).type) : c'.Typed := by
  have hbuiltin : ∀ r, r < 0 → -3 ≤ r → c'.insn r = c.insn r :=
    fun r h0 h3 => hg.insn (hW.valid_of_neg h0 h3)
  refine ⟨hconsts, ?_, ?_, ?_, fun r hr => ?_⟩
  · rw [hbuiltin irNull (by decide) (by decide)]
    exact hc.isNull
  · rw [hbuiltin irFalse (by decide) (by decide)]
    exact hc.isFalse
  · rw [hbuiltin irTrue (by decide) (by decide)]
    exact hc.isTrue
  by_cases hv : c.valid r
  · have heq := hg.insn hv
    rw [heq] at hr ⊢
    obtain ⟨hv1, hv2⟩ := hW.valid_operands hr
    have hacc := hc.insns r hr
    rw [hg.insn hv1]
    rcases inputEdges_of_computes hr with h1 | h2
    · generalize (c.insn r).op = o at h1 hacc
      cases o <;> first | exact hacc | exact absurd h1 (by decide)
    · rw [hg.insn (hv2 h2.ge)]
      exact hacc
  · exact hnew r hv hr

theorem Ctx.Typed.const (hc : c.Typed) (hW : Weighed c W) (v : Val) (t : IrType) :
    (c.const v t).1.Typed := by
  refine hc.grown hW (grown_const c v t) ?_ ?_
  · intro i hi
    rcases const_cases c v t with ⟨-, h | h⟩ | ⟨-, h⟩ | ⟨k, -, -, h⟩ | ⟨-, h⟩ <;> rw [h] at hi
    · exact hc.consts i hi
    · exact hc.consts i hi
    · exact hc.consts i hi
    · exact hc.consts i hi
    · rcases List.mem_append.1 hi with hi | hi
      · exact hc.consts i hi
      · rw [List.mem_singleton.1 hi]
        exact fun _ => rfl
  · intro r hv hr
    have hW' := hW.const_weighed v t
    have hpos := pos_of_isDataOp hW'.nop hW'.consts (isDataOp_of_computes hr)
    rw [(const_insns c v t).1] at hpos
    exact absurd ⟨by omega, hpos.2⟩ hv

theorem Ctx.Typed.bitcast (hc : c.Typed) (hW : Weighed c W) (hr : c.valid r)
    (ht : t.size = (c.insn r).type.size) : (c.emit1 .bitcast t r).1.Typed := by
  refine hc.grown hW ⟨List.prefix_append _ _, List.prefix_rfl, rfl⟩ hc.consts ?_
  intro s hs hop
  have hnew : s = c.insns.length := by
    by_contra hne
    have hs' : ¬(c.emit1 .bitcast t r).1.valid s := by
      rintro ⟨h1, h2⟩
      have hlen : ((c.emit1 .bitcast t r).1.insns.length : ℤ) = c.insns.length + 1 := by
        simp [Ctx.emit1]
      rw [hlen] at h2
      exact hs ⟨h1, by omega⟩
    rw [insn_of_not_valid hs'] at hop
    cases hop
  rw [hnew, emit1_new]
  dsimp only
  rw [emit1_insn hr]
  exact ht

theorem Like.size_eq (hr : Like c t r) : t.size = (c.insn r).type.size := by
  have h := hr.bits
  unfold IrJit.Fold.bits at h
  omega

theorem Ctx.Typed.cast (hc : c.Typed) (hW : Weighed c W) (hr : Like c t r) :
    (c.cast r t).1.Typed := by
  unfold Ctx.cast
  split_ifs
  · exact hc
  · exact hc.const hW _ _
  · exact hc.bitcast hW (valid_of_isInt hr.int) hr.size_eq

/-- A cast keeps the bits. -/
theorem cast_new (hW : Weighed c W) (hc : c.Typed) (ht : IsInt t) (hr : Like c t r)
    (hρ : (c.cast r t).1.Models ρ) : HasBits (c.cast r t).1 (bits t) (c.cast r t).2 ∧
      BitVec.ofInt (bits t) (ρ (c.cast r t).2) = BitVec.ofInt (bits t) (ρ r) := by
  have hv := valid_of_isInt hr.int
  unfold Ctx.cast at hρ ⊢
  by_cases hsame : (c.insn r).type = t
  · rw [if_pos hsame] at hρ ⊢
    exact ⟨hr.toHasBits, rfl⟩
  rw [if_neg hsame] at hρ ⊢
  have hb : t ≠ .bool := fun hb => hsame (by rw [hr.bool.2 hb, hb])
  by_cases hn : r < 0 ∧ ¬(c.insn r).op.isSymConst
  · rw [if_pos hn] at hρ ⊢
    have htype := (const_new hc (c.insn r).val t).1
    have heq := const_insn (c.insn r).val t hv
    have hnum := hρ.number r hn.1 (by rw [heq]; simpa using hn.2) (by rw [heq]; exact hr.int)
    refine ⟨⟨by rw [htype]; exact ht, by rw [htype]⟩, ?_⟩
    rw [hρ.newConst hW hc ht, hnum, heq, ofInt_valueOf hr.bits]
    unfold constValue
    rw [if_neg hb, ofInt_valueOf rfl]
  · rw [if_neg hn] at hρ ⊢
    have hnew : (c.emit1 .bitcast t r).1.insn (c.emit1 .bitcast t r).2 =
        { op := .bitcast, type := t, op1 := r } := emit1_new c .bitcast t r
    refine ⟨⟨by rw [hnew]; exact ht, by rw [hnew]⟩, ?_⟩
    have hold : (c.emit1 .bitcast t r).1.insn r = c.insn r := emit1_insn hv
    have hnode := hρ.node (c.emit1 .bitcast t r).2 (by rw [hnew]; rfl) (by rw [hnew]; exact ht) (by
      rw [hnew]
      dsimp only
      refine ⟨by rw [hold]; exact hr.int, fun h2 => ?_⟩
      exact absurd h2 (by decide))
    rw [hnode, hnew, bits_bitcast rfl hb]

end Cast

end Like

/-! ## The rules -/

section Rules

variable {F : FloatOps} {c : Ctx} {ρ : ℤ → ℤ} {q : Question} {r : Rule} {o i : IrOp}

/-- The rules with an inner instruction for their first operand. -/
theorem first_of_matches (hm : r.Matches c q) (hi : i ≠ .nop)
    (hr : ∀ k1 k2, r.pattern q.op k1 k2 = true → q.op = o ∧ k1 = i) :
    q.op = o ∧ (c.insn q.op1).op = i := by
  obtain ⟨k1, k2, hk1, -, hp⟩ := hm
  obtain ⟨h1, h2⟩ := hr k1 k2 hp
  rw [h2] at hk1
  exact ⟨h1, hk1.eq hi⟩

theorem second_of_matches (hm : r.Matches c q) (hi : i ≠ .nop)
    (hr : ∀ k1 k2, r.pattern q.op k1 k2 = true → q.op = o ∧ k2 = i) :
    q.op = o ∧ (c.insn q.op2).op = i := by
  obtain ⟨k1, k2, -, hk2, hp⟩ := hm
  obtain ⟨h1, h2⟩ := hr k1 k2 hp
  rw [h2] at hk2
  exact ⟨h1, hk2.eq hi⟩

variable (hc : c.Typed) (hq : q.Typed c) (hρ : c.Models ρ)

include hc hq hρ

/-- The bits of the inner instruction in the first operand, and the references it has. -/
theorem first_inner (ho : isRing o = true) (hi : isRing i = true) (hop : q.op = o)
    (hin : (c.insn q.op1).op = i) :
    Like c q.type (c.insn q.op1).op1 ∧ Like c q.type (c.insn q.op1).op2 ∧
      bitsOf ρ q q.op1 = onBits i (bitsOf ρ q (c.insn q.op1).op1) (bitsOf ρ q (c.insn q.op1).op2) := by
  subst hop hin
  obtain ⟨h1, -⟩ := hq.like ho
  obtain ⟨h2, h3⟩ := h1.operands hc hi
  exact ⟨h2, h3, h1.toHasBits.node hc hρ hi⟩

theorem second_inner (ho : isRing o = true) (hi : isRing i = true) (hop : q.op = o)
    (hin : (c.insn q.op2).op = i) :
    Like c q.type (c.insn q.op2).op1 ∧ Like c q.type (c.insn q.op2).op2 ∧
      bitsOf ρ q q.op2 = onBits i (bitsOf ρ q (c.insn q.op2).op1) (bitsOf ρ q (c.insn q.op2).op2) := by
  subst hop hin
  obtain ⟨-, h1⟩ := hq.like ho
  obtain ⟨h2, h3⟩ := h1.operands hc hi
  exact ⟨h2, h3, h1.toHasBits.node hc hρ hi⟩

theorem means_subThenAdd (hm : subThenAdd.Matches c q) : (subThenAdd.reply F c q).Means c ρ q := by
  obtain ⟨hop, hin⟩ := first_of_matches (o := .add) (i := .sub) hm (by decide) fun k1 k2 hp => by
    simp only [subThenAdd, Bool.and_eq_true, decide_eq_true_eq] at hp
    exact hp.1
  obtain ⟨h1, -, hbits⟩ := first_inner hc hq hρ rfl rfl hop hin
  simp only [Rule.reply, subThenAdd]
  split_ifs with h
  · rw [means_castOr hq (by rw [hop]; rfl) h1, hop, hbits, h.2]
    simp only [onBits]
    ring
  · trivial

theorem means_addOfSub (hm : addOfSub.Matches c q) : (addOfSub.reply F c q).Means c ρ q := by
  obtain ⟨hop, hin⟩ := second_of_matches (o := .add) (i := .sub) hm (by decide) fun k1 k2 hp => by
    simp only [addOfSub, Bool.and_eq_true, decide_eq_true_eq] at hp
    exact ⟨hp.1.1, hp.2⟩
  obtain ⟨h1, -, hbits⟩ := second_inner hc hq hρ rfl rfl hop hin
  simp only [Rule.reply, addOfSub]
  split_ifs with h
  · rw [means_castOr hq (by rw [hop]; rfl) h1, hop, hbits, h.2]
    simp only [onBits]
    ring
  · trivial

theorem means_addThenSub (hm : addThenSub.Matches c q) : (addThenSub.reply F c q).Means c ρ q := by
  obtain ⟨hop, hin⟩ := first_of_matches (o := .sub) (i := .add) hm (by decide) fun k1 k2 hp => by
    simp only [addThenSub, Bool.and_eq_true, decide_eq_true_eq] at hp
    exact hp.1
  obtain ⟨h1, h2, hbits⟩ := first_inner hc hq hρ rfl rfl hop hin
  simp only [Rule.reply, addThenSub]
  split_ifs with _ h3 h4
  · rw [means_castOr hq (by rw [hop]; rfl) h2, hop, hbits, h3]
    simp only [onBits]
    ring
  · rw [means_castOr hq (by rw [hop]; rfl) h1, hop, hbits, h4]
    simp only [onBits]
    ring
  · trivial
  · trivial

theorem means_subOfAdd (hm : subOfAdd.Matches c q) : (subOfAdd.reply F c q).Means c ρ q := by
  obtain ⟨hop, hin⟩ := second_of_matches (o := .sub) (i := .add) hm (by decide) fun k1 k2 hp => by
    simp only [subOfAdd, Bool.and_eq_true, decide_eq_true_eq] at hp
    exact ⟨hp.1.1, hp.2⟩
  obtain ⟨-, -, hbits⟩ := second_inner hc hq hρ rfl rfl hop hin
  simp only [Rule.reply, subOfAdd]
  split_ifs with _ h3 h4
  · rw [means_negate hq (by rw [hop]; rfl), hop, hbits, h3]
    simp only [onBits]
    ring
  · rw [means_negate hq (by rw [hop]; rfl), hop, hbits, h4]
    simp only [onBits]
    ring
  · trivial
  · trivial

theorem means_subThenSub (hm : subThenSub.Matches c q) : (subThenSub.reply F c q).Means c ρ q := by
  obtain ⟨hop, hin⟩ := first_of_matches (o := .sub) (i := .sub) hm (by decide) fun k1 k2 hp => by
    simp only [subThenSub, Bool.and_eq_true, decide_eq_true_eq] at hp
    exact hp.1
  obtain ⟨-, -, hbits⟩ := first_inner hc hq hρ rfl rfl hop hin
  simp only [Rule.reply, subThenSub]
  split_ifs with h
  · rw [means_negate hq (by rw [hop]; rfl), hop, hbits, h.2]
    simp only [onBits]
    ring
  · trivial

theorem means_subOfSub (hm : subOfSub.Matches c q) : (subOfSub.reply F c q).Means c ρ q := by
  obtain ⟨hop, hin⟩ := second_of_matches (o := .sub) (i := .sub) hm (by decide) fun k1 k2 hp => by
    simp only [subOfSub, Bool.and_eq_true, decide_eq_true_eq] at hp
    exact ⟨hp.1.1, hp.2⟩
  obtain ⟨-, h2, hbits⟩ := second_inner hc hq hρ rfl rfl hop hin
  simp only [Rule.reply, subOfSub]
  split_ifs with h
  · rw [means_castOr hq (by rw [hop]; rfl) h2, hop, hbits, h.2]
    simp only [onBits]
    ring
  · trivial

theorem means_xorXor (hm : xorXor.Matches c q) : (xorXor.reply F c q).Means c ρ q := by
  obtain ⟨hop, hin⟩ := first_of_matches (o := .xor) (i := .xor) hm (by decide) fun k1 k2 hp => by
    simp only [xorXor, Bool.and_eq_true, decide_eq_true_eq] at hp
    exact hp.1
  obtain ⟨-, -, hbits⟩ := first_inner hc hq hρ rfl rfl hop hin
  have hcancel : ∀ {w : ℕ} (x y : BitVec w), y = x ^^^ (x ^^^ y) := fun x y => by
    rw [← BitVec.xor_assoc, BitVec.xor_self, BitVec.zero_xor]
  simp only [Rule.reply, xorXor]
  split_ifs with h1 h2
  · rw [means_copy hq (by rw [hop]; rfl), hop, hbits, h1]
    simp only [onBits]
    rw [BitVec.xor_comm, BitVec.xor_comm]
    rw [BitVec.xor_comm _ (bitsOf ρ q q.op2)]
    exact hcancel _ _
  · rw [means_copy hq (by rw [hop]; rfl), hop, hbits, h2]
    simp only [onBits]
    rw [BitVec.xor_comm (bitsOf ρ q (c.insn q.op1).op1), BitVec.xor_comm _ (bitsOf ρ q q.op2)]
    exact hcancel _ _
  · trivial

omit hρ in
/-- The difference of sums, asked for again. -/
theorem means_castBoth (hw : c.WellFormed) (hop : q.op = .sub) {r s : ℤ} (hr : Like c q.type r)
    (hs : Like c q.type s) (hρ : ((castBoth c q r s).ctx c).Models ρ) :
    (castBoth c q r s).Means c ρ q ↔
      bitsOf ρ q r - bitsOf ρ q s = onBits .sub (bitsOf ρ q q.op1) (bitsOf ρ q q.op2) := by
  rw [castBoth_ctx] at hρ
  obtain ⟨W, hW⟩ := exists_weighed hw
  obtain ⟨W₁, he, hv₁, -⟩ := hW.extends_cast (valid_of_isInt hr.int) q.type
  have hc₁ := hc.cast hW hr
  have hg₁ := grown_cast c r q.type
  have hg₂ := grown_cast (c.cast r q.type).1 s q.type
  have hs₁ : Like (c.cast r q.type).1 q.type s := by
    have heq := hg₁.insn (valid_of_isInt hs.int)
    exact ⟨⟨by rw [heq]; exact hs.int, by rw [heq]; exact hs.bits⟩, by rw [heq]; exact hs.bool⟩
  obtain ⟨-, hbits₂⟩ := cast_new he.weighed hc₁ hq.int hs₁ hρ
  obtain ⟨htype, hbits₁⟩ := cast_new hW hc hq.int hr (hρ.of_grown he.weighed hg₂)
  have heq : castBoth c q r s = .again ((c.cast r q.type).1.cast s q.type).1 q (c.cast r q.type).2
      ((c.cast r q.type).1.cast s q.type).2 := rfl
  rw [heq, Reply.again, Reply.Means, Question.value, agree_iff rfl, hq.bits_value (by rw [hop]; rfl)]
  dsimp only
  rw [onBits_result (by rw [hop]; rfl) rfl (by rw [hg₂.insn hv₁]; exact htype.bits), hbits₁, hbits₂, hop]
  exact Iff.rfl

omit hρ in
theorem means_subAddAdd (hw : c.WellFormed) (hm : subAddAdd.Matches c q)
    (hρ : ((subAddAdd.reply F c q).ctx c).Models ρ) : (subAddAdd.reply F c q).Means c ρ q := by
  have hρ' := hρ.reply (by simp [rules, restarting]) hw
  obtain ⟨hop, hin⟩ := first_of_matches (o := .sub) (i := .add) hm (by decide) fun k1 k2 hp => by
    simp only [subAddAdd, Bool.and_eq_true, decide_eq_true_eq] at hp
    exact hp.1
  obtain ⟨-, hin'⟩ := second_of_matches (o := .sub) (i := .add) hm (by decide) fun k1 k2 hp => by
    simp only [subAddAdd, Bool.and_eq_true, decide_eq_true_eq] at hp
    exact ⟨hp.1.1, hp.2⟩
  obtain ⟨h1, h2, hbits⟩ := first_inner hc hq hρ' rfl rfl hop hin
  obtain ⟨h3, h4, hbits'⟩ := second_inner hc hq hρ' rfl rfl hop hin'
  simp only [Rule.reply, subAddAdd] at hρ ⊢
  split_ifs at hρ ⊢ with _ hsame k1 k2 k3 k4
  · rw [means_zero hq (by rw [hop]; rfl), hop, hsame]
    simp only [onBits]
    ring
  · rw [means_castBoth hc hq hw hop h2 h4 hρ, hbits, hbits', k1]
    simp only [onBits]
    ring
  · rw [means_castBoth hc hq hw hop h2 h3 hρ, hbits, hbits', k2]
    simp only [onBits]
    ring
  · rw [means_castBoth hc hq hw hop h1 h4 hρ, hbits, hbits', k3]
    simp only [onBits]
    ring
  · rw [means_castBoth hc hq hw hop h1 h3 hρ, hbits, hbits', k4]
    simp only [onBits]
    ring
  · trivial
  · trivial

end Rules

/-! ## Absorption -/

section Absorption

variable {t u t₁ t₂ u₁ u₂ : IrType} {w : ℕ} {x y : ℤ}

/-- `x op y` is `x`. -/
def Outweighs (op : IrOp) (t : IrType) (x y : ℤ) : Prop := Agree t (result op t t t x y) x

theorem wrap_congr {m n : ℤ} (h : toU (bits t) m = toU (bits t) n) : wrap t m = wrap t n := by
  unfold wrap toI
  unfold toU at h ⊢
  split_ifs
  · rw [Int.add_emod, h, ← Int.add_emod]
  · exact h

theorem wrap_wrap (h : bits u = bits t) (n : ℤ) : wrap t (wrap u n) = wrap t n :=
  wrap_congr (wrap_emod u h.ge n)

theorem agree_iff_wrap (m n : ℤ) : Agree t m n ↔ wrap t m = wrap t n := by
  refine ⟨wrap_congr, fun h => ?_⟩
  have hm := wrap_emod t le_rfl m
  have hn := wrap_emod t le_rfl n
  rw [h] at hm
  exact hm.symm.trans hn

theorem wrap_min (m n : ℤ) : wrap t (min (wrap t m) (wrap t n)) = min (wrap t m) (wrap t n) := by
  rcases le_total (wrap t m) (wrap t n) with h | h
  · rw [min_eq_left h, wrap_wrap rfl]
  · rw [min_eq_right h, wrap_wrap rfl]

theorem wrap_max (m n : ℤ) : wrap t (max (wrap t m) (wrap t n)) = max (wrap t m) (wrap t n) := by
  rcases le_total (wrap t m) (wrap t n) with h | h
  · rw [max_eq_right h, wrap_wrap rfl]
  · rw [max_eq_left h, wrap_wrap rfl]

theorem outweighs_min : Outweighs .min t x y ↔ wrap t x ≤ wrap t y := by
  have heq : result .min t t t x y = min (wrap t x) (wrap t y) := rfl
  unfold Outweighs
  rw [agree_iff_wrap, heq, wrap_min]
  exact min_eq_left_iff

theorem outweighs_max : Outweighs .max t x y ↔ wrap t y ≤ wrap t x := by
  have heq : result .max t t t x y = max (wrap t x) (wrap t y) := rfl
  unfold Outweighs
  rw [agree_iff_wrap, heq, wrap_max]
  exact max_eq_left_iff

theorem outweighs_and (ht : bits t = w) :
    Outweighs .and t x y ↔ BitVec.ofInt w x &&& BitVec.ofInt w y = BitVec.ofInt w x := by
  unfold Outweighs
  rw [agree_iff ht, bits_and ht ht]

theorem outweighs_or (ht : bits t = w) :
    Outweighs .or t x y ↔ BitVec.ofInt w x ||| BitVec.ofInt w y = BitVec.ofInt w x := by
  unfold Outweighs
  rw [agree_iff ht, bits_or ht ht]

/-- The opcodes of `absorb`. -/
def isLattice (o : IrOp) : Bool := o = .and || o = .or || o = .min || o = .max

theorem isLattice_cases {o : IrOp} (h : isLattice o = true) :
    o = .and ∨ o = .or ∨ o = .min ∨ o = .max := by
  simpa [isLattice, or_assoc] using h

theorem accepts_of_isLattice {o : IrOp} (h : isLattice o = true) (ha : Accepts o t t₁ t₂) :
    Compat t t₁ ∧ Compat t t₂ := by
  rcases isLattice_cases h with rfl | rfl | rfl | rfl <;> exact ha

/-- `op(op(a, b), x)` for `x` one of the two: it is `x` if `x` outweighs the other. -/
theorem agree_absorb {o : IrOp} (ho : isLattice o = true) (h₁ : bits t₁ = bits t)
    (k₁ : bits u₁ = bits t) {a b : ℤ} (hab : a = x ∧ b = y ∨ a = y ∧ b = x) :
    Agree t x (result o t t₁ t₂ (result o t₁ u₁ u₂ a b) x) ↔
      Outweighs o t₁ x y ∨ Outweighs o t x y := by
  rcases isLattice_cases ho with rfl | rfl | rfl | rfl
  · rw [outweighs_and h₁, outweighs_and rfl, or_self, agree_iff rfl, bits_and rfl h₁, bits_and h₁ k₁]
    rcases hab with ⟨rfl, rfl⟩ | ⟨rfl, rfl⟩
    · rw [BitVec.and_comm, ← BitVec.and_assoc, BitVec.and_self, eq_comm]
    · rw [BitVec.and_assoc, BitVec.and_self, BitVec.and_comm, eq_comm]
  · rw [outweighs_or h₁, outweighs_or rfl, or_self, agree_iff rfl, bits_or rfl h₁, bits_or h₁ k₁]
    rcases hab with ⟨rfl, rfl⟩ | ⟨rfl, rfl⟩
    · rw [BitVec.or_comm, ← BitVec.or_assoc, BitVec.or_self, eq_comm]
    · rw [BitVec.or_assoc, BitVec.or_self, BitVec.or_comm, eq_comm]
  · have heq : result .min t t₁ t₂ (result .min t₁ u₁ u₂ a b) x =
        min (wrap t (min (wrap t₁ x) (wrap t₁ y))) (wrap t x) := by
      rcases hab with ⟨ha, hb⟩ | ⟨ha, hb⟩ <;> rw [ha, hb]
      · rfl
      · rw [min_comm (wrap t₁ x)]
        rfl
    rw [outweighs_min, outweighs_min, agree_iff_wrap, heq, wrap_min, eq_comm, min_eq_right_iff]
    rcases le_total (wrap t₁ x) (wrap t₁ y) with h | h
    · rw [min_eq_left h, wrap_wrap h₁]
      exact iff_of_true le_rfl (Or.inl h)
    · rw [min_eq_right h, wrap_wrap h₁]
      refine ⟨Or.inr, fun hor => hor.elim (fun h' => ?_) id⟩
      rw [← wrap_wrap h₁ x, ← wrap_wrap h₁ y, le_antisymm h' h]
  · have heq : result .max t t₁ t₂ (result .max t₁ u₁ u₂ a b) x =
        max (wrap t (max (wrap t₁ x) (wrap t₁ y))) (wrap t x) := by
      rcases hab with ⟨ha, hb⟩ | ⟨ha, hb⟩ <;> rw [ha, hb]
      · rfl
      · rw [max_comm (wrap t₁ x)]
        rfl
    rw [outweighs_max, outweighs_max, agree_iff_wrap, heq, wrap_max, eq_comm, max_eq_right_iff]
    rcases le_total (wrap t₁ x) (wrap t₁ y) with h | h
    · rw [max_eq_right h, wrap_wrap h₁]
      refine ⟨Or.inr, fun hor => hor.elim (fun h' => ?_) id⟩
      rw [← wrap_wrap h₁ x, ← wrap_wrap h₁ y, le_antisymm h h']
    · rw [max_eq_left h, wrap_wrap h₁]
      exact iff_of_true le_rfl (Or.inl h)

/-- `op(x, x)` is `x`. -/
theorem agree_idem {o : IrOp} (ho : isLattice o = true) (h₁ : bits t₁ = bits t) (x : ℤ) :
    Agree t x (result o t t₁ t₂ x x) := by
  rcases isLattice_cases ho with rfl | rfl | rfl | rfl
  · rw [agree_iff rfl, bits_and rfl h₁, BitVec.and_self]
  · rw [agree_iff rfl, bits_or rfl h₁, BitVec.or_self]
  · have heq : result .min t t₁ t₂ x x = min (wrap t x) (wrap t x) := rfl
    rw [agree_iff_wrap, heq, min_self, wrap_wrap rfl]
  · have heq : result .max t t₁ t₂ x x = max (wrap t x) (wrap t x) := rfl
    rw [agree_iff_wrap, heq, max_self, wrap_wrap rfl]

end Absorption

section Lattice

variable {F : FloatOps} {c : Ctx} {ρ : ℤ → ℤ} {q : Question} {r : Rule}

/-- `op(op(a, b), c)` where `c` is `a` or `b`. -/
structure Absorbed (c : Ctx) (q : Question) : Prop where
  op : isLattice q.op = true
  inner : (c.insn q.op1).op = q.op
  operand : (c.insn q.op1).op1 = q.op2 ∨ (c.insn q.op1).op2 = q.op2

/-- The operand that is not repeated. -/
def otherOperand (c : Ctx) (q : Question) : ℤ :=
  if (c.insn q.op1).op1 = q.op2 then (c.insn q.op1).op2 else (c.insn q.op1).op1

/-- The repeated operand is the value of the inner instruction, or of the outer one. -/
def Prevails (c : Ctx) (ρ : ℤ → ℤ) (q : Question) : Prop :=
  Outweighs q.op (c.insn q.op1).type (ρ q.op2) (ρ (otherOperand c q)) ∨
    Outweighs q.op q.type (ρ q.op2) (ρ (otherOperand c q))

theorem absorb_of_matches (hm : absorb.Matches c q) :
    isLattice q.op = true ∧ (c.insn q.op1).op = q.op := by
  obtain ⟨k1, k2, hk1, -, hp⟩ := hm
  simp only [absorb, Bool.and_eq_true, Bool.or_eq_true, decide_eq_true_eq] at hp
  obtain ⟨⟨hop, rfl⟩, -⟩ := hp
  refine ⟨by simpa [isLattice] using hop, hk1.eq ?_⟩
  rcases hop with ((h | h) | h) | h <;> rw [h] <;> decide

theorem computes_of_isLattice {o : IrOp} (h : isLattice o = true) :
    computes o = true ∧ o.inputEdges = 2 := by
  rcases isLattice_cases h with rfl | rfl | rfl | rfl <;> exact ⟨rfl, rfl⟩

theorem means_absorb_iff (hc : c.Typed) (hq : q.Typed c) (hρ : c.Models ρ) (hm : absorb.Matches c q) :
    (absorb.reply F c q).Means c ρ q ↔ (Absorbed c q → Prevails c ρ q) := by
  obtain ⟨hop, hin⟩ := absorb_of_matches hm
  obtain ⟨k1, k2⟩ := accepts_of_isLattice hop hq.accepts
  simp only [Rule.reply, absorb]
  by_cases h : (c.insn q.op1).op1 = q.op2 ∨ (c.insn q.op1).op2 = q.op2
  · rw [if_pos h, forall_prop_of_true ⟨hop, hin, h⟩]
    have hcomp := computes_of_isLattice (o := (c.insn q.op1).op) (by rw [hin]; exact hop)
    obtain ⟨l1, l2⟩ := accepts_of_isLattice (by rw [hin]; exact hop) (hc.insns q.op1 hcomp.1)
    have hint := k1.isInt hq.int
    have hnode := hρ.node q.op1 hcomp.1 hint ⟨l1.isInt hint, fun _ => l2.isInt hint⟩
    have hab : ρ (c.insn q.op1).op1 = ρ q.op2 ∧ ρ (c.insn q.op1).op2 = ρ (otherOperand c q) ∨
        ρ (c.insn q.op1).op1 = ρ (otherOperand c q) ∧ ρ (c.insn q.op1).op2 = ρ q.op2 := by
      unfold otherOperand
      by_cases h1 : (c.insn q.op1).op1 = q.op2
      · rw [if_pos h1]
        exact Or.inl ⟨by rw [h1], rfl⟩
      · rw [if_neg h1]
        exact Or.inr ⟨rfl, by rw [h.resolve_left h1]⟩
    rw [Reply.Means, Question.value, hnode, hin]
    exact agree_absorb hop k1.bits_eq.symm (l1.bits_eq.symm.trans k1.bits_eq.symm) hab
  · rw [if_neg h]
    exact iff_of_true trivial fun ha => absurd ha.operand h

end Lattice

/-! ## Equal operands -/

section Same

variable {F : FloatOps} {c : Ctx} {ρ : ℤ → ℤ} {q : Question} {r : Rule} (hc : c.Typed)
  (hq : q.Typed c) (hρ : c.Models ρ) (hsame : q.op1 = q.op2)

include hq hsame

theorem means_idempotent (hm : idempotent.Matches c q) : (idempotent.reply F c q).Means c ρ q := by
  obtain ⟨k1, k2, -, -, hp⟩ := hm
  simp only [idempotent, Bool.and_eq_true, Bool.or_eq_true, decide_eq_true_eq] at hp
  have hop : isLattice q.op = true := by simpa [isLattice] using hp.1.1
  have hreply : idempotent.reply F c q = .copy q.op1 := if_pos hsame
  rw [hreply, Reply.Means, Question.value, ← hsame]
  exact agree_idem hop (accepts_of_isLattice hop hq.accepts).1.bits_eq.symm _

theorem means_xorAny (hm : xorAny.Matches c q) : (xorAny.reply F c q).Means c ρ q := by
  obtain ⟨k1, k2, -, -, hp⟩ := hm
  simp only [xorAny, Bool.and_eq_true, decide_eq_true_eq] at hp
  have hreply : xorAny.reply F c q = .const 0 := if_pos hsame
  rw [hreply, means_zero hq (by rw [hp.1.1]; rfl), hp.1.1, hsame]
  exact BitVec.xor_self.symm

theorem means_subAny (hm : subAny.Matches c q) : (subAny.reply F c q).Means c ρ q := by
  obtain ⟨k1, k2, -, -, hp⟩ := hm
  simp only [subAny, Bool.and_eq_true, decide_eq_true_eq] at hp
  have hreply : subAny.reply F c q = .const 0 := if_pos ⟨hq.int.1, hsame⟩
  rw [hreply, means_zero hq (by rw [hp.1.1]; rfl), hp.1.1, hsame]
  exact (BitVec.sub_self _).symm

omit hq in
theorem means_subOvAny (hm : subOvAny.Matches c q) : (subOvAny.reply F c q).Means c ρ q := by
  obtain ⟨k1, k2, -, -, hp⟩ := hm
  simp only [subOvAny, Bool.and_eq_true, decide_eq_true_eq] at hp
  have hreply : subOvAny.reply F c q = .const 0 := if_pos hsame
  have hvalue : q.value c ρ = wrap q.type (ρ q.op2 - ρ q.op2) := by
    unfold Question.value
    rw [hp.1.1, hsame]
    rfl
  rw [hreply, Reply.Means, hvalue, sub_self, agree_iff rfl, ofInt_constValue_zero, ofInt_wrap rfl]
  exact (BitVec.ofInt_natCast _ 0).symm

end Same

/-! ## Comparisons -/

section Compare

variable {F : FloatOps} {c : Ctx} {ρ : ℤ → ℤ} {q : Question} {r : Rule}

theorem Ctx.Models.isTrue (hw : c.WellFormed) (hc : c.Typed) (hρ : c.Models ρ) : ρ irTrue = 1 := by
  have hop := hw.builtin.2.2
  rw [hρ.number irTrue (by decide) (by rw [hop]; rfl) (by rw [hc.isTrue.1]; decide), hc.isTrue.1, hc.isTrue.2]
  decide

theorem Ctx.Models.isFalse (hw : c.WellFormed) (hc : c.Typed) (hρ : c.Models ρ) : ρ irFalse = 0 := by
  have hop := hw.builtin.2.1
  rw [hρ.number irFalse (by decide) (by rw [hop]; rfl) (by rw [hc.isFalse.1]; decide), hc.isFalse.1,
    hc.isFalse.2]
  decide

/-- A boolean that the engine answers. -/
theorem means_bool (hw : c.WellFormed) (hc : c.Typed) (hρ : c.Models ρ) (b : Bool) :
    (Reply.bool b).Means c ρ q ↔ Agree q.type (if b then 1 else 0) (q.value c ρ) := by
  unfold Reply.bool
  cases b
  · rw [if_neg Bool.false_ne_true, if_neg Bool.false_ne_true, Reply.Means, hρ.isFalse hw hc]
  · rw [if_pos rfl, if_pos rfl, Reply.Means, hρ.isTrue hw hc]

/-- What a comparison says of equal operands. -/
def ofEqual (o : IrOp) : Bool := o = .eq || o = .ge || o = .le || o = .uge || o = .ule

theorem result_cmp_self {o : IrOp} (ho : isCmp o = true) {t t₁ t₂ : IrType} {x : ℤ} (h₁ : IsInt t₁)
    (hx : InRange t₁ x) : result o t t₁ t₂ x x = if ofEqual o then 1 else 0 := by
  have hself := wrap_eq_self h₁ hx
  cases o <;> try exact absurd ho (by decide)
  all_goals
    simp only [result, hself]
    simp [spec, ofEqual]

variable (hw : c.WellFormed) (hc : c.Typed) (hρ : c.Models ρ) (hsame : q.op1 = q.op2)
  (hint : IsInt (c.insn q.op1).type)

include hw hc hρ hsame hint

/-- The answer to a comparison of equal operands. -/
theorem means_cmp_self (ho : isCmp q.op = true) : (Reply.bool (ofEqual q.op)).Means c ρ q := by
  rw [means_bool hw hc hρ, Question.value, ← hsame, result_cmp_self ho hint (hρ.range _ hint)]
  exact Agree.refl _ _

theorem means_eqAny (hm : eqAny.Matches c q) : (eqAny.reply F c q).Means c ρ q := by
  obtain ⟨k1, k2, -, -, hp⟩ := hm
  simp only [eqAny, Bool.and_eq_true, Bool.or_eq_true, decide_eq_true_eq] at hp
  have hreply : eqAny.reply F c q = .bool (q.op = .eq) := by
    simp only [Rule.reply, eqAny]
    rw [if_neg (not_not_intro hsame), if_pos hint.1]
  have heq : (decide (q.op = .eq)) = ofEqual q.op := by
    rcases hp.1.1 with h | h <;> rw [h] <;> rfl
  rw [hreply, heq]
  exact means_cmp_self hw hc hρ hsame hint (by rcases hp.1.1 with h | h <;> rw [h] <;> rfl)

theorem means_orderAny (hm : orderAny.Matches c q) : (orderAny.reply F c q).Means c ρ q := by
  obtain ⟨k1, k2, -, -, hp⟩ := hm
  simp only [orderAny, Bool.and_eq_true, Bool.or_eq_true, decide_eq_true_eq] at hp
  have hreply : orderAny.reply F c q = .bool (holdsOfEqual q.op) := by
    simp only [Rule.reply, orderAny]
    rw [if_pos hsame, if_pos hint.1]
  have heq : holdsOfEqual q.op = ofEqual q.op := by
    rcases hp.1.1 with ((h | h) | h) | h <;> rw [h] <;> rfl
  rw [hreply, heq]
  exact means_cmp_self hw hc hρ hsame hint
    (by rcases hp.1.1 with ((h | h) | h) | h <;> rw [h] <;> rfl)

theorem means_unsignedOrderAny (hm : unsignedOrderAny.Matches c q) :
    (unsignedOrderAny.reply F c q).Means c ρ q := by
  obtain ⟨k1, k2, -, -, hp⟩ := hm
  simp only [unsignedOrderAny, Bool.and_eq_true, Bool.or_eq_true, decide_eq_true_eq] at hp
  have hreply : unsignedOrderAny.reply F c q = .bool (holdsOfEqual q.op) := if_pos hsame
  have heq : holdsOfEqual q.op = ofEqual q.op := by
    rcases hp.1.1 with ((h | h) | h) | h <;> rw [h] <;> rfl
  rw [hreply, heq]
  exact means_cmp_self hw hc hρ hsame hint
    (by rcases hp.1.1 with ((h | h) | h) | h <;> rw [h] <;> rfl)

end Compare

/-! ## All of them -/

/-- The rules for an operand that occurs twice. -/
def cancellation : List Rule :=
  [absorb, xorXor, subThenAdd, addOfSub, addThenSub, subOfAdd, subThenSub, subOfSub, subAddAdd]

/-- The rules that see equal operands. -/
def sameOperands : List Rule :=
  [idempotent, xorAny, subAny, subOvAny, eqAny, orderAny, unsignedOrderAny]

section All

variable {F : FloatOps} {c : Ctx} {ρ : ℤ → ℤ} {q : Question} {r : Rule}

theorem mem_rules_of_cancellation (h : r ∈ cancellation ∨ r ∈ sameOperands) : r ∈ rules := by
  simp only [cancellation, sameOperands, List.mem_cons, List.not_mem_nil, or_false] at h
  rcases h with (rfl | rfl | rfl | rfl | rfl | rfl | rfl | rfl | rfl) |
    (rfl | rfl | rfl | rfl | rfl | rfl | rfl) <;> simp [rules, restarting, answering]

/-- No instruction is its own operand. -/
theorem not_absorbed_of_same (hw : c.WellFormed) (hsame : q.op1 = q.op2) : ¬Absorbed c q := by
  intro h
  obtain ⟨rank, hrank⟩ := hw.acyclic
  have hop : isLattice (c.insn q.op1).op = true := by
    rw [h.inner]
    exact h.op
  obtain ⟨hcomp, hedges⟩ := computes_of_isLattice hop
  have hdata := isDataOp_of_computes hcomp
  have hpos := pos_of_isDataOp hw.nop (fun i hi => isDataOp_of_isConstant (hw.consts i hi)) hdata
  have hlt : ∀ o, o = q.op1 → o ∈ (c.insn q.op1).operands → False := by
    rintro o rfl ho
    have := (hrank q.op1 hdata q.op1 ho).2 hpos.1
    omega
  rcases h.operand with ho | ho
  · exact hlt _ (ho.trans hsame.symm) (by simp [Insn.operands, hedges])
  · exact hlt _ (ho.trans hsame.symm) (by simp [Insn.operands, hedges])

theorem eq_absorb_or (hr : r ∈ cancellation) (hm : r.Matches c q) :
    r = absorb ∨ isLattice q.op = false := by
  obtain ⟨k1, k2, -, -, hp⟩ := hm
  simp only [cancellation, List.mem_cons, List.not_mem_nil, or_false] at hr
  rcases hr with rfl | rfl | rfl | rfl | rfl | rfl | rfl | rfl | rfl
  · exact Or.inl rfl
  all_goals
    simp only [xorXor, subThenAdd, addOfSub, addThenSub, subOfAdd, subThenSub, subOfSub, subAddAdd,
      Bool.and_eq_true, decide_eq_true_eq] at hp
    rw [hp.1.1]
    exact Or.inr rfl

end All

/-- Parameters `x` and `y`, and `x & y`. -/
def absorbCtx : Ctx where
  consts := [⟨.cAddr, .addr, 0, 0, 0, 0⟩, ⟨.cBool, .bool, 0, 0, 0, 0⟩, ⟨.cBool, .bool, 0, 0, 0, 1⟩]
  insns := [⟨.nop, .void, 0, 0, 0, 0⟩, ⟨.start, .void, 0, 0, 0, 0⟩, ⟨.param, .i8, 1, 0, 0, 0⟩,
    ⟨.param, .i8, 1, 0, 0, 0⟩, ⟨.and, .i8, 2, 3, 0, 0⟩]
  useLists := none

/-- The run with `x = 1` and `y = 2`. -/
def absorbRun (r : ℤ) : ℤ :=
  match r with
  | -3 => 1
  | 2 => 1
  | 3 => 2
  | _ => 0

/-- `(x & y) & x`. -/
def absorbQuestion : Question := ⟨.and, .i8, 4, 2, 0⟩

end IrJit.Fold
