import IrJit.Fold.Meaning

/-!
# Fold.Reassociate — sums, products and bitwise operations with two constants (`ir_fold.h`, 3211–3551)

Bits of one width are a ring, so that a rule of the group is right if an identity of that ring is.  All
of them are but one: `c1 - (c2 - x)` is asked again as `x - (c1 - c2)`, or as `x * (c2 - c1)` when the
difference is negative.
-/

namespace IrJit.Fold

/-! ## Operands as bits -/

/-- The operation of an opcode on bits. -/
def onBits (o : IrOp) {w : ℕ} (x y : BitVec w) : BitVec w :=
  match o with
  | .add => x + y
  | .sub => x - y
  | .mul => x * y
  | .and => x &&& y
  | .or => x ||| y
  | .xor => x ^^^ y
  | _ => 0

/-- The opcodes of the group. -/
def isRing (o : IrOp) : Bool :=
  o = .add || o = .sub || o = .mul || o = .and || o = .or || o = .xor

theorem isRing_cases {o : IrOp} (h : isRing o = true) :
    o = .add ∨ o = .sub ∨ o = .mul ∨ o = .and ∨ o = .or ∨ o = .xor := by
  simpa [isRing, or_assoc] using h

theorem computes_of_isRing {o : IrOp} (h : isRing o = true) :
    computes o = true ∧ o.inputEdges = 2 := by
  rcases isRing_cases h with rfl | rfl | rfl | rfl | rfl | rfl <;> exact ⟨rfl, rfl⟩

theorem accepts_of_isRing {o : IrOp} (h : isRing o = true) {t t₁ t₂ : IrType}
    (ha : Accepts o t t₁ t₂) : Compat t t₁ ∧ Compat t t₂ := by
  rcases isRing_cases h with rfl | rfl | rfl | rfl | rfl | rfl <;> exact ha

theorem onBits_result {o : IrOp} (h : isRing o = true) {t t₁ t₂ : IrType} {w : ℕ} (ht : bits t = w)
    (h₁ : bits t₁ = w) (x y : ℤ) :
    BitVec.ofInt w (result o t t₁ t₂ x y) = onBits o (BitVec.ofInt w x) (BitVec.ofInt w y) := by
  rcases isRing_cases h with rfl | rfl | rfl | rfl | rfl | rfl
  · rw [onBits]
    exact bits_add ht x y
  · exact bits_sub ht x y
  · exact bits_mul ht x y
  · exact bits_and ht h₁ x y
  · exact bits_or ht h₁ x y
  · exact bits_xor ht h₁ x y

section Operands

variable {c : Ctx} {ρ : ℤ → ℤ} {q : Question} {w : ℕ} {r : ℤ} {o : IrOp}

/-- A reference to integers of `w` bits. -/
structure HasBits (c : Ctx) (w : ℕ) (r : ℤ) : Prop where
  int : IsInt (c.insn r).type
  bits : bits (c.insn r).type = w

theorem Question.Typed.operands (hq : q.Typed c) (h : isRing q.op = true) :
    HasBits c (bits q.type) q.op1 ∧ HasBits c (bits q.type) q.op2 := by
  obtain ⟨h1, h2⟩ := accepts_of_isRing h hq.accepts
  exact ⟨⟨h1.isInt hq.int, h1.bits_eq.symm⟩, ⟨h2.isInt hq.int, h2.bits_eq.symm⟩⟩

theorem HasBits.operands (hr : HasBits c w r) (hc : c.Typed) (h : isRing (c.insn r).op = true) :
    HasBits c w (c.insn r).op1 ∧ HasBits c w (c.insn r).op2 := by
  obtain ⟨h1, h2⟩ := accepts_of_isRing h (hc.insns r (computes_of_isRing h).1)
  exact ⟨⟨h1.isInt hr.int, h1.bits_eq ▸ hr.bits⟩, ⟨h2.isInt hr.int, h2.bits_eq ▸ hr.bits⟩⟩

/-- The bits of an instruction. -/
theorem HasBits.node (hr : HasBits c w r) (hc : c.Typed) (hρ : c.Models ρ)
    (h : isRing (c.insn r).op = true) : BitVec.ofInt w (ρ r) =
      onBits (c.insn r).op (BitVec.ofInt w (ρ (c.insn r).op1)) (BitVec.ofInt w (ρ (c.insn r).op2)) := by
  obtain ⟨h1, h2⟩ := hr.operands hc h
  rw [hρ.node r (computes_of_isRing h).1 hr.int ⟨h1.int, fun _ => h2.int⟩]
  exact onBits_result h hr.bits h1.bits _ _

/-- The bits of the question. -/
theorem Question.Typed.bits_value (hq : q.Typed c) (h : isRing q.op = true) :
    BitVec.ofInt (bits q.type) (q.value c ρ) = onBits q.op (BitVec.ofInt _ (ρ q.op1))
      (BitVec.ofInt _ (ρ q.op2)) :=
  onBits_result h rfl (hq.operands h).1.bits _ _

/-- The bits of a number. -/
theorem HasBits.number (hr : HasBits c w r) (hρ : c.Models ρ) (hn : c.isNumber r = true) :
    BitVec.ofInt w (ρ r) = (c.insn r).val.setWidth w := by
  simp only [Ctx.isNumber, Bool.and_eq_true, decide_eq_true_eq, Bool.not_eq_true'] at hn
  rw [hρ.number r hn.1 hn.2 hr.int]
  exact ofInt_valueOf hr.bits _

/-- An instruction with the opcode of a constant is one of the table. -/
theorem mem_consts (hw : c.WellFormed) (h : (c.insn r).op.isConstOp = true) :
    r < 0 ∧ c.insn r ∈ c.consts := by
  have hneg : r < 0 := by
    by_contra h0
    rw [insn_of_nonneg (by omega)] at h
    rcases getD_cases c.insns r.toNat default with hm | hm
    · have hi := hw.insns _ hm
      unfold isConstant at hi
      rw [h] at hi
      cases hi
    · rw [hm] at h
      cases h
  refine ⟨hneg, ?_⟩
  rw [insn_of_neg hneg] at h ⊢
  rcases getD_cases c.consts (-r - 1).toNat default with hm | hm
  · exact hm
  · rw [hm] at h
    cases h

/-- An integer constant is no symbol, and not boolean. -/
theorem number_of_isUIA (hw : c.WellFormed) (hc : c.Typed) (h : isUIA (c.insn r).op = true) :
    r < 0 ∧ c.isNumber r = true ∧ (c.insn r).type ≠ .bool ∧ IsInt (c.insn r).type := by
  have hconst : (c.insn r).op.isConstOp = true ∧ (c.insn r).op.isSymConst = false := by
    generalize (c.insn r).op = o at h
    cases o <;> first | exact ⟨rfl, rfl⟩ | exact absurd h (by decide)
  obtain ⟨hneg, hmem⟩ := mem_consts hw hconst.1
  have hop := hc.consts _ hmem hconst.1
  refine ⟨hneg, ?_, ?_, ?_⟩
  · unfold Ctx.isNumber
    rw [hconst.2]
    simp [hneg]
  · intro hb
    rw [hop, hb] at h
    cases h
  · rw [hop] at h
    generalize (c.insn r).type = t at h
    cases t <;> first | exact ⟨rfl, by decide⟩ | exact absurd h (by decide)

/-! ## Replies with a constant -/

section Replies

variable {op : IrOp} {v : Val} {t : IrType} (hw : c.WellFormed) (hc : c.Typed) (hq : q.Typed c)
  (hop : isRing q.op = true) (ho : isRing op = true) (hbits : bits t = bits q.type) (ht : IsInt t)
  (hb : t ≠ .bool) (hr : HasBits c (bits q.type) r) (hρ : (c.const v t).1.Models ρ)

include hw hc hq hop ho hbits ht hb hρ

theorem means_constWith : (Reply.constWith c q op v t r).Means c ρ q ↔
    onBits op (v.setWidth (bits q.type)) (BitVec.ofInt (bits q.type) (ρ r)) =
      onBits q.op (BitVec.ofInt _ (ρ q.op1)) (BitVec.ofInt _ (ρ q.op2)) := by
  have hnew := hρ.new hw hc ht
  have heq : Reply.constWith c q op v t r =
      .restart (c.const v t).1 { q with op := op, op1 := (c.const v t).2, op2 := r } := rfl
  rw [heq, Reply.Means, Question.value, agree_iff rfl]
  dsimp only
  rw [onBits_result ho rfl (by rw [(const_new hc v t).1]; exact hbits), hnew]
  unfold constValue
  rw [if_neg hb, ofInt_valueOf hbits, hq.bits_value hop]

include hr

theorem means_withConst : (Reply.withConst c q op r v t).Means c ρ q ↔
    onBits op (BitVec.ofInt (bits q.type) (ρ r)) (v.setWidth (bits q.type)) =
      onBits q.op (BitVec.ofInt _ (ρ q.op1)) (BitVec.ofInt _ (ρ q.op2)) := by
  have hnew := hρ.new hw hc ht
  have hg := (grown_const c v t).insn (valid_of_isInt hr.int)
  have heq : Reply.withConst c q op r v t =
      .restart (c.const v t).1 { q with op := op, op1 := r, op2 := (c.const v t).2 } := rfl
  rw [heq, Reply.Means, Question.value, agree_iff rfl]
  dsimp only
  rw [onBits_result ho rfl (by rw [hg]; exact hr.bits), hnew]
  unfold constValue
  rw [if_neg hb, ofInt_valueOf hbits, hq.bits_value hop]

end Replies

end Operands

/-! ## Questions with two constants -/

section Two

variable {c : Ctx} {ρ : ℤ → ℤ} {q : Question} {op o o' : IrOp} {v : Val}

theorem Compat.bool_iff {t u : IrType} (h : Compat t u) : t = .bool ↔ u = .bool := by
  rcases h with rfl | ⟨rfl, rfl | rfl⟩ | ⟨rfl, rfl | rfl⟩ <;> simp

/-- What the rules of the group know about their question. -/
structure Pair (c : Ctx) (q : Question) (o : IrOp) : Prop where
  wf : c.WellFormed
  typed : c.Typed
  question : q.Typed c
  op : q.op = o
  ring : isRing o = true

/-- The inner instruction is the first operand, the other one is a constant. -/
structure Pair.Left (c : Ctx) (q : Question) (o o' : IrOp) : Prop extends Pair c q o where
  inner : (c.insn q.op1).op = o'
  innerRing : isRing o' = true
  const : isUIA (c.insn q.op2).op = true

/-- The inner instruction is the second operand. -/
structure Pair.Right (c : Ctx) (q : Question) (o o' : IrOp) : Prop extends Pair c q o where
  inner : (c.insn q.op2).op = o'
  innerRing : isRing o' = true
  const : isUIA (c.insn q.op1).op = true

theorem Pair.operands (h : Pair c q o) :
    HasBits c (bits q.type) q.op1 ∧ HasBits c (bits q.type) q.op2 :=
  h.question.operands (by rw [h.op]; exact h.ring)

/-- The references inside, and the type of the constants. -/
theorem Pair.Left.facts (h : Pair.Left c q o o') :
    HasBits c (bits q.type) (c.insn q.op1).op1 ∧ HasBits c (bits q.type) (c.insn q.op1).op2 ∧
      c.isNumber q.op2 = true ∧ (c.insn q.op2).type ≠ .bool := by
  obtain ⟨h1, h2⟩ := h.operands
  obtain ⟨h3, h4⟩ := h1.operands h.typed (by rw [h.inner]; exact h.innerRing)
  obtain ⟨-, hn, hb, -⟩ := number_of_isUIA h.wf h.typed h.const
  exact ⟨h3, h4, hn, hb⟩

theorem Pair.Right.facts (h : Pair.Right c q o o') :
    HasBits c (bits q.type) (c.insn q.op2).op1 ∧ HasBits c (bits q.type) (c.insn q.op2).op2 ∧
      c.isNumber q.op1 = true ∧ (c.insn q.op1).type ≠ .bool ∧ (c.insn q.op2).type ≠ .bool := by
  obtain ⟨h1, h2⟩ := h.operands
  obtain ⟨h3, h4⟩ := h2.operands h.typed (by rw [h.inner]; exact h.innerRing)
  obtain ⟨-, hn, hb, -⟩ := number_of_isUIA h.wf h.typed h.const
  have hacc := accepts_of_isRing (by rw [h.op]; exact h.ring) h.question.accepts
  exact ⟨h3, h4, hn, hb, fun hb2 => hb (hacc.1.bool_iff.1 (hacc.2.bool_iff.2 hb2))⟩

/-- The bits of an operand in a question. -/
abbrev bitsOf (ρ : ℤ → ℤ) (q : Question) (r : ℤ) : BitVec (bits q.type) := BitVec.ofInt _ (ρ r)

/-- The bits of a number in a question. -/
abbrev numberOf (c : Ctx) (q : Question) (r : ℤ) : BitVec (bits q.type) := (c.insn r).val.setWidth _

section Left

variable (h : Pair.Left c q o o') (ho : isRing op = true)
  (hρ : (c.const v (c.insn q.op2).type).1.Models ρ)

include h ho hρ

/-- `(x o' c1) o c2` becomes `x op v`. -/
theorem means_left (hn : c.isNumber (c.insn q.op1).op2 = true) :
    (Reply.withConst c q op (c.insn q.op1).op1 v (c.insn q.op2).type).Means c ρ q ↔
      onBits op (bitsOf ρ q (c.insn q.op1).op1) (v.setWidth _) =
        onBits o (onBits o' (bitsOf ρ q (c.insn q.op1).op1) (numberOf c q (c.insn q.op1).op2))
          (numberOf c q q.op2) := by
  obtain ⟨h1, h2⟩ := h.operands
  obtain ⟨h3, h4, hn2, hb2⟩ := h.facts
  have hc0 := hρ.mono h.wf (grown_const c _ _)
  rw [means_withConst h.wf h.typed h.question (by rw [h.op]; exact h.ring) ho h2.bits h2.int hb2 h3 hρ,
    h1.node h.typed hc0 (by rw [h.inner]; exact h.innerRing), h4.number hc0 hn, h2.number hc0 hn2,
    h.inner, h.op]

/-- `(c1 o' x) o c2` becomes `v op x`. -/
theorem means_left_const (hn : c.isNumber (c.insn q.op1).op1 = true) :
    (Reply.constWith c q op v (c.insn q.op2).type (c.insn q.op1).op2).Means c ρ q ↔
      onBits op (v.setWidth _) (bitsOf ρ q (c.insn q.op1).op2) =
        onBits o (onBits o' (numberOf c q (c.insn q.op1).op1) (bitsOf ρ q (c.insn q.op1).op2))
          (numberOf c q q.op2) := by
  obtain ⟨h1, h2⟩ := h.operands
  obtain ⟨h3, h4, hn2, hb2⟩ := h.facts
  have hc0 := hρ.mono h.wf (grown_const c _ _)
  rw [means_constWith h.wf h.typed h.question (by rw [h.op]; exact h.ring) ho h2.bits h2.int hb2 hρ,
    h1.node h.typed hc0 (by rw [h.inner]; exact h.innerRing), h3.number hc0 hn, h2.number hc0 hn2,
    h.inner, h.op]

end Left

section Right

variable (h : Pair.Right c q o o') (ho : isRing op = true)

include h ho

/-- `c1 o (x o' c2)` becomes `v op x`. -/
theorem means_right {r : ℤ} (hr : r = q.op1 ∨ r = q.op2)
    (hρ : (c.const v (c.insn r).type).1.Models ρ) (hn : c.isNumber (c.insn q.op2).op2 = true) :
    (Reply.constWith c q op v (c.insn r).type (c.insn q.op2).op1).Means c ρ q ↔
      onBits op (v.setWidth _) (bitsOf ρ q (c.insn q.op2).op1) =
        onBits o (numberOf c q q.op1)
          (onBits o' (bitsOf ρ q (c.insn q.op2).op1) (numberOf c q (c.insn q.op2).op2)) := by
  obtain ⟨h1, h2⟩ := h.operands
  obtain ⟨h3, h4, hn1, hb1, hb2⟩ := h.facts
  have hc0 := hρ.mono h.wf (grown_const c _ _)
  have hr' : HasBits c (bits q.type) r ∧ (c.insn r).type ≠ .bool := by
    rcases hr with rfl | rfl
    · exact ⟨h1, hb1⟩
    · exact ⟨h2, hb2⟩
  rw [means_constWith h.wf h.typed h.question (by rw [h.op]; exact h.ring) ho hr'.1.bits hr'.1.int hr'.2 hρ,
    h2.node h.typed hc0 (by rw [h.inner]; exact h.innerRing), h4.number hc0 hn, h1.number hc0 hn1,
    h.inner, h.op]

/-- `c1 o (c2 o' x)` becomes `x op v`. -/
theorem means_right_const (hρ : (c.const v (c.insn q.op1).type).1.Models ρ)
    (hn : c.isNumber (c.insn q.op2).op1 = true) :
    (Reply.withConst c q op (c.insn q.op2).op2 v (c.insn q.op1).type).Means c ρ q ↔
      onBits op (bitsOf ρ q (c.insn q.op2).op2) (v.setWidth _) =
        onBits o (numberOf c q q.op1)
          (onBits o' (numberOf c q (c.insn q.op2).op1) (bitsOf ρ q (c.insn q.op2).op2)) := by
  obtain ⟨h1, h2⟩ := h.operands
  obtain ⟨h3, h4, hn1, hb1, -⟩ := h.facts
  have hc0 := hρ.mono h.wf (grown_const c _ _)
  rw [means_withConst h.wf h.typed h.question (by rw [h.op]; exact h.ring) ho h1.bits h1.int hb1 h4 hρ,
    h2.node h.typed hc0 (by rw [h.inner]; exact h.innerRing), h3.number hc0 hn, h1.number hc0 hn1,
    h.inner, h.op]

end Right

end Two

/-! ## The rules -/

/-- The rules of the group. -/
def reassociation : List Rule :=
  [addAddConst, addSubU, addSubI, subAddU, subAddI, subConstAdd, subSubConst, subConstSub, mulMulConst,
    andAndConst, orOrConst, xorXorConst]

section Rules

variable {F : FloatOps} {c : Ctx} {ρ : ℤ → ℤ} {q : Question} {r : Rule}

/-- A rule whose key names the opcode `o` of the question, that of `op1` and a constant for `op2`. -/
theorem left_of_matches {o o' : IrOp} (hw : c.WellFormed) (hc : c.Typed) (hq : q.Typed c)
    (ho : isRing o = true) (ho' : isRing o' = true) (hm : r.Matches c q)
    (hr : ∀ k1 k2, r.pattern q.op k1 k2 = true → q.op = o ∧ k1 = o' ∧ isUIA k2 = true) :
    Pair.Left c q o o' := by
  obtain ⟨k1, k2, hk1, hk2, hp⟩ := hm
  obtain ⟨h1, h2, h3⟩ := hr k1 k2 hp
  refine ⟨⟨hw, hc, hq, h1, ho⟩, ?_, ho', ?_⟩
  · rw [h2] at hk1
    exact hk1.eq (by rintro rfl; cases ho')
  · rwa [hk2.eq (by rintro rfl; cases h3)]

theorem right_of_matches {o o' : IrOp} (hw : c.WellFormed) (hc : c.Typed) (hq : q.Typed c)
    (ho : isRing o = true) (ho' : isRing o' = true) (hm : r.Matches c q)
    (hr : ∀ k1 k2, r.pattern q.op k1 k2 = true → q.op = o ∧ isUIA k1 = true ∧ k2 = o') :
    Pair.Right c q o o' := by
  obtain ⟨k1, k2, hk1, hk2, hp⟩ := hm
  obtain ⟨h1, h2, h3⟩ := hr k1 k2 hp
  refine ⟨⟨hw, hc, hq, h1, ho⟩, ?_, ho', ?_⟩
  · rw [h3] at hk2
    exact hk2.eq (by rintro rfl; cases ho')
  · rwa [hk1.eq (by rintro rfl; cases h2)]

theorem setWidth_sub {w : ℕ} (hw : w ≤ 64) (u v : Val) :
    (u - v).setWidth w = u.setWidth w - v.setWidth w := by
  rw [BitVec.sub_eq_add_neg, BitVec.setWidth_add _ _ hw, BitVec.setWidth_neg_of_le hw,
    ← BitVec.sub_eq_add_neg]

variable (hw : c.WellFormed) (hc : c.Typed) (hq : q.Typed c)

include hw hc hq

/-- `(x o c1) o c2` of an associative operation. -/
theorem means_assoc {o : IrOp} (f : Val → Val → Val) (ho : isRing o = true)
    (hf : ∀ {w : ℕ} (x : BitVec w) (u v : Val), w ≤ 64 → onBits o x ((f u v).setWidth w) =
      onBits o (onBits o x (u.setWidth w)) (v.setWidth w))
    (hm : r.Matches c q)
    (hr : ∀ k1 k2, r.pattern q.op k1 k2 = true → q.op = o ∧ k1 = o ∧ isUIA k2 = true)
    (hreply : r.reply F c q = if c.isNumber (c.insn q.op1).op2 then
      .withConst c q q.op (c.insn q.op1).op1 (f (c.insn (c.insn q.op1).op2).val (c.insn q.op2).val)
        (c.insn q.op2).type else .next)
    (hρ : ((r.reply F c q).ctx c).Models ρ) : (r.reply F c q).Means c ρ q := by
  have h : Pair.Left c q o o := left_of_matches hw hc hq ho ho hm hr
  rw [hreply] at hρ ⊢
  split_ifs at hρ ⊢ with hn
  · rw [h.op] at hρ ⊢
    rw [means_left h ho hρ hn]
    exact hf _ _ _ (bits_pos hq.int).2
  · trivial

theorem means_addAddConst (hm : addAddConst.Matches c q)
    (hρ : ((addAddConst.reply F c q).ctx c).Models ρ) : (addAddConst.reply F c q).Means c ρ q := by
  refine means_assoc hw hc hq (o := .add) (· + ·) rfl (fun x u v h64 => ?_) hm (fun k1 k2 hp => ?_)
    rfl hρ
  · simp only [onBits, BitVec.setWidth_add _ _ h64]
    ring
  · simp only [addAddConst, Bool.and_eq_true, decide_eq_true_eq] at hp
    exact ⟨hp.1.1, hp.1.2, hp.2⟩

theorem means_mulMulConst (hm : mulMulConst.Matches c q)
    (hρ : ((mulMulConst.reply F c q).ctx c).Models ρ) : (mulMulConst.reply F c q).Means c ρ q := by
  refine means_assoc hw hc hq (o := .mul) (· * ·) rfl (fun x u v h64 => ?_) hm (fun k1 k2 hp => ?_)
    rfl hρ
  · simp only [onBits, BitVec.setWidth_mul _ _ h64]
    ring
  · simp only [mulMulConst, Bool.and_eq_true, decide_eq_true_eq] at hp
    exact ⟨hp.1.1, hp.1.2, hp.2⟩

theorem means_andAndConst (hm : andAndConst.Matches c q)
    (hρ : ((andAndConst.reply F c q).ctx c).Models ρ) : (andAndConst.reply F c q).Means c ρ q := by
  refine means_assoc hw hc hq (o := .and) (· &&& ·) rfl (fun x u v _ => ?_) hm (fun k1 k2 hp => ?_)
    rfl hρ
  · simp only [onBits, BitVec.setWidth_and]
    rw [BitVec.and_assoc]
  · simp only [andAndConst, Bool.and_eq_true, decide_eq_true_eq] at hp
    exact ⟨hp.1.1, hp.1.2, hp.2⟩

theorem means_orOrConst (hm : orOrConst.Matches c q)
    (hρ : ((orOrConst.reply F c q).ctx c).Models ρ) : (orOrConst.reply F c q).Means c ρ q := by
  refine means_assoc hw hc hq (o := .or) (· ||| ·) rfl (fun x u v _ => ?_) hm (fun k1 k2 hp => ?_)
    rfl hρ
  · simp only [onBits, BitVec.setWidth_or]
    rw [BitVec.or_assoc]
  · simp only [orOrConst, Bool.and_eq_true, decide_eq_true_eq] at hp
    exact ⟨hp.1.1, hp.1.2, hp.2⟩

theorem means_xorXorConst (hm : xorXorConst.Matches c q)
    (hρ : ((xorXorConst.reply F c q).ctx c).Models ρ) : (xorXorConst.reply F c q).Means c ρ q := by
  refine means_assoc hw hc hq (o := .xor) (· ^^^ ·) rfl (fun x u v _ => ?_) hm (fun k1 k2 hp => ?_)
    rfl hρ
  · simp only [onBits, BitVec.setWidth_xor]
    rw [BitVec.xor_assoc]
  · simp only [xorXorConst, Bool.and_eq_true, decide_eq_true_eq] at hp
    exact ⟨hp.1.1, hp.1.2, hp.2⟩

omit hw hc hq in
theorem means_constSubAdd (h : Pair.Left c q .add .sub)
    (hρ : ((constSubAdd c q (c.insn q.op1) (c.insn q.op2)).ctx c).Models ρ) :
    (constSubAdd c q (c.insn q.op1) (c.insn q.op2)).Means c ρ q := by
  have h64 := (bits_pos h.question.int).2
  unfold constSubAdd at hρ ⊢
  split_ifs at hρ ⊢ with hn
  · rw [h.op] at hρ ⊢
    rw [means_left_const h rfl hρ hn]
    simp only [succ, onBits, BitVec.setWidth_add _ _ h64]
    ring
  · trivial

theorem means_addSubU (hm : addSubU.Matches c q) (hρ : ((addSubU.reply F c q).ctx c).Models ρ) :
    (addSubU.reply F c q).Means c ρ q := by
  have h : Pair.Left c q .add .sub := left_of_matches hw hc hq rfl rfl hm fun k1 k2 hp => by
    simp only [addSubU, Bool.and_eq_true, decide_eq_true_eq] at hp
    exact ⟨hp.1.1, hp.1.2, isUIA_of_isUA hp.2⟩
  have h64 := (bits_pos hq.int).2
  simp only [Rule.reply, addSubU] at hρ ⊢
  split_ifs at hρ ⊢ with hn
  · rw [h.op] at hρ ⊢
    rw [means_left h rfl hρ hn]
    simp only [onBits, setWidth_sub h64]
    ring
  · exact means_constSubAdd h hρ

theorem means_addSubI (hm : addSubI.Matches c q) (hρ : ((addSubI.reply F c q).ctx c).Models ρ) :
    (addSubI.reply F c q).Means c ρ q := by
  have h : Pair.Left c q .add .sub := left_of_matches hw hc hq rfl rfl hm fun k1 k2 hp => by
    simp only [addSubI, Bool.and_eq_true, decide_eq_true_eq] at hp
    exact ⟨hp.1.1, hp.1.2, isUIA_of_isI hp.2⟩
  have h64 := (bits_pos hq.int).2
  simp only [Rule.reply, addSubI] at hρ ⊢
  by_cases hn : c.isNumber (c.insn q.op1).op2 = true
  · rw [if_pos hn] at hρ ⊢
    cases hneg : isNegative ((c.insn q.op2).val - (c.insn (c.insn q.op1).op2).val)
    · rw [hneg] at hρ
      rw [if_neg Bool.false_ne_true, h.op] at hρ ⊢
      rw [means_left h rfl hρ hn]
      simp only [onBits, setWidth_sub h64]
      ring
    · rw [hneg] at hρ
      rw [if_pos rfl, h.op] at hρ ⊢
      rw [means_left h rfl hρ hn]
      simp only [succ, onBits, BitVec.setWidth_neg_of_le h64, setWidth_sub h64]
      ring
  · rw [if_neg hn] at hρ ⊢
    exact means_constSubAdd h hρ

theorem means_subAddU (hm : subAddU.Matches c q) (hρ : ((subAddU.reply F c q).ctx c).Models ρ) :
    (subAddU.reply F c q).Means c ρ q := by
  have h : Pair.Left c q .sub .add := left_of_matches hw hc hq rfl rfl hm fun k1 k2 hp => by
    simp only [subAddU, Bool.and_eq_true, decide_eq_true_eq] at hp
    exact ⟨hp.1.1, hp.1.2, isUIA_of_isUA hp.2⟩
  have h64 := (bits_pos hq.int).2
  simp only [Rule.reply, subAddU] at hρ ⊢
  split_ifs at hρ ⊢ with hn
  · rw [means_left h rfl hρ hn]
    simp only [onBits, setWidth_sub h64]
    ring
  · trivial

theorem means_subAddI (hm : subAddI.Matches c q) (hρ : ((subAddI.reply F c q).ctx c).Models ρ) :
    (subAddI.reply F c q).Means c ρ q := by
  have h : Pair.Left c q .sub .add := left_of_matches hw hc hq rfl rfl hm fun k1 k2 hp => by
    simp only [subAddI, Bool.and_eq_true, decide_eq_true_eq] at hp
    exact ⟨hp.1.1, hp.1.2, isUIA_of_isI hp.2⟩
  have h64 := (bits_pos hq.int).2
  simp only [Rule.reply, subAddI] at hρ ⊢
  by_cases hn : c.isNumber (c.insn q.op1).op2 = true
  · rw [if_pos hn] at hρ ⊢
    cases hneg : isNegative ((c.insn (c.insn q.op1).op2).val - (c.insn q.op2).val)
    · rw [hneg] at hρ
      rw [if_neg Bool.false_ne_true] at hρ ⊢
      rw [means_left h rfl hρ hn]
      simp only [onBits, setWidth_sub h64]
      ring
    · rw [hneg] at hρ
      rw [if_pos rfl, h.op] at hρ ⊢
      rw [means_left h rfl hρ hn]
      simp only [onBits, BitVec.setWidth_neg_of_le h64, setWidth_sub h64]
      ring
  · rw [if_neg hn]
    trivial

theorem means_subSubConst (hm : subSubConst.Matches c q)
    (hρ : ((subSubConst.reply F c q).ctx c).Models ρ) : (subSubConst.reply F c q).Means c ρ q := by
  have h : Pair.Left c q .sub .sub := left_of_matches hw hc hq rfl rfl hm fun k1 k2 hp => by
    simp only [subSubConst, Bool.and_eq_true, decide_eq_true_eq] at hp
    exact ⟨hp.1.1, hp.1.2, hp.2⟩
  have h64 := (bits_pos hq.int).2
  simp only [Rule.reply, subSubConst] at hρ ⊢
  by_cases hn : c.isNumber (c.insn q.op1).op2 = true
  · rw [if_pos hn] at hρ ⊢
    cases hneg : isNegative ((c.insn (c.insn q.op1).op2).val + (c.insn q.op2).val)
    · rw [hneg] at hρ
      rw [if_neg Bool.false_ne_true, h.op] at hρ ⊢
      rw [means_left h rfl hρ hn]
      simp only [onBits, BitVec.setWidth_add _ _ h64]
      ring
    · rw [hneg] at hρ
      rw [if_pos rfl] at hρ ⊢
      rw [means_left h rfl hρ hn]
      simp only [onBits, BitVec.setWidth_neg_of_le h64, BitVec.setWidth_add _ _ h64]
      ring
  · rw [if_neg hn] at hρ ⊢
    split_ifs at hρ ⊢ with hn'
    · rw [h.op] at hρ ⊢
      rw [means_left_const h rfl hρ hn']
      simp only [onBits, setWidth_sub h64]
      ring
    · trivial

theorem means_subConstAdd (hm : subConstAdd.Matches c q)
    (hρ : ((subConstAdd.reply F c q).ctx c).Models ρ) : (subConstAdd.reply F c q).Means c ρ q := by
  have h : Pair.Right c q .sub .add := right_of_matches hw hc hq rfl rfl hm fun k1 k2 hp => by
    simp only [subConstAdd, Bool.and_eq_true, decide_eq_true_eq] at hp
    exact ⟨hp.1.1, hp.1.2, hp.2⟩
  have h64 := (bits_pos hq.int).2
  simp only [Rule.reply, subConstAdd] at hρ ⊢
  split_ifs at hρ ⊢ with hn
  · rw [h.op] at hρ ⊢
    rw [means_right h rfl (Or.inr rfl) hρ hn]
    simp only [onBits, setWidth_sub h64]
    ring
  · trivial

/-! ## The rule that is wrong -/

omit hw hc hq in
/-- The question is `c1 - (c2 - x)`. -/
structure Mirrored (c : Ctx) (q : Question) : Prop where
  op : q.op = .sub
  const : isUIA (c.insn q.op1).op = true
  inner : (c.insn q.op2).op = .sub
  number : c.isNumber (c.insn q.op2).op1 = true
  operand : c.isNumber (c.insn q.op2).op2 = false

omit hw hc hq in
/-- When `x - d`, or `x * -d`, is `x + d` for `d = c1 - c2`. -/
def Restores (c : Ctx) (ρ : ℤ → ℤ) (q : Question) : Prop :=
  let d := (c.insn q.op1).val - (c.insn (c.insn q.op2).op1).val
  let w := bits q.type
  (isNegative d = false → d.setWidth w + d.setWidth w = 0) ∧
    (isNegative d = true → (BitVec.ofInt w (ρ (c.insn q.op2).op2) + 1) * (d.setWidth w + 1) = 1)

omit hw hc hq in
theorem sub_eq_add_iff {w : ℕ} (x d : BitVec w) : x - d = x + d ↔ d + d = 0 := by
  constructor
  · intro h
    have hd : d + d = x + d - (x - d) := by ring
    rw [hd, h]
    ring
  · intro h
    have hx : x - d = x + d - (d + d) := by ring
    rw [hx, h]
    ring

omit hw hc hq in
theorem mul_neg_eq_add_iff {w : ℕ} (x d : BitVec w) :
    x * -d = x + d ↔ (x + 1) * (d + 1) = 1 := by
  constructor
  · intro h
    have hd : (x + 1) * (d + 1) = 1 + (x + d) - x * -d := by ring
    rw [hd, h]
    ring
  · intro h
    have hx : x * -d = x + d + 1 - (x + 1) * (d + 1) := by ring
    rw [hx, h]
    ring

theorem means_subConstSub_iff (hm : subConstSub.Matches c q)
    (hρ : ((subConstSub.reply F c q).ctx c).Models ρ) :
    (subConstSub.reply F c q).Means c ρ q ↔ (Mirrored c q → Restores c ρ q) := by
  have h : Pair.Right c q .sub .sub := right_of_matches hw hc hq rfl rfl hm fun k1 k2 hp => by
    simp only [subConstSub, Bool.and_eq_true, decide_eq_true_eq] at hp
    exact ⟨hp.1.1, hp.1.2, hp.2⟩
  have h64 := (bits_pos hq.int).2
  have hmirror : Mirrored c q ↔ c.isNumber (c.insn q.op2).op2 = false ∧
      c.isNumber (c.insn q.op2).op1 = true :=
    ⟨fun hc => ⟨hc.operand, hc.number⟩, fun hc => ⟨h.op, h.const, h.inner, hc.2, hc.1⟩⟩
  rw [hmirror]
  have hsum : ∀ x : BitVec (bits q.type), numberOf c q q.op1 - (numberOf c q (c.insn q.op2).op1 - x) =
      x + ((c.insn q.op1).val - (c.insn (c.insn q.op2).op1).val).setWidth _ := by
    intro x
    rw [setWidth_sub h64]
    ring
  simp only [Rule.reply, subConstSub] at hρ ⊢
  by_cases hn : c.isNumber (c.insn q.op2).op2 = true
  · rw [if_pos hn, h.op] at hρ ⊢
    rw [means_right h rfl (Or.inl rfl) hρ hn]
    simp only [hn, onBits, BitVec.setWidth_add _ _ h64]
    exact iff_of_true (by ring) (by simp)
  rw [if_neg hn] at hρ ⊢
  by_cases hn' : c.isNumber (c.insn q.op2).op1 = true
  · rw [if_pos hn'] at hρ ⊢
    have hshape : c.isNumber (c.insn q.op2).op2 = false ∧ c.isNumber (c.insn q.op2).op1 = true :=
      ⟨by simpa using hn, hn'⟩
    rw [forall_prop_of_true hshape]
    unfold Restores
    cases hneg : isNegative ((c.insn q.op1).val - (c.insn (c.insn q.op2).op1).val)
    · rw [hneg] at hρ
      rw [if_neg Bool.false_ne_true, h.op] at hρ ⊢
      rw [means_right_const h rfl hρ hn']
      simp only [onBits]
      rw [hsum, sub_eq_add_iff]
      refine ⟨fun h0 => ⟨fun _ => h0, fun hn0 => ?_⟩, fun h0 => h0.1 hneg⟩
      rw [hneg] at hn0
      cases hn0
    · rw [hneg] at hρ
      rw [if_pos rfl, h.op] at hρ ⊢
      rw [means_right_const h rfl hρ hn']
      simp only [succ, onBits, BitVec.setWidth_neg_of_le h64]
      rw [hsum, mul_neg_eq_add_iff]
      refine ⟨fun h1 => ⟨fun hn0 => ?_, fun _ => h1⟩, fun h1 => h1.2 hneg⟩
      rw [hneg] at hn0
      cases hn0
  · rw [if_neg hn']
    refine iff_of_true trivial ?_
    intro hs
    exact (hn' hs.2).elim

omit hw hc hq in
/-- No other rule of the group answers the question. -/
theorem subConstSub_of_mirrored (hr : r ∈ reassociation) (hm : r.Matches c q) (h : Mirrored c q) :
    r = subConstSub := by
  obtain ⟨k1, k2, hk1, hk2, hp⟩ := hm
  have hop := h.op
  have ha : k1 ≠ .add ∧ k1 ≠ .sub := by
    rcases hk1 with rfl | rfl
    · exact ⟨by decide, by decide⟩
    · constructor <;> intro heq <;> have := h.const <;> rw [heq] at this <;> cases this
  rw [hop] at hp
  simp only [reassociation, List.mem_cons, List.not_mem_nil, or_false] at hr
  rcases hr with rfl | rfl | rfl | rfl | rfl | rfl | rfl | rfl | rfl | rfl | rfl | rfl <;>
    simp [addAddConst, addSubU, addSubI, subAddU, subAddI, subConstAdd, subSubConst, mulMulConst,
      andAndConst, orOrConst, xorXorConst, ha] at hp ⊢
  have := h.inner
  rw [hk2.eq (by rw [hp.2]; decide), hp.2] at this
  cases this

/-- The rules of the group keep the value of the question, but for `c1 - (c2 - x)`. -/
theorem reassociation_means_iff (hr : r ∈ reassociation) (hm : r.Matches c q)
    (hρ : ((r.reply F c q).ctx c).Models ρ) :
    (r.reply F c q).Means c ρ q ↔ (Mirrored c q → Restores c ρ q) := by
  by_cases h : Mirrored c q
  · obtain rfl := subConstSub_of_mirrored hr hm h
    exact means_subConstSub_iff hw hc hq hm hρ
  have hno : Mirrored c q → Restores c ρ q := by
    intro hmir
    exact (h hmir).elim
  refine iff_of_true ?_ hno
  simp only [reassociation, List.mem_cons, List.not_mem_nil, or_false] at hr
  rcases hr with rfl | rfl | rfl | rfl | rfl | rfl | rfl | rfl | rfl | rfl | rfl | rfl
  · exact means_addAddConst hw hc hq hm hρ
  · exact means_addSubU hw hc hq hm hρ
  · exact means_addSubI hw hc hq hm hρ
  · exact means_subAddU hw hc hq hm hρ
  · exact means_subAddI hw hc hq hm hρ
  · exact means_subConstAdd hw hc hq hm hρ
  · exact means_subSubConst hw hc hq hm hρ
  · exact (means_subConstSub_iff hw hc hq hm hρ).mpr hno
  · exact means_mulMulConst hw hc hq hm hρ
  · exact means_andAndConst hw hc hq hm hρ
  · exact means_orOrConst hw hc hq hm hρ
  · exact means_xorXorConst hw hc hq hm hρ

end Rules

/-- A parameter `x`, the constants 5, 3 and 2, and the difference `3 - x`. -/
def mirrorCtx : Ctx where
  consts := [⟨.cAddr, .addr, 0, 0, 0, 0⟩, ⟨.cBool, .bool, 0, 0, 0, 0⟩, ⟨.cBool, .bool, 0, 0, 0, 1⟩,
    ⟨.cI8, .i8, 0, 0, 0, 5⟩, ⟨.cI8, .i8, 0, 0, 0, 3⟩, ⟨.cI8, .i8, 0, 0, 0, 2⟩]
  insns := [⟨.nop, .void, 0, 0, 0, 0⟩, ⟨.start, .void, 0, 0, 0, 0⟩, ⟨.param, .i8, 1, 0, 0, 0⟩,
    ⟨.sub, .i8, -5, 2, 0, 0⟩]
  useLists := none

/-- The run with `x = 0`. -/
def mirrorRun (r : ℤ) : ℤ :=
  match r with
  | -3 => 1
  | -4 => 5
  | -5 => 3
  | -6 => 2
  | 3 => 3
  | _ => 0

theorem mirrorCtx_wellFormed : mirrorCtx.WellFormed :=
  wellFormed_of_check (by decide) rfl (by decide) (by decide) ⟨rfl, rfl, rfl⟩ (by decide)

theorem mirrorCtx_typed : mirrorCtx.Typed :=
  typed_of_check (by decide) (by decide) (by decide)

theorem mirrorCtx_models : mirrorCtx.Models mirrorRun :=
  models_of_check (by decide) (by decide) (by decide)

/-- `5 - (3 - x)`. -/
def mirrorQuestion : Question := ⟨.sub, .i8, -4, 3, 0⟩

theorem mirrorQuestion_typed : mirrorQuestion.Typed mirrorCtx := ⟨by decide, by decide⟩

theorem subConstSub_matches : subConstSub.Matches mirrorCtx mirrorQuestion :=
  ⟨.cI8, .sub, Or.inr rfl, Or.inr rfl, rfl⟩

/-- The rule asks for `x - 2`. -/
theorem reassociation_not_means : ¬∀ (F : FloatOps) (c : Ctx) (ρ : ℤ → ℤ) (q : Question) (r : Rule),
    c.WellFormed → c.Typed → q.Typed c → r ∈ reassociation → r.Matches c q →
    ((r.reply F c q).ctx c).Models ρ → (r.reply F c q).Means c ρ q := by
  intro h
  have hmeans := h noFloats mirrorCtx mirrorRun mirrorQuestion subConstSub mirrorCtx_wellFormed
    mirrorCtx_typed mirrorQuestion_typed (by simp [reassociation]) subConstSub_matches mirrorCtx_models
  have hagree : Agree .i8 (mirrorRun 2 - 2) 2 := hmeans
  exact absurd hagree (by decide)

theorem reassociation_means_iff_mirror :
    (subConstSub.reply noFloats mirrorCtx mirrorQuestion).Means mirrorCtx mirrorRun mirrorQuestion ↔
      (Mirrored mirrorCtx mirrorQuestion → Restores mirrorCtx mirrorRun mirrorQuestion) :=
  reassociation_means_iff mirrorCtx_wellFormed mirrorCtx_typed mirrorQuestion_typed
    (by simp [reassociation]) subConstSub_matches mirrorCtx_models


end IrJit.Fold
