import IrJit.Fold.Bitwise
import IrJit.Fold.Frame

/-!
# Fold.Meaning — the values of the references of a graph

A run gives every reference of an integer type a value (`Ctx.Models`): a constant has the value of its
bits, an instruction the result of its operation.  A rule is right about a question if what it replies
has the value of the question, as bits of the type (`Reply.Means`).
-/

namespace IrJit.Fold

/-! ## Operations -/

/-- The integer opcodes whose results are values of their operands and nothing else.  `DIV` and `MOD` are
left out: they may trap. -/
def computes : IrOp → Bool
  | .eq | .ne | .lt | .ge | .le | .gt | .ult | .uge | .ule | .ugt | .add | .sub | .mul | .neg | .abs
  | .sext | .zext | .trunc | .bitcast | .addOv | .subOv | .mulOv | .not | .or | .and | .xor | .shl
  | .shr | .sar | .rol | .ror | .min | .max => true
  | _ => false

/-- What an instruction of type `t` computes from operands of types `t₁` and `t₂`. -/
def result (op : IrOp) (t t₁ t₂ : IrType) (x y : ℤ) : ℤ :=
  match op with
  | .addOv => wrap t (x + y)
  | .subOv => wrap t (x - y)
  | .mulOv => wrap t (x * y)
  | .div | .mod | .min | .max | .neg | .abs => spec op t t t (wrap t x) (wrap t y)
  | .eq | .ne | .lt | .ge | .le | .gt | .ult | .uge | .ule | .ugt => spec op t t₁ t₁ x (wrap t₁ y)
  | .not => if t = .bool then (if x = 0 then 1 else 0) else wrap t (-x - 1)
  | _ => spec op t t₁ t₂ x y

/-- The types that `ir_check` accepts; the operands of the conversions are integers. -/
def Accepts (op : IrOp) (t t₁ t₂ : IrType) : Prop :=
  match op with
  | .add | .sub | .mul | .div | .mod | .or | .and | .xor | .min | .max | .addOv | .subOv
  | .mulOv => Compat t t₁ ∧ Compat t t₂
  | .neg | .abs => Compat t t₁
  | .not => Compat t t₁ ∨ t = .bool
  | .shl | .shr | .sar | .rol | .ror => Compat t t₁ ∧ (Compat t t₂ ∨ t₂.size < t.size)
  | .eq | .ne | .lt | .ge | .le | .gt | .ult | .uge | .ule | .ugt => t = .bool
  | .sext | .zext => IsInt t₁ ∧ t₁.size < t.size
  | .trunc => IsInt t₁ ∧ t.size < t₁.size
  | .bitcast => t.size = t₁.size
  | _ => True

/-! ## Graphs -/

/-- The constants have the opcodes of their types, `IR_NULL`, `IR_FALSE` and `IR_TRUE` their values, and
the types of the operands are accepted. -/
structure Ctx.Typed (c : Ctx) : Prop where
  consts : ∀ i ∈ c.consts, i.op.isConstOp = true → i.op = constOp i.type
  isNull : (c.insn irNull).type = .addr ∧ (c.insn irNull).val = 0
  isFalse : (c.insn irFalse).type = .bool ∧ (c.insn irFalse).val = 0
  isTrue : (c.insn irTrue).type = .bool ∧ (c.insn irTrue).val = 1
  insns : ∀ r, computes (c.insn r).op = true → Accepts (c.insn r).op (c.insn r).type
    (c.insn (c.insn r).op1).type (c.insn (c.insn r).op2).type

/-- The operands of an instruction are integers. -/
def IntOperands (c : Ctx) (op : IrOp) (r s : ℤ) : Prop :=
  IsInt (c.insn r).type ∧ (2 ≤ op.inputEdges → IsInt (c.insn s).type)

/-- The values of the references in a run.  A symbol may be any address. -/
structure Ctx.Models (c : Ctx) (ρ : ℤ → ℤ) : Prop where
  number : ∀ r, r < 0 → (c.insn r).op.isSymConst = false → IsInt (c.insn r).type →
    ρ r = valueOf (c.insn r).type (c.insn r).val
  range : ∀ r, IsInt (c.insn r).type → InRange (c.insn r).type (ρ r)
  node : ∀ r, computes (c.insn r).op = true → IsInt (c.insn r).type →
    IntOperands c (c.insn r).op (c.insn r).op1 (c.insn r).op2 →
    ρ r = result (c.insn r).op (c.insn r).type (c.insn (c.insn r).op1).type
      (c.insn (c.insn r).op2).type (ρ (c.insn r).op1) (ρ (c.insn r).op2)

/-- The value of the instruction that is asked for. -/
def Question.value (c : Ctx) (ρ : ℤ → ℤ) (q : Question) : ℤ :=
  result q.op q.type (c.insn q.op1).type (c.insn q.op2).type (ρ q.op1) (ρ q.op2)

/-- The types of the question are accepted. -/
structure Question.Typed (c : Ctx) (q : Question) : Prop where
  int : IsInt q.type
  accepts : Accepts q.op q.type (c.insn q.op1).type (c.insn q.op2).type

/-- The same bits of a type. -/
def Agree (t : IrType) (m n : ℤ) : Prop := toU (bits t) m = toU (bits t) n

/-- The value of the constant that `ir_const` makes. -/
def constValue (t : IrType) (v : Val) : ℤ :=
  if t = .bool then (if v ≠ 0 then 1 else 0) else valueOf t v

/-- What a rule replies has the value of the question. -/
def Reply.Means (c : Ctx) (ρ : ℤ → ℤ) (q : Question) : Reply → Prop
  | .const v => Agree q.type (constValue q.type v) (q.value c ρ)
  | .copy r => Agree q.type (ρ r) (q.value c ρ)
  | .restart c' q' => Agree q.type (q'.value c' ρ) (q.value c ρ)
  | .emit _ | .next => True
  | .undefined => False

/-- The rule is found under one of the keys of the question. -/
def Rule.Matches (r : Rule) (c : Ctx) (q : Question) : Prop :=
  ∃ o1 o2, Key o1 (c.insn q.op1).op ∧ Key o2 (c.insn q.op2).op ∧ r.pattern q.op o1 o2 = true

/-- What the rule replies. -/
def Rule.reply (r : Rule) (F : FloatOps) (c : Ctx) (q : Question) : Reply :=
  r.body F c q (c.insn q.op1) (c.insn q.op2)

/-! ## Bits -/

section Bits

variable {t t₁ t₂ : IrType} {w : ℕ}

theorem ofInt_eq_ofInt_iff (w : ℕ) (m n : ℤ) :
    BitVec.ofInt w m = BitVec.ofInt w n ↔ toU w m = toU w n := by
  have hpos : (0 : ℤ) < 2 ^ w := by positivity
  rw [← BitVec.toNat_inj, BitVec.toNat_ofInt, BitVec.toNat_ofInt]
  unfold toU
  push_cast
  have hm := Int.emod_nonneg m hpos.ne'
  have hn := Int.emod_nonneg n hpos.ne'
  omega

theorem agree_iff (hw : bits t = w) (m n : ℤ) :
    Agree t m n ↔ BitVec.ofInt w m = BitVec.ofInt w n := by
  subst hw
  exact (ofInt_eq_ofInt_iff _ m n).symm

theorem Agree.refl (t : IrType) (n : ℤ) : Agree t n n := rfl

theorem wrap_emod (t : IrType) (hw : w ≤ bits t) (n : ℤ) : toU w (wrap t n) = toU w n := by
  have hdvd : (2 : ℤ) ^ w ∣ 2 ^ bits t := pow_dvd_pow 2 hw
  unfold wrap toI toU
  split_ifs
  · rw [Int.sub_emod, Int.emod_emod_of_dvd _ hdvd, ← Int.sub_emod, Int.add_sub_cancel]
  · exact Int.emod_emod_of_dvd _ hdvd

@[simp] theorem ofInt_wrap (hw : bits t = w) (n : ℤ) :
    BitVec.ofInt w (wrap t n) = BitVec.ofInt w n :=
  (ofInt_eq_ofInt_iff w _ _).mpr (wrap_emod t hw.ge n)

theorem ofInt_ofBits_self (hw : bits t = w) (p : BitVec w) : BitVec.ofInt w (ofBits t p) = p := by
  unfold ofBits
  rw [ofInt_wrap hw, BitVec.ofInt_natCast, BitVec.ofNat_toNat, BitVec.setWidth_eq]

/-- The bits of a constant. -/
theorem ofInt_valueOf (hw : bits t = w) (v : Val) : BitVec.ofInt w (valueOf t v) = v.setWidth w := by
  unfold valueOf
  rw [ofInt_wrap hw, BitVec.ofInt_natCast, BitVec.ofNat_toNat]

/-- The sum, difference and product of bits. -/
theorem ofInt_add (w : ℕ) (m n : ℤ) :
    BitVec.ofInt w (m + n) = BitVec.ofInt w m + BitVec.ofInt w n := BitVec.ofInt_add ..

theorem ofInt_mul (w : ℕ) (m n : ℤ) :
    BitVec.ofInt w (m * n) = BitVec.ofInt w m * BitVec.ofInt w n := BitVec.ofInt_mul ..

theorem ofInt_neg (w : ℕ) (n : ℤ) : BitVec.ofInt w (-n) = -BitVec.ofInt w n := BitVec.ofInt_neg ..

theorem ofInt_sub (w : ℕ) (m n : ℤ) :
    BitVec.ofInt w (m - n) = BitVec.ofInt w m - BitVec.ofInt w n := by
  rw [Int.sub_eq_add_neg, ofInt_add, ofInt_neg, BitVec.sub_eq_add_neg]

variable (h : bits t = w) (h₁ : bits t₁ = w) (x y : ℤ)

include h

theorem bits_add : BitVec.ofInt w (result .add t t₁ t₂ x y) = BitVec.ofInt w x + BitVec.ofInt w y := by
  rw [← ofInt_add]
  exact ofInt_wrap h _

theorem bits_sub : BitVec.ofInt w (result .sub t t₁ t₂ x y) = BitVec.ofInt w x - BitVec.ofInt w y := by
  rw [← ofInt_sub]
  exact ofInt_wrap h _

theorem bits_mul : BitVec.ofInt w (result .mul t t₁ t₂ x y) = BitVec.ofInt w x * BitVec.ofInt w y := by
  rw [← ofInt_mul]
  exact ofInt_wrap h _

theorem bits_neg : BitVec.ofInt w (result .neg t t₁ t₂ x y) = -BitVec.ofInt w x := by
  show BitVec.ofInt w (wrap t (-wrap t x)) = _
  rw [ofInt_wrap h, ofInt_neg, ofInt_wrap h]

include h₁

theorem bits_and : BitVec.ofInt w (result .and t t₁ t₂ x y) =
    BitVec.ofInt w x &&& BitVec.ofInt w y := by
  subst h₁
  exact ofInt_ofBits_self h _

theorem bits_or : BitVec.ofInt w (result .or t t₁ t₂ x y) =
    BitVec.ofInt w x ||| BitVec.ofInt w y := by
  subst h₁
  exact ofInt_ofBits_self h _

theorem bits_xor : BitVec.ofInt w (result .xor t t₁ t₂ x y) =
    BitVec.ofInt w x ^^^ BitVec.ofInt w y := by
  subst h₁
  exact ofInt_ofBits_self h _

end Bits

/-! ## Types -/

theorem Compat.bits_eq {t u : IrType} (h : Compat t u) : bits t = bits u := by
  rcases h with rfl | ⟨rfl, rfl | rfl⟩ | ⟨rfl, rfl | rfl⟩ <;> rfl

theorem Compat.isInt {t u : IrType} (h : Compat t u) (ht : IsInt t) : IsInt u := by
  rcases h with rfl | ⟨rfl, rfl | rfl⟩ | ⟨rfl, rfl | rfl⟩ <;>
    first | exact ht | exact ⟨rfl, by decide⟩

theorem Compat.symm {t u : IrType} (h : Compat t u) : Compat u t := by
  rcases h with rfl | h | h
  · exact Or.inl rfl
  · exact Or.inr (Or.inr h)
  · exact Or.inr (Or.inl h)

/-! ## More constants and instructions -/

section Mono

variable {c c' : Ctx} {ρ : ℤ → ℤ} {q : Question}

theorem Grown.insn (h : Grown c c') {r : ℤ} (hr : c.valid r) : c'.insn r = c.insn r := by
  by_cases h0 : r < 0
  · have hlt : (-r - 1).toNat < c.consts.length := by
      have := hr.1
      omega
    obtain ⟨l, hl⟩ := h.consts
    rw [insn_of_neg h0, insn_of_neg h0, ← hl, List.getD_append _ _ _ _ hlt]
  · have hlt : r.toNat < c.insns.length := by
      have := hr.2
      omega
    obtain ⟨l, hl⟩ := h.insns
    rw [insn_of_nonneg (by omega), insn_of_nonneg (by omega), ← hl, List.getD_append _ _ _ _ hlt]

/-- Outside the tables there is nothing. -/
theorem insn_of_not_valid {r : ℤ} (hr : ¬c.valid r) : c.insn r = default := by
  by_cases h0 : r < 0
  · rw [insn_of_neg h0, List.getD_eq_default]
    by_contra hlt
    exact hr ⟨by omega, by omega⟩
  · rw [insn_of_nonneg (by omega), List.getD_eq_default]
    by_contra hlt
    exact hr ⟨by omega, by omega⟩

theorem valid_of_isInt {r : ℤ} (h : IsInt (c.insn r).type) : c.valid r := by
  by_contra hr
  rw [insn_of_not_valid hr] at h
  exact absurd h.2 (by decide)

theorem isDataOp_of_computes {o : IrOp} (h : computes o = true) : isDataOp o = true := by
  cases o <;> first | rfl | exact absurd h (by decide)

theorem inputEdges_of_computes {o : IrOp} (h : computes o = true) :
    o.inputEdges = 1 ∨ o.inputEdges = 2 := by
  cases o <;> first | exact Or.inl rfl | exact Or.inr rfl | exact absurd h (by decide)

theorem Weighed.valid_operands {W : ℤ → ℕ} (hW : Weighed c W) {r : ℤ}
    (h : computes (c.insn r).op = true) :
    c.valid (c.insn r).op1 ∧ (2 ≤ (c.insn r).op.inputEdges → c.valid (c.insn r).op2) :=
  ⟨(hW.one r (isDataOp_of_computes h)).1, fun h2 => (hW.two r (isDataOp_of_computes h) h2).1⟩

/-- An operation with one operand does not read the other. -/
theorem result_unary {o : IrOp} (h : o.inputEdges = 1) (t t₁ t₂ t₂' : IrType) (x y y' : ℤ) :
    result o t t₁ t₂ x y = result o t t₁ t₂' x y' := by
  cases o <;> first | rfl | exact absurd h (by decide)

theorem result_congr {o : IrOp} (h : computes o = true) {t t₁ t₂ t₁' t₂' : IrType} {x y : ℤ}
    (h₁ : t₁' = t₁) (h₂ : 2 ≤ o.inputEdges → t₂' = t₂) :
    result o t t₁' t₂' x y = result o t t₁ t₂ x y := by
  subst h₁
  rcases inputEdges_of_computes h with hi | hi
  · exact result_unary hi _ _ _ _ _ _ _
  · rw [h₂ hi.ge]

/-- The references of a graph stand for the same when it grows. -/
theorem Ctx.Models.of_grown {W : ℤ → ℕ} (hρ : c'.Models ρ) (hW : Weighed c W) (hg : Grown c c') :
    c.Models ρ where
  number r h0 hs ht := by
    have heq := hg.insn (valid_of_isInt ht)
    rw [← heq] at hs ht ⊢
    exact hρ.number r h0 hs ht
  range r ht := by
    have heq := hg.insn (valid_of_isInt ht)
    rw [← heq] at ht ⊢
    exact hρ.range r ht
  node r hc ht hi := by
    have heq := hg.insn (valid_of_isInt ht)
    obtain ⟨hv1, hv2⟩ := hW.valid_operands hc
    have h1 := hg.insn hv1
    have hc' : computes (c'.insn r).op = true := by rwa [heq]
    have hnode := hρ.node r hc' (by rwa [heq]) (by
      rw [heq]
      exact ⟨by rw [h1]; exact hi.1, fun h2 => by rw [hg.insn (hv2 h2)]; exact hi.2 h2⟩)
    rw [hnode, heq]
    exact result_congr hc (by rw [h1]) fun h2 => by rw [hg.insn (hv2 h2)]

theorem Ctx.Models.mono (hρ : c'.Models ρ) (hw : c.WellFormed) (hg : Grown c c') : c.Models ρ := by
  obtain ⟨W, hW⟩ := exists_weighed hw
  exact hρ.of_grown hW hg

theorem grown_const (c : Ctx) (v : Val) (t : IrType) : Grown c (c.const v t).1 :=
  (kept_const c v t).grown

/-- The instruction of the constant. -/
theorem const_new (hc : c.Typed) (v : Val) (t : IrType) :
    ((c.const v t).1.insn (c.const v t).2).type = t ∧
      (t ≠ .bool → ((c.const v t).1.insn (c.const v t).2).val = v) ∧
        (t = .bool → ((c.const v t).1.insn (c.const v t).2).val = if v ≠ 0 then 1 else 0) := by
  unfold Ctx.const
  by_cases hb : t = .bool
  · rw [if_pos hb]
    refine ⟨?_, fun h => absurd hb h, fun _ => ?_⟩
    · split_ifs
      · rw [hb]; exact hc.isTrue.1
      · rw [hb]; exact hc.isFalse.1
    · split_ifs
      · exact hc.isTrue.2
      · exact hc.isFalse.2
  rw [if_neg hb]
  by_cases ha : t = .addr ∧ v = 0
  · rw [if_pos ha]
    exact ⟨by rw [ha.1]; exact hc.isNull.1, fun _ => by rw [ha.2]; exact hc.isNull.2, fun h => absurd h hb⟩
  rw [if_neg ha]
  cases hk : c.consts.findIdx? fun i => i.op = constOp t && i.type = t && i.val = v with
  | none =>
    dsimp only
    rw [insn_of_neg (by omega)]
    have hidx : (-(-((c.consts.length : ℤ) + 1)) - 1).toNat = c.consts.length := by omega
    rw [hidx, List.getD_append_right _ _ _ _ le_rfl]
    simp [hb]
  | some k =>
    obtain ⟨hlt, hkey, -⟩ := List.findIdx?_eq_some_iff_getElem.1 hk
    simp only [Bool.and_eq_true, decide_eq_true_eq] at hkey
    dsimp only
    rw [insn_of_neg (by omega)]
    have hidx : (-(-((k : ℤ) + 1)) - 1).toNat = k := by omega
    rw [hidx, List.getD_eq_getElem _ _ hlt]
    exact ⟨hkey.1.2, fun _ => hkey.2, fun h => absurd h hb⟩

theorem isSymConst_constOp (t : IrType) : (constOp t).isSymConst = false := by
  cases t <;> rfl

/-- The value of the constant that `ir_const` returns. -/
theorem Ctx.Models.newConst {W : ℤ → ℕ} (hW : Weighed c W) (hc : c.Typed) {v : Val} {t : IrType}
    (hρ : (c.const v t).1.Models ρ) (ht : IsInt t) : ρ (c.const v t).2 = constValue t v := by
  obtain ⟨htype, hval, hbool⟩ := const_new hc v t
  have hnum := hρ.number _ (const_neg c v t) (by rw [const_op hW]; exact isSymConst_constOp t)
    (by rw [htype]; exact ht)
  rw [hnum, htype]
  unfold constValue
  by_cases hb : t = .bool
  · rw [if_pos hb, hbool hb, hb]
    split_ifs <;> decide
  · rw [if_neg hb, hval hb]

theorem Ctx.Models.new (hw : c.WellFormed) (hc : c.Typed) {v : Val} {t : IrType}
    (hρ : (c.const v t).1.Models ρ) (ht : IsInt t) : ρ (c.const v t).2 = constValue t v := by
  obtain ⟨W, hW⟩ := exists_weighed hw
  exact hρ.newConst hW hc ht

end Mono

/-! ## Rules that are found -/

section Rules

variable {F : FloatOps} {c : Ctx} {q : Question} {o1 o2 : IrOp} {a b : Reply}

theorem attempt_cases (h1 : Key o1 (c.insn q.op1).op) (h2 : Key o2 (c.insn q.op2).op) :
    attempt F c q o1 o2 = .next ∨
      ∃ r ∈ rules, r.Matches c q ∧ attempt F c q o1 o2 = r.reply F c q := by
  unfold attempt
  cases hf : findRule q.op o1 o2 with
  | none => exact Or.inl rfl
  | some r =>
    unfold findRule at hf
    have hp : r.pattern q.op o1 o2 = true := by simpa using List.find?_some hf
    exact Or.inr ⟨r, List.mem_of_find?_eq_some hf, ⟨o1, o2, h1, h2, hp⟩, rfl⟩

theorem orElse_cases (a b : Reply) : a.orElse b = a ∨ (a = .next ∧ a.orElse b = b) := by
  cases a
  case next => exact Or.inr ⟨rfl, rfl⟩
  all_goals exact Or.inl rfl

/-- A rule only adds to the graph. -/
theorem grown_reply {r : Rule} (hr : r ∈ rules) : Grown c ((r.reply F c q).ctx c) := by
  rcases List.mem_append.1 hr with hm | hm
  · have hk : (r.reply F c q).Keeps c := fun c' q' hb => absurd hb (quiet_of_mem r hm F c q _ _ c' q')
    exact hk.ctx.grown
  rcases keeps_of_mem r hm with rfl | hk
  · unfold Rule.reply
    rw [subAddAdd_body]
    split_ifs
    · exact (Kept.refl c).grown
    · cases uncommon (c.insn q.op1) (c.insn q.op2) with
      | none => exact (Kept.refl c).grown
      | some p => exact (grown_cast c p.1 q.type).trans (grown_cast _ p.2 q.type)
    · exact (Kept.refl c).grown
  · exact (hk F c q _ _).ctx.grown

/-- A rule leaves the references with the values they have. -/
theorem Ctx.Models.reply {r : Rule} {ρ : ℤ → ℤ} (hr : r ∈ rules) (hw : c.WellFormed)
    (hρ : ((r.reply F c q).ctx c).Models ρ) : c.Models ρ :=
  hρ.mono hw (grown_reply hr)

/-- The engine replies what a rule that matches replies, or leaves the question to the CSE. -/
theorem dispatch_cases (F : FloatOps) (c : Ctx) (q : Question) :
    dispatch F c q = .next ∨ ∃ r ∈ rules, r.Matches c q ∧ dispatch F c q = r.reply F c q := by
  have k1 : Key (c.insn q.op1).op (c.insn q.op1).op := Or.inr rfl
  have k2 : Key (c.insn q.op2).op (c.insn q.op2).op := Or.inr rfl
  have kn : ∀ o, Key .nop o := fun o => Or.inl rfl
  unfold dispatch
  dsimp only
  rcases orElse_cases (attempt F c q (c.insn q.op1).op (c.insn q.op2).op) _ with h | ⟨-, h⟩
  · rw [h]
    exact attempt_cases k1 k2
  rw [h]
  rcases orElse_cases (attempt F c q .nop (c.insn q.op2).op) _ with h | ⟨-, h⟩
  · rw [h]
    exact attempt_cases (kn _) k2
  rw [h]
  rcases orElse_cases (attempt F c q (c.insn q.op1).op .nop) (attempt F c q .nop .nop) with h | ⟨-, h⟩
  · rw [h]
    exact attempt_cases k1 (kn _)
  · rw [h]
    exact attempt_cases (kn _) (kn _)

end Rules

/-! ## Graphs that can be checked -/

section Check

variable {c : Ctx} {ρ : ℤ → ℤ}

instance (t : IrType) : Decidable (IsInt t) := by unfold IsInt; infer_instance
instance (t u : IrType) : Decidable (Compat t u) := by unfold Compat; infer_instance
instance (t : IrType) (n : ℤ) : Decidable (InRange t n) := by unfold InRange; infer_instance
instance (t : IrType) (m n : ℤ) : Decidable (Agree t m n) := by unfold Agree; infer_instance

instance (op : IrOp) (t t₁ t₂ : IrType) : Decidable (Accepts op t t₁ t₂) := by
  unfold Accepts
  split <;> infer_instance

instance (c : Ctx) (op : IrOp) (r s : ℤ) : Decidable (IntOperands c op r s) := by
  unfold IntOperands
  infer_instance

/-- The references of a context. -/
def Ctx.refs (c : Ctx) : List ℤ :=
  ((List.range c.consts.length).map fun k : ℕ => -((k : ℤ) + 1)) ++
    (List.range c.insns.length).map fun k : ℕ => (k : ℤ)

theorem mem_refs {r : ℤ} (hr : c.valid r) : r ∈ c.refs := by
  obtain ⟨h1, h2⟩ := hr
  unfold Ctx.refs
  rw [List.mem_append, List.mem_map, List.mem_map]
  by_cases h0 : r < 0
  · refine Or.inl ⟨(-r - 1).toNat, List.mem_range.2 ?_, ?_⟩ <;> omega
  · refine Or.inr ⟨r.toNat, List.mem_range.2 ?_, ?_⟩ <;> omega

/-- A graph in which the operands come first. -/
theorem wellFormed_of_check (h0 : 0 < c.insns.length) (hnop : (c.insn 0).op = .nop)
    (hconsts : ∀ i ∈ c.consts, isConstant i.op) (hinsns : ∀ i ∈ c.insns, isConstant i.op = false)
    (hbuiltin : (c.insn irNull).op = .cAddr ∧ (c.insn irFalse).op = .cBool ∧ (c.insn irTrue).op = .cBool)
    (hord : ∀ r ∈ c.refs, isDataOp (c.insn r).op → ∀ o ∈ (c.insn r).operands, c.valid o ∧ o < r) :
    c.WellFormed := by
  refine ⟨h0, hnop, hconsts, hinsns, hbuiltin, Int.toNat, fun r hr o ho => ?_⟩
  have hpos := pos_of_isDataOp hnop (fun i hi => isDataOp_of_isConstant (hconsts i hi)) hr
  obtain ⟨hv, hlt⟩ := hord r (mem_refs ⟨by omega, hpos.2⟩) hr o ho
  exact ⟨hv, fun _ => by omega⟩

theorem typed_of_check (hconsts : ∀ i ∈ c.consts, i.op.isConstOp = true → i.op = constOp i.type)
    (hbuiltin : ((c.insn irNull).type = .addr ∧ (c.insn irNull).val = 0) ∧
      ((c.insn irFalse).type = .bool ∧ (c.insn irFalse).val = 0) ∧
        (c.insn irTrue).type = .bool ∧ (c.insn irTrue).val = 1)
    (hinsns : ∀ r ∈ c.refs, computes (c.insn r).op = true → Accepts (c.insn r).op (c.insn r).type
      (c.insn (c.insn r).op1).type (c.insn (c.insn r).op2).type) : c.Typed := by
  refine ⟨hconsts, hbuiltin.1, hbuiltin.2.1, hbuiltin.2.2, fun r hr => ?_⟩
  by_cases hv : c.valid r
  · exact hinsns r (mem_refs hv) hr
  · rw [insn_of_not_valid hv] at hr
    cases hr

theorem models_of_check
    (hnum : ∀ r ∈ c.refs, r < 0 → (c.insn r).op.isSymConst = false → IsInt (c.insn r).type →
      ρ r = valueOf (c.insn r).type (c.insn r).val)
    (hrange : ∀ r ∈ c.refs, IsInt (c.insn r).type → InRange (c.insn r).type (ρ r))
    (hnode : ∀ r ∈ c.refs, computes (c.insn r).op = true → IsInt (c.insn r).type →
      IntOperands c (c.insn r).op (c.insn r).op1 (c.insn r).op2 →
      ρ r = result (c.insn r).op (c.insn r).type (c.insn (c.insn r).op1).type
        (c.insn (c.insn r).op2).type (ρ (c.insn r).op1) (ρ (c.insn r).op2)) : c.Models ρ where
  number r h0 hs ht := hnum r (mem_refs (valid_of_isInt ht)) h0 hs ht
  range r ht := hrange r (mem_refs (valid_of_isInt ht)) ht
  node r hc ht hi := hnode r (mem_refs (valid_of_isInt ht)) hc ht hi

end Check

end IrJit.Fold
