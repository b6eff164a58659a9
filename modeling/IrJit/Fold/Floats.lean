import IrJit.Fold.Strength
import IrJit.Lib.Ieee

/-!
# Fold.Floats — comparisons of floating point values

In a run the number of a reference of type `float` or `double` is its bit pattern.  A comparison is one
of the four relations of IEEE 754; the `U` opcodes hold also for what is not ordered.
-/

namespace IrJit.Fold

open Ieee

/-! ## Comparisons -/

def isFp (t : IrType) : Bool := t = .float || t = .double

def format : IrType → Format
  | .float => binary32
  | _ => binary64

def relate (t : IrType) (a b : Val) : Relation :=
  relation ((format t).decode a.toNat) ((format t).decode b.toNat)

def isNaN (t : IrType) (a : Val) : Bool := (format t).isNaN a.toNat

/-- `+0.0` and `-0.0`. -/
def isZero (t : IrType) (a : Val) : Bool := (format t).abs a.toNat = 0

/-- The comparisons, `ORDERED` and `UNORDERED`. -/
def comparesFp (o : IrOp) : Bool := isCmp o || o = .ordered || o = .unordered

/-- What the opcodes mean. -/
def holds (o : IrOp) (r : Relation) : Bool :=
  match o with
  | .eq => r = .equal
  | .ne => r ≠ .equal
  | .lt => r = .less
  | .ge => r = .greater || r = .equal
  | .le => r = .less || r = .equal
  | .gt => r = .greater
  | .ult => r = .less || r = .unordered
  | .uge => r = .greater || r = .equal || r = .unordered
  | .ule => r = .less || r = .equal || r = .unordered
  | .ugt => r = .greater || r = .unordered
  | .ordered => r ≠ .unordered
  | .unordered => r = .unordered
  | _ => false

/-- The operators of C on two values. -/
def cLess (r : Relation) : Bool := r = .less
def cLessEqual (r : Relation) : Bool := r = .less || r = .equal
def cEqual (r : Relation) : Bool := r = .equal

/-- The constant rules (26–295). -/
def foldCompare (o : IrOp) (t : IrType) (a b : Val) : Bool :=
  let lt := cLess (relate t a b)
  let le := cLessEqual (relate t a b)
  let gt := cLess (relate t b a)
  let ge := cLessEqual (relate t b a)
  match o with
  -- `val.d == val.d`, of floats too
  | .eq => cEqual (relate .double a b)
  | .ne => !cEqual (relate t a b)
  | .lt => lt
  | .ge => ge
  | .le => le
  | .gt => gt
  | .ult => !ge
  | .uge => !lt
  | .ule => !gt
  | .ugt => !le
  | .ordered => !isNaN t a && !isNaN t b
  | .unordered => isNaN t a || isNaN t b
  | _ => false

/-- `(double)f`. -/
def widenFloat (a : Val) : Val := BitVec.ofNat 64 (widen binary32 binary64 a.toNat)

/-- The comparisons are those of IEEE 754; the rounding and the arithmetic are any. -/
def ieee (F : FloatOps) : FloatOps :=
  { F with
    isNaN := isNaN
    isZero := isZero
    compare := foldCompare
    fitsFloat := fun d => cEqual (relate .double d (widenFloat (F.convert .fp2fp .float .double d))) }

/-! ## Runs -/

/-- The pattern of a reference. -/
def pattern (ρ : ℤ → ℤ) (r : ℤ) : Val := BitVec.ofInt 64 (ρ r)

/-- The values of the references of floating point types: constants, `ABS` and `FP2FP`. -/
structure Ctx.Floats (c : Ctx) (ρ : ℤ → ℤ) : Prop where
  const : ∀ r, r < 0 → (c.insn r).op.isSymConst = false → isFp (c.insn r).type = true →
    pattern ρ r = (c.insn r).val
  abs : ∀ r, (c.insn r).op = .abs → isFp (c.insn r).type = true →
    (format (c.insn r).type).decode (pattern ρ r).toNat = (format (c.insn r).type).decode
      ((format (c.insn r).type).abs (pattern ρ (c.insn r).op1).toNat)
  fp2fp : ∀ r, (c.insn r).op = .fp2fp → (c.insn r).type = .double →
    (c.insn (c.insn r).op1).type = .float →
    binary64.decode (pattern ρ r).toNat =
      binary64.decode (widen binary32 binary64 (pattern ρ (c.insn r).op1).toNat)

/-- A comparison of two floating point values of one type. -/
structure Question.Floats (c : Ctx) (q : Question) : Prop where
  compares : comparesFp q.op = true
  type : q.type = .bool
  fp : isFp (c.insn q.op1).type = true
  same : (c.insn q.op2).type = (c.insn q.op1).type

def Question.truth (c : Ctx) (ρ : ℤ → ℤ) (q : Question) : Bool :=
  holds q.op (relate (c.insn q.op1).type (pattern ρ q.op1) (pattern ρ q.op2))

/-- What a rule replies has the truth value of the question. -/
def Reply.Decides (c : Ctx) (ρ : ℤ → ℤ) (q : Question) : Reply → Prop
  | .const v => constValue .bool v = if q.truth c ρ then 1 else 0
  | .copy r => ρ r = if q.truth c ρ then 1 else 0
  | .restart c' q' => q'.Floats c' ∧ q'.truth c' ρ = q.truth c ρ
  | .emit _ | .next => True
  | .undefined => False

/-! ## Conditions -/

/-- The words of two floats are equal as doubles just when they are equal as floats: they are the same
and no NaN, or both are zeros. -/
def SameWords (a b : Val) : Prop :=
  ((a = b ∧ isNaN .double a = false) ∨ (isZero .double a = true ∧ isZero .double b = true)) ↔
    ((a.setWidth 32 = b.setWidth 32 ∧ isNaN .float a = false) ∨
      (isZero .float a = true ∧ isZero .float b = true))

def FloatsSame (c : Ctx) (_ : ℤ → ℤ) (q : Question) : Prop :=
  q.op = .eq → (c.insn q.op1).type = .float → SameWords (c.insn q.op1).val (c.insn q.op2).val

/-- The operand of `ABS` is a number where the rule answers. -/
def AbsIsNumber (c : Ctx) (ρ : ℤ → ℤ) (q : Question) : Prop :=
  (c.insn q.op2).val = 0 → isNaN (c.insn q.op1).type (pattern ρ (c.insn q.op1).op1) = false

/-- A value that is compared with itself by `ULT` or `UGT` is a number. -/
def SelfIsNumber (c : Ctx) (ρ : ℤ → ℤ) (q : Question) : Prop :=
  q.op1 = q.op2 → q.op = .ult ∨ q.op = .ugt → isNaN (c.insn q.op1).type (pattern ρ q.op1) = false

/-! ## Relations -/

section Relations

variable {t : IrType} {a b : Val} {o : IrOp}

theorem relate_swap (t : IrType) (a b : Val) : relate t b a = (relate t a b).swap := relation_swap _ _

theorem isNaN_eq_true : isNaN t a = true ↔ (format t).decode a.toNat = none :=
  (Format.decode_eq_none _ _).symm

theorem relate_eq_unordered : relate t a b = .unordered ↔ isNaN t a = true ∨ isNaN t b = true := by
  unfold relate
  rw [relation_eq_unordered, isNaN_eq_true, isNaN_eq_true]

theorem relate_self : relate t a a = if isNaN t a then .unordered else .equal := by
  unfold relate
  rw [relation_self]
  simp only [isNaN_eq_true]

/-- Equal as doubles. -/
theorem relate_double_eq_equal : relate .double a b = .equal ↔
    (a = b ∧ isNaN .double a = false) ∨ (isZero .double a = true ∧ isZero .double b = true) := by
  have hmod : ∀ v : Val, v.toNat % 2 ^ (binary64.exp + binary64.frac + 1) = v.toNat := fun v =>
    Nat.mod_eq_of_lt v.isLt
  unfold relate isZero
  rw [Format.relation_decode_eq_equal (by decide)]
  show (_ % 2 ^ (binary64.exp + binary64.frac + 1) = _ % 2 ^ (binary64.exp + binary64.frac + 1) ∧ _) ∨ _ ↔ _
  rw [hmod, hmod, BitVec.toNat_inj, decide_eq_true_eq, decide_eq_true_eq]
  rfl

/-- Equal as floats. -/
theorem relate_float_eq_equal : relate .float a b = .equal ↔
    (a.setWidth 32 = b.setWidth 32 ∧ isNaN .float a = false) ∨
      (isZero .float a = true ∧ isZero .float b = true) := by
  have hmod : ∀ v : Val, (v.setWidth 32).toNat = v.toNat % 2 ^ (binary32.exp + binary32.frac + 1) :=
    fun v => BitVec.toNat_setWidth ..
  unfold relate isZero
  rw [Format.relation_decode_eq_equal (by decide), ← BitVec.toNat_inj, hmod, hmod, decide_eq_true_eq,
    decide_eq_true_eq]
  rfl

theorem sameWords_iff : SameWords a b ↔ (relate .double a b = .equal ↔ relate .float a b = .equal) := by
  rw [relate_double_eq_equal, relate_float_eq_equal]
  rfl

/-- The constant rules but for `EQ` of floats. -/
theorem foldCompare_of_ne (ho : comparesFp o = true) (h : o = .eq → t ≠ .float) (ht : isFp t = true) :
    foldCompare o t a b = holds o (relate t a b) := by
  have hnan := relate_eq_unordered (t := t) (a := a) (b := b)
  have heq : o = .eq → relate .double a b = relate t a b := fun hop => by
    have hd : t = .double := by
      unfold isFp at ht
      simp only [Bool.or_eq_true, decide_eq_true_eq] at ht
      exact ht.resolve_left (h hop)
    rw [hd]
  unfold foldCompare
  rw [relate_swap t a b]
  cases o <;> first | exact absurd ho (by decide) | skip
  case eq => simp only [heq, cEqual, holds]
  case ordered =>
    simp only [holds]
    rw [Bool.eq_iff_iff, Bool.and_eq_true, Bool.not_eq_true', Bool.not_eq_true', decide_eq_true_eq, Ne,
      hnan, not_or, Bool.not_eq_true, Bool.not_eq_true]
  case unordered =>
    simp only [holds]
    rw [Bool.eq_iff_iff, Bool.or_eq_true, decide_eq_true_eq, hnan]
  all_goals cases relate t a b <;> rfl

theorem foldCompare_eq_float : foldCompare .eq .float a b = holds .eq (relate .float a b) ↔
    SameWords a b := by
  rw [sameWords_iff]
  show decide (relate .double a b = .equal) = decide (relate .float a b = .equal) ↔ _
  rw [decide_eq_decide]

/-- The operands are exchanged. -/
theorem holds_xorThree (h : o = .lt ∨ o = .ge ∨ o = .le ∨ o = .gt ∨ o = .ult ∨ o = .uge ∨ o = .ule ∨
    o = .ugt) (r : Relation) : holds (xorThree o) r.swap = holds o r := by
  rcases h with rfl | rfl | rfl | rfl | rfl | rfl | rfl | rfl <;> cases r <;> rfl

theorem holds_swap (h : o = .eq ∨ o = .ne ∨ o = .ordered ∨ o = .unordered) (r : Relation) :
    holds o r.swap = holds o r := by
  rcases h with rfl | rfl | rfl | rfl <;> cases r <;> rfl

end Relations

/-! ## Rules -/

section Rules

variable {F : FloatOps} {c : Ctx} {ρ : ℤ → ℤ} {q : Question} {r : ℤ}

/-- A floating point constant. -/
theorem number_of_isF (hw : c.WellFormed) (hc : c.Typed) (h : isF (c.insn r).op = true) :
    r < 0 ∧ (c.insn r).op.isSymConst = false ∧ isFp (c.insn r).type = true := by
  have hconst : (c.insn r).op.isConstOp = true ∧ (c.insn r).op.isSymConst = false := by
    generalize (c.insn r).op = o at h
    cases o <;> first | exact ⟨rfl, rfl⟩ | exact absurd h (by decide)
  obtain ⟨hneg, hmem⟩ := mem_consts hw hconst.1
  have hop := hc.consts _ hmem hconst.1
  refine ⟨hneg, hconst.2, ?_⟩
  rw [hop] at h
  generalize (c.insn r).type = t at h
  cases t <;> first | rfl | exact absurd h (by decide)

theorem pattern_of_isF (hw : c.WellFormed) (hc : c.Typed) (hf : c.Floats ρ)
    (h : isF (c.insn r).op = true) : pattern ρ r = (c.insn r).val := by
  obtain ⟨hneg, hsym, hfp⟩ := number_of_isF hw hc h
  exact hf.const r hneg hsym hfp

theorem type_of_cDouble (hw : c.WellFormed) (hc : c.Typed) (h : (c.insn r).op = .cDouble) :
    (c.insn r).type = .double := by
  obtain ⟨-, hmem⟩ := mem_consts hw (r := r) (by rw [h]; rfl)
  have hop := hc.consts _ hmem (by rw [h]; rfl)
  rw [h] at hop
  generalize (c.insn r).type = t at hop
  cases t <;> first | rfl | cases hop

/-- The values of a graph when it has grown. -/
theorem Ctx.Floats.mono {c' : Ctx} (hf : c'.Floats ρ) (hg : Grown c c') : c.Floats ρ := by
  have hinsn : ∀ {r : ℤ}, (c.insn r).type ≠ .void → c'.insn r = c.insn r := fun {r} ht => by
    refine hg.insn ?_
    by_contra hv
    rw [insn_of_not_valid hv] at ht
    exact ht rfl
  have hvoid : ∀ {t : IrType}, isFp t = true → t ≠ .void := fun {t} h => by
    rintro rfl
    cases h
  refine ⟨fun r h0 hs ht => ?_, fun r ho ht => ?_, fun r ho ht ht' => ?_⟩
  · have heq := hinsn (hvoid ht)
    rw [← heq] at hs ht ⊢
    exact hf.const r h0 hs ht
  · have heq := hinsn (hvoid ht)
    rw [← heq] at ho ht ⊢
    exact hf.abs r ho ht
  · have heq := hinsn (r := r) (by rw [ht]; decide)
    have heq' := hinsn (r := (c.insn r).op1) (by rw [ht']; decide)
    have h := hf.fp2fp r (by rw [heq, ho]) (by rw [heq, ht]) (by rw [heq, heq', ht'])
    rwa [heq] at h

/-- A float and a double that is the image of another one. -/
theorem relate_of_fits {a b d v : Val}
    (ha : binary64.decode a.toNat = binary64.decode (widen binary32 binary64 b.toNat))
    (hd : relate .double d (widenFloat v) = .equal) : relate .float b v = relate .double a d := by
  have hdec : binary64.decode d.toNat = binary64.decode (widen binary32 binary64 v.toNat) := by
    have h := (relation_eq_equal.1 hd).1
    unfold widenFloat at h
    rw [BitVec.toNat_ofNat] at h
    exact h.trans (Format.decode_mod _)
  show relation _ _ = relation (binary64.decode a.toNat) (binary64.decode d.toNat)
  rw [ha, hdec, relation_widen wider_32_64]
  rfl

variable (hw : c.WellFormed) (hc : c.Typed) (hρ : c.Models ρ)

include hw hc hρ

/-- `IR_FALSE` and `IR_TRUE` as answers. -/
theorem decides_bool (b : Bool) : (Reply.bool b).Decides c ρ q ↔ b = q.truth c ρ := by
  have ht := hρ.isTrue hw hc
  have hf := hρ.isFalse hw hc
  cases b
  · show ρ irFalse = _ ↔ _
    rw [hf]
    cases q.truth c ρ <;> simp
  · show ρ irTrue = _ ↔ _
    rw [ht]
    cases q.truth c ρ <;> simp

theorem decides_true : (Reply.copy irTrue).Decides c ρ q ↔ q.truth c ρ = true :=
  (decides_bool hw hc hρ true).trans eq_comm

theorem decides_false : (Reply.copy irFalse).Decides c ρ q ↔ q.truth c ρ = false :=
  (decides_bool hw hc hρ false).trans eq_comm

omit hw hc hρ in
theorem decides_next : Reply.next.Decides c ρ q := trivial

omit hw hc hρ in
theorem not_isInt_of_isFp {t : IrType} (h : isFp t = true) : t.isInt = false := by
  cases t <;> first | rfl | exact absurd h (by decide)

omit hρ in
/-- A constant in the second operand. -/
theorem pattern_second (hf : c.Floats ρ) {k : IrOp} (hk : Key k (c.insn q.op2).op) (h : isF k = true) :
    pattern ρ q.op2 = (c.insn q.op2).val :=
  pattern_of_isF hw hc hf (by
    rwa [hk.eq (by rintro rfl; cases h)])

variable (hf : c.Floats ρ) (hq : q.Floats c)

include hf hq

theorem floatCompare_right_iff (hm : floatCompare.Matches c q) :
    (floatCompare.reply (ieee F) c q).Decides c ρ q ↔ FloatsSame c ρ q := by
  obtain ⟨k1, k2, hk1, hk2, hp⟩ := hm
  simp only [floatCompare, Bool.and_eq_true, decide_eq_true_eq] at hp
  obtain ⟨⟨-, hisf⟩, rfl⟩ := hp
  have h1 : pattern ρ q.op1 = (c.insn q.op1).val :=
    pattern_of_isF hw hc hf (by rwa [hk1.eq (by rintro rfl; cases hisf)])
  have h2 := pattern_second hw hc hf hk2 hisf
  have hreply : floatCompare.reply (ieee F) c q =
      .bool (foldCompare q.op (c.insn q.op1).type (c.insn q.op1).val (c.insn q.op2).val) := rfl
  rw [hreply, decides_bool hw hc hρ]
  unfold Question.truth FloatsSame
  rw [h1, h2]
  by_cases h : q.op = .eq ∧ (c.insn q.op1).type = .float
  · rw [h.1, h.2, foldCompare_eq_float]
    exact ⟨fun hs _ _ => hs, fun hs => hs rfl rfl⟩
  · refine iff_of_true ?_ fun hop ht => absurd ⟨hop, ht⟩ h
    exact foldCompare_of_ne hq.compares (fun hop ht => h ⟨hop, ht⟩) hq.fp

omit hρ in
/-- What is compared with a NaN is not ordered. -/
theorem relate_of_nan {k : IrOp} (hk : Key k (c.insn q.op2).op) (h : isF k = true)
    (hnan : isNaN (c.insn q.op2).type (c.insn q.op2).val = true) :
    relate (c.insn q.op1).type (pattern ρ q.op1) (pattern ρ q.op2) = .unordered := by
  rw [relate_eq_unordered, pattern_second hw hc hf hk h, ← hq.same]
  exact Or.inr hnan

theorem compareNaN_right (hm : compareNaN.Matches c q) :
    (compareNaN.reply (ieee F) c q).Decides c ρ q := by
  obtain ⟨k1, k2, -, hk2, hp⟩ := hm
  simp only [compareNaN, Bool.and_eq_true, Bool.or_eq_true, decide_eq_true_eq] at hp
  have hreply : compareNaN.reply (ieee F) c q =
      if isNaN (c.insn q.op2).type (c.insn q.op2).val then .copy irFalse else .next := rfl
  rw [hreply]
  split_ifs with hnan
  · rw [decides_false hw hc hρ, Question.truth, relate_of_nan hw hc hf hq hk2 hp.2 hnan]
    rcases hp.1.1 with (((h | h) | h) | h) | h <;> rw [h] <;> rfl
  · exact decides_next

theorem neNaN_right (hm : neNaN.Matches c q) : (neNaN.reply (ieee F) c q).Decides c ρ q := by
  obtain ⟨k1, k2, -, hk2, hp⟩ := hm
  simp only [neNaN, Bool.and_eq_true, decide_eq_true_eq] at hp
  have hreply : neNaN.reply (ieee F) c q =
      if isNaN (c.insn q.op2).type (c.insn q.op2).val then .copy irTrue else .next := rfl
  rw [hreply]
  split_ifs with hnan
  · rw [decides_true hw hc hρ, Question.truth, relate_of_nan hw hc hf hq hk2 hp.2 hnan, hp.1.1]
    rfl
  · exact decides_next

omit hw hc hρ hf in
/-- `ORDERED` and `UNORDERED` with a number say whether the other operand is one. -/
theorem decides_self (hop : q.op = .ordered ∨ q.op = .unordered)
    (hnum : isNaN (c.insn q.op1).type (pattern ρ q.op2) = false) :
    (Reply.again c q q.op1 q.op1).Decides c ρ q := by
  refine ⟨⟨hq.compares, hq.type, hq.fp, rfl⟩, ?_⟩
  have hself := relate_eq_unordered (t := (c.insn q.op1).type) (a := pattern ρ q.op1)
    (b := pattern ρ q.op1)
  have hpair := relate_eq_unordered (t := (c.insn q.op1).type) (a := pattern ρ q.op1)
    (b := pattern ρ q.op2)
  rw [hnum] at hpair
  have hiff : relate (c.insn q.op1).type (pattern ρ q.op1) (pattern ρ q.op1) = .unordered ↔
      relate (c.insn q.op1).type (pattern ρ q.op1) (pattern ρ q.op2) = .unordered := by
    rw [hself, hpair, or_self]
    simp
  unfold Question.truth
  dsimp only
  rcases hop with hop | hop <;> rw [hop] <;> simp only [holds]
  · exact decide_eq_decide.2 (not_congr hiff)
  · exact decide_eq_decide.2 hiff

theorem orderedConst_right (hm : orderedConst.Matches c q) :
    (orderedConst.reply (ieee F) c q).Decides c ρ q := by
  obtain ⟨k1, k2, -, hk2, hp⟩ := hm
  simp only [orderedConst, Bool.and_eq_true, decide_eq_true_eq] at hp
  have hreply : orderedConst.reply (ieee F) c q =
      if isNaN (c.insn q.op2).type (c.insn q.op2).val then .copy irFalse
      else .again c q q.op1 q.op1 := rfl
  rw [hreply]
  split_ifs with hnan
  · rw [decides_false hw hc hρ, Question.truth, relate_of_nan hw hc hf hq hk2 hp.2 hnan, hp.1.1]
    rfl
  · apply decides_self hq (Or.inl hp.1.1)
    rw [pattern_second hw hc hf hk2 hp.2, ← hq.same]
    exact Bool.not_eq_true _ ▸ hnan

theorem unorderedConst_right (hm : unorderedConst.Matches c q) :
    (unorderedConst.reply (ieee F) c q).Decides c ρ q := by
  obtain ⟨k1, k2, -, hk2, hp⟩ := hm
  simp only [unorderedConst, Bool.and_eq_true, decide_eq_true_eq] at hp
  have hreply : unorderedConst.reply (ieee F) c q =
      if isNaN (c.insn q.op2).type (c.insn q.op2).val then .copy irTrue
      else .again c q q.op1 q.op1 := rfl
  rw [hreply]
  split_ifs with hnan
  · rw [decides_true hw hc hρ, Question.truth, relate_of_nan hw hc hf hq hk2 hp.2 hnan, hp.1.1]
    rfl
  · apply decides_self hq (Or.inr hp.1.1)
    rw [pattern_second hw hc hf hk2 hp.2, ← hq.same]
    exact Bool.not_eq_true _ ▸ hnan

omit hρ in
/-- An absolute value against `+0.0`. -/
theorem relate_abs_zero {k : IrOp} (habs : (c.insn q.op1).op = .abs) (hk : Key k (c.insn q.op2).op)
    (h : isI k = true ∨ isF k = true) (h0 : (c.insn q.op2).val = 0) :
    relate (c.insn q.op1).type (pattern ρ q.op1) (pattern ρ q.op2) =
      if isNaN (c.insn q.op1).type (pattern ρ (c.insn q.op1).op1) then .unordered
      else if (format (c.insn q.op1).type).decode (pattern ρ q.op1).toNat = some 0 then .equal
      else .greater := by
  have hisf : isF k = true := by
    refine h.resolve_left fun hi => ?_
    have hop2 : isUIA (c.insn q.op2).op = true := by
      rw [hk.eq (by rintro rfl; cases hi)]
      exact isUIA_of_isI hi
    have hint := (number_of_isUIA hw hc hop2).2.2.2
    rw [hq.same] at hint
    exact absurd hint.1 (by rw [not_isInt_of_isFp hq.fp]; decide)
  have hzero : ∀ t, (format t).decode (0 : Val).toNat = some 0 := fun t =>
    Format.decode_eq_zero (by cases t <;> decide) (Nat.zero_mod _)
  unfold relate isNaN
  rw [pattern_second hw hc hf hk hisf, h0, hzero, hf.abs q.op1 habs hq.fp]
  exact Format.relation_abs_zero _

theorem ltAbs_right (hm : ltAbs.Matches c q) : (ltAbs.reply (ieee F) c q).Decides c ρ q := by
  obtain ⟨k1, k2, hk1, hk2, hp⟩ := hm
  simp only [ltAbs, Bool.and_eq_true, Bool.or_eq_true, decide_eq_true_eq] at hp
  obtain ⟨⟨hop, rfl⟩, hi⟩ := hp
  have hreply : ltAbs.reply (ieee F) c q =
      if (c.insn q.op2).val = 0 then .copy irFalse else .next := rfl
  rw [hreply]
  split_ifs with h0
  · rw [decides_false hw hc hρ, Question.truth, hop,
      relate_abs_zero hw hc hf hq (hk1.eq (by decide)) hk2 hi h0]
    split_ifs <;> rfl
  · exact decides_next

theorem absFloat_right_iff (hm : geAbs.Matches c q) :
    (geAbs.reply (ieee F) c q).Decides c ρ q ↔ AbsIsNumber c ρ q := by
  obtain ⟨k1, k2, hk1, hk2, hp⟩ := hm
  simp only [geAbs, Bool.and_eq_true, Bool.or_eq_true, decide_eq_true_eq] at hp
  obtain ⟨⟨hop, rfl⟩, hi⟩ := hp
  have hreply : geAbs.reply (ieee F) c q =
      if (c.insn q.op2).val = 0 then .copy irTrue else .next := rfl
  have hP : AbsIsNumber c ρ q ↔ ((c.insn q.op2).val = 0 →
      isNaN (c.insn q.op1).type (pattern ρ (c.insn q.op1).op1) = false) := Iff.rfl
  rw [hreply, hP]
  split_ifs with h0
  · rw [decides_true hw hc hρ, Question.truth, hop,
      relate_abs_zero hw hc hf hq (hk1.eq (by decide)) hk2 hi h0, forall_prop_of_true h0]
    cases isNaN (c.insn q.op1).type (pattern ρ (c.insn q.op1).op1)
    · refine iff_of_true ?_ rfl
      rw [if_neg Bool.false_ne_true]
      split_ifs <;> rfl
    · exact iff_of_false (by rw [if_pos rfl]; decide) (by decide)
  · exact iff_of_true decides_next fun h => absurd h h0

omit hρ in
/-- A double that is the image of a float may be compared as that float. -/
theorem cmpFp2fp_right (hsrc : (c.insn q.op1).op = .fp2fp → (c.insn q.op1).type = .double →
      (c.insn (c.insn q.op1).op1).type = .float)
    (hf' : ((cmpFp2fp.reply (ieee F) c q).ctx c).Floats ρ) (hm : cmpFp2fp.Matches c q) :
    (cmpFp2fp.reply (ieee F) c q).Decides c ρ q := by
  obtain ⟨k1, k2, hk1, hk2, hp⟩ := hm
  simp only [cmpFp2fp, Bool.and_eq_true, decide_eq_true_eq] at hp
  obtain ⟨⟨hop, rfl⟩, rfl⟩ := hp
  have h1 := hk1.eq (by decide)
  have h2 := pattern_second hw hc hf hk2 rfl
  have hdst : (c.insn q.op1).type = .double := by
    rw [← hq.same]
    exact type_of_cDouble hw hc (hk2.eq (by decide))
  have hfloat := hsrc h1 hdst
  have hv : c.valid (c.insn q.op1).op1 := by
    by_contra hv
    rw [insn_of_not_valid hv] at hfloat
    cases hfloat
  have hreply : cmpFp2fp.reply (ieee F) c q =
      if cEqual (relate .double (c.insn q.op2).val
        (widenFloat (F.convert .fp2fp .float .double (c.insn q.op2).val)))
      then .withConst c q q.op (c.insn q.op1).op1 (F.convert .fp2fp .float .double (c.insn q.op2).val) .float
      else .next := rfl
  rw [hreply] at hf' ⊢
  generalize F.convert .fp2fp .float .double (c.insn q.op2).val = v at hf' ⊢
  split_ifs at hf' ⊢ with heq
  · obtain ⟨W, hW⟩ := exists_weighed hw
    have hgrown : (c.const v .float).1.Floats ρ := hf'
    have hnew := const_new hc v .float
    have hpat : pattern ρ (c.const v .float).2 = v := by
      have hconst := hgrown.const _ (const_neg c v .float) (by rw [const_op hW]; rfl) (by rw [hnew.1]; rfl)
      exact hconst.trans (hnew.2.1 (by decide))
    have hinsn := (grown_const c v .float).insn hv
    refine ⟨⟨hq.compares, hq.type, ?_, ?_⟩, ?_⟩
    · show isFp ((c.const v .float).1.insn (c.insn q.op1).op1).type = true
      rw [hinsn, hfloat]
      rfl
    · show ((c.const v .float).1.insn (c.const v .float).2).type =
        ((c.const v .float).1.insn (c.insn q.op1).op1).type
      rw [hnew.1, hinsn, hfloat]
    · show holds q.op (relate ((c.const v .float).1.insn (c.insn q.op1).op1).type
        (pattern ρ (c.insn q.op1).op1) (pattern ρ (c.const v .float).2)) = _
      rw [hinsn, hfloat, hpat, Question.truth, hdst, h2,
        relate_of_fits (hf.fp2fp q.op1 h1 hdst hfloat) (of_decide_eq_true heq)]
  · exact decides_next

omit hw hc hρ hf in
/-- Comparisons that do not care for the order of the operands. -/
theorem decides_swap (h : q.op = .eq ∨ q.op = .ne ∨ q.op = .ordered ∨ q.op = .unordered) :
    (swapOps c q).Decides c ρ q := by
  unfold swapOps
  split_ifs
  · refine ⟨⟨hq.compares, hq.type, by rw [← hq.fp, ← hq.same], hq.same.symm⟩, ?_⟩
    unfold Question.truth
    dsimp only
    rw [hq.same, relate_swap _ (pattern ρ q.op1), holds_swap h]
  · exact decides_next

omit hw hc hρ hf in
theorem decides_swapOrder (h : q.op = .lt ∨ q.op = .ge ∨ q.op = .le ∨ q.op = .gt ∨ q.op = .ult ∨
    q.op = .uge ∨ q.op = .ule ∨ q.op = .ugt) : (swapOrder c q).Decides c ρ q := by
  unfold swapOrder
  split_ifs
  · refine ⟨⟨?_, hq.type, by rw [← hq.fp, ← hq.same], hq.same.symm⟩, ?_⟩
    · rcases h with h | h | h | h | h | h | h | h <;> rw [h] <;> rfl
    · unfold Question.truth
      dsimp only
      rw [hq.same, relate_swap _ (pattern ρ q.op1), holds_xorThree h]
  · exact decides_next

omit hw hc hρ hf in
theorem swapAny_right (hm : swapAny.Matches c q) : (swapAny.reply (ieee F) c q).Decides c ρ q := by
  obtain ⟨k1, k2, -, -, hp⟩ := hm
  simp only [swapAny, Bool.and_eq_true, Bool.or_eq_true, decide_eq_true_eq] at hp
  have hne : q.op ≠ .mul := fun h => by
    have hcmp := hq.compares
    rw [h] at hcmp
    cases hcmp
  refine decides_swap hq ?_
  rcases hp.1.1 with (h | h) | h
  · exact absurd h hne
  · exact Or.inr (Or.inr (Or.inl h))
  · exact Or.inr (Or.inr (Or.inr h))

omit hw hc hρ hf in
theorem eqAny_right (hm : eqAny.Matches c q) : (eqAny.reply (ieee F) c q).Decides c ρ q := by
  obtain ⟨k1, k2, -, -, hp⟩ := hm
  simp only [eqAny, Bool.and_eq_true, Bool.or_eq_true, decide_eq_true_eq] at hp
  have hreply : eqAny.reply (ieee F) c q =
      if q.op1 ≠ q.op2 then swapOps c q
      else if (c.insn q.op1).type.isInt then .bool (q.op = .eq) else .next := rfl
  rw [hreply, not_isInt_of_isFp hq.fp, if_neg Bool.false_ne_true]
  split_ifs
  · exact decides_swap hq (hp.1.1.elim Or.inl fun h => Or.inr (Or.inl h))
  · exact decides_next

omit hw hc hρ hf in
theorem orderAny_right (hm : orderAny.Matches c q) : (orderAny.reply (ieee F) c q).Decides c ρ q := by
  obtain ⟨k1, k2, -, -, hp⟩ := hm
  simp only [orderAny, Bool.and_eq_true, Bool.or_eq_true, decide_eq_true_eq] at hp
  have hreply : orderAny.reply (ieee F) c q =
      if q.op1 = q.op2 then
        if (c.insn q.op1).type.isInt then .bool (holdsOfEqual q.op) else .next
      else swapOrder c q := rfl
  rw [hreply, not_isInt_of_isFp hq.fp, if_neg Bool.false_ne_true]
  split_ifs
  · exact decides_next
  · apply decides_swapOrder hq
    rcases hp.1.1 with ((h | h) | h) | h <;> simp [h]

omit hf in
/-- The answer for equal operands is given without a look at the type. -/
theorem unsignedOrderAny_right_iff (hm : unsignedOrderAny.Matches c q) :
    (unsignedOrderAny.reply (ieee F) c q).Decides c ρ q ↔ SelfIsNumber c ρ q := by
  obtain ⟨k1, k2, -, -, hp⟩ := hm
  simp only [unsignedOrderAny, Bool.and_eq_true, Bool.or_eq_true, decide_eq_true_eq] at hp
  have hreply : unsignedOrderAny.reply (ieee F) c q =
      if q.op1 = q.op2 then .bool (holdsOfEqual q.op) else swapOrder c q := rfl
  have hP : SelfIsNumber c ρ q ↔ (q.op1 = q.op2 → q.op = .ult ∨ q.op = .ugt →
      isNaN (c.insn q.op1).type (pattern ρ q.op1) = false) := Iff.rfl
  rw [hreply, hP]
  split_ifs with hsame
  · rw [decides_bool hw hc hρ, Question.truth, ← hsame, relate_self, forall_prop_of_true rfl]
    rcases hp.1.1 with ((h | h) | h) | h <;> rw [h] <;>
      cases isNaN (c.insn q.op1).type (pattern ρ q.op1) <;> decide
  · refine iff_of_true (decides_swapOrder hq ?_) fun h => absurd h hsame
    rcases hp.1.1 with ((h | h) | h) | h <;> simp [h]

end Rules

/-! ## All of them -/

/-- The rules of comparisons, and when they are right about floating point values. -/
def floatRules : List (Rule × (Ctx → (ℤ → ℤ) → Question → Prop)) :=
  [(floatCompare, FloatsSame), (compareNaN, Always), (neNaN, Always), (orderedConst, Always),
    (unorderedConst, Always), (ltAbs, Always), (geAbs, AbsIsNumber), (cmpFp2fp, Always),
    (swapAny, Always), (eqAny, Always), (orderAny, Always), (unsignedOrderAny, SelfIsNumber)]

/-- `EQ` and `NE` of two constants are opposite. -/
def Opposite (F : FloatOps) (c : Ctx) (q : Question) : Prop :=
  ∃ b, floatCompare.reply (ieee F) c { q with op := .eq } = .bool b ∧
    floatCompare.reply (ieee F) c { q with op := .ne } = .bool !b

section All

variable {F : FloatOps} {c : Ctx} {ρ : ℤ → ℤ} {q : Question} {r : Rule}
  {P : Ctx → (ℤ → ℤ) → Question → Prop}

theorem mem_rules_of_float (h : (r, P) ∈ floatRules) : r ∈ rules := by
  simp only [floatRules, List.mem_cons, Prod.mk.injEq, List.not_mem_nil, or_false] at h
  rcases h with ⟨rfl, -⟩ | ⟨rfl, -⟩ | ⟨rfl, -⟩ | ⟨rfl, -⟩ | ⟨rfl, -⟩ | ⟨rfl, -⟩ | ⟨rfl, -⟩ | ⟨rfl, -⟩ |
    ⟨rfl, -⟩ | ⟨rfl, -⟩ | ⟨rfl, -⟩ | ⟨rfl, -⟩ <;>
    simp [rules, restarting, answering]

theorem bool_inj {a b : Bool} (h : Reply.bool a = Reply.bool b) : a = b := by
  cases a <;> cases b <;> first | rfl | cases h

theorem opposite_iff (hfp : isFp (c.insn q.op1).type = true) (hop : q.op = .eq) :
    Opposite F c q ↔ FloatsSame c ρ q := by
  have hreply : ∀ o, floatCompare.reply (ieee F) c { q with op := o } =
      .bool (foldCompare o (c.insn q.op1).type (c.insn q.op1).val (c.insn q.op2).val) := fun _ => rfl
  have hne : foldCompare .ne (c.insn q.op1).type (c.insn q.op1).val (c.insn q.op2).val =
      !holds .eq (relate (c.insn q.op1).type (c.insn q.op1).val (c.insn q.op2).val) := rfl
  have hiff : Opposite F c q ↔
      foldCompare .eq (c.insn q.op1).type (c.insn q.op1).val (c.insn q.op2).val =
        holds .eq (relate (c.insn q.op1).type (c.insn q.op1).val (c.insn q.op2).val) := by
    unfold Opposite
    rw [hreply, hreply, hne]
    constructor
    · rintro ⟨b, h1, h2⟩
      rw [bool_inj h1, ← Bool.not_inj (bool_inj h2)]
    · intro h
      exact ⟨_, congrArg Reply.bool h, rfl⟩
  rw [hiff]
  unfold FloatsSame
  by_cases ht : (c.insn q.op1).type = .float
  · rw [ht, foldCompare_eq_float]
    exact ⟨fun hs _ _ => hs, fun hs => hs hop rfl⟩
  · exact iff_of_true (foldCompare_of_ne rfl (fun _ => ht) hfp) fun _ h => absurd h ht

/-- What a rule replies to a comparison of floating point values has its truth value, and `EQ` and `NE` of
the constants are opposite, if and only if the condition holds. -/
theorem floats_right_iff (hw : c.WellFormed) (hc : c.Typed) (hq : q.Floats c)
    (hsrc : (c.insn q.op1).op = .fp2fp → (c.insn q.op1).type = .double →
      (c.insn (c.insn q.op1).op1).type = .float)
    (hr : (r, P) ∈ floatRules) (hm : r.Matches c q)
    (hρ : ((r.reply (ieee F) c q).ctx c).Models ρ) (hf : ((r.reply (ieee F) c q).ctx c).Floats ρ) :
    ((r.reply (ieee F) c q).Decides c ρ q ↔ P c ρ q) ∧
      (q.op = .eq → (Opposite F c q ↔ FloatsSame c ρ q)) := by
  refine ⟨?_, opposite_iff hq.fp⟩
  have hmem := mem_rules_of_float hr
  have hρ' := hρ.reply hmem hw
  have hf' := hf.mono (grown_reply hmem)
  simp only [floatRules, List.mem_cons, Prod.mk.injEq, List.not_mem_nil, or_false] at hr
  rcases hr with ⟨rfl, rfl⟩ | ⟨rfl, rfl⟩ | ⟨rfl, rfl⟩ | ⟨rfl, rfl⟩ | ⟨rfl, rfl⟩ | ⟨rfl, rfl⟩ |
    ⟨rfl, rfl⟩ | ⟨rfl, rfl⟩ | ⟨rfl, rfl⟩ | ⟨rfl, rfl⟩ | ⟨rfl, rfl⟩ | ⟨rfl, rfl⟩
  · exact floatCompare_right_iff hw hc hρ' hf' hq hm
  · exact iff_of_true (compareNaN_right hw hc hρ' hf' hq hm) trivial
  · exact iff_of_true (neNaN_right hw hc hρ' hf' hq hm) trivial
  · exact iff_of_true (orderedConst_right hw hc hρ' hf' hq hm) trivial
  · exact iff_of_true (unorderedConst_right hw hc hρ' hf' hq hm) trivial
  · exact iff_of_true (ltAbs_right hw hc hρ' hf' hq hm) trivial
  · exact absFloat_right_iff hw hc hρ' hf' hq hm
  · exact iff_of_true (cmpFp2fp_right hw hc hf' hq hsrc hf hm) trivial
  · exact iff_of_true (swapAny_right hq hm) trivial
  · exact iff_of_true (eqAny_right hq hm) trivial
  · exact iff_of_true (orderAny_right hq hm) trivial
  · exact unsignedOrderAny_right_iff hw hc hρ' hq hm

end All

/-- A graph without `ABS` and `FP2FP`. -/
theorem floats_of_check {c : Ctx} {ρ : ℤ → ℤ} (hconst : ∀ r ∈ c.refs, r < 0 →
      (c.insn r).op.isSymConst = false → isFp (c.insn r).type = true → pattern ρ r = (c.insn r).val)
    (hnode : ∀ r ∈ c.refs, (c.insn r).op ≠ .abs ∧ (c.insn r).op ≠ .fp2fp) : c.Floats ρ := by
  have hmem : ∀ {r : ℤ}, (c.insn r).op ≠ .nop → r ∈ c.refs := fun {r} h => by
    refine mem_refs ?_
    by_contra hv
    rw [insn_of_not_valid hv] at h
    exact h rfl
  refine ⟨fun r h0 hs ht => ?_, fun r ho ht => ?_, fun r ho ht ht' => ?_⟩
  · refine hconst r (mem_refs ?_) h0 hs ht
    by_contra hv
    rw [insn_of_not_valid hv] at ht
    cases ht
  · exact absurd ho (hnode r (hmem (by rw [ho]; decide))).1
  · exact absurd ho (hnode r (hmem (by rw [ho]; decide))).2

/-- A `float` that is a NaN and a parameter. -/
def nanCtx : Ctx where
  consts := [⟨.cAddr, .addr, 0, 0, 0, 0⟩, ⟨.cBool, .bool, 0, 0, 0, 0⟩, ⟨.cBool, .bool, 0, 0, 0, 1⟩,
    ⟨.cFloat, .float, 0, 0, 0, 0x7fc00000⟩]
  insns := [⟨.nop, .void, 0, 0, 0, 0⟩, ⟨.start, .void, 0, 0, 0, 0⟩, ⟨.param, .float, 1, 0, 0, 0⟩]
  useLists := none

/-- The run in which the parameter is a NaN too. -/
def nanRun (r : ℤ) : ℤ :=
  match r with
  | -3 => 1
  | -4 => 0x7fc00000
  | 2 => 0x7fc00001
  | _ => 0

theorem nanCtx_wellFormed : nanCtx.WellFormed :=
  wellFormed_of_check (by decide) rfl (by decide) (by decide) ⟨rfl, rfl, rfl⟩ (by decide)

theorem nanCtx_typed : nanCtx.Typed :=
  typed_of_check (by decide) (by decide) (by decide)

theorem nanCtx_models : nanCtx.Models nanRun :=
  models_of_check (by decide) (by decide) (by decide)

theorem nanCtx_floats : nanCtx.Floats nanRun :=
  floats_of_check (by decide) (by decide)

/-- `EQ` of the constant with itself. -/
def nanQuestion : Question := ⟨.eq, .bool, -4, -4, 0⟩

theorem nanQuestion_floats : nanQuestion.Floats nanCtx := ⟨rfl, rfl, rfl, rfl⟩

theorem floatCompare_matches : floatCompare.Matches nanCtx nanQuestion :=
  ⟨.cFloat, .cFloat, Or.inr rfl, Or.inr rfl, rfl⟩

/-- A NaN is not equal to itself; the rule answers that it is. -/
theorem floats_not_right : ¬∀ (F : FloatOps) (c : Ctx) (ρ : ℤ → ℤ) (q : Question) (r : Rule)
    (P : Ctx → (ℤ → ℤ) → Question → Prop), c.WellFormed → c.Typed → q.Floats c →
    ((c.insn q.op1).op = .fp2fp → (c.insn q.op1).type = .double →
      (c.insn (c.insn q.op1).op1).type = .float) → (r, P) ∈ floatRules → r.Matches c q →
    ((r.reply (ieee F) c q).ctx c).Models ρ → ((r.reply (ieee F) c q).ctx c).Floats ρ →
    (r.reply (ieee F) c q).Decides c ρ q ∧ (q.op = .eq → Opposite F c q) := by
  intro h
  obtain ⟨hright, -⟩ := h noFloats nanCtx nanRun nanQuestion floatCompare FloatsSame nanCtx_wellFormed
    nanCtx_typed nanQuestion_floats (by decide) (by simp [floatRules]) floatCompare_matches nanCtx_models
    nanCtx_floats
  have hnan : relate .float (0x7fc00000 : Val) 0x7fc00000 = .unordered :=
    relate_eq_unordered.2 (Or.inl (by decide))
  have hequal : relate .double (0x7fc00000 : Val) 0x7fc00000 = .equal :=
    relate_double_eq_equal.2 (Or.inl ⟨rfl, by decide⟩)
  have htruth : nanQuestion.truth nanCtx nanRun = false := by
    show decide (relate .float (0x7fc00000 : Val) 0x7fc00000 = .equal) = false
    rw [hnan]
    rfl
  have hreply : floatCompare.reply (ieee noFloats) nanCtx nanQuestion = .bool true := by
    show Reply.bool (decide (relate .double (0x7fc00000 : Val) 0x7fc00000 = .equal)) = .bool true
    rw [hequal]
    rfl
  rw [hreply, decides_bool nanCtx_wellFormed nanCtx_typed nanCtx_models, htruth] at hright
  cases hright

/-- The parameter against itself by `UGT`. -/
theorem floats_right_iff_self :
    ((unsignedOrderAny.reply (ieee noFloats) nanCtx ⟨.ugt, .bool, 2, 2, 0⟩).Decides nanCtx nanRun
        ⟨.ugt, .bool, 2, 2, 0⟩ ↔ SelfIsNumber nanCtx nanRun ⟨.ugt, .bool, 2, 2, 0⟩) ∧
      ((.ugt : IrOp) = .eq → (Opposite noFloats nanCtx ⟨.ugt, .bool, 2, 2, 0⟩ ↔
        FloatsSame nanCtx nanRun ⟨.ugt, .bool, 2, 2, 0⟩)) :=
  floats_right_iff nanCtx_wellFormed nanCtx_typed ⟨rfl, rfl, rfl, rfl⟩ (by decide)
    (by simp [floatRules]) ⟨.nop, .nop, Or.inl rfl, Or.inl rfl, rfl⟩ nanCtx_models nanCtx_floats

end IrJit.Fold
