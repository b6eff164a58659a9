import IrJit.Load.Strings
import IrJit.Fold.Exact

/-!
# Load.Literals — constants in the text of a function (`const`, `read_dec`, `read_hex`)

The readers of literals compute modulo `2 ^ 64`, whatever the type of the constant is.  The value passed to
`ir_const` is the extension of its low bits when, and only when, the literal is congruent to a number of the type.
-/

namespace IrJit.Load

/-! ## Tokens -/

def isDigit (ch : Byte) : Bool := decide (0x30 ≤ ch.toNat) && decide (ch.toNat ≤ 0x39)

/-- `[0-9A-Fa-f]` -/
def isHexDigit (ch : Byte) : Bool :=
  isDigit ch || (decide (0x41 ≤ ch.toNat) && decide (ch.toNat ≤ 0x46))
    || (decide (0x61 ≤ ch.toNat) && decide (ch.toNat ≤ 0x66))

/-- The rule `DECNUMBER: /[\-]?[0-9]+/`. -/
def decNumberToken : Language Byte :=
  {text | ∃ digits, digits ≠ [] ∧ (∀ ch ∈ digits, isDigit ch) ∧ (text = digits ∨ text = 0x2d :: digits)}

/-- The rule `HEXNUMBER: /0x[0-9A-Fa-f]+/`. -/
def hexNumberToken : Language Byte :=
  {text | ∃ digits, digits ≠ [] ∧ (∀ ch ∈ digits, isHexDigit ch) ∧ text = 0x30 :: 0x78 :: digits}

/-- The rule `CHARACTER: /'([^'\\]|\\.)*'/`. -/
def characterToken : Language Byte := Quoted.token 0x27 0x5c

/-- What the rule `const` accepts. -/
inductive Literal
  | decNumber (text : List Byte) (rule : text ∈ decNumberToken)
  | hexNumber (text : List Byte) (rule : text ∈ hexNumberToken)
  | floatNumber (text : List Byte)
  | character (text : List Byte) (rule : text ∈ characterToken)
  | inf | nan | minusInf

/-! ## The readers -/

/-- The loop of `read_dec`. -/
def readDigits (p : List Byte) : BitVec 64 :=
  (p.drop 1).foldl (fun ret ch => ret * 10 + (ch.setWidth 64 - 0x30)) ((p.getD 0 0).setWidth 64 - 0x30)

/-- `read_dec`. -/
def readDec (text : List Byte) : BitVec 64 :=
  if text.getD 0 0 = 0x2d then ~~~readDigits (text.drop 1) + 1 else readDigits text

/-- The value of a hexadecimal digit. -/
def hexDigit (ch : Byte) : BitVec 64 :=
  if isDigit ch then ch.setWidth 64 - 0x30
  else if 0x61 ≤ ch.toNat ∧ ch.toNat ≤ 0x66 then ch.setWidth 64 - 0x61 + 10
  else ch.setWidth 64 - 0x41 + 10

/-- `read_hex`. -/
def readHex (p : List Byte) : BitVec 64 :=
  (p.drop 1).foldl (fun ret ch => (ret <<< 4) ||| hexDigit ch) (hexDigit (p.getD 0 0))

/-- The functions of the C library that read floating point numbers. -/
structure Libc where
  atof : List Byte → BitVec 64
  strtof : List Byte → BitVec 32

/-- The messages of `yy_error`. -/
inductive ConstError
  | unexpectedFloatNumber | unexpectedCharacter | unexpectedInf | unexpectedNan | unexpectedMinusInf
  | escape (e : UnescapeError)
  deriving DecidableEq

/-- The rule `const`: the value that is passed to `ir_const`. -/
def constValue (libc : Libc) (t : IrType) : Literal → Except ConstError (BitVec 64)
  | .decNumber text _ =>
    .ok (if t = .double then libc.atof text
      else if t = .float then (libc.strtof text).setWidth 64
      else readDec text)
  | .hexNumber text _ => .ok (readHex (text.drop 2))
  | .floatNumber text =>
    if t = .double then .ok (libc.atof text)
    else if t = .float then .ok ((libc.strtof text).setWidth 64)
    else .error .unexpectedFloatNumber
  | .character text _ =>
    if t.isInt = false then .error .unexpectedCharacter
    else if text.getD 1 0 ≠ 0x5c then .ok ((text.getD 1 0).signExtend 64)
    else
      match yyUnescapeChar (text.drop 2) with
      | .ok (ch, _) => .ok (ch.signExtend 64)
      | .error e => .error (.escape e)
  | .inf =>
    if t = .double then .ok 0x7ff0000000000000
    else if t = .float then .ok 0x7f800000
    else .error .unexpectedInf
  | .nan =>
    if t = .double then .ok 0x7ff8000000000000
    else if t = .float then .ok 0x7fc00000
    else .error .unexpectedNan
  | .minusInf =>
    if t = .double then .ok 0xfff0000000000000
    else if t = .float then .ok 0xff800000
    else .error .unexpectedMinusInf

/-! ## The numbers that literals stand for -/

def decDigitValue (ch : Byte) : ℤ := ch.toNat - 0x30

def hexDigitValue (ch : Byte) : ℤ :=
  if isDigit ch then ch.toNat - 0x30 else if 0x61 ≤ ch.toNat then ch.toNat - 0x61 + 10 else ch.toNat - 0x41 + 10

/-- Digits, the highest one first. -/
def numeral (base : ℤ) (digit : Byte → ℤ) (digits : List Byte) : ℤ :=
  digits.foldl (fun n ch => n * base + digit ch) 0

/-- The number that a literal of an integer type stands for; none when it is rejected. -/
def Literal.value : Literal → Option ℤ
  | .decNumber text _ =>
    some (if text.getD 0 0 = 0x2d then -numeral 10 decDigitValue (text.drop 1) else numeral 10 decDigitValue text)
  | .hexNumber text _ => some (numeral 16 hexDigitValue (text.drop 2))
  | .character text _ =>
    if text.getD 1 0 ≠ 0x5c then some (text.getD 1 0).toInt
    else (yyUnescapeChar (text.drop 2)).toOption.map fun (ch, _) => ch.toInt
  | _ => none

/-- The numbers of an integer type of this width and sign. -/
def Fits (t : IrType) (x : ℤ) : Prop :=
  if t.isSigned then -2 ^ (Fold.bits t - 1) ≤ x ∧ x < 2 ^ (Fold.bits t - 1) else 0 ≤ x ∧ x < 2 ^ Fold.bits t

instance {t : IrType} {x : ℤ} : Decidable (Fits t x) :=
  inferInstanceAs (Decidable (if t.isSigned then -2 ^ (Fold.bits t - 1) ≤ x ∧ x < 2 ^ (Fold.bits t - 1)
    else 0 ≤ x ∧ x < 2 ^ Fold.bits t))

/-- Modulo `2 ^ 64` the literal is a number of the type, or it is rejected. -/
def Literal.FitsModulo (t : IrType) (l : Literal) : Prop :=
  ∀ z, l.value = some z → ∃ x, Fits t x ∧ x ≡ z [ZMOD 2 ^ 64]

/-- The value is extended from the width of the type. -/
def Extended (t : IrType) (v : BitVec 64) : Prop :=
  v = if t.isSigned then (v.setWidth (Fold.bits t)).signExtend 64 else (v.setWidth (Fold.bits t)).setWidth 64

instance {t : IrType} {v : BitVec 64} : Decidable (Extended t v) := inferInstanceAs (Decidable (v = _))

/-- A value that is extended, so that no other such value has the same low bits. -/
def CanonicalConst (t : IrType) (v : BitVec 64) : Prop :=
  Extended t v ∧ ∀ v', Extended t v' → v'.setWidth (Fold.bits t) = v.setWidth (Fold.bits t) → v' = v

variable {t : IrType} {v : BitVec 64} {z : ℤ} {l : Literal} {libc : Libc} {text digits : List Byte}

/-! ## What the readers compute -/

theorem foldl_ofInt (base : ℤ) (digit : Byte → ℤ) (step : BitVec 64 → Byte → BitVec 64)
    (h : ∀ n, ∀ ch ∈ digits, step (BitVec.ofInt 64 n) ch = BitVec.ofInt 64 (n * base + digit ch)) (n : ℤ) :
    digits.foldl step (BitVec.ofInt 64 n) = BitVec.ofInt 64 (digits.foldl (fun n ch => n * base + digit ch) n) := by
  induction digits generalizing n with
  | nil => rfl
  | cons ch rest ih =>
    rw [List.foldl_cons, List.foldl_cons, h n ch List.mem_cons_self]
    exact ih (fun n c hc => h n c (List.mem_cons_of_mem ch hc)) _

theorem decDigit_ofInt (ch : Byte) : ch.setWidth 64 - 0x30 = BitVec.ofInt 64 (decDigitValue ch) := by
  have hneg : -(0x30#64) = BitVec.ofInt 64 (-48) := by decide
  rw [decDigitValue, Int.sub_eq_add_neg, BitVec.ofInt_add, BitVec.ofInt_natCast, BitVec.ofNat_toNat,
    BitVec.sub_eq_add_neg]
  exact congrArg _ hneg

theorem hexDigit_ofInt : ∀ ch : Byte, isHexDigit ch = true →
    hexDigit ch = BitVec.ofInt 64 (hexDigitValue ch) ∧ 0 ≤ hexDigitValue ch ∧ hexDigitValue ch < 16 := by
  decide

/-- Appending a hexadecimal digit. -/
theorem shift_or_ofInt {n d : ℤ} (h0 : 0 ≤ d) (h1 : d < 16) :
    (BitVec.ofInt 64 n <<< 4) ||| BitVec.ofInt 64 d = BitVec.ofInt 64 (n * 16 + d) := by
  obtain ⟨k, rfl⟩ := Int.eq_ofNat_of_zero_le h0
  have hdisjoint : (BitVec.ofInt 64 n <<< 4) &&& BitVec.ofNat 64 k = 0#64 := by
    ext i hi
    rw [BitVec.getElem_and, BitVec.getElem_zero, BitVec.getElem_shiftLeft, BitVec.getElem_eq_testBit_toNat _ _ hi,
      BitVec.toNat_ofNat, Nat.mod_eq_of_lt (by omega)]
    by_cases h4 : i < 4
    · simp [h4]
    · have hk : k < 2 ^ i := lt_of_lt_of_le (by omega : k < 2 ^ 4) (Nat.pow_le_pow_right (by omega) (by omega))
      rw [Nat.testBit_lt_two_pow hk, Bool.and_false]
  rw [BitVec.ofInt_add, BitVec.ofInt_mul, BitVec.ofInt_natCast, ← BitVec.add_eq_or_of_and_eq_zero _ _ hdisjoint,
    BitVec.shiftLeft_eq_mul_twoPow]
  rfl

theorem numeral_cons (base : ℤ) (digit : Byte → ℤ) (ch : Byte) :
    numeral base digit (ch :: digits) = digits.foldl (fun n ch => n * base + digit ch) (digit ch) := by
  rw [numeral, List.foldl_cons, Int.zero_mul, Int.zero_add]

theorem readDigits_eq (hne : digits ≠ []) : readDigits digits = BitVec.ofInt 64 (numeral 10 decDigitValue digits) := by
  obtain ⟨ch, rest, rfl⟩ := List.exists_cons_of_ne_nil hne
  rw [readDigits, numeral_cons, List.drop_one, List.tail_cons, List.getD_cons_zero, decDigit_ofInt]
  refine foldl_ofInt 10 decDigitValue _ (fun n c _ => ?_) _
  rw [decDigit_ofInt, BitVec.ofInt_add, BitVec.ofInt_mul]
  rfl

theorem readDec_eq (rule : text ∈ decNumberToken) (h : Literal.value (.decNumber text rule) = some z) :
    readDec text = BitVec.ofInt 64 z := by
  simp only [Literal.value, Option.some.injEq] at h
  subst h
  obtain ⟨digits, hne, hdigits, htext⟩ := rule
  unfold readDec
  rcases htext with rfl | rfl
  · have hfirst : text.getD 0 0 ≠ 0x2d := by
      obtain ⟨ch, rest, rfl⟩ := List.exists_cons_of_ne_nil hne
      have hdigit := hdigits ch List.mem_cons_self
      rw [List.getD_cons_zero]
      rintro rfl
      exact absurd hdigit (by decide)
    rw [if_neg hfirst, if_neg hfirst]
    exact readDigits_eq hne
  · rw [List.getD_cons_zero, if_pos rfl, if_pos rfl, List.drop_one, List.tail_cons, readDigits_eq hne, BitVec.ofInt_neg]
    exact (BitVec.neg_eq_not_add _).symm

theorem readHex_eq (rule : text ∈ hexNumberToken) (h : Literal.value (.hexNumber text rule) = some z) :
    readHex (text.drop 2) = BitVec.ofInt 64 z := by
  obtain ⟨digits, hne, hdigits, rfl⟩ := rule
  obtain ⟨ch, rest, rfl⟩ := List.exists_cons_of_ne_nil hne
  simp only [Literal.value, Option.some.injEq, List.drop_succ_cons, List.drop_zero] at h
  subst h
  simp only [readHex, List.drop_succ_cons, List.drop_zero, List.getD_cons_zero,
    (hexDigit_ofInt ch (hdigits ch List.mem_cons_self)).1, numeral_cons]
  refine foldl_ofInt 16 hexDigitValue _ (fun n c hc => ?_) _
  obtain ⟨heq, h0, h1⟩ := hexDigit_ofInt c (hdigits c (List.mem_cons_of_mem ch hc))
  rw [heq]
  exact shift_or_ofInt h0 h1

/-- **The value passed to `ir_const` is the number of the literal modulo `2 ^ 64`, whatever the integer type is.** -/
theorem constValue_eq (ht : Fold.IsInt t) :
    constValue libc t l = .ok v ↔ ∃ z, l.value = some z ∧ v = BitVec.ofInt 64 z := by
  have hdouble : t ≠ .double := by rintro rfl; exact absurd ht.1 (by decide)
  have hfloat : t ≠ .float := by rintro rfl; exact absurd ht.1 (by decide)
  cases l with
  | decNumber text rule =>
    simp only [constValue, if_neg hdouble, if_neg hfloat, Except.ok.injEq]
    constructor
    · rintro rfl
      exact ⟨_, rfl, readDec_eq rule rfl⟩
    · rintro ⟨z, hz, rfl⟩
      exact readDec_eq rule hz
  | hexNumber text rule =>
    simp only [constValue, Except.ok.injEq]
    constructor
    · rintro rfl
      exact ⟨_, rfl, readHex_eq rule rfl⟩
    · rintro ⟨z, hz, rfl⟩
      exact readHex_eq rule hz
  | character text rule =>
    have hint : ¬ t.isInt = false := by rw [ht.1]; decide
    simp only [constValue, Literal.value, if_neg hint]
    split_ifs with hplain
    · simp [BitVec.signExtend, eq_comm]
    · cases yyUnescapeChar (text.drop 2) with
      | error e => simp [Except.toOption]
      | ok r => simp [Except.toOption, BitVec.signExtend, eq_comm]
  | floatNumber => simp [constValue, Literal.value, hdouble, hfloat]
  | inf => simp [constValue, Literal.value, hdouble, hfloat]
  | nan => simp [constValue, Literal.value, hdouble, hfloat]
  | minusInf => simp [constValue, Literal.value, hdouble, hfloat]

/-! ## Extended values -/

theorem bmod_eq_toI {w : ℕ} (hw : 0 < w) (n : ℤ) : n.bmod (2 ^ w) = Fold.toI w n := by
  have hdouble : (2 : ℤ) ^ w = 2 * 2 ^ (w - 1) := by
    rw [← pow_succ', Nat.sub_add_cancel hw]
  have hpos : (0 : ℤ) < 2 ^ (w - 1) := by positivity
  have hnonneg := Int.emod_nonneg (n + 2 ^ (w - 1)) (by omega : (2 : ℤ) ^ w ≠ 0)
  have hlt := Int.emod_lt_of_pos (n + 2 ^ (w - 1)) (by omega : (0 : ℤ) < 2 ^ w)
  have hdiv := Int.emod_add_mul_ediv (n + 2 ^ (w - 1)) (2 ^ w)
  rw [Int.bmod_eq_iff (by positivity), Fold.toI]
  push_cast
  refine ⟨by omega, by omega, -((n + 2 ^ (w - 1)) / 2 ^ w), ?_⟩
  rw [mul_neg]
  omega

/-- The extension is the value that the low bits stand for. -/
theorem extended_iff (ht : Fold.IsInt t) : Extended t v ↔ v = BitVec.ofInt 64 (Fold.valueOf t v) := by
  have hunsigned : ∀ w, (v.setWidth w).setWidth 64 = BitVec.ofInt 64 (Fold.toU w v.toNat) := by
    intro w
    have hcast : Fold.toU w v.toNat = ((v.toNat % 2 ^ w : ℕ) : ℤ) := by
      rw [Fold.toU]
      push_cast
      rfl
    rw [hcast, BitVec.ofInt_natCast]
    apply BitVec.eq_of_toNat_eq
    rw [BitVec.toNat_setWidth, BitVec.toNat_setWidth, BitVec.toNat_ofNat]
  have hsigned : ∀ w, 0 < w → (v.setWidth w).signExtend 64 = BitVec.ofInt 64 (Fold.toI w v.toNat) := by
    intro w hw
    rw [BitVec.signExtend, BitVec.toInt_setWidth, bmod_eq_toI hw]
  have hbits : 0 < Fold.bits t := by
    obtain ⟨h1, h2⟩ := ht
    cases t <;> simp [IrType.isInt] at h1 h2 <;> decide
  unfold Extended Fold.valueOf Fold.wrap
  split_ifs
  · rw [hsigned _ hbits]
  · rw [hunsigned]

theorem valueOf_fits (ht : Fold.IsInt t) : Fits t (Fold.valueOf t v) := by
  obtain ⟨h1, h2⟩ := ht
  unfold Fits Fold.valueOf Fold.wrap
  cases t <;> simp [IrType.isInt] at h1 h2 <;>
    simp [IrType.isSigned, Fold.bits, IrType.size, Fold.toU, Fold.toI] <;> omega

theorem valueOf_of_fits (ht : Fold.IsInt t) {x : ℤ} (hx : Fits t x) : Fold.valueOf t (BitVec.ofInt 64 x) = x := by
  obtain ⟨h1, h2⟩ := ht
  unfold Fold.valueOf
  rw [Fold.toNat_ofInt]
  cases t <;> simp [IrType.isInt] at h1 h2 <;>
    simp [Fits, IrType.isSigned, Fold.bits, IrType.size] at hx <;>
    simp [Fold.wrap, IrType.isSigned, Fold.bits, IrType.size, Fold.toU, Fold.toI] <;> omega

theorem extended_ofInt (ht : Fold.IsInt t) : Extended t (BitVec.ofInt 64 z) ↔ ∃ x, Fits t x ∧ x ≡ z [ZMOD 2 ^ 64] := by
  rw [extended_iff ht]
  constructor
  · intro h
    exact ⟨_, valueOf_fits ht, (Fold.ofInt_eq_iff.mp h).symm⟩
  · rintro ⟨x, hx, hmod⟩
    have heq : BitVec.ofInt 64 z = BitVec.ofInt 64 x := Fold.ofInt_eq_iff.mpr hmod.symm
    rw [heq, valueOf_of_fits ht hx]

/-- **A literal of an integer type becomes a canonical constant, or is rejected, exactly when it is a number of the
type modulo `2 ^ 64`.** -/
theorem literal_const_canonical (libc : Libc) (t : IrType) (ht : Fold.IsInt t) (l : Literal) :
    (∀ v, constValue libc t l = .ok v → CanonicalConst t v) ↔ l.FitsModulo t := by
  constructor
  · intro h z hz
    exact (extended_ofInt ht).mp (h _ ((constValue_eq ht).mpr ⟨z, hz, rfl⟩)).1
  · intro h v hv
    obtain ⟨z, hz, rfl⟩ := (constValue_eq ht).mp hv
    have hext := (extended_ofInt ht).mpr (h z hz)
    refine ⟨hext, fun v' hv' hlow => ?_⟩
    unfold Extended at hext hv'
    rw [hext, hv', hlow]

/-! ## A literal out of range -/

/-- `-1` -/
def minusOne : Literal := .decNumber [0x2d, 0x31] ⟨[0x31], by decide, by decide, Or.inr rfl⟩

/-- `255` -/
def twoHundredFiftyFive : Literal :=
  .decNumber [0x32, 0x35, 0x35] ⟨[0x32, 0x35, 0x35], by decide, by decide, Or.inl rfl⟩

theorem twoHundredFiftyFive_canonical :
    constValue ⟨fun _ => 0, fun _ => 0⟩ .u8 twoHundredFiftyFive = .ok 255 ∧ CanonicalConst .u8 255 := by
  refine ⟨rfl, (literal_const_canonical ⟨fun _ => 0, fun _ => 0⟩ .u8 ⟨rfl, by decide⟩ twoHundredFiftyFive).mpr
    (fun z hz => ⟨255, by decide, ?_⟩) 255 rfl⟩
  obtain rfl : (255 : ℤ) = z := Option.some.inj hz
  rfl

/-- `uint8_t c = -1` has the low bits of `uint8_t c = 255`, but is another constant. -/
theorem minusOne_not_canonical :
    ¬ ∀ v, constValue ⟨fun _ => 0, fun _ => 0⟩ .u8 minusOne = .ok v → CanonicalConst .u8 v := by
  intro h
  have hext : Extended .u8 0xffffffffffffffff := (h _ rfl).1
  exact absurd hext (by decide)

end IrJit.Load
