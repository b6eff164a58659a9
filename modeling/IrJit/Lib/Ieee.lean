import Mathlib

/-!
# Lib.Ieee — binary interchange formats

A pattern is a natural number; bits above the width of the format are not read.  A finite datum is an
integer number of units, the unit being the least subnormal of the format, so that nothing is rounded.
-/

namespace IrJit.Ieee

/-! ## Relations -/

/-- The relations of two data. -/
inductive Relation
  | less
  | equal
  | greater
  | unordered
  deriving DecidableEq

/-- The relation with the operands exchanged. -/
def Relation.swap : Relation → Relation
  | .less => .greater
  | .greater => .less
  | r => r

section Order

variable {α β : Type} [LinearOrder α] [LinearOrder β]

/-- `none` is a NaN. -/
def relation : Option α → Option α → Relation
  | some x, some y => if x < y then .less else if x = y then .equal else .greater
  | _, _ => .unordered

theorem relation_swap (a b : Option α) : relation b a = (relation a b).swap := by
  cases a with
  | none => cases b <;> rfl
  | some x =>
    cases b with
    | none => rfl
    | some y =>
      simp only [relation]
      rcases lt_trichotomy x y with h | h | h
      · rw [if_neg h.not_gt, if_neg h.ne', if_pos h]
        rfl
      · rw [if_neg h.ge.not_gt, if_pos h.symm, if_neg h.le.not_gt, if_pos h]
        rfl
      · rw [if_pos h, if_neg h.not_gt, if_neg h.ne']
        rfl

@[simp] theorem relation_none_right (a : Option α) : relation a none = .unordered := by
  cases a <;> rfl

@[simp] theorem relation_none_left (b : Option α) : relation none b = .unordered := rfl

theorem relation_self (a : Option α) : relation a a = if a = none then .unordered else .equal := by
  cases a with
  | none => rfl
  | some x => simp [relation]

theorem relation_eq_unordered {a b : Option α} : relation a b = .unordered ↔ a = none ∨ b = none := by
  cases a with
  | none => simp
  | some x =>
    cases b with
    | none => simp
    | some y =>
      simp only [relation.eq_def]
      split_ifs <;> simp

theorem relation_eq_equal {a b : Option α} : relation a b = .equal ↔ a = b ∧ a ≠ none := by
  cases a with
  | none => simp
  | some x =>
    cases b with
    | none => simp
    | some y =>
      simp only [relation.eq_def]
      split_ifs with h1 h2
      · simp [h1.ne]
      · simp [h2]
      · simp [h2]

/-- A strictly monotone function keeps the relations. -/
theorem relation_map {f : α → β} (hf : StrictMono f) (a b : Option α) :
    relation (a.map f) (b.map f) = relation a b := by
  cases a with
  | none => rfl
  | some x =>
    cases b with
    | none => rfl
    | some y => simp only [Option.map_some, relation, hf.lt_iff_lt, hf.injective.eq_iff]

end Order

/-! ## Formats -/

/-- The bits of the exponent and of the fraction. -/
structure Format where
  exp : ℕ
  frac : ℕ

def binary32 : Format := ⟨8, 23⟩
def binary64 : Format := ⟨11, 52⟩

/-- A number of units or an infinity. -/
abbrev Datum := WithBot (WithTop ℤ)

namespace Format

variable (f : Format) (p : ℕ)

def bias : ℕ := 2 ^ (f.exp - 1) - 1

/-- All ones. -/
def top : ℕ := 2 ^ f.exp - 1

def fraction : ℕ := p % 2 ^ f.frac
def exponent : ℕ := p / 2 ^ f.frac % 2 ^ f.exp
def negative : Bool := p / 2 ^ (f.exp + f.frac) % 2 = 1

/-- The units of a finite pattern without its sign. -/
def magnitude : ℕ :=
  if f.exponent p = 0 then f.fraction p else (2 ^ f.frac + f.fraction p) * 2 ^ (f.exponent p - 1)

def units : ℤ := if f.negative p then -(f.magnitude p : ℤ) else f.magnitude p

def isNaN : Bool := f.exponent p = f.top && f.fraction p ≠ 0

def decode : Option Datum :=
  if f.exponent p = f.top then
    if f.fraction p = 0 then some (if f.negative p then ⊥ else ((⊤ : WithTop ℤ) : Datum)) else none
  else some ((f.units p : WithTop ℤ) : Datum)

/-- The pattern of the three fields. -/
def pack (s : Bool) (e m : ℕ) : ℕ := (if s then 2 ^ (f.exp + f.frac) else 0) + (e * 2 ^ f.frac + m)

/-- The pattern without its sign. -/
def abs : ℕ := p % 2 ^ (f.exp + f.frac)

/-! ## Fields -/

theorem fraction_lt : f.fraction p < 2 ^ f.frac := Nat.mod_lt _ (by positivity)

theorem exponent_lt : f.exponent p < 2 ^ f.exp := Nat.mod_lt _ (by positivity)

theorem abs_eq : f.abs p = f.exponent p * 2 ^ f.frac + f.fraction p := by
  unfold abs exponent fraction
  rw [Nat.add_comm f.exp, pow_add, Nat.mod_mul]
  ring

/-- The bits that are read. -/
theorem mod_eq : p % 2 ^ (f.exp + f.frac + 1) =
    f.abs p + if f.negative p then 2 ^ (f.exp + f.frac) else 0 := by
  rw [pow_succ, Nat.mod_mul]
  have h2 := Nat.mod_lt (p / 2 ^ (f.exp + f.frac)) (by norm_num : 2 > 0)
  unfold abs negative
  by_cases h : p / 2 ^ (f.exp + f.frac) % 2 = 1
  · simp [h]
  · have h0 : p / 2 ^ (f.exp + f.frac) % 2 = 0 := by omega
    simp [h0]

section Pack

variable {f} {s : Bool} {e m : ℕ} (he : e < 2 ^ f.exp) (hm : m < 2 ^ f.frac)

include hm

theorem fraction_pack : f.fraction (f.pack s e m) = m := by
  have hdvd : 2 ^ f.frac ∣ (if s then 2 ^ (f.exp + f.frac) else 0) + e * 2 ^ f.frac := by
    cases s
    · simp
    · exact Nat.dvd_add (pow_dvd_pow 2 (Nat.le_add_left _ _)) (dvd_mul_left _ _)
  unfold fraction pack
  rw [← Nat.add_assoc, Nat.add_mod, Nat.dvd_iff_mod_eq_zero.1 hdvd, Nat.zero_add, Nat.mod_mod,
    Nat.mod_eq_of_lt hm]

include he

omit hm in
theorem body_lt (hm : m < 2 ^ f.frac) : e * 2 ^ f.frac + m < 2 ^ (f.exp + f.frac) := by
  have h : (e + 1) * 2 ^ f.frac ≤ 2 ^ f.exp * 2 ^ f.frac := Nat.mul_le_mul_right _ he
  rw [pow_add]
  linarith

theorem abs_pack : f.abs (f.pack s e m) = e * 2 ^ f.frac + m := by
  unfold abs pack
  cases s
  · simp [Nat.mod_eq_of_lt (body_lt he hm)]
  · simp [Nat.mod_eq_of_lt (body_lt he hm)]

theorem exponent_pack : f.exponent (f.pack s e m) = e := by
  have h := abs_pack (s := s) he hm
  rw [abs_eq, fraction_pack hm] at h
  exact Nat.eq_of_mul_eq_mul_right (by positivity) (Nat.add_right_cancel h)

theorem negative_pack : f.negative (f.pack s e m) = s := by
  have hpos : 0 < 2 ^ (f.exp + f.frac) := by positivity
  have hlt := body_lt he hm
  unfold negative pack
  cases s
  · simp [Nat.div_eq_of_lt hlt]
  · rw [if_pos rfl, Nat.add_div_left _ hpos, Nat.div_eq_of_lt hlt]
    rfl

end Pack

/-! ## Data -/

theorem decode_eq_none : f.decode p = none ↔ f.isNaN p = true := by
  unfold decode isNaN
  split_ifs <;> simp_all

theorem isNaN_eq_false : f.isNaN p = false ↔ f.decode p ≠ none := by
  rw [Ne, decode_eq_none, Bool.not_eq_true]

variable {f p} {q : ℕ}

theorem decode_of_exponent (h : f.exponent p ≠ f.top) :
    f.decode p = some ((f.units p : WithTop ℤ) : Datum) := if_neg h

theorem magnitude_lt (h : f.exponent p < f.exponent q) : f.magnitude p < f.magnitude q := by
  have hp := f.fraction_lt p
  unfold magnitude
  rw [if_neg (by omega : f.exponent q ≠ 0)]
  have hle : 2 ^ f.frac * 2 ^ (f.exponent q - 1) ≤
      (2 ^ f.frac + f.fraction q) * 2 ^ (f.exponent q - 1) := Nat.mul_le_mul_right _ (by omega)
  refine lt_of_lt_of_le ?_ hle
  split_ifs with h0
  · exact lt_of_lt_of_le hp (Nat.le_mul_of_pos_right _ (by positivity))
  · calc (2 ^ f.frac + f.fraction p) * 2 ^ (f.exponent p - 1)
        < (2 ^ f.frac + 2 ^ f.frac) * 2 ^ (f.exponent p - 1) :=
          Nat.mul_lt_mul_of_pos_right (by omega) (by positivity)
      _ = 2 ^ f.frac * 2 ^ (f.exponent p - 1 + 1) := by ring
      _ ≤ 2 ^ f.frac * 2 ^ (f.exponent q - 1) :=
          Nat.mul_le_mul_left _ (Nat.pow_le_pow_right (by norm_num) (by omega))

theorem magnitude_eq_zero : f.magnitude p = 0 ↔ f.abs p = 0 := by
  have hpos : 0 < 2 ^ f.frac := by positivity
  rw [abs_eq]
  unfold magnitude
  split_ifs with h
  · rw [h]
    omega
  · refine iff_of_false ?_ ?_
    · exact (Nat.mul_pos (by omega) (by positivity)).ne'
    · have := Nat.mul_pos (Nat.pos_of_ne_zero h) hpos
      omega

/-- The magnitude determines the pattern but for the sign. -/
theorem abs_eq_of_magnitude (h : f.magnitude p = f.magnitude q) : f.abs p = f.abs q := by
  have he : f.exponent p = f.exponent q := by
    rcases lt_trichotomy (f.exponent p) (f.exponent q) with hlt | heq | hgt
    · exact absurd h (magnitude_lt hlt).ne
    · exact heq
    · exact absurd h (magnitude_lt hgt).ne'
  rw [abs_eq, abs_eq, he]
  congr 1
  unfold magnitude at h
  rw [he] at h
  split_ifs at h
  · exact h
  · have := Nat.eq_of_mul_eq_mul_right (by positivity) h
    omega

theorem decode_eq_zero (hexp : f.exp ≠ 0) (h : f.abs p = 0) : f.decode p = some 0 := by
  have hm := magnitude_eq_zero.2 h
  have htop : f.exponent p ≠ f.top := by
    rw [abs_eq] at h
    have h0 : f.exponent p = 0 := by
      have hmul : f.exponent p * 2 ^ f.frac = 0 := by omega
      exact (Nat.mul_eq_zero.1 hmul).resolve_right (by positivity)
    have htwo := Nat.one_lt_two_pow hexp
    unfold top
    omega
  rw [decode_of_exponent htop]
  unfold units
  rw [hm]
  simp

/-- The bits that are read are those of the sign and of the rest. -/
theorem mod_congr (hs : f.negative p = f.negative q) (ha : f.abs p = f.abs q) :
    p % 2 ^ (f.exp + f.frac + 1) = q % 2 ^ (f.exp + f.frac + 1) := by
  rw [mod_eq, mod_eq, hs, ha]

theorem abs_congr (h : p % 2 ^ (f.exp + f.frac + 1) = q % 2 ^ (f.exp + f.frac + 1)) :
    f.abs p = f.abs q := by
  have hdvd : 2 ^ (f.exp + f.frac) ∣ 2 ^ (f.exp + f.frac + 1) := pow_dvd_pow 2 (Nat.le_succ _)
  unfold abs
  rw [← Nat.mod_mod_of_dvd p hdvd, ← Nat.mod_mod_of_dvd q hdvd, h]

theorem negative_congr (h : p % 2 ^ (f.exp + f.frac + 1) = q % 2 ^ (f.exp + f.frac + 1)) :
    f.negative p = f.negative q := by
  have habs := abs_congr h
  have hpos : 0 < 2 ^ (f.exp + f.frac) := by positivity
  rw [mod_eq, mod_eq, habs] at h
  cases hp : f.negative p <;> cases hq : f.negative q <;> simp [hp, hq] at h ⊢

theorem fields_congr (h : f.abs p = f.abs q) :
    f.exponent p = f.exponent q ∧ f.fraction p = f.fraction q := by
  have hp := f.fraction_lt p
  have hq := f.fraction_lt q
  rw [abs_eq, abs_eq] at h
  have hf : f.fraction p = f.fraction q := by
    have hmod := congrArg (· % 2 ^ f.frac) h
    simpa [Nat.add_mod, Nat.mod_eq_of_lt hp, Nat.mod_eq_of_lt hq] using hmod
  rw [hf] at h
  exact ⟨Nat.eq_of_mul_eq_mul_right (by positivity) (Nat.add_right_cancel h), hf⟩

theorem decode_congr (hs : f.negative p = f.negative q) (ha : f.abs p = f.abs q) :
    f.decode p = f.decode q := by
  obtain ⟨he, hf⟩ := fields_congr ha
  unfold decode units magnitude
  rw [he, hf, hs]

/-- Bits above the width are not read. -/
theorem decode_mod (p : ℕ) : f.decode (p % 2 ^ (f.exp + f.frac + 1)) = f.decode p := by
  have hmod : p % 2 ^ (f.exp + f.frac + 1) % 2 ^ (f.exp + f.frac + 1) =
      p % 2 ^ (f.exp + f.frac + 1) := Nat.mod_mod _ _
  exact decode_congr (negative_congr hmod) (abs_congr hmod)

/-- Units of a sign and a magnitude. -/
theorem units_eq_units (h : f.units p = f.units q) :
    f.magnitude p = f.magnitude q ∧ (f.magnitude p ≠ 0 → f.negative p = f.negative q) := by
  unfold units at h
  cases hp : f.negative p <;> cases hq : f.negative q <;> simp [hp, hq] at h ⊢ <;> omega

theorem infinity_congr (hp : f.exponent p = f.top) (hq : f.exponent q = f.top)
    (h0 : f.fraction p = 0) (heq : f.decode p = f.decode q) :
    f.negative p = f.negative q ∧ f.abs p = f.abs q := by
  unfold decode at heq
  rw [if_pos hp, if_pos hq, if_pos h0] at heq
  by_cases h1 : f.fraction q = 0
  · rw [if_pos h1] at heq
    refine ⟨?_, by rw [abs_eq, abs_eq, hp, hq, h0, h1]⟩
    cases hs : f.negative p <;> cases hs' : f.negative q <;> simp [hs, hs'] at heq ⊢
  · rw [if_neg h1] at heq
    cases heq

/-- Patterns of one datum are the same, or they are zeros. -/
theorem relation_decode_eq_equal (hexp : f.exp ≠ 0) : relation (f.decode p) (f.decode q) = .equal ↔
    (p % 2 ^ (f.exp + f.frac + 1) = q % 2 ^ (f.exp + f.frac + 1) ∧ f.isNaN p = false) ∨
      (f.abs p = 0 ∧ f.abs q = 0) := by
  rw [relation_eq_equal, isNaN_eq_false]
  constructor
  · rintro ⟨heq, hne⟩
    by_cases hp : f.exponent p = f.top
    · have h0 : f.fraction p = 0 := by
        by_contra h0
        unfold decode at hne
        rw [if_pos hp, if_neg h0] at hne
        exact hne rfl
      have hq : f.exponent q = f.top := by
        by_contra hq
        rw [decode_of_exponent hq] at heq
        unfold decode at heq
        rw [if_pos hp, if_pos h0] at heq
        cases hs : f.negative p <;> rw [hs] at heq <;> cases heq
      obtain ⟨hs, ha⟩ := infinity_congr hp hq h0 heq
      exact Or.inl ⟨mod_congr hs ha, hne⟩
    · have hq : f.exponent q ≠ f.top := fun hq => by
        rw [decode_of_exponent hp] at heq
        unfold decode at heq
        rw [if_pos hq] at heq
        split_ifs at heq <;> cases heq
      rw [decode_of_exponent hp, decode_of_exponent hq] at heq
      have hu : f.units p = f.units q := by simpa using heq
      obtain ⟨hm, hs⟩ := units_eq_units hu
      have ha := abs_eq_of_magnitude hm
      by_cases h0 : f.magnitude p = 0
      · exact Or.inr ⟨magnitude_eq_zero.1 h0, magnitude_eq_zero.1 (hm ▸ h0)⟩
      · exact Or.inl ⟨mod_congr (hs h0) ha, hne⟩
  · rintro (⟨hmod, hne⟩ | ⟨hp, hq⟩)
    · exact ⟨decode_congr (negative_congr hmod) (abs_congr hmod), hne⟩
    · rw [decode_eq_zero hexp hp, decode_eq_zero hexp hq]
      exact ⟨rfl, Option.some_ne_none _⟩

/-- The sign of a pattern does not matter for being a number. -/
theorem decode_abs (p : ℕ) : f.negative (f.abs p) = false ∧ f.isNaN (f.abs p) = f.isNaN p ∧
    f.magnitude (f.abs p) = f.magnitude p := by
  have hself : f.abs (f.abs p) = f.abs p := Nat.mod_mod _ _
  obtain ⟨he, hf⟩ := fields_congr hself
  refine ⟨?_, ?_, ?_⟩
  · unfold negative abs
    rw [Nat.div_eq_of_lt (Nat.mod_lt _ (by positivity))]
    rfl
  · unfold isNaN
    rw [he, hf]
  · unfold magnitude
    rw [he, hf]

/-- What has no sign is not below zero. -/
theorem relation_abs_zero (p : ℕ) : relation (f.decode (f.abs p)) (some 0) =
    if f.isNaN p then .unordered else if f.decode (f.abs p) = some 0 then .equal else .greater := by
  obtain ⟨hs, hn, -⟩ := decode_abs (f := f) p
  by_cases hp : f.isNaN p = true
  · rw [if_pos hp, (decode_eq_none f _).2 (hn.trans hp)]
    rfl
  rw [if_neg hp]
  have hne := (isNaN_eq_false f (f.abs p)).1 (hn.trans (Bool.not_eq_true _ ▸ hp))
  by_cases h0 : f.decode (f.abs p) = some 0
  · rw [if_pos h0, h0]
    rfl
  rw [if_neg h0]
  have hge : ∀ d, f.decode (f.abs p) = some d → (0 : Datum) ≤ d := fun d hd => by
    unfold decode units at hd
    rw [hs, if_neg Bool.false_ne_true, if_neg Bool.false_ne_true] at hd
    split_ifs at hd
    · cases hd
      exact WithBot.coe_le_coe.2 le_top
    · cases hd
      exact WithBot.coe_le_coe.2 (WithTop.coe_le_coe.2 (Int.natCast_nonneg _))
  cases hd : f.decode (f.abs p) with
  | none => exact absurd hd hne
  | some d =>
    rw [hd] at h0
    have hlt := (hge d hd).lt_of_ne fun h => h0 (by rw [h])
    simp only [relation]
    rw [if_neg hlt.not_gt, if_neg hlt.ne']

end Format

/-! ## Conversions -/

/-- A number of units in a format whose unit is `2 ^ k` times smaller. -/
def scale (k : ℕ) : Datum → Datum := WithBot.map (WithTop.map (· * 2 ^ k))

theorem scale_strictMono (k : ℕ) : StrictMono (scale k) := by
  have h : StrictMono fun n : ℤ => n * 2 ^ k := fun m n hmn =>
    Int.mul_lt_mul_of_pos_right hmn (by positivity)
  exact h.withTop_map.withBot_map

/-- The format `g` has the data of `f` as normal numbers. -/
structure Wider (f g : Format) : Prop where
  exp : f.exp ≠ 0
  exponents : f.exp ≤ g.exp
  fractions : f.frac ≤ g.frac
  biases : f.bias + f.frac ≤ g.bias
  tops : f.top + (g.bias - f.bias) ≤ g.top

theorem wider_32_64 : Wider binary32 binary64 where
  exp := by decide
  exponents := by decide
  fractions := by decide
  biases := by decide
  tops := by decide

/-- The pattern of `m * 2 ^ (e - 1) * 2 ^ (frac - log2 m)` units. -/
def Format.normal (f : Format) (s : Bool) (e m : ℕ) : ℕ :=
  f.pack s e ((m - 2 ^ m.log2) * 2 ^ (f.frac - m.log2))

/-- The pattern of the same datum in a wider format. -/
def widen (f g : Format) (p : ℕ) : ℕ :=
  if f.exponent p = f.top then g.pack (f.negative p) g.top (f.fraction p * 2 ^ (g.frac - f.frac))
  else if f.exponent p ≠ 0 then
    g.pack (f.negative p) (f.exponent p + (g.bias - f.bias)) (f.fraction p * 2 ^ (g.frac - f.frac))
  else if f.fraction p = 0 then g.pack (f.negative p) 0 0
  else
    g.normal (f.negative p) (g.bias - f.bias + 1 + (f.fraction p).log2 - f.frac) (f.fraction p)

/-- A number of units with a sign. -/
def signed (s : Bool) (n : ℕ) : ℤ := if s then -(n : ℤ) else n

theorem signed_mul (s : Bool) (m n : ℕ) : signed s m * n = signed s (m * n) := by
  cases s
  · exact (Nat.cast_mul m n).symm
  · show -(m : ℤ) * n = -((m * n : ℕ) : ℤ)
    rw [Nat.cast_mul, Int.neg_mul]

theorem scale_coe (k : ℕ) (n : ℤ) :
    scale k ((n : WithTop ℤ) : Datum) = ((n * 2 ^ k : ℤ) : WithTop ℤ) := rfl

theorem scale_zero (k : ℕ) : scale k 0 = 0 := by
  show scale k (((0 : ℤ) : WithTop ℤ) : Datum) = _
  rw [scale_coe, Int.zero_mul]
  rfl

theorem scale_units (k : ℕ) (s : Bool) (n : ℕ) :
    scale k (((signed s n : ℤ) : WithTop ℤ) : Datum) = ((signed s (n * 2 ^ k) : ℤ) : WithTop ℤ) := by
  rw [scale_coe, ← signed_mul, Nat.cast_pow]
  rfl

section Packed

variable {f : Format} {s : Bool} {e m : ℕ}

theorem units_eq_signed (f : Format) (p : ℕ) : f.units p = signed (f.negative p) (f.magnitude p) := rfl

theorem lt_of_lt_top (h : e ≤ f.top) : e < 2 ^ f.exp := by
  have : 0 < 2 ^ f.exp := by positivity
  unfold Format.top at h
  omega

theorem decode_pack (h0 : e ≠ 0) (he : e < f.top) (hm : m < 2 ^ f.frac) :
    f.decode (f.pack s e m) =
      some (((signed s ((2 ^ f.frac + m) * 2 ^ (e - 1)) : ℤ) : WithTop ℤ) : Datum) := by
  have hlt := lt_of_lt_top he.le
  have hexp := Format.exponent_pack (s := s) hlt hm
  rw [Format.decode_of_exponent (by rw [hexp]; exact he.ne), units_eq_signed,
    Format.negative_pack hlt hm]
  unfold Format.magnitude
  rw [hexp, Format.fraction_pack hm, if_neg h0]

theorem log2_bounds (h0 : m ≠ 0) : 2 ^ m.log2 ≤ m ∧ m < 2 ^ (m.log2 + 1) :=
  ⟨Nat.log2_self_le h0, Nat.lt_log2_self⟩

theorem decode_normal (h0 : m ≠ 0) (hlog : m.log2 ≤ f.frac) (he0 : e ≠ 0) (he : e < f.top) :
    f.decode (f.normal s e m) =
      some (((signed s (m * 2 ^ (f.frac - m.log2 + (e - 1))) : ℤ) : WithTop ℤ) : Datum) := by
  obtain ⟨hle, hlt⟩ := log2_bounds h0
  have hsum : 2 ^ f.frac = 2 ^ m.log2 * 2 ^ (f.frac - m.log2) := by
    rw [← pow_add, Nat.add_sub_cancel' hlog]
  have hfrac : (m - 2 ^ m.log2) * 2 ^ (f.frac - m.log2) < 2 ^ f.frac := by
    rw [hsum]
    rw [pow_succ] at hlt
    exact Nat.mul_lt_mul_of_pos_right (by omega) (by positivity)
  have hunits : 2 ^ f.frac + (m - 2 ^ m.log2) * 2 ^ (f.frac - m.log2) = m * 2 ^ (f.frac - m.log2) := by
    rw [hsum, ← Nat.add_mul, Nat.add_sub_cancel' hle]
  unfold Format.normal
  rw [decode_pack he0 he hfrac, hunits, pow_add, Nat.mul_assoc]

theorem decode_top (s : Bool) (hm : m < 2 ^ f.frac) : f.decode (f.pack s f.top m) =
    if m = 0 then some (if s then ⊥ else ((⊤ : WithTop ℤ) : Datum)) else none := by
  have hlt := lt_of_lt_top (f := f) le_rfl
  unfold Format.decode
  rw [Format.exponent_pack hlt hm, if_pos rfl, Format.fraction_pack hm, Format.negative_pack hlt hm]

end Packed

/-- A conversion to a wider format is exact. -/
theorem decode_widen {f g : Format} (h : Wider f g) (p : ℕ) : g.decode (widen f g p) =
    (f.decode p).map (scale (g.bias - f.bias + (g.frac - f.frac))) := by
  have hfrac := f.fraction_lt p
  have hexp := f.exponent_lt p
  have htwo := Nat.one_lt_two_pow h.exp
  have hpow : 2 ^ g.frac = 2 ^ f.frac * 2 ^ (g.frac - f.frac) := by
    rw [← pow_add, Nat.add_sub_cancel' h.fractions]
  have hshift : f.fraction p * 2 ^ (g.frac - f.frac) < 2 ^ g.frac := by
    rw [hpow]
    exact Nat.mul_lt_mul_of_pos_right hfrac (by positivity)
  have hbiases := h.biases
  have htops := h.tops
  have htop : f.top = 2 ^ f.exp - 1 := rfl
  unfold widen
  split_ifs with h1 h2 h3
  · rw [decode_top _ hshift]
    unfold Format.decode
    rw [if_pos h1]
    by_cases h0 : f.fraction p = 0
    · rw [if_pos h0, if_pos (by rw [h0, Nat.zero_mul])]
      cases f.negative p <;> rfl
    · rw [if_neg h0, if_neg (Nat.mul_ne_zero h0 (by positivity))]
      rfl
  · rw [decode_pack (by omega) (by omega) hshift, Format.decode_of_exponent h1, units_eq_signed,
      Option.map_some, scale_units]
    congr 4
    unfold Format.magnitude
    rw [if_neg h2, hpow, ← Nat.add_mul, Nat.mul_assoc, Nat.mul_assoc, ← pow_add, ← pow_add]
    congr 2
    omega
  · have h0 : f.abs p = 0 := by
      rw [Format.abs_eq, h3, not_not.1 h2]
      simp
    rw [Format.decode_eq_zero h.exp h0, Option.map_some, scale_zero, Format.decode_eq_zero]
    · have := h.exponents
      have := h.exp
      omega
    · rw [Format.abs_pack (by positivity) (by positivity)]
      simp
  · obtain ⟨hle, hlt⟩ := log2_bounds h3
    have hlog : (f.fraction p).log2 < f.frac := (Nat.pow_lt_pow_iff_right (by norm_num)).1
      (lt_of_le_of_lt hle hfrac)
    have hfractions := h.fractions
    rw [decode_normal h3 (by omega) (by omega) (by omega), Format.decode_of_exponent h1,
      units_eq_signed, Option.map_some, scale_units]
    congr 4
    unfold Format.magnitude
    rw [if_pos (not_not.1 h2)]
    congr 2
    omega

/-- The relation of two data does not change in a wider format. -/
theorem relation_widen {f g : Format} (h : Wider f g) (p q : ℕ) :
    relation (g.decode (widen f g p)) (g.decode (widen f g q)) = relation (f.decode p) (f.decode q) := by
  rw [decode_widen h, decode_widen h, relation_map (scale_strictMono _)]

/-- The integers of `frac + 1` bits are data of the format. -/
theorem exists_decode {f : Format} (hb : f.bias ≠ 0) (hf : f.frac + f.bias < f.top) (n : ℤ)
    (hn : n.natAbs < 2 ^ (f.frac + 1)) :
    ∃ p, f.decode p = some (((n * 2 ^ (f.frac + f.bias - 1) : ℤ) : WithTop ℤ) : Datum) := by
  by_cases h0 : n.natAbs = 0
  · have hexp : f.exp ≠ 0 := fun h => by
      unfold Format.top at hf
      rw [h] at hf
      exact absurd hf (by simp)
    refine ⟨0, ?_⟩
    rw [Format.decode_eq_zero hexp (Nat.zero_mod _), Int.natAbs_eq_zero.1 h0, Int.zero_mul]
    rfl
  · have hlog : n.natAbs.log2 ≤ f.frac := by
      have hlt := lt_of_le_of_lt (log2_bounds h0).1 hn
      exact Nat.lt_succ_iff.1 ((Nat.pow_lt_pow_iff_right (by norm_num)).1 hlt)
    have hexp : f.frac - n.natAbs.log2 + (n.natAbs.log2 + f.bias - 1) = f.frac + f.bias - 1 := by omega
    refine ⟨f.normal (decide (n < 0)) (n.natAbs.log2 + f.bias) n.natAbs, ?_⟩
    rw [decode_normal h0 hlog (by omega) (by omega), hexp, ← signed_mul, Nat.cast_pow]
    congr 4
    unfold signed
    by_cases hneg : n < 0
    · rw [decide_eq_true hneg, if_pos rfl]
      omega
    · rw [decide_eq_false hneg, if_neg Bool.false_ne_true]
      omega

end IrJit.Ieee
