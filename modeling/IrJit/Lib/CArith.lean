import Mathlib.Algebra.Order.Ring.Int
import Mathlib.Data.BitVec
import Mathlib.Tactic.Common
import Mathlib.Tactic.Linarith

/-!
# Lib.CArith — integer expressions of C and where they are undefined

The operands have a type, a width and a sign; an operation converts them to their common type after
the promotion to `int` and computes there.  It has no result where C leaves it undefined.
-/

namespace IrJit.CArith

/-- An integer type. -/
structure CType where
  width : ℕ
  signed : Bool
  deriving DecidableEq

def int : CType := ⟨32, true⟩
def uint (w : ℕ) : CType := ⟨w, false⟩
def sint (w : ℕ) : CType := ⟨w, true⟩

namespace CType

variable (t : CType)

/-- The type represents the integer. -/
def Holds (n : ℤ) : Prop :=
  if t.signed then -2 ^ (t.width - 1) ≤ n ∧ n < 2 ^ (t.width - 1) else 0 ≤ n ∧ n < 2 ^ t.width

instance (n : ℤ) : Decidable (t.Holds n) := by unfold Holds; infer_instance

/-- The conversion of an integer to the type. -/
def conv (n : ℤ) : ℤ :=
  if t.signed then (n + 2 ^ (t.width - 1)) % 2 ^ t.width - 2 ^ (t.width - 1) else n % 2 ^ t.width

/-- The types narrower than `int` are promoted to it. -/
def promote : CType := if t.width < 32 then int else t

/-- The usual arithmetic conversions. -/
def common (s t : CType) : CType :=
  let s := s.promote
  let t := t.promote
  if s.width < t.width then t
  else if t.width < s.width then s
  else ⟨s.width, s.signed && t.signed⟩

end CType

/-- A value and its type. -/
structure CVal where
  type : CType
  val : ℤ

/-- An `int` literal. -/
def lit (n : ℤ) : CVal := ⟨int, n⟩

/-- The result of an operation in a type. -/
def result (t : CType) (n : ℤ) : Option CVal :=
  if t.signed then if t.Holds n then some ⟨t, n⟩ else none else some ⟨t, t.conv n⟩

/-- `a + b`, `a - b` and `a * b`. -/
def arith (f : ℤ → ℤ → ℤ) (a b : CVal) : Option CVal :=
  let t := CType.common a.type b.type
  result t (f (t.conv a.val) (t.conv b.val))

def add := arith (· + ·)
def sub := arith (· - ·)
def mul := arith (· * ·)

/-- `-a`. -/
def neg (a : CVal) : Option CVal :=
  let t := a.type.promote
  result t (-t.conv a.val)

/-- `a / b`. -/
def div (a b : CVal) : Option CVal :=
  let t := CType.common a.type b.type
  if t.conv b.val = 0 then none else result t ((t.conv a.val).tdiv (t.conv b.val))

/-- `a % b`; undefined when the quotient is. -/
def mod (a b : CVal) : Option CVal :=
  let t := CType.common a.type b.type
  match div a b with
  | some _ => some ⟨t, (t.conv a.val).tmod (t.conv b.val)⟩
  | none => none

/-- `a << b`. -/
def shl (a b : CVal) : Option CVal :=
  let t := a.type.promote
  if 0 ≤ b.val ∧ b.val < t.width then some ⟨t, t.conv (a.val * 2 ^ b.val.toNat)⟩ else none

/-- `a >> b`. -/
def shr (a b : CVal) : Option CVal :=
  let t := a.type.promote
  if 0 ≤ b.val ∧ b.val < t.width then some ⟨t, t.conv (a.val / 2 ^ b.val.toNat)⟩ else none

/-- `a | b`. -/
def or (a b : CVal) : CVal :=
  let t := CType.common a.type b.type
  ⟨t, t.conv (BitVec.ofInt t.width a.val ||| BitVec.ofInt t.width b.val).toNat⟩

/-- `(t)a`. -/
def cast (t : CType) (a : CVal) : CVal := ⟨t, t.conv a.val⟩

/-! ## Representable results -/

section

variable {t : CType} {x y n : ℤ}

theorem CType.conv_of_holds (ht : 0 < t.width) (h : t.Holds n) : t.conv n = n := by
  obtain ⟨w, s⟩ := t
  obtain ⟨w, rfl⟩ : ∃ k, w = k + 1 := ⟨w - 1, by simp at ht; omega⟩
  have hpow : (2 : ℤ) ^ (w + 1) = 2 * 2 ^ w := pow_succ' 2 w
  cases s with
  | false =>
    simp only [Holds, Bool.false_eq_true, if_false] at h
    simp only [conv, Bool.false_eq_true, if_false]
    exact Int.emod_eq_of_lt h.1 h.2
  | true =>
    simp only [Holds, if_true, Nat.add_sub_cancel] at h
    simp only [conv, if_true, Nat.add_sub_cancel]
    rw [Int.emod_eq_of_lt (by omega) (by omega)]
    omega

/-- A quotient of numbers of a signed type is representable but for one pair. -/
theorem holds_tdiv_iff (hs : t.signed = true) (hx : t.Holds x) (hy : y ≠ 0) :
    t.Holds (x.tdiv y) ↔ ¬(x = -2 ^ (t.width - 1) ∧ y = -1) := by
  simp only [CType.Holds, hs, if_true] at hx ⊢
  have hpos : (0 : ℤ) < 2 ^ (t.width - 1) := by positivity
  generalize (2 : ℤ) ^ (t.width - 1) = m at hx hpos ⊢
  by_cases h1 : y = -1
  · rw [h1, Int.tdiv_neg, Int.tdiv_one]
    omega
  · simp only [h1, and_false, not_false_iff, iff_true]
    have habs := Int.natAbs_tdiv_le_natAbs x y
    by_cases hone : y = 1
    · rw [hone, Int.tdiv_one]
      exact hx
    · have hhalf : (x.tdiv y).natAbs ≤ x.natAbs / 2 := by
        rw [Int.natAbs_tdiv]
        exact Nat.div_le_div_left (by omega) (by omega)
      omega

theorem result_of_holds (ht : 0 < t.width) (h : t.Holds n) : result t n = some ⟨t, n⟩ := by
  unfold result
  rw [CType.conv_of_holds ht h]
  simp [h]

/-! ## Operands of one type -/

theorem CType.common_same (t : CType) : common t t = t.promote := by
  simp [common]

theorem CType.width_promote (ht : 0 < t.width) : 0 < t.promote.width := by
  unfold promote
  split_ifs
  · exact (by decide : 0 < 32)
  · exact ht

/-- A type that is promoted has room for both signs. -/
theorem CType.Holds.promote (h : t.Holds n) : t.promote.Holds n := by
  unfold CType.promote
  split_ifs with hw
  · have hle : (2 : ℤ) ^ t.width ≤ 2 ^ 31 := pow_le_pow_right₀ (by norm_num) (by omega)
    have hle' : (2 : ℤ) ^ (t.width - 1) ≤ 2 ^ 31 := pow_le_pow_right₀ (by norm_num) (by omega)
    unfold CType.Holds at h ⊢
    simp only [int, if_true]
    split_ifs at h <;> constructor <;> omega
  · exact h

section

variable (ht : 0 < t.width) (hx : t.Holds x) (hy : t.Holds y)

include ht hx hy

theorem arith_same (f : ℤ → ℤ → ℤ) : arith f ⟨t, x⟩ ⟨t, y⟩ = result t.promote (f x y) := by
  have hw := CType.width_promote ht
  unfold arith
  rw [CType.common_same]
  show result _ (f (CType.conv _ _) (CType.conv _ _)) = _
  rw [CType.conv_of_holds hw hx.promote, CType.conv_of_holds hw hy.promote]

theorem div_same :
    div ⟨t, x⟩ ⟨t, y⟩ = if y = 0 then none else result t.promote (x.tdiv y) := by
  have hw := CType.width_promote ht
  unfold div
  rw [CType.common_same]
  show (if CType.conv _ _ = 0 then none else result _ (Int.tdiv (CType.conv _ _) (CType.conv _ _))) = _
  rw [CType.conv_of_holds hw hx.promote, CType.conv_of_holds hw hy.promote]

theorem mod_same {q : CVal} (hdiv : div ⟨t, x⟩ ⟨t, y⟩ = some q) :
    mod ⟨t, x⟩ ⟨t, y⟩ = some ⟨t.promote, x.tmod y⟩ := by
  have hw := CType.width_promote ht
  unfold mod
  rw [hdiv, CType.common_same]
  show some (CVal.mk _ (Int.tmod (CType.conv _ _) (CType.conv _ _))) = _
  rw [CType.conv_of_holds hw hx.promote, CType.conv_of_holds hw hy.promote]

end

theorem mod_eq_none {a b : CVal} (h : div a b = none) : mod a b = none := by
  unfold mod
  rw [h]

variable {w : ℕ}

/-- Unsigned quotients are representable. -/
theorem div_uint (hw : 0 < w) (hx : (uint w).Holds x) (hy : (uint w).Holds y) :
    div ⟨uint w, x⟩ ⟨uint w, y⟩ =
      if y = 0 then none else some ⟨(uint w).promote, x.tdiv y⟩ := by
  have hq : (uint w).Holds (x.tdiv y) := by
    simp only [CType.Holds, uint, Bool.false_eq_true, if_false] at hx hy ⊢
    refine ⟨Int.tdiv_nonneg hx.1 hy.1, ?_⟩
    have := Int.natAbs_tdiv_le_natAbs x y
    omega
  rw [div_same hw hx hy, result_of_holds (CType.width_promote hw) hq.promote]

/-- The quotients of narrow signed types are computed as `int`, which has them all. -/
theorem div_sint (hw : 0 < w) (hx : (sint w).Holds x) (hy : (sint w).Holds y) :
    div ⟨sint w, x⟩ ⟨sint w, y⟩ =
      if y = 0 ∨ (32 ≤ w ∧ x = -2 ^ (w - 1) ∧ y = -1) then none
      else some ⟨(sint w).promote, x.tdiv y⟩ := by
  have hs : (sint w).promote.signed = true := by
    unfold CType.promote
    split_ifs <;> rfl
  have hmin : x = -2 ^ ((sint w).promote.width - 1) ↔ 32 ≤ w ∧ x = -2 ^ (w - 1) := by
    unfold CType.promote
    split_ifs with h32
    · have hle : (2 : ℤ) ^ (w - 1) ≤ 2 ^ 30 := by
        simp only [sint] at h32
        exact pow_le_pow_right₀ (by norm_num) (by omega)
      simp only [CType.Holds, sint, if_true] at hx h32
      simp only [int]
      omega
    · simp only [sint, not_lt] at h32
      simp only [sint, h32, true_and]
  rw [div_same hw hx hy]
  by_cases h0 : y = 0
  · simp [h0]
  have hq := holds_tdiv_iff hs hx.promote h0
  rw [hmin] at hq
  by_cases hc : 32 ≤ w ∧ x = -2 ^ (w - 1) ∧ y = -1
  · have hn : ¬(sint w).promote.Holds (x.tdiv y) := by
      rw [hq]
      exact fun h => h ⟨⟨hc.1, hc.2.1⟩, hc.2.2⟩
    rw [if_neg h0, if_pos (Or.inr hc)]
    unfold result
    rw [if_pos hs, if_neg hn]
  · have hh : (sint w).promote.Holds (x.tdiv y) := by
      rw [hq]
      exact fun h => hc ⟨h.1.1, h.1.2, h.2⟩
    simp [h0, hc, result_of_holds (CType.width_promote (t := sint w) hw) hh]

/-! ## Bits -/

/-- A conversion does not change the low bits. -/
theorem CType.conv_emod (t : CType) (hw : w ≤ t.width) (n : ℤ) : t.conv n % 2 ^ w = n % 2 ^ w := by
  have hdvd : (2 : ℤ) ^ w ∣ 2 ^ t.width := pow_dvd_pow 2 hw
  unfold conv
  split_ifs
  · rw [Int.sub_emod, Int.emod_emod_of_dvd _ hdvd, ← Int.sub_emod, Int.add_sub_cancel]
  · exact Int.emod_emod_of_dvd _ hdvd

theorem ofInt_conv (t : CType) (n : ℕ) : BitVec.ofInt t.width (t.conv n) = BitVec.ofNat t.width n := by
  rw [← BitVec.ofInt_natCast]
  apply BitVec.eq_of_toNat_eq
  rw [BitVec.toNat_ofInt, BitVec.toNat_ofInt]
  have h := CType.conv_emod t le_rfl n
  push_cast at h ⊢
  rw [h]

/-- The low bits of `a | b` are those of the operands. -/
theorem cast_or (ht : t.promote = t) (hw : w ≤ t.width) (m n : ℕ) :
    cast (uint w) (or ⟨t, t.conv m⟩ ⟨t, t.conv n⟩) =
      ⟨uint w, (BitVec.ofNat w m ||| BitVec.ofNat w n).toNat⟩ := by
  have hor : or ⟨t, t.conv m⟩ ⟨t, t.conv n⟩ =
      ⟨t, t.conv (BitVec.ofNat t.width m ||| BitVec.ofNat t.width n).toNat⟩ := by
    unfold or
    rw [CType.common_same, ht]
    show CVal.mk t (t.conv (BitVec.ofInt t.width (t.conv m) ||| BitVec.ofInt t.width (t.conv n)).toNat) = _
    rw [ofInt_conv, ofInt_conv]
  have hset : (BitVec.ofNat w m ||| BitVec.ofNat w n) =
      (BitVec.ofNat t.width m ||| BitVec.ofNat t.width n).setWidth w := by
    rw [BitVec.setWidth_or, BitVec.setWidth_ofNat_of_le hw, BitVec.setWidth_ofNat_of_le hw]
  rw [hor, hset, BitVec.toNat_setWidth]
  show CVal.mk _ ((uint w).conv (t.conv _)) = _
  have hu : ∀ n : ℤ, (uint w).conv n = n % 2 ^ w := fun n => rfl
  rw [hu, CType.conv_emod t hw]
  push_cast
  rfl

end

end IrJit.CArith
