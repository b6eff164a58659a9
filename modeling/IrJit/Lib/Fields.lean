import Mathlib.Algebra.Order.Ring.Int
import Mathlib.Data.BitVec
import Mathlib.Tactic.Common
import Mathlib.Tactic.Positivity

/-!
# Lib.Fields — bit fields of a word

`fieldMask n lo w` are the `w` bits from bit `lo` on.
-/

namespace IrJit.Fields

variable {n lo w i : ℕ}

def fieldMask (n lo w : ℕ) : BitVec n := (BitVec.allOnes w).setWidth n <<< lo

/-- The field replaced. -/
def insertField (lo : ℕ) (x : BitVec n) (v : BitVec w) : BitVec n :=
  (x &&& ~~~fieldMask n lo w) ||| (v.setWidth n <<< lo)

theorem getLsbD_fieldMask (h : lo + w ≤ n) : (fieldMask n lo w).getLsbD i = decide (lo ≤ i ∧ i < lo + w) := by
  rw [fieldMask, BitVec.getLsbD_shiftLeft, BitVec.getLsbD_setWidth, BitVec.getLsbD_allOnes]
  by_cases h1 : lo ≤ i <;> by_cases h2 : i < lo + w <;> simp [h1, h2] <;> omega

theorem xor_and_fieldMask (h : lo + w ≤ n) (x y : BitVec n) :
    (x ^^^ y) &&& fieldMask n lo w = 0#n ↔ x.extractLsb' lo w = y.extractLsb' lo w := by
  constructor
  · intro heq
    ext i hi
    have hbit := congrArg (fun z : BitVec n => z.getLsbD (lo + i)) heq
    simp only [BitVec.getLsbD_and, BitVec.getLsbD_xor, getLsbD_fieldMask h, BitVec.getLsbD_zero] at hbit
    rw [decide_eq_true (by omega), Bool.and_true] at hbit
    rw [BitVec.getElem_extractLsb', BitVec.getElem_extractLsb']
    simpa using hbit
  · intro heq
    apply BitVec.eq_of_getLsbD_eq
    intro i hi
    rw [BitVec.getLsbD_and, BitVec.getLsbD_xor, getLsbD_fieldMask h, BitVec.getLsbD_zero]
    by_cases hin : lo ≤ i ∧ i < lo + w
    · have hbit := congrArg (fun z : BitVec w => z.getLsbD (i - lo)) heq
      simp only [BitVec.getLsbD_extractLsb', Nat.add_sub_cancel' hin.1] at hbit
      rw [decide_eq_true (by omega), Bool.true_and, Bool.true_and] at hbit
      rw [hbit, Bool.xor_self, Bool.false_and]
    · rw [decide_eq_false hin, Bool.and_false]

theorem extract_insertField (h : lo + w ≤ n) (x : BitVec n) (v : BitVec w) :
    (insertField lo x v).extractLsb' lo w = v := by
  ext i hi
  rw [BitVec.getElem_extractLsb', insertField, BitVec.getLsbD_or, BitVec.getLsbD_and, BitVec.getLsbD_not,
    getLsbD_fieldMask h, BitVec.getLsbD_shiftLeft, BitVec.getLsbD_setWidth, decide_eq_true (by omega : lo + i < n),
    decide_eq_true (by omega : lo ≤ lo + i ∧ lo + i < lo + w), decide_eq_false (by omega : ¬ lo + i < lo),
    Nat.add_sub_cancel_left, decide_eq_true (by omega : i < n)]
  simp [BitVec.getLsbD_eq_getElem hi]

/-- Bits outside of the field stay. -/
theorem insertField_and (h : lo + w ≤ n) {m : BitVec n} (hm : m &&& fieldMask n lo w = 0#n) (x : BitVec n) (v : BitVec w) :
    insertField lo x v &&& m = x &&& m := by
  apply BitVec.eq_of_getLsbD_eq
  intro i hi
  have hbit := congrArg (fun z : BitVec n => z.getLsbD i) hm
  simp only [BitVec.getLsbD_and, getLsbD_fieldMask h, BitVec.getLsbD_zero] at hbit
  rw [BitVec.getLsbD_and, BitVec.getLsbD_and, insertField, BitVec.getLsbD_or, BitVec.getLsbD_and, BitVec.getLsbD_not,
    getLsbD_fieldMask h, BitVec.getLsbD_shiftLeft, BitVec.getLsbD_setWidth, decide_eq_true hi]
  by_cases hin : lo ≤ i ∧ i < lo + w
  · rw [decide_eq_true hin, Bool.and_true] at hbit
    rw [hbit, Bool.and_false, Bool.and_false]
  · have hout : (!decide (i < lo) && (decide (i - lo < n) && v.getLsbD (i - lo))) = false := by
      by_cases hlo : i < lo
      · simp [hlo]
      · rw [BitVec.getLsbD_of_ge v (i - lo) (by omega), Bool.and_false, Bool.and_false]
    rw [decide_eq_false hin]
    simp only [Bool.true_and, hout, Bool.not_false, Bool.and_true, Bool.or_false]

/-! ## Signed numbers -/

theorem toInt_emod (x : BitVec 64) : x.toInt % 18446744073709551616 = x.toNat := by
  have hlt := x.isLt
  rw [BitVec.toInt_eq_toNat_cond]
  split_ifs <;> omega

theorem toNat_sshiftRight_two (x : BitVec 64) :
    ((x.sshiftRight 2).toNat : ℤ) = (x.toInt / 4) % 18446744073709551616 := by
  rw [← toInt_emod, BitVec.toInt_sshiftRight, Int.shiftRight_eq_div_pow]
  rfl

theorem toNat_shiftLeft_two (x : BitVec 64) : (x <<< 2).toNat = x.toNat * 4 % 18446744073709551616 := by
  rw [BitVec.toNat_shiftLeft, Nat.shiftLeft_eq]

/-- Shifting two bits out and in again. -/
theorem sshiftRight_shiftLeft (x : BitVec 64) : x.sshiftRight 2 <<< 2 = x ↔ x.toNat % 4 = 0 := by
  have h1 := toNat_sshiftRight_two x
  have h2 := toInt_emod x
  have h3 := x.isLt
  rw [← BitVec.toNat_inj, toNat_shiftLeft_two]
  omega

theorem toInt_bounds (x : BitVec 64) : -9223372036854775808 ≤ x.toInt ∧ x.toInt < 9223372036854775808 :=
  ⟨BitVec.le_toInt x, BitVec.toInt_lt⟩

/-- A number of less than 62 bits can be shifted in and out again. -/
theorem shiftLeft_sshiftRight (x : BitVec 64) (h : -2305843009213693952 ≤ x.toInt) (h' : x.toInt < 2305843009213693952) :
    (x <<< 2).sshiftRight 2 = x := by
  have h1 := toNat_sshiftRight_two (x <<< 2)
  have h2 := toInt_emod x
  have h3 := toInt_emod (x <<< 2)
  have h4 := toNat_shiftLeft_two x
  have h5 := toInt_bounds (x <<< 2)
  rw [← BitVec.toNat_inj]
  omega

theorem toInt_signExtend_bounds {w : ℕ} (hw : w ≤ 32) (v : BitVec w) :
    -2147483648 ≤ (v.signExtend 64).toInt ∧ (v.signExtend 64).toInt < 2147483648 := by
  rw [BitVec.toInt_signExtend_of_le (by omega)]
  have h1 := BitVec.le_two_mul_toInt (x := v)
  have h2 := BitVec.two_mul_toInt_lt (x := v)
  have hpow : (2 : ℤ) ^ w ≤ 2 ^ 32 := pow_le_pow_right₀ (by omega) hw
  omega

/-- A number in the range of `w` bits is the extension of its low `w` bits. -/
theorem signExtend_setWidth {w : ℕ} (h0 : 0 < w) (hw : w ≤ 64) (x : BitVec 64) (h : -(2 ^ (w - 1)) ≤ x.toInt)
    (h' : x.toInt < 2 ^ (w - 1)) : (x.setWidth w).signExtend 64 = x := by
  apply BitVec.eq_of_toInt_eq
  have hdouble : (2 : ℤ) ^ w = 2 * 2 ^ (w - 1) := by
    rw [← pow_succ', Nat.sub_add_cancel h0]
  rw [BitVec.toInt_signExtend_of_le hw, BitVec.toInt_setWidth, Int.bmod_eq_iff (by positivity)]
  refine ⟨by push_cast; omega, by push_cast; omega, ?_⟩
  have hdvd : (2 : ℤ) ^ w ∣ 2 ^ 64 := pow_dvd_pow 2 hw
  have hdiv : x.toInt - x.toNat = 2 ^ 64 * (x.toInt / 2 ^ 64) := by
    have := toInt_emod x
    omega
  rw [hdiv]
  push_cast
  exact dvd_mul_of_dvd_left hdvd _

/-- The range test: `((x + 2^(w-1)) >> w) == 0`. -/
theorem range_of_sshiftRight {w : ℕ} {x c : BitVec 64} (hc : c.toInt = 2 ^ (w - 1)) (h0 : 0 < w) (hw : w ≤ 32)
    (h : (x + c).sshiftRight w = 0#64) : -(2 ^ (w - 1)) ≤ x.toInt ∧ x.toInt < 2 ^ (w - 1) := by
  have hdouble : (2 : ℤ) ^ w = 2 * 2 ^ (w - 1) := by
    rw [← pow_succ', Nat.sub_add_cancel h0]
  have hpos : (0 : ℤ) < 2 ^ (w - 1) := by positivity
  have hle : (2 : ℤ) ^ (w - 1) ≤ 2 ^ 31 := pow_le_pow_right₀ (by omega) (by omega)
  have hzero : (x + c).toInt / 2 ^ w = 0 := by
    have := congrArg BitVec.toInt h
    rwa [BitVec.toInt_sshiftRight, Int.shiftRight_eq_div_pow, BitVec.toInt_zero] at this
  have hrange : 0 ≤ (x + c).toInt ∧ (x + c).toInt < 2 ^ w := by
    have hmod := Int.emod_add_mul_ediv (x + c).toInt (2 ^ w)
    have hnonneg := Int.emod_nonneg (x + c).toInt (by omega : (2 : ℤ) ^ w ≠ 0)
    have hlt := Int.emod_lt_of_pos (x + c).toInt (by omega : (0 : ℤ) < 2 ^ w)
    rw [hzero, mul_zero, add_zero] at hmod
    omega
  have hx := toInt_emod x
  have hbounds := toInt_bounds x
  have hcmod := toInt_emod c
  have hsum := toInt_emod (x + c)
  rw [BitVec.toNat_add] at hsum
  omega

end IrJit.Fields
