import Mathlib.Algebra.Order.Ring.Int
import Mathlib.Data.BitVec
import Mathlib.Tactic.Positivity

/-!
# Lib.PowerTwo — multiplication, division and remainder by a power of two, bit by bit

A signed quotient by `2 ^ k` is an arithmetic shift after a bias of `2 ^ k - 1` has been added to a
negative dividend; the remainder is the low part of the biased dividend, less the bias.  The divisor
`2 ^ (w - 1)` is the smallest number of `w` bits, and negative.
-/

namespace IrJit.PowerTwo

/-! ### Integers -/

/-- Truncated division of a negative number is floor division after the bias. -/
theorem tdiv_of_neg {x m : ℤ} (hm : 0 < m) (hx : x < 0) : x.tdiv m = (x + (m - 1)) / m := by
  obtain ⟨y, rfl⟩ : ∃ y, x = -y := ⟨-x, by omega⟩
  rw [Int.neg_tdiv, Int.tdiv_eq_ediv_of_nonneg (by omega)]
  have hmod := Int.emod_add_mul_ediv y m
  have hpos := Int.emod_nonneg y hm.ne'
  have hlt := Int.emod_lt_of_pos y hm
  have hq : -(y / m) * m = -(m * (y / m)) := by rw [Int.neg_mul, Int.mul_comm]
  refine ((Int.ediv_eq_iff_of_pos hm).mpr ⟨?_, ?_⟩).symm
  · omega
  · omega

/-- The truncated remainder of a negative number, by the same bias. -/
theorem tmod_of_neg {x m : ℤ} (hm : 0 < m) (hx : x < 0) : x.tmod m = (x + (m - 1)) % m - (m - 1) := by
  have hdiv := Int.mul_tdiv_add_tmod x m
  rw [tdiv_of_neg hm hx] at hdiv
  have hmod := Int.emod_add_mul_ediv (x + (m - 1)) m
  omega

/-! ### Words -/

variable {w k : ℕ} (x : BitVec w)

theorem two_pow_lt (h : k < w) : 2 * 2 ^ k ≤ 2 ^ w := by
  rw [← Nat.pow_succ']
  exact Nat.pow_le_pow_right (by omega) h

theorem toNat_bias (h : k < w) : (BitVec.twoPow w k - 1#w).toNat = 2 ^ k - 1 := by
  have hpow := two_pow_lt h
  have hpos := Nat.two_pow_pos k
  have hone : (1#w).toNat = 1 := by
    rw [BitVec.toNat_ofNat]
    exact Nat.mod_eq_of_lt (by omega)
  have htwo := BitVec.toNat_twoPow_of_lt h
  rw [BitVec.toNat_sub_of_le, htwo, hone]
  rw [BitVec.le_def, htwo, hone]
  exact hpos

theorem toInt_bias (h : k < w) : (BitVec.twoPow w k - 1#w).toInt = 2 ^ k - 1 := by
  have hpow := two_pow_lt h
  have hpos := Nat.two_pow_pos k
  have hnat := toNat_bias h
  rw [BitVec.toInt_eq_toNat_of_lt (by omega), hnat, Nat.cast_sub hpos]
  simp

/-- A negative number and the bias do not overflow. -/
theorem toInt_add_bias (h : k < w) (hx : x.toInt < 0) :
    (x + (BitVec.twoPow w k - 1#w)).toInt = x.toInt + (2 ^ k - 1) := by
  have hpow : (2 * 2 ^ k : ℤ) ≤ 2 ^ w := by exact_mod_cast two_pow_lt h
  have hpos : (0 : ℤ) < 2 ^ k := by positivity
  have hle := @BitVec.le_two_mul_toInt w x
  rw [BitVec.toInt_add, toInt_bias h]
  refine Int.bmod_eq_of_le_mul_two ?_ ?_
  · push_cast
    omega
  · push_cast
    omega

/-- The low `k` bits. -/
theorem toNat_and_mask (h : k < w) : (x &&& (BitVec.twoPow w k - 1#w)).toNat = x.toNat % 2 ^ k := by
  rw [BitVec.toNat_and, toNat_bias h, Nat.and_two_pow_sub_one_eq_mod]

theorem umod_twoPow (h : k < w) : x % BitVec.twoPow w k = x &&& (BitVec.twoPow w k - 1#w) := by
  apply BitVec.eq_of_toNat_eq
  rw [toNat_and_mask x h, BitVec.toNat_umod, BitVec.toNat_twoPow_of_lt h]

theorem toInt_and_mask (h : k < w) : (x &&& (BitVec.twoPow w k - 1#w)).toInt = x.toInt % 2 ^ k := by
  have hpow := two_pow_lt h
  have hlt := Nat.mod_lt x.toNat (Nat.two_pow_pos k)
  have hnat := toNat_and_mask x h
  rw [BitVec.toInt_eq_toNat_of_lt (by omega), hnat, BitVec.toInt_eq_toNat_cond]
  have hdvd : (2 ^ k : ℤ) ∣ 2 ^ w := pow_dvd_pow 2 h.le
  split_ifs
  · push_cast
    rfl
  · push_cast
    rw [Int.sub_emod, Int.emod_eq_zero_of_dvd hdvd, Int.sub_zero, Int.emod_emod]

theorem tmod_twoPow (h : k < w) (y : ℤ) : y.tmod (BitVec.twoPow w k).toInt = y.tmod (2 ^ k) := by
  rw [BitVec.toInt_twoPow]
  split_ifs with h1 h2
  · omega
  · push_cast
    exact Int.tmod_neg y (2 ^ k)
  · rfl

theorem toInt_twoPow_of_lt (h : k + 1 < w) : (BitVec.twoPow w k).toInt = 2 ^ k := by
  rw [BitVec.toInt_twoPow, if_neg (by omega), if_neg (by omega)]

theorem twoPow_ne_neg_one (h : k < w) (hw : 1 < w) : BitVec.twoPow w k ≠ -1#w := by
  intro heq
  have hpow := two_pow_lt h
  have hfour : 2 ^ 2 ≤ 2 ^ w := Nat.pow_le_pow_right (by omega) hw
  have hnat := congrArg BitVec.toNat heq
  rw [BitVec.toNat_twoPow_of_lt h, BitVec.neg_one_eq_allOnes, BitVec.toNat_allOnes] at hnat
  omega

/-- **The signed quotient** by a positive power of two. -/
theorem sdiv_twoPow (h : k + 1 < w) :
    (if x.msb then x + (BitVec.twoPow w k - 1#w) else x).sshiftRight k = x.sdiv (BitVec.twoPow w k) := by
  have hpos : (0 : ℤ) < 2 ^ k := by positivity
  have htwo := toInt_twoPow_of_lt h
  have hne := twoPow_ne_neg_one (show k < w by omega) (by omega)
  apply BitVec.eq_of_toInt_eq
  rw [BitVec.toInt_sshiftRight, Int.shiftRight_eq_div_pow, BitVec.toInt_sdiv_of_ne_or_ne x _ (Or.inr hne), htwo]
  push_cast
  by_cases hmsb : x.msb = true
  · have hx := BitVec.toInt_neg_of_msb_true hmsb
    rw [if_pos hmsb, toInt_add_bias x (by omega) hx, tdiv_of_neg hpos hx]
  · have hx := BitVec.toInt_nonneg_of_msb_false (by simpa using hmsb)
    rw [if_neg hmsb, Int.tdiv_eq_ediv_of_nonneg hx]

/-- By the smallest number the same steps go wrong where the quotient is 1. -/
theorem sdiv_intMin (hw : 1 < w) :
    (if x.msb then x + (BitVec.twoPow w (w - 1) - 1#w) else x).sshiftRight (w - 1) =
      x.sdiv (BitVec.twoPow w (w - 1)) ↔ x ≠ BitVec.twoPow w (w - 1) := by
  have hmin : (BitVec.twoPow w (w - 1)).toInt = -2 ^ (w - 1) := by
    rw [BitVec.toInt_twoPow, if_neg (by omega), if_pos (by omega)]
    push_cast
    rfl
  have hle := BitVec.le_toInt x
  have hlt := @BitVec.toInt_lt w x
  have hpos : (0 : ℤ) < 2 ^ (w - 1) := by positivity
  have hne := twoPow_ne_neg_one (show w - 1 < w by omega) hw
  have heq : x = BitVec.twoPow w (w - 1) ↔ x.toInt = -2 ^ (w - 1) := by rw [← BitVec.toInt_inj, hmin]
  rw [← BitVec.toInt_inj, BitVec.toInt_sshiftRight, Int.shiftRight_eq_div_pow,
    BitVec.toInt_sdiv_of_ne_or_ne x _ (Or.inr hne), hmin, Int.tdiv_neg, ne_eq, heq]
  push_cast
  by_cases hmsb : x.msb = true
  · have hx := BitVec.toInt_neg_of_msb_true hmsb
    rw [if_pos hmsb, toInt_add_bias x (by omega) hx, tdiv_of_neg hpos hx]
    have hq : (x.toInt + (2 ^ (w - 1) - 1)) / 2 ^ (w - 1) = 0 ↔
        0 ≤ x.toInt + (2 ^ (w - 1) - 1) := by
      rw [Int.ediv_eq_iff_of_pos hpos]
      omega
    omega
  · have hx := BitVec.toInt_nonneg_of_msb_false (by simpa using hmsb)
    rw [if_neg hmsb, Int.tdiv_eq_ediv_of_nonneg hx, Int.ediv_eq_zero_of_lt hx hlt]
    omega

/-- The bias of a negative number, from its sign. -/
theorem sshiftRight_sign (hw : 0 < w) : x.sshiftRight (w - 1) = if x.msb then BitVec.allOnes w else 0#w := by
  apply BitVec.eq_of_toInt_eq
  have hlt := @BitVec.toInt_lt w x
  have hle := BitVec.le_toInt x
  have hpos : (0 : ℤ) < 2 ^ (w - 1) := by positivity
  rw [BitVec.toInt_sshiftRight, Int.shiftRight_eq_div_pow]
  push_cast
  split_ifs with hmsb
  · have hx := BitVec.toInt_neg_of_msb_true hmsb
    rw [BitVec.toInt_allOnes, if_pos hw]
    exact (Int.ediv_eq_iff_of_pos hpos).mpr ⟨by omega, by omega⟩
  · have hx := BitVec.toInt_nonneg_of_msb_false (by simpa using hmsb)
    rw [BitVec.toInt_zero]
    exact Int.ediv_eq_zero_of_lt hx hlt

theorem bias_of_sign (h : k < w) : (x.sshiftRight (w - 1)) >>> (w - k) =
    if x.msb then BitVec.twoPow w k - 1#w else 0#w := by
  rw [sshiftRight_sign x (by omega)]
  split_ifs
  · apply BitVec.eq_of_toNat_eq
    rw [toNat_bias h, BitVec.toNat_ushiftRight, BitVec.toNat_allOnes, Nat.shiftRight_eq_div_pow]
    have hsplit : 2 ^ w = 2 ^ (w - k) * 2 ^ k := by rw [← Nat.pow_add]; congr 1; omega
    have hpos := Nat.two_pow_pos (w - k)
    have hpos' := Nat.two_pow_pos k
    obtain ⟨b, hb⟩ : ∃ b, 2 ^ k = b + 1 := ⟨2 ^ k - 1, by omega⟩
    rw [hsplit, hb, Nat.add_sub_cancel, Nat.mul_succ, Nat.mul_comm]
    refine Nat.div_eq_of_lt_le ?_ ?_
    · omega
    · rw [Nat.succ_mul]
      omega
  · simp

/-- The sign bit is the bias of a division by two. -/
theorem bias_two (hw : 1 < w) : x >>> (w - 1) = if x.msb then BitVec.twoPow w 1 - 1#w else 0#w := by
  apply BitVec.eq_of_toNat_eq
  rw [BitVec.toNat_ushiftRight, Nat.shiftRight_eq_div_pow]
  have hsplit : 2 ^ w = 2 ^ (w - 1) * 2 := by rw [← Nat.pow_succ]; congr 1; omega
  have hlt := x.isLt
  rw [BitVec.msb_eq_decide]
  split_ifs with hmsb
  · rw [toNat_bias hw]
    have hge : 2 ^ (w - 1) ≤ x.toNat := by simpa using hmsb
    exact Nat.div_eq_of_lt_le (by omega) (by omega)
  · have hsmall : x.toNat < 2 ^ (w - 1) := by simpa using hmsb
    rw [Nat.div_eq_of_lt hsmall, BitVec.toNat_ofNat, Nat.zero_mod]

/-- **The signed remainder** by a power of two. -/
theorem srem_twoPow (h : k < w) :
    ((x + if x.msb then BitVec.twoPow w k - 1#w else 0#w) &&& (BitVec.twoPow w k - 1#w)) -
      (if x.msb then BitVec.twoPow w k - 1#w else 0#w) = x.srem (BitVec.twoPow w k) := by
  have hpow : (2 * 2 ^ k : ℤ) ≤ 2 ^ w := by exact_mod_cast two_pow_lt h
  have hpos : (0 : ℤ) < 2 ^ k := by positivity
  apply BitVec.eq_of_toInt_eq
  rw [BitVec.toInt_srem, tmod_twoPow h]
  by_cases hmsb : x.msb = true
  · have hx := BitVec.toInt_neg_of_msb_true hmsb
    have hnn := Int.emod_nonneg (x.toInt + (2 ^ k - 1)) hpos.ne'
    have hlt := Int.emod_lt_of_pos (x.toInt + (2 ^ k - 1)) hpos
    rw [if_pos hmsb, BitVec.toInt_sub, toInt_and_mask _ h, toInt_add_bias x h hx, toInt_bias h, tmod_of_neg hpos hx]
    refine Int.bmod_eq_of_le_mul_two ?_ ?_
    · push_cast
      omega
    · push_cast
      omega
  · have hx := BitVec.toInt_nonneg_of_msb_false (by simpa using hmsb)
    rw [if_neg hmsb, BitVec.add_zero, BitVec.sub_zero, toInt_and_mask x h, Int.tmod_eq_emod_of_nonneg hx]

/-! ### Constants -/

section Constants

variable {w m k : ℕ}

/-- A number that has no bit in common with its predecessor. -/
theorem exists_twoPow {c : BitVec w} (h0 : c ≠ 0) (hand : c &&& (c - 1#w) = 0) :
    ∃ k < w, c = BitVec.twoPow w k := by
  have hne : c.toNat ≠ 0 := fun h => h0 (BitVec.eq_of_toNat_eq h)
  have hw : w ≠ 0 := by
    rintro rfl
    exact hne (by simpa using c.isLt)
  have hone : (1#w).toNat = 1 := by
    rw [BitVec.toNat_ofNat]
    exact Nat.mod_eq_of_lt (Nat.one_lt_two_pow hw)
  have hsub : (c - 1#w).toNat = c.toNat - 1 := by
    rw [BitVec.toNat_sub_of_le, hone]
    rw [BitVec.le_def, hone]
    exact Nat.one_le_iff_ne_zero.mpr hne
  have hnat : c.toNat &&& (c.toNat - 1) = 0 := by
    have := congrArg BitVec.toNat hand
    rwa [BitVec.toNat_and, hsub] at this
  obtain ⟨k, hk⟩ := (Nat.and_sub_one_eq_zero_iff_isPowerOfTwo hne).mp hnat
  have hkw : k < w := by
    apply (Nat.pow_lt_pow_iff_right (show 1 < 2 by omega)).mp
    rw [← hk]
    exact c.isLt
  refine ⟨k, hkw, BitVec.eq_of_toNat_eq ?_⟩
  rw [hk, BitVec.toNat_twoPow_of_lt hkw]

/-- A power of two in fewer bits. -/
theorem setWidth_twoPow (h : k < w) (hw : w ≤ m) : (BitVec.twoPow m k).setWidth w = BitVec.twoPow w k := by
  apply BitVec.eq_of_toNat_eq
  rw [BitVec.toNat_setWidth, BitVec.toNat_twoPow_of_lt (by omega), BitVec.toNat_twoPow_of_lt h]
  exact Nat.mod_eq_of_lt (Nat.pow_lt_pow_right (by omega) h)

/-- The mask in fewer bits. -/
theorem setWidth_mask (h : k < w) (hw : w ≤ m) :
    (BitVec.twoPow m k - 1#m).setWidth w = BitVec.twoPow w k - 1#w := by
  have hlt := Nat.pow_lt_pow_right (show 1 < 2 by omega) h
  have hmask := toNat_bias (show k < m by omega)
  apply BitVec.eq_of_toNat_eq
  rw [toNat_bias h, BitVec.toNat_setWidth]
  have hpos := Nat.two_pow_pos k
  refine (congrArg (· % 2 ^ w) hmask).trans ?_
  exact Nat.mod_eq_of_lt (by omega)

end Constants

end IrJit.PowerTwo
