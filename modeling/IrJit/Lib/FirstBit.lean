import Mathlib.Data.BitVec
import Mathlib.Data.Finset.Max
import Mathlib.Tactic.Common

/-!
# Lib.FirstBit — the smallest element of a set of bits

* `LowestBit`: of a word; `x & (x - 1)` is `x` without its lowest bit, whose number is `x.ctz`.
-/

namespace IrJit

/-- The smallest element, `none` for the empty set (`-1` in C). -/
def firstBit (s : Finset ℕ) : Option ℕ := if h : s.Nonempty then some (s.min' h) else none

theorem firstBit_eq_none {s : Finset ℕ} : firstBit s = none ↔ s = ∅ := by
  unfold firstBit
  split_ifs with h
  · simp [h.ne_empty]
  · simpa [Finset.not_nonempty_iff_eq_empty] using h

theorem firstBit_mem {s : Finset ℕ} {x : ℕ} (h : firstBit s = some x) : x ∈ s := by
  unfold firstBit at h
  split_ifs at h with hs
  injection h with h
  exact h ▸ s.min'_mem hs

theorem firstBit_le {s : Finset ℕ} {x y : ℕ} (h : firstBit s = some x) (hy : y ∈ s) : x ≤ y := by
  unfold firstBit at h
  split_ifs at h with hs
  injection h with h
  exact h ▸ s.min'_le y hy

end IrJit

namespace IrJit.LowestBit

variable {w : ℕ}

/-- A number whose lowest bit is bit `t`, and the one before it. -/
theorem testBit_pred {t a : ℕ} (i : ℕ) :
    (2 ^ t * (2 * a + 1) - 1).testBit i = if i < t then true else (2 * a).testBit (i - t) := by
  have hpos := Nat.two_pow_pos t
  have hsplit : 2 ^ t * (2 * a + 1) - 1 = 2 ^ t * (2 * a) + (2 ^ t - 1) := by
    rw [Nat.mul_add, Nat.mul_one, Nat.add_sub_assoc hpos]
  rw [hsplit, Nat.testBit_two_pow_mul_add _ (by omega)]
  by_cases hi : i < t
  · rw [if_pos hi, if_pos hi, Nat.testBit_two_pow_sub_one]
    exact decide_eq_true hi
  · rw [if_neg hi, if_neg hi]

theorem testBit_and_pred (t a i : ℕ) :
    (2 ^ t * (2 * a + 1) &&& (2 ^ t * (2 * a + 1) - 1)).testBit i =
      ((2 ^ t * (2 * a + 1)).testBit i && decide (i ≠ t)) := by
  rw [Nat.testBit_and, testBit_pred, Nat.testBit_two_pow_mul]
  by_cases hlt : i < t
  · have hle : ¬t ≤ i := by omega
    simp [hle]
  · rw [if_neg hlt]
    by_cases hi : i = t
    · subst hi
      simp
    · obtain ⟨j, hj⟩ : ∃ j, i - t = j + 1 := ⟨i - t - 1, by omega⟩
      rw [hj, Nat.testBit_succ, Nat.testBit_succ]
      have hdiv : (2 * a + 1) / 2 = 2 * a / 2 := by omega
      simp [hi, hdiv]

/-- A word that is not zero, around its lowest bit. -/
theorem exists_odd {x : BitVec w} (hx : x ≠ 0#w) : ∃ a, x.toNat = 2 ^ x.ctz.toNat * (2 * a + 1) := by
  have hlow : x.toNat % 2 ^ x.ctz.toNat = 0 := by
    apply Nat.eq_of_testBit_eq
    intro i
    rw [Nat.testBit_mod_two_pow, Nat.zero_testBit]
    by_cases hi : i < x.ctz.toNat
    · have hbit := BitVec.getLsbD_false_of_lt_ctz hi
      rw [BitVec.getLsbD] at hbit
      rw [hbit, Bool.and_false]
    · rw [decide_eq_false hi, Bool.false_and]
  have hbit := BitVec.getLsbD_true_ctz_of_ne_zero hx
  have hodd : x.toNat / 2 ^ x.ctz.toNat % 2 = 1 := by
    rw [BitVec.getLsbD, Nat.testBit_eq_decide_div_mod_eq] at hbit
    exact of_decide_eq_true hbit
  refine ⟨x.toNat / 2 ^ x.ctz.toNat / 2, ?_⟩
  have hdvd := Nat.mul_div_cancel' (Nat.dvd_of_mod_eq_zero hlow)
  have hdiv := Nat.div_add_mod (x.toNat / 2 ^ x.ctz.toNat) 2
  rw [hodd] at hdiv
  rw [hdiv, hdvd]

/-- `x & (x - 1)` has the bits of `x`, but the lowest. -/
theorem getLsbD_and_pred {x : BitVec w} (hx : x ≠ 0#w) (i : ℕ) :
    (x &&& (x - 1#w)).getLsbD i = (x.getLsbD i && decide (i ≠ x.ctz.toNat)) := by
  obtain ⟨a, ha⟩ := exists_odd hx
  have hw : w ≠ 0 := by
    rintro rfl
    exact hx (BitVec.of_length_zero)
  have hone : (1#w).toNat = 1 := by
    rw [BitVec.toNat_ofNat]
    exact Nat.mod_eq_of_lt (Nat.one_lt_two_pow hw)
  have hpos : 0 < x.toNat := by
    have := BitVec.two_pow_ctz_le_toNat_of_ne_zero hx
    have := Nat.two_pow_pos x.ctz.toNat
    omega
  have hsub : (x - 1#w).toNat = x.toNat - 1 := by
    rw [BitVec.toNat_sub_of_le, hone]
    rw [BitVec.le_def, hone]
    exact hpos
  rw [BitVec.getLsbD, BitVec.toNat_and, hsub, ha, testBit_and_pred, ← ha]
  rfl

/-- The lowest bit is one of the bits, and no bit is below it. -/
theorem ctz_le_of_getLsbD {x : BitVec w} {i : ℕ} (hi : x.getLsbD i = true) : x.ctz.toNat ≤ i := by
  by_contra hlt
  rw [BitVec.getLsbD_false_of_lt_ctz (by omega)] at hi
  exact Bool.false_ne_true hi

theorem ctz_lt {x : BitVec w} (hx : x ≠ 0#w) : x.ctz.toNat < w := by
  by_contra hge
  have hbit := BitVec.getLsbD_true_ctz_of_ne_zero hx
  rw [BitVec.getLsbD_of_ge x _ (by omega)] at hbit
  exact Bool.false_ne_true hbit

end IrJit.LowestBit
