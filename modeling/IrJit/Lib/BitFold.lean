import Mathlib.Data.Nat.Bitwise
import Mathlib.Tactic.NormNum
import Mathlib.Tactic.Ring

/-!
# Lib.BitFold — counting the bits of a number in parallel

The number is folded three times: into sums of two bits, of four bits, of eight bits.  Each sum has its own
field, so that nothing is carried from one byte to the next and the fold of a number is made of the folds of
its bytes.
-/

namespace IrJit.BitFold

/-- The byte `m` repeated `n` times. -/
def mask (m : ℕ) : ℕ → ℕ
  | 0 => 0
  | n + 1 => m + 256 * mask m n

def pairs (n v : ℕ) : ℕ := v - (v / 2 &&& mask 0x55 n)

def quads (n v : ℕ) : ℕ := (v &&& mask 0x33 n) + (v / 4 &&& mask 0x33 n)

def bytes (n v : ℕ) : ℕ := v + v / 16 &&& mask 0x0f n

def fold (n v : ℕ) : ℕ := bytes n (quads n (pairs n v))

/-- The number of bits set below bit `w`. -/
def bitCount (w v : ℕ) : ℕ := (List.range w).countP fun i => v.testBit i

/-! ## Byte by byte -/

variable {m n v a b : ℕ}

theorem mask_mod (hm : m < 256) : mask m (n + 1) % 256 = m := by
  rw [mask, Nat.add_mul_mod_self_left, Nat.mod_eq_of_lt hm]

theorem mask_div (hm : m < 256) : mask m (n + 1) / 256 = mask m n := by
  rw [mask, Nat.add_mul_div_left _ _ (by omega), Nat.div_eq_of_lt hm, Nat.zero_add]

theorem land_mask_succ (hm : m < 256) :
    v &&& mask m (n + 1) = (v % 256 &&& m) + 256 * (v / 256 &&& mask m n) := by
  have hmod : (v &&& mask m (n + 1)) % 2 ^ 8 = v % 2 ^ 8 &&& mask m (n + 1) % 2 ^ 8 := Nat.and_mod_two_pow
  have hdiv : (v &&& mask m (n + 1)) / 2 ^ 8 = v / 2 ^ 8 &&& mask m (n + 1) / 2 ^ 8 := Nat.and_div_two_pow
  rw [show (2 : ℕ) ^ 8 = 256 from rfl, mask_mod hm] at hmod
  rw [show (2 : ℕ) ^ 8 = 256 from rfl, mask_div hm] at hdiv
  omega

/-- A mask only reads the bits below its length. -/
theorem land_congr {k : ℕ} (hm : m < 2 ^ k) (h : a % 2 ^ k = b % 2 ^ k) : a &&& m = b &&& m := by
  have key : ∀ c : ℕ, c &&& m = c % 2 ^ k &&& m := by
    intro c
    have hlt : c &&& m < 2 ^ k := lt_of_le_of_lt Nat.and_le_right hm
    rw [← Nat.mod_eq_of_lt hlt, Nat.and_mod_two_pow, Nat.mod_eq_of_lt hm]
  rw [key a, key b, h]

theorem pairs_succ : pairs (n + 1) v = pairs 1 (v % 256) + 256 * pairs n (v / 256) := by
  have hlow : v / 2 % 256 &&& 0x55 = v % 256 / 2 &&& 0x55 := land_congr (show 0x55 < 2 ^ 7 by omega) (by omega)
  have hle : v % 256 / 2 &&& 0x55 ≤ v % 256 := le_trans Nat.and_le_left (Nat.div_le_self _ _)
  have hle' : v / 256 / 2 &&& mask 0x55 n ≤ v / 256 := le_trans Nat.and_le_left (Nat.div_le_self _ _)
  have hdiv : v / 2 / 256 = v / 256 / 2 := by omega
  show v - (v / 2 &&& mask 0x55 (n + 1)) = v % 256 - (v % 256 / 2 &&& mask 0x55 1)
    + 256 * (v / 256 - (v / 256 / 2 &&& mask 0x55 n))
  rw [land_mask_succ (by omega), hlow, hdiv, show mask 0x55 1 = 0x55 from rfl]
  omega

theorem quads_succ : quads (n + 1) v = quads 1 (v % 256) + 256 * quads n (v / 256) := by
  have hlow : v / 4 % 256 &&& 0x33 = v % 256 / 4 &&& 0x33 := land_congr (show 0x33 < 2 ^ 6 by omega) (by omega)
  have hdiv : v / 4 / 256 = v / 256 / 4 := by omega
  show (v &&& mask 0x33 (n + 1)) + (v / 4 &&& mask 0x33 (n + 1)) = (v % 256 &&& mask 0x33 1)
    + (v % 256 / 4 &&& mask 0x33 1) + 256 * ((v / 256 &&& mask 0x33 n) + (v / 256 / 4 &&& mask 0x33 n))
  rw [land_mask_succ (by omega), land_mask_succ (v := v / 4) (by omega), hlow, hdiv,
    show mask 0x33 1 = 0x33 from rfl]
  omega

set_option maxRecDepth 4000 in
/-- The four-bit sums of a byte are small. -/
theorem quads_byte (hv : v < 256) : quads 1 v ≤ 0x66 ∧ quads 1 v % 16 ≤ 6 := by
  have key : ∀ v < 256, quads 1 v ≤ 0x66 ∧ quads 1 v % 16 ≤ 6 := by decide
  exact key v hv

theorem pairs_byte (hv : v < 256) : pairs 1 v < 256 := lt_of_le_of_lt (Nat.sub_le _ _) hv

theorem quads_low : quads n v % 16 ≤ 6 := by
  cases n with
  | zero => simp [quads, mask]
  | succ n =>
    have := (quads_byte (Nat.mod_lt v (show 0 < 256 by omega))).2
    rw [quads_succ]
    omega

/-- Adding the neighbours carries nothing into the next byte. -/
theorem quads_carry : (quads (n + 1) v + quads (n + 1) v / 16) / 256
    = quads n (v / 256) + quads n (v / 256) / 16 := by
  have hbyte := quads_byte (Nat.mod_lt v (show 0 < 256 by omega))
  have hnext := @quads_low n (v / 256)
  rw [quads_succ]
  omega

theorem bytes_quads_succ : bytes (n + 1) (quads (n + 1) v)
    = bytes 1 (quads 1 (v % 256)) + 256 * bytes n (quads n (v / 256)) := by
  have hlow : (quads (n + 1) v + quads (n + 1) v / 16) % 256 &&& 0x0f
      = quads 1 (v % 256) + quads 1 (v % 256) / 16 &&& 0x0f := by
    refine land_congr (show 0x0f < 2 ^ 4 by omega) ?_
    rw [quads_succ]
    omega
  show quads (n + 1) v + quads (n + 1) v / 16 &&& mask 0x0f (n + 1)
    = (quads 1 (v % 256) + quads 1 (v % 256) / 16 &&& mask 0x0f 1)
      + 256 * (quads n (v / 256) + quads n (v / 256) / 16 &&& mask 0x0f n)
  rw [land_mask_succ (by omega), hlow, quads_carry, show mask 0x0f 1 = 0x0f from rfl]

/-! ## The sums are the bit counts -/

theorem bitCount_succ_byte : bitCount (8 * (n + 1)) v = bitCount 8 (v % 256) + bitCount (8 * n) (v / 256) := by
  unfold bitCount
  rw [show 8 * (n + 1) = 8 + 8 * n by omega, List.range_add, List.countP_append, List.countP_map]
  congr 1
  · refine List.countP_congr fun i hi => ?_
    rw [List.mem_range] at hi
    rw [show (256 : ℕ) = 2 ^ 8 from rfl, Nat.testBit_mod_two_pow]
    simp [hi]
  · refine List.countP_congr fun i _ => ?_
    rw [show (256 : ℕ) = 2 ^ 8 from rfl, Nat.testBit_div_two_pow]
    simp [Nat.add_comm]

set_option maxRecDepth 4000 in
theorem fold_byte (hv : v < 256) : fold 1 v = bitCount 8 v := by
  have key : ∀ v < 256, fold 1 v = bitCount 8 v := by decide
  exact key v hv

/-- The fold of a number: the bit count of its lowest byte, and above it the fold of the other bytes. -/
theorem fold_succ : fold (n + 1) v = bitCount 8 (v % 256) + 256 * fold n (v / 256) := by
  have hlow := Nat.mod_lt v (show 0 < 256 by omega)
  have hp := pairs_byte hlow
  unfold fold
  rw [bytes_quads_succ]
  have hmod : pairs (n + 1) v % 256 = pairs 1 (v % 256) := by
    rw [pairs_succ]
    omega
  have hdiv : pairs (n + 1) v / 256 = pairs n (v / 256) := by
    rw [pairs_succ]
    omega
  rw [hmod, hdiv, ← fold_byte hlow]
  rfl

theorem bitCount_le (w v : ℕ) : bitCount w v ≤ w := by
  unfold bitCount
  have := List.countP_le_length (p := fun i => v.testBit i) (l := List.range w)
  rwa [List.length_range] at this

/-! ## Bounds -/

theorem quads_lt : quads n v < 256 ^ n := by
  induction n generalizing v with
  | zero => simp [quads, mask]
  | succ n ih =>
    have hbyte := (quads_byte (Nat.mod_lt v (show 0 < 256 by omega))).1
    have hrest := @ih (v / 256)
    rw [quads_succ, Nat.pow_succ]
    omega

theorem quads_add_lt : quads n v + quads n v / 16 < 256 ^ n := by
  induction n generalizing v with
  | zero => simp [quads, mask]
  | succ n ih =>
    have hrest := @ih (v / 256)
    have hcarry := @quads_carry n v
    rw [Nat.pow_succ]
    omega

/-! ## Adding up the bytes -/

theorem fold_zero : fold 0 v = 0 := Nat.and_zero _

theorem bitCount_zero : bitCount 0 v = 0 := rfl

/-- Two bytes are added with a shift. -/
theorem fold_two : fold 2 v / 256 + fold 2 v % 16 = bitCount 16 v := by
  have h0 := bitCount_le 8 (v % 256)
  have h1 := bitCount_le 8 (v / 256 % 256)
  rw [show 16 = 8 * (1 + 1) from rfl, bitCount_succ_byte, show (1 : ℕ) = 0 + 1 from rfl, bitCount_succ_byte,
    Nat.mul_zero, bitCount_zero, show 2 = 1 + 1 from rfl, fold_succ, show (1 : ℕ) = 0 + 1 from rfl, fold_succ, fold_zero]
  omega

theorem top_byte {B low sum high : ℕ} (hlow : low < B) (hsum : sum < 256) :
    (low + B * sum + B * 256 * high) % (B * 256) / B = sum := by
  have hlt : low + B * sum < B * 256 := by
    calc low + B * sum < B + B * sum := by omega
      _ = B * (sum + 1) := by rw [Nat.mul_succ, Nat.add_comm]
      _ ≤ B * 256 := Nat.mul_le_mul_left B (by omega)
  rw [Nat.add_mul_mod_self_left, Nat.mod_eq_of_lt hlt, Nat.add_mul_div_left _ _ (by omega),
    Nat.div_eq_of_lt hlow, Nat.zero_add]

/-- A product with a one in each byte has the sum of all bytes in its highest. -/
theorem ones_four {a b c d : ℕ} (ha : a ≤ 8) (hb : b ≤ 8) (hc : c ≤ 8) (hd : d ≤ 8) :
    (a + 256 * (b + 256 * (c + 256 * d))) * 0x01010101 % 2 ^ 32 / 2 ^ 24 = a + b + c + d := by
  have hprod : (a + 256 * (b + 256 * (c + 256 * d))) * 0x01010101
      = a + 256 * (a + b) + 256 ^ 2 * (a + b + c) + 2 ^ 24 * (a + b + c + d)
        + 2 ^ 24 * 256 * (b + c + d + 256 * (c + d) + 256 ^ 2 * d) := by
    ring
  rw [hprod, show (2 : ℕ) ^ 32 = 2 ^ 24 * 256 by norm_num]
  refine top_byte ?_ ?_
  · omega
  · omega

theorem ones_eight {a b c d e f g h : ℕ} (ha : a ≤ 8) (hb : b ≤ 8) (hc : c ≤ 8) (hd : d ≤ 8) (he : e ≤ 8)
    (hf : f ≤ 8) (hg : g ≤ 8) (hh : h ≤ 8) :
    (a + 256 * (b + 256 * (c + 256 * (d + 256 * (e + 256 * (f + 256 * (g + 256 * h)))))))
      * 0x0101010101010101 % 2 ^ 64 / 2 ^ 56 = a + b + c + d + e + f + g + h := by
  have hprod : (a + 256 * (b + 256 * (c + 256 * (d + 256 * (e + 256 * (f + 256 * (g + 256 * h)))))))
        * 0x0101010101010101
      = a + 256 * (a + b) + 256 ^ 2 * (a + b + c) + 256 ^ 3 * (a + b + c + d) + 256 ^ 4 * (a + b + c + d + e)
        + 256 ^ 5 * (a + b + c + d + e + f) + 256 ^ 6 * (a + b + c + d + e + f + g)
        + 2 ^ 56 * (a + b + c + d + e + f + g + h)
        + 2 ^ 56 * 256 * (b + c + d + e + f + g + h + 256 * (c + d + e + f + g + h)
          + 256 ^ 2 * (d + e + f + g + h) + 256 ^ 3 * (e + f + g + h) + 256 ^ 4 * (f + g + h)
          + 256 ^ 5 * (g + h) + 256 ^ 6 * h) := by
    ring
  rw [hprod, show (2 : ℕ) ^ 64 = 2 ^ 56 * 256 by norm_num]
  refine top_byte ?_ ?_
  · omega
  · omega

theorem fold_four : fold 4 v * 0x01010101 % 2 ^ 32 / 2 ^ 24 = bitCount 32 v := by
  have hcount : bitCount 32 v = bitCount (8 * 4) v := rfl
  have hfold : fold 4 v = fold (3 + 1) v := rfl
  simp only [hcount, hfold, bitCount_succ_byte, fold_succ, bitCount_zero, fold_zero, Nat.mul_zero, Nat.add_zero]
  rw [ones_four (bitCount_le 8 _) (bitCount_le 8 _) (bitCount_le 8 _) (bitCount_le 8 _)]
  simp only [Nat.add_assoc]

theorem fold_eight : fold 8 v * 0x0101010101010101 % 2 ^ 64 / 2 ^ 56 = bitCount 64 v := by
  have hcount : bitCount 64 v = bitCount (8 * 8) v := rfl
  have hfold : fold 8 v = fold (7 + 1) v := rfl
  simp only [hcount, hfold, bitCount_succ_byte, fold_succ, bitCount_zero, fold_zero, Nat.mul_zero, Nat.add_zero]
  rw [ones_eight (bitCount_le 8 _) (bitCount_le 8 _) (bitCount_le 8 _) (bitCount_le 8 _) (bitCount_le 8 _)
    (bitCount_le 8 _) (bitCount_le 8 _) (bitCount_le 8 _)]
  simp only [Nat.add_assoc]

end IrJit.BitFold
