import IrJit.Fold.Arith

/-!
# Fold.Bitwise — bitwise operations, shifts and conversions of canonical constants

A canonical constant is the extension of the pattern of its value (`store`), and the extensions
commute with the bitwise operations.
-/

namespace IrJit.Fold

variable {t t₁ t₂ : IrType} {x y : ℤ}

/-! ## Patterns -/

/-- The constant of a pattern: zero-extended or sign-extended as the type says. -/
def store (t : IrType) {w : ℕ} (p : BitVec w) : Val :=
  if t.isSigned then p.signExtend 64 else p.setWidth 64

theorem bits_pos (ht : IsInt t) : 0 < bits t ∧ bits t ≤ 64 := by
  obtain ⟨h1, h2⟩ := ht
  cases t <;> simp [IrType.isInt] at h1 h2 <;> simp [bits, IrType.size]

theorem toU_toNat {w : ℕ} (p : BitVec w) : toU w p.toNat = p.toNat := by
  have hp : (p.toNat : ℤ) < 2 ^ w := by exact_mod_cast p.isLt
  exact Int.emod_eq_of_lt (Int.natCast_nonneg _) hp

theorem toI_toNat {w : ℕ} (hw : 0 < w) (p : BitVec w) : toI w p.toNat = p.toInt := by
  obtain ⟨k, rfl⟩ : ∃ k, w = k + 1 := ⟨w - 1, by omega⟩
  have hlt : (p.toNat : ℤ) < 2 ^ (k + 1) := by exact_mod_cast p.isLt
  have hpow : (2 : ℤ) ^ (k + 1) = 2 * 2 ^ k := by ring
  have hcond := BitVec.toInt_eq_toNat_cond p
  have hcast : ((2 ^ (k + 1) : ℕ) : ℤ) = 2 * 2 ^ k := by
    push_cast
    ring
  have h0 : (0 : ℤ) ≤ p.toNat := Int.natCast_nonneg _
  unfold toI
  simp only [Nat.add_sub_cancel]
  rw [hpow] at *
  by_cases h : 2 * p.toNat < 2 ^ (k + 1)
  · rw [if_pos h] at hcond
    have h' : 2 * (p.toNat : ℤ) < 2 * 2 ^ k := by
      rw [← hcast]
      exact_mod_cast h
    rw [Int.emod_eq_of_lt (by omega) (by omega), hcond]
    omega
  · rw [if_neg h, hcast] at hcond
    have h' : 2 * 2 ^ k ≤ 2 * (p.toNat : ℤ) := by
      rw [← hcast]
      exact_mod_cast not_lt.1 h
    have hsub : ((p.toNat : ℤ) + 2 ^ k) % (2 * 2 ^ k) = p.toNat - 2 ^ k := by
      rw [show (p.toNat : ℤ) + 2 ^ k = (p.toNat - 2 ^ k) + 2 * 2 ^ k by ring,
        Int.add_emod_right]
      exact Int.emod_eq_of_lt (by omega) (by omega)
    rw [hsub, hcond]
    ring

theorem ofInt_ofBits (ht : IsInt t) (p : BitVec (bits t)) :
    BitVec.ofInt 64 (ofBits t p) = store t p := by
  unfold ofBits wrap store
  by_cases hs : t.isSigned = true
  · rw [if_pos hs, if_pos hs, toI_toNat (bits_pos ht).1]
    rfl
  · rw [if_neg hs, if_neg hs, toU_toNat, BitVec.ofInt_natCast, BitVec.ofNat_toNat]

theorem ofBits_ofInt (t : IrType) (x : ℤ) : ofBits t (BitVec.ofInt (bits t) x) = wrap t x := by
  have hn : ((BitVec.ofInt (bits t) x).toNat : ℤ) = x % 2 ^ bits t := by
    rw [BitVec.toNat_ofInt, Int.toNat_of_nonneg]
    · push_cast
      rfl
    · exact Int.emod_nonneg _ (by positivity)
  unfold ofBits wrap toI toU
  rw [hn, Int.emod_emod_of_dvd _ dvd_rfl, Int.emod_add_emod]

theorem ofInt_eq_store (ht : IsInt t) (hx : InRange t x) :
    BitVec.ofInt 64 x = store t (BitVec.ofInt (bits t) x) := by
  rw [← ofInt_ofBits ht, ofBits_ofInt, wrap_eq_self ht hx]

theorem setWidth_ofInt {w m : ℕ} (hw : w ≤ m) (x : ℤ) :
    (BitVec.ofInt m x).setWidth w = BitVec.ofInt w x := by
  apply BitVec.eq_of_toNat_eq
  have hd : (2 : ℤ) ^ w ∣ 2 ^ m := pow_dvd_pow 2 hw
  have hm : (0 : ℤ) ≤ x % 2 ^ m := Int.emod_nonneg _ (by positivity)
  have hw0 : (0 : ℤ) ≤ x % 2 ^ w := Int.emod_nonneg _ (by positivity)
  rw [BitVec.toNat_setWidth, BitVec.toNat_ofInt, BitVec.toNat_ofInt]
  zify
  rw [Int.toNat_of_nonneg hm, Int.toNat_of_nonneg hw0]
  exact Int.emod_emod_of_dvd x hd

theorem ofBits_inRange (ht : IsInt t) (hb : t ≠ .bool) {w : ℕ} (p : BitVec w) :
    InRange t (ofBits t p) := inRange_wrap ht hb _

/-- A stored pattern is the constant of its value. -/
theorem yields_store (ht : IsInt t) (hb : t ≠ .bool) (p : BitVec (bits t)) :
    Yields t (ofBits t p) (.const (store t p)) :=
  (yields_const ht (ofBits_inRange ht hb p) _).2 (ofInt_ofBits ht p).symm

theorem yields_full (hf : t = .u64 ∨ t = .i64) (p : BitVec 64) :
    Yields t (ofBits t p) (.const p) := by
  rcases hf with rfl | rfl
  · rw [yields_const ⟨rfl, by simp⟩ (ofBits_inRange ⟨rfl, by simp⟩ (by simp) p)]
    exact (BitVec.setWidth_eq p).symm.trans (ofInt_ofBits (t := .u64) ⟨rfl, by simp⟩ p).symm
  · rw [yields_const ⟨rfl, by simp⟩ (ofBits_inRange ⟨rfl, by simp⟩ (by simp) p)]
    exact (BitVec.signExtend_eq p).symm.trans (ofInt_ofBits (t := .i64) ⟨rfl, by simp⟩ p).symm

theorem store_or (t : IrType) {w : ℕ} (p q : BitVec w) :
    store t p ||| store t q = store t (p ||| q) := by
  unfold store
  split_ifs
  · rw [BitVec.signExtend_or]
  · rw [BitVec.setWidth_or]

theorem store_and (t : IrType) {w : ℕ} (p q : BitVec w) :
    store t p &&& store t q = store t (p &&& q) := by
  unfold store
  split_ifs
  · rw [BitVec.signExtend_and]
  · rw [BitVec.setWidth_and]

theorem store_xor (t : IrType) {w : ℕ} (p q : BitVec w) :
    store t p ^^^ store t q = store t (p ^^^ q) := by
  unfold store
  split_ifs
  · rw [BitVec.signExtend_xor]
  · rw [BitVec.setWidth_xor]

/-! ## `OR`, `AND`, `XOR`, `NOT` -/

theorem inRange_bool_cases (hx : InRange .bool x) : x = 0 ∨ x = 1 := by
  simp [InRange] at hx
  omega

theorem valB_ofInt (hx : InRange .bool x) : valB (BitVec.ofInt 64 x) = decide (x = 1) := by
  rcases inRange_bool_cases hx with rfl | rfl <;> decide

theorem yields_bits {f : (w : ℕ) → BitVec w → BitVec w → BitVec w} {fb : Bool → Bool → Bool}
    (hf : ∀ (t : IrType) (w : ℕ) (p q : BitVec w), f 64 (store t p) (store t q) = store t (f w p q))
    (hfb : ∀ a b : Bool, ofBits .bool (f 8 (BitVec.ofBool a |>.setWidth 8)
      (BitVec.ofBool b |>.setWidth 8)) = if fb a b then 1 else 0)
    (hx : InRange t₁ x) (hy : InRange t₂ y) :
    Yields t₁ (ofBits t₁ (f (bits t₁) (BitVec.ofInt (bits t₁) x) (BitVec.ofInt (bits t₁) y)))
      ((foldBits (f 64) fb t₁ t₂ (BitVec.ofInt 64 x) (BitVec.ofInt 64 y)).intern t₁) := by
  unfold foldBits
  split
  · rw [intern_foldBool, yields_foldBool, valB_ofInt hx, valB_ofInt hy, ← hfb]
    rcases inRange_bool_cases hx with rfl | rfl <;> rcases inRange_bool_cases hy with rfl | rfl <;>
      rfl
  all_goals first
    | exact yields_next _ _
    | (rw [yields_intern (by simp), ofInt_eq_store ⟨rfl, by simp⟩ hx,
        ofInt_eq_store ⟨rfl, by simp⟩ hy, hf]
       exact yields_store ⟨rfl, by simp⟩ (by simp) _)

theorem exact_or (hx : InRange t₁ x) (hy : InRange t₂ y) :
    Yields t₁ (spec .or t₁ t₁ t₂ x y)
      (foldConst .or t₁ t₁ t₂ (BitVec.ofInt 64 x) (BitVec.ofInt 64 y)) :=
  yields_bits (f := fun _ p q => p ||| q) (fun t _ => store_or t) (by decide) hx hy

theorem exact_and (hx : InRange t₁ x) (hy : InRange t₂ y) :
    Yields t₁ (spec .and t₁ t₁ t₂ x y)
      (foldConst .and t₁ t₁ t₂ (BitVec.ofInt 64 x) (BitVec.ofInt 64 y)) :=
  yields_bits (f := fun _ p q => p &&& q) (fun t _ => store_and t) (by decide) hx hy

/-- A zero-extended pattern is canonical for `IR_CHAR` when its sign bit is clear. -/
theorem yields_char (p : BitVec 8) :
    Yields .char (ofBits .char p) (.const (p.setWidth 64)) ↔ p.msb = false := by
  rw [yields_const ⟨rfl, by simp⟩ (ofBits_inRange ⟨rfl, by simp⟩ (by simp) p),
    show BitVec.ofInt 64 (ofBits .char p) = p.signExtend 64 from
      ofInt_ofBits (t := .char) ⟨rfl, by simp⟩ p]
  constructor
  · intro h
    by_contra hm
    have hbit : (p.setWidth 64).getLsbD 63 = (p.signExtend 64).getLsbD 63 := by rw [h]
    rw [BitVec.getLsbD_signExtend, BitVec.getLsbD_setWidth] at hbit
    simp at hbit
    exact hm hbit
  · intro hm
    rw [BitVec.signExtend_eq_setWidth_of_msb_false hm]

theorem msb_ofInt_char (hx : InRange .char x) : (BitVec.ofInt 8 x).msb = decide (x < 0) := by
  simp [InRange, IrType.isSigned, bits, IrType.size] at hx
  rw [BitVec.msb_eq_toInt, BitVec.toInt_ofInt_eq_self (by simp) (by simpa using hx.1)
    (by simpa using hx.2)]

theorem exact_xor (hx : InRange t₁ x) (hy : InRange t₂ y) :
    Yields t₁ (spec .xor t₁ t₁ t₂ x y)
        (foldConst .xor t₁ t₁ t₂ (BitVec.ofInt 64 x) (BitVec.ofInt 64 y)) ↔
      Safe .xor t₁ t₁ t₂ x y := by
  show Yields t₁ (ofBits t₁ (BitVec.ofInt (bits t₁) x ^^^ BitVec.ofInt (bits t₁) y))
    ((foldXor _ _ _ _).intern t₁) ↔ (_ → _ → (_ ↔ _))
  unfold foldXor
  split
  · rw [intern_foldBool, yields_foldBool, valB_ofInt hx, valB_ofInt hy]
    rcases inRange_bool_cases hx with rfl | rfl <;> rcases inRange_bool_cases hy with rfl | rfl <;>
      simp <;> rfl
  · rw [yields_intern (by simp), setWidth_ofInt (by simp), setWidth_ofInt (by simp)]
    exact iff_of_true (yields_store (t := .u8) ⟨rfl, by simp⟩ (by simp) _) (by simp)
  · rw [yields_intern (by simp), setWidth_ofInt (by simp), setWidth_ofInt (by simp)]
    refine (yields_char (BitVec.ofInt 8 x ^^^ BitVec.ofInt 8 y)).trans ?_
    rw [BitVec.msb_xor, msb_ofInt_char hx, msb_ofInt_char hy]
    simp
    omega
  · rw [yields_intern (by simp), setWidth_ofInt (by simp), setWidth_ofInt (by simp),
      ← BitVec.signExtend_xor]
    exact iff_of_true (yields_store (t := .i8) ⟨rfl, by simp⟩ (by simp) _) (by simp)
  · rw [yields_intern (by simp), setWidth_ofInt (by simp), setWidth_ofInt (by simp)]
    exact iff_of_true (yields_store (t := .u16) ⟨rfl, by simp⟩ (by simp) _) (by simp)
  · rw [yields_intern (by simp), setWidth_ofInt (by simp), setWidth_ofInt (by simp),
      ← BitVec.signExtend_xor]
    exact iff_of_true (yields_store (t := .i16) ⟨rfl, by simp⟩ (by simp) _) (by simp)
  · rw [yields_intern (by simp), setWidth_ofInt (by simp), setWidth_ofInt (by simp)]
    exact iff_of_true (yields_store (t := .u32) ⟨rfl, by simp⟩ (by simp) _) (by simp)
  · rw [yields_intern (by simp), setWidth_ofInt (by simp), setWidth_ofInt (by simp),
      ← BitVec.signExtend_xor]
    exact iff_of_true (yields_store (t := .i32) ⟨rfl, by simp⟩ (by simp) _) (by simp)
  · rw [yields_intern (by simp), ofInt_eq_store ⟨rfl, by simp⟩ hx,
      ofInt_eq_store ⟨rfl, by simp⟩ hy, store_xor]
    exact iff_of_true (yields_store ⟨rfl, by simp⟩ (by simp) _) (by simp)
  · rw [yields_intern (by simp), ofInt_eq_store ⟨rfl, by simp⟩ hx,
      ofInt_eq_store ⟨rfl, by simp⟩ hy, store_xor]
    exact iff_of_true (yields_store ⟨rfl, by simp⟩ (by simp) _) (by simp)
  · refine iff_of_true (yields_next _ _) ?_
    rintro rfl rfl
    simp_all

theorem exact_not (hx : InRange t₁ x) (b : Val) :
    Yields t₁ (spec .not t₁ t₁ t₂ x y) (foldConst .not t₁ t₁ t₂ (BitVec.ofInt 64 x) b) ↔
      Safe .not t₁ t₁ t₂ x y := by
  show Yields t₁ (if t₁ = .bool then 1 - x else wrap t₁ (-x - 1)) ((foldNot _ _).intern t₁) ↔
    _ ∧ _ ∧ (_ → _)
  by_cases hb : t₁ = .bool
  · subst hb
    rw [if_pos rfl, foldNot, intern_foldBool, yields_foldBool, u64_self ⟨rfl, by simp⟩ rfl hx]
    rcases inRange_bool_cases hx with rfl | rfl <;> simp
  rw [if_neg hb, yields_intern hb]
  unfold foldNot
  split
  · exact absurd rfl hb
  iterate 9
    refine (yields_constU ⟨rfl, by simp⟩ (inRange_wrap ⟨rfl, by simp⟩ (by simp) _) _).trans ?_
    simp [InRange, IrType.isSigned, bits, IrType.size] at hx
    simp [wrap, IrType.isSigned, bits, IrType.size, toI, toU, lnot]
    try omega
  · refine iff_of_true (yields_next _ _) ⟨?_, ?_, ?_⟩ <;> rintro rfl <;> simp_all

/-! ## Shifts -/

theorem count_ofInt {w : ℕ} (hw : 0 < w) (hd : (w : ℤ) ∣ 18446744073709551616) (y : ℤ) :
    count w (BitVec.ofInt 64 y) = shift w y := by
  have h0 : 0 ≤ y % w := Int.emod_nonneg y (by omega)
  unfold count shift
  zify
  rw [toNat_ofInt, Int.toNat_of_nonneg h0, Int.emod_emod_of_dvd y hd]

theorem shift_lt {w : ℕ} (hw : 0 < w) (y : ℤ) : shift w y < w := by
  have h0 : 0 ≤ y % w := Int.emod_nonneg y (by omega)
  have h1 : y % w < w := Int.emod_lt_of_pos y (by omega)
  unfold shift
  omega

theorem mul_pow_le {m : ℤ} {k n : ℕ} (h0 : 0 ≤ x) (h1 : x ≤ m) (hk : k ≤ n) :
    x * 2 ^ k ≤ m * 2 ^ n :=
  mul_le_mul h1 (pow_le_pow_right₀ (by norm_num) hk) (by positivity) (by omega)

theorem ediv_pow_bounds (x : ℤ) (k : ℕ) :
    (0 ≤ x → 0 ≤ x / 2 ^ k ∧ x / 2 ^ k ≤ x) ∧ (x < 0 → x ≤ x / 2 ^ k ∧ x / 2 ^ k < 0) := by
  have hp : (0 : ℤ) < 2 ^ k := by positivity
  have h1 : (1 : ℤ) ≤ 2 ^ k := hp
  constructor
  · intro h
    exact ⟨Int.ediv_nonneg h hp.le, Int.ediv_le_self _ h⟩
  · intro h
    refine ⟨(Int.le_ediv_iff_mul_le hp).2 ?_, Int.ediv_neg_of_neg_of_pos h hp⟩
    nlinarith

theorem emod_mul_pow (m x : ℤ) (k : ℕ) : x % m * 2 ^ k % m = x * 2 ^ k % m :=
  (Int.mod_modEq x m).mul_right (2 ^ k)

theorem exact_shl (hx : InRange t₁ x) (y : ℤ) :
    Yields t₁ (spec .shl t₁ t₁ t₂ x y)
        (foldConst .shl t₁ t₁ t₂ (BitVec.ofInt 64 x) (BitVec.ofInt 64 y)) ↔
      Safe .shl t₁ t₁ t₂ x y := by
  show Yields t₁ (wrap t₁ (x * 2 ^ shift (bits t₁) y)) ((foldShl _ _ _ _).intern t₁) ↔
    (_ → (_ → _) ∧ (_ → _))
  by_cases hb : t₁ = .bool
  · subst hb
    cases t₂ <;> simp [foldShl, Outcome.intern, yields_next]
  rw [yields_intern hb]
  have hs8 := shift_lt (w := 8) (by norm_num) y
  have hs16 := shift_lt (w := 16) (by norm_num) y
  unfold foldShl
  split
  · rw [count_ofInt (by norm_num) (by norm_num), u8_self hx]
    simp [InRange, IrType.isSigned, bits, IrType.size] at hx
    have h0 : 0 ≤ x * 2 ^ shift 8 y := mul_nonneg hx.1 (by positivity)
    have h1 : x * 2 ^ shift 8 y ≤ 255 * 2 ^ 7 := mul_pow_le hx.1 (by omega) (by omega)
    have he : |x * 2 ^ shift 8 y| ≤ 4294967296 := abs_le.2 ⟨by omega, by omega⟩
    refine (narrow_iff (by simp [Narrow]) he).trans ?_
    simp [InRange, IrType.isSigned, bits, IrType.size, h0]
  · rw [count_ofInt (by norm_num) (by norm_num), u8_ofInt]
    have hm := emod_mul_pow 256 x (shift 8 y)
    have h0 : 0 ≤ x % 256 * 2 ^ shift 8 y := mul_nonneg (by omega) (by positivity)
    have h1 : x % 256 * 2 ^ shift 8 y ≤ 255 * 2 ^ 7 := mul_pow_le (by omega) (by omega) (by omega)
    refine (yields_constU ⟨rfl, by simp⟩ (inRange_wrap ⟨rfl, by simp⟩ (by simp) _) _).trans ?_
    simp [wrap, IrType.isSigned, bits, IrType.size, toI, toU]
    omega
  · rw [count_ofInt (by norm_num) (by norm_num), u8_ofInt]
    have hm := emod_mul_pow 256 x (shift 8 y)
    refine iff_of_true (yields_of_wrap ⟨rfl, by simp⟩ (by simp) ?_) (by simp)
    simp [wrap, IrType.isSigned, bits, IrType.size, toI, Int.ModEq]
    omega
  · rw [count_ofInt (by norm_num) (by norm_num), u16_self hx]
    simp [InRange, IrType.isSigned, bits, IrType.size] at hx
    have h0 : 0 ≤ x * 2 ^ shift 16 y := mul_nonneg hx.1 (by positivity)
    have h1 : x * 2 ^ shift 16 y ≤ 65535 * 2 ^ 15 := mul_pow_le hx.1 (by omega) (by omega)
    have he : |x * 2 ^ shift 16 y| ≤ 4294967296 := abs_le.2 ⟨by omega, by omega⟩
    refine (narrow_iff (by simp [Narrow]) he).trans ?_
    simp [InRange, IrType.isSigned, bits, IrType.size, h0]
  · rw [count_ofInt (by norm_num) (by norm_num), u16_ofInt]
    have hm := emod_mul_pow 65536 x (shift 16 y)
    refine iff_of_true (yields_of_wrap ⟨rfl, by simp⟩ (by simp) ?_) (by simp)
    simp [wrap, IrType.isSigned, bits, IrType.size, toI, Int.ModEq]
    omega
  · rw [count_ofInt (by norm_num) (by norm_num), u32_ofInt]
    have hm := emod_mul_pow 4294967296 x (shift 32 y)
    refine iff_of_true (yields_of_wrap ⟨rfl, by simp⟩ (by simp) ?_) (by simp)
    simp [wrap, IrType.isSigned, bits, IrType.size, toU, Int.ModEq, hm]
  · rw [count_ofInt (by norm_num) (by norm_num), u32_ofInt]
    have hm := emod_mul_pow 4294967296 x (shift 32 y)
    refine iff_of_true (yields_of_wrap ⟨rfl, by simp⟩ (by simp) ?_) (by simp)
    simp [wrap, IrType.isSigned, bits, IrType.size, toI, toU, Int.ModEq]
    omega
  · rw [count_ofInt (by norm_num) (by norm_num), u64_ofInt]
    refine iff_of_true (Full.yields (by simp [Full]) (emod_mul_pow _ x _)) (by simp)
  · rw [count_ofInt (by norm_num) (by norm_num), u64_ofInt]
    refine iff_of_true (Full.yields (by simp [Full]) (emod_mul_pow _ x _)) (by simp)
  · refine iff_of_true (yields_next _ _) ?_
    rintro rfl
    refine ⟨?_, ?_⟩
    · rintro (rfl | rfl) <;> simp_all
    · rintro rfl
      simp_all

theorem exact_shr (hx : InRange t₁ x) (y : ℤ) :
    Yields t₁ (spec .shr t₁ t₁ t₂ x y)
        (foldConst .shr t₁ t₁ t₂ (BitVec.ofInt 64 x) (BitVec.ofInt 64 y)) ↔
      Safe .shr t₁ t₁ t₂ x y := by
  show Yields t₁ (wrap t₁ (toU (bits t₁) x / 2 ^ shift (bits t₁) y))
    ((foldShr _ _ _ _).intern t₁) ↔ (_ → _ → _)
  by_cases hb : t₁ = .bool
  · subst hb
    cases t₂ <;> simp [foldShr, Outcome.intern, yields_next]
  rw [yields_intern hb]
  unfold foldShr
  split
  · rw [count_ofInt (by norm_num) (by norm_num), u8_ofInt]
    have hq := (ediv_pow_bounds (x % 256) (shift 8 y)).1 (by omega)
    refine iff_of_true (yields_of_wrap ⟨rfl, by simp⟩ (by simp) ?_) (by simp)
    simp [wrap, IrType.isSigned, bits, IrType.size, toU, Int.ModEq]
    omega
  · rw [count_ofInt (by norm_num) (by norm_num), u8_ofInt]
    have hq := (ediv_pow_bounds (x % 256) (shift 8 y)).1 (by omega)
    have hzero : shift 8 y = 0 → x % 256 / 2 ^ shift 8 y = x % 256 := by
      intro h
      rw [h]
      simp
    have hpos : shift 8 y ≠ 0 → x % 256 / 2 ^ shift 8 y < 128 := by
      intro h
      apply Int.ediv_lt_of_lt_mul (by positivity)
      have h2 : (2 : ℤ) ^ 1 ≤ 2 ^ shift 8 y := pow_le_pow_right₀ (by norm_num) (by omega)
      omega
    refine (yields_constU ⟨rfl, by simp⟩ (inRange_wrap ⟨rfl, by simp⟩ (by simp) _) _).trans ?_
    simp [InRange, IrType.isSigned, bits, IrType.size] at hx
    simp [wrap, IrType.isSigned, bits, IrType.size, toI, toU]
    omega
  · rw [count_ofInt (by norm_num) (by norm_num), u8_ofInt]
    exact iff_of_true (yields_of_wrap ⟨rfl, by simp⟩ (by simp) rfl) (by simp)
  · rw [count_ofInt (by norm_num) (by norm_num), u16_ofInt]
    have hq := (ediv_pow_bounds (x % 65536) (shift 16 y)).1 (by omega)
    refine iff_of_true (yields_of_wrap ⟨rfl, by simp⟩ (by simp) ?_) (by simp)
    simp [wrap, IrType.isSigned, bits, IrType.size, toU, Int.ModEq]
    omega
  · rw [count_ofInt (by norm_num) (by norm_num), u16_ofInt]
    exact iff_of_true (yields_of_wrap ⟨rfl, by simp⟩ (by simp) rfl) (by simp)
  · rw [count_ofInt (by norm_num) (by norm_num), u32_ofInt]
    have hq := (ediv_pow_bounds (x % 4294967296) (shift 32 y)).1 (by omega)
    refine iff_of_true (yields_of_wrap ⟨rfl, by simp⟩ (by simp) ?_) (by simp)
    simp [wrap, IrType.isSigned, bits, IrType.size, toU, Int.ModEq]
    omega
  · rw [count_ofInt (by norm_num) (by norm_num), u32_ofInt]
    exact iff_of_true (yields_of_wrap ⟨rfl, by simp⟩ (by simp) rfl) (by simp)
  · rw [count_ofInt (by norm_num) (by norm_num), u64_ofInt]
    exact iff_of_true (Full.yields (by simp [Full]) rfl) (by simp)
  · rw [count_ofInt (by norm_num) (by norm_num), u64_ofInt]
    exact iff_of_true (Full.yields (by simp [Full]) rfl) (by simp)
  · refine iff_of_true (yields_next _ _) ?_
    rintro rfl rfl
    simp_all

theorem exact_sar (hx : InRange t₁ x) (y : ℤ) :
    Yields t₁ (spec .sar t₁ t₁ t₂ x y)
        (foldConst .sar t₁ t₁ t₂ (BitVec.ofInt 64 x) (BitVec.ofInt 64 y)) ↔
      Safe .sar t₁ t₁ t₂ x y := by
  show Yields t₁ (wrap t₁ (toI (bits t₁) x / 2 ^ shift (bits t₁) y))
    ((foldSar _ _ _ _).intern t₁) ↔ (_ → _ → _)
  by_cases hb : t₁ = .bool
  · subst hb
    cases t₂ <;> simp [foldSar, Outcome.intern, yields_next]
  rw [yields_intern hb]
  unfold foldSar
  split
  · rw [count_ofInt (by norm_num) (by norm_num), i8_ofInt]
    exact iff_of_true (yields_of_wrap ⟨rfl, by simp⟩ (by simp) rfl) (by simp)
  · rw [count_ofInt (by norm_num) (by norm_num), i8_ofInt]
    simp [InRange, IrType.isSigned, bits, IrType.size] at hx
    have hi : (x + 128) % 256 - 128 = x := by omega
    have hq := ediv_pow_bounds x (shift 8 y)
    refine (yields_constU ⟨rfl, by simp⟩ (inRange_wrap ⟨rfl, by simp⟩ (by simp) _) _).trans ?_
    simp [wrap, IrType.isSigned, bits, IrType.size, toI, toU, hi]
    omega
  · rw [count_ofInt (by norm_num) (by norm_num), i8_ofInt]
    have hq := ediv_pow_bounds ((x + 128) % 256 - 128) (shift 8 y)
    refine iff_of_true (yields_of_wrap ⟨rfl, by simp⟩ (by simp) ?_) (by simp)
    simp [wrap, IrType.isSigned, bits, IrType.size, toI, Int.ModEq]
    omega
  · rw [count_ofInt (by norm_num) (by norm_num), i16_ofInt]
    exact iff_of_true (yields_of_wrap ⟨rfl, by simp⟩ (by simp) rfl) (by simp)
  · rw [count_ofInt (by norm_num) (by norm_num), i16_ofInt]
    have hq := ediv_pow_bounds ((x + 32768) % 65536 - 32768) (shift 16 y)
    refine iff_of_true (yields_of_wrap ⟨rfl, by simp⟩ (by simp) ?_) (by simp)
    simp [wrap, IrType.isSigned, bits, IrType.size, toI, Int.ModEq]
    omega
  · rw [count_ofInt (by norm_num) (by norm_num), i32_ofInt]
    exact iff_of_true (yields_of_wrap ⟨rfl, by simp⟩ (by simp) rfl) (by simp)
  · rw [count_ofInt (by norm_num) (by norm_num), i32_ofInt]
    have hq := ediv_pow_bounds ((x + 2147483648) % 4294967296 - 2147483648) (shift 32 y)
    refine iff_of_true (yields_of_wrap ⟨rfl, by simp⟩ (by simp) ?_) (by simp)
    simp [wrap, IrType.isSigned, bits, IrType.size, toI, Int.ModEq]
    omega
  · rw [count_ofInt (by norm_num) (by norm_num), i64_ofInt]
    exact iff_of_true (Full.yields (by simp [Full]) rfl) (by simp)
  · rw [count_ofInt (by norm_num) (by norm_num), i64_ofInt]
    exact iff_of_true (Full.yields (by simp [Full]) rfl) (by simp)
  · refine iff_of_true (yields_next _ _) ?_
    rintro rfl rfl
    simp_all

/-! ## Rotations -/

theorem constU_toNat {w : ℕ} (p : BitVec w) : constU p.toNat = .const (p.setWidth 64) := by
  rw [constU, BitVec.ofInt_natCast, BitVec.ofNat_toNat]

theorem rol_eq {w k : ℕ} (p : BitVec w) (hk : k < w) : rol w p k = p.rotateLeft k :=
  (BitVec.rotateLeft_eq_rotateLeftAux_of_lt hk).symm

theorem ror_eq {w k : ℕ} (p : BitVec w) (hk : k < w) : ror w p k = p.rotateRight k :=
  (BitVec.rotateRight_eq_rotateRightAux_of_lt hk).symm

/-- The rule of a wide type, whose count must not be zero. -/
theorem yields_wide {k : ℕ} {r : ℤ} {o : Outcome} (h : Yields t r o) :
    Yields t r (if k = 0 then .undefined else o) ↔ k ≠ 0 := by
  by_cases hk : k = 0
  · rw [if_pos hk]
    exact iff_of_false (not_yields_undefined _ _) (not_not.2 hk)
  · rw [if_neg hk]
    exact iff_of_true h hk

theorem rotate_iff {rot : (w : ℕ) → BitVec w → ℕ → BitVec w}
    (r : (w : ℕ) → BitVec w → ℕ → BitVec w)
    (hrot : ∀ {w k : ℕ} (p : BitVec w), k < w → rot w p k = r w p k) (x y : ℤ) :
    Yields t₁ (ofBits t₁ (r (bits t₁) (BitVec.ofInt (bits t₁) x) (shift (bits t₁) y)))
        ((foldRotate rot t₁ t₂ (BitVec.ofInt 64 x) (BitVec.ofInt 64 y)).intern t₁) ↔
      (t₁ = t₂ → (Wide t₁ → shift (bits t₁) y ≠ 0) ∧
        (t₁ = .char → (r 8 (BitVec.ofInt 8 x) (shift 8 y)).msb = false)) := by
  by_cases hb : t₁ = .bool
  · subst hb
    cases t₂ <;> simp [foldRotate, Outcome.intern, yields_next, Wide]
  rw [yields_intern hb]
  unfold foldRotate
  split
  · rw [count_ofInt (by norm_num) (by norm_num), setWidth_ofInt (by norm_num),
      hrot _ (shift_lt (by norm_num) y), constU_toNat]
    exact iff_of_true (yields_store (t := .u8) ⟨rfl, by simp⟩ (by simp) _) (by simp [Wide])
  · rw [count_ofInt (by norm_num) (by norm_num), setWidth_ofInt (by norm_num),
      hrot _ (shift_lt (by norm_num) y), constU_toNat]
    refine (yields_char (r 8 (BitVec.ofInt 8 x) (shift 8 y))).trans ?_
    simp [Wide]
  · rw [count_ofInt (by norm_num) (by norm_num), setWidth_ofInt (by norm_num),
      hrot _ (shift_lt (by norm_num) y)]
    exact iff_of_true (yields_store (t := .i8) ⟨rfl, by simp⟩ (by simp) _) (by simp [Wide])
  · rw [count_ofInt (by norm_num) (by norm_num), setWidth_ofInt (by norm_num),
      hrot _ (shift_lt (by norm_num) y), constU_toNat]
    exact iff_of_true (yields_store (t := .u16) ⟨rfl, by simp⟩ (by simp) _) (by simp [Wide])
  · rw [count_ofInt (by norm_num) (by norm_num), setWidth_ofInt (by norm_num),
      hrot _ (shift_lt (by norm_num) y)]
    exact iff_of_true (yields_store (t := .i16) ⟨rfl, by simp⟩ (by simp) _) (by simp [Wide])
  · rw [count_ofInt (by norm_num) (by norm_num), setWidth_ofInt (by norm_num),
      hrot _ (shift_lt (by norm_num) y), constU_toNat]
    refine (yields_wide (yields_store (t := .u32) ⟨rfl, by simp⟩ (by simp) _)).trans ?_
    simp [Wide, bits, IrType.size]
  · rw [count_ofInt (by norm_num) (by norm_num), setWidth_ofInt (by norm_num),
      hrot _ (shift_lt (by norm_num) y)]
    refine (yields_wide (yields_store (t := .i32) ⟨rfl, by simp⟩ (by simp) _)).trans ?_
    simp [Wide, bits, IrType.size]
  · rw [count_ofInt (by norm_num) (by norm_num), hrot _ (shift_lt (by norm_num) y)]
    refine (yields_wide (yields_full (by simp) _)).trans ?_
    simp [Wide, bits, IrType.size]
  · rw [count_ofInt (by norm_num) (by norm_num), hrot _ (shift_lt (by norm_num) y)]
    refine (yields_wide (yields_full (by simp) _)).trans ?_
    simp [Wide, bits, IrType.size]
  · refine iff_of_true (yields_next _ _) ?_
    rintro rfl
    refine ⟨?_, ?_⟩
    · rintro (rfl | rfl | rfl | rfl) <;> simp_all
    · rintro rfl
      simp_all

theorem exact_rol (x y : ℤ) :
    Yields t₁ (spec .rol t₁ t₁ t₂ x y)
        (foldConst .rol t₁ t₁ t₂ (BitVec.ofInt 64 x) (BitVec.ofInt 64 y)) ↔
      Safe .rol t₁ t₁ t₂ x y := by
  refine (rotate_iff (fun _ p k => p.rotateLeft k) rol_eq x y).trans ?_
  have hs := shift_lt (w := 8) (by norm_num) y
  rw [BitVec.msb_rotateLeft, BitVec.getMsbD_eq_getLsbD, Nat.mod_eq_of_lt hs]
  simp [hs, Safe]

theorem exact_ror (x y : ℤ) :
    Yields t₁ (spec .ror t₁ t₁ t₂ x y)
        (foldConst .ror t₁ t₁ t₂ (BitVec.ofInt 64 x) (BitVec.ofInt 64 y)) ↔
      Safe .ror t₁ t₁ t₂ x y := by
  refine (rotate_iff (fun _ p k => p.rotateRight k) ror_eq x y).trans ?_
  have hs := shift_lt (w := 8) (by norm_num) y
  have hidx : 8 - 1 - (8 - shift 8 y) % 8 = (7 + shift 8 y) % 8 := by omega
  rw [BitVec.msb_rotateRight, BitVec.getMsbD_eq_getLsbD, Nat.mod_eq_of_lt hs, hidx]
  have hlt : (8 - shift 8 y) % 8 < 8 := Nat.mod_lt _ (by norm_num)
  simp [hlt, Safe]

end IrJit.Fold
