import IrJit.Fold.Exact
import Mathlib.Algebra.Order.Ring.Abs
import Mathlib.Data.Int.ModEq
import Mathlib.Tactic.Linarith

/-!
# Fold.Arith — comparisons and arithmetic on canonical constants

The operands are `BitVec.ofInt 64 x` and `BitVec.ofInt 64 y` with `x` and `y` in the range of their
types.
-/

namespace IrJit.Fold

variable {t t₁ t₂ : IrType} {x y : ℤ}

/-! ## Comparisons -/

theorem sameInt_iff : sameInt t₁ t₂ = true ↔ t₁ = t₂ ∧ IsInt t₁ := by
  simp [sameInt, IsInt, and_assoc]

/-- Storing and truncating to the width keep the order of the patterns of one type. -/
theorem pattern_lt_iff (ht : IsInt t₁) (hx : InRange t₁ x) (hy : InRange t₁ y) :
    u64 (BitVec.ofInt 64 x) < u64 (BitVec.ofInt 64 y) ↔ toU (bits t₁) x < toU (bits t₁) y := by
  rw [u64_ofInt, u64_ofInt]
  obtain ⟨h1, h2⟩ := ht
  cases t₁ <;> simp [IrType.isInt] at h1 h2 <;>
    simp [InRange, IrType.isSigned, bits, IrType.size] at hx hy <;>
    simp [toU, bits, IrType.size] <;> omega

theorem pattern_eq_iff (ht : IsInt t₁) (hx : InRange t₁ x) (hy : InRange t₁ y) :
    u64 (BitVec.ofInt 64 x) = u64 (BitVec.ofInt 64 y) ↔ x = y := by
  rw [u64_ofInt, u64_ofInt, ← ofInt_eq_iff,
    canonical_eq_iff (canonical_ofInt ht hx) (canonical_ofInt ht hy), valueOf_ofInt ht hx,
    valueOf_ofInt ht hy]

theorem yields_order (rel : ℤ → ℤ → Bool) (hx : InRange t₁ x) (hy : InRange t₂ y) :
    Yields .bool (if rel x y then 1 else 0)
      ((foldOrder rel t₁ t₂ (BitVec.ofInt 64 x) (BitVec.ofInt 64 y)).intern .bool) := by
  unfold foldOrder
  by_cases h : sameInt t₁ t₂ = true
  · obtain ⟨rfl, ht⟩ := sameInt_iff.1 h
    rw [if_pos h]
    by_cases hs : t₁.isSigned = true
    · rw [if_pos hs, i64_self hs hx, i64_self hs hy, intern_foldBool]
      exact (yields_foldBool _ _).2 rfl
    · rw [if_neg hs, u64_self ht (by simpa using hs) hx, u64_self ht (by simpa using hs) hy,
        intern_foldBool]
      exact (yields_foldBool _ _).2 rfl
  · rw [if_neg h]
    exact yields_next _ _

theorem yields_unsignedOrder {rel : ℤ → ℤ → Bool}
    (hrel : ∀ a b c d : ℤ, (a < b ↔ c < d) → (b < a ↔ d < c) → rel a b = rel c d)
    (hx : InRange t₁ x) (hy : InRange t₂ y) :
    Yields .bool (if rel (toU (bits t₁) x) (toU (bits t₂) y) then 1 else 0)
      ((foldUnsignedOrder rel t₁ t₂ (BitVec.ofInt 64 x) (BitVec.ofInt 64 y)).intern .bool) := by
  unfold foldUnsignedOrder
  by_cases h : sameInt t₁ t₂ = true
  · obtain ⟨rfl, ht⟩ := sameInt_iff.1 h
    rw [if_pos h, intern_foldBool,
      hrel _ _ _ _ (pattern_lt_iff ht hx hy) (pattern_lt_iff ht hy hx)]
    exact (yields_foldBool _ _).2 rfl
  · rw [if_neg h]
    exact yields_next _ _

theorem exact_eq (hx : InRange t₁ x) (hy : InRange t₂ y) :
    Yields .bool (spec .eq .bool t₁ t₂ x y)
      (foldConst .eq .bool t₁ t₂ (BitVec.ofInt 64 x) (BitVec.ofInt 64 y)) := by
  show Yields _ (if decide (x = y) then 1 else 0) ((foldEq _ _ _ _).intern _)
  unfold foldEq
  by_cases h : sameInt t₁ t₂ = true
  · obtain ⟨rfl, ht⟩ := sameInt_iff.1 h
    rw [if_pos h, intern_foldBool, decide_eq_decide.2 (pattern_eq_iff ht hx hy)]
    exact (yields_foldBool _ _).2 rfl
  · rw [if_neg h]
    exact yields_next _ _

theorem exact_ne (hx : InRange t₁ x) (hy : InRange t₂ y) :
    Yields .bool (spec .ne .bool t₁ t₂ x y)
      (foldConst .ne .bool t₁ t₂ (BitVec.ofInt 64 x) (BitVec.ofInt 64 y)) := by
  show Yields _ (if decide (x ≠ y) then 1 else 0) ((foldNe _ _ _ _).intern _)
  unfold foldNe
  by_cases h : sameInt t₁ t₂ = true
  · obtain ⟨rfl, ht⟩ := sameInt_iff.1 h
    rw [if_pos h, intern_foldBool, decide_eq_decide.2 (not_congr (pattern_eq_iff ht hx hy))]
    exact (yields_foldBool _ _).2 rfl
  · rw [if_neg h]
    exact yields_next _ _

/-! ## Addition, subtraction, multiplication -/

/-- An operation that respects congruences and stays small on narrow operands. -/
structure Ring2 (f : ℤ → ℤ → ℤ) : Prop where
  modEq : ∀ {m a b c d : ℤ}, a ≡ b [ZMOD m] → c ≡ d [ZMOD m] → f a c ≡ f b d [ZMOD m]
  small : ∀ {a b : ℤ}, |a| ≤ 65536 → |b| ≤ 65536 → |f a b| ≤ 4294967296

theorem ring2_add : Ring2 (· + ·) where
  modEq h k := h.add k
  small {a b} ha hb := by
    rw [abs_le] at *
    constructor <;> omega

theorem ring2_sub : Ring2 (· - ·) where
  modEq h k := h.sub k
  small {a b} ha hb := by
    rw [abs_le] at *
    constructor <;> omega

theorem ring2_mul : Ring2 (· * ·) where
  modEq h k := h.mul k
  small {a b} ha hb := by
    rw [abs_mul]
    calc |a| * |b| ≤ 65536 * 65536 := mul_le_mul ha hb (abs_nonneg b) (by norm_num)
      _ = 4294967296 := by norm_num

/-- A narrow result is stored as it is, so it is canonical when it fits. -/
theorem narrow_iff (hn : Narrow t) {e : ℤ} (he : |e| ≤ 4294967296) :
    Yields t (wrap t e) (constU e) ↔ InRange t e := by
  have ht : IsInt t := by rcases hn with rfl | rfl | rfl | rfl <;> simp [IsInt, IrType.isInt]
  have hb : t ≠ .bool := by rcases hn with rfl | rfl | rfl | rfl <;> simp
  rw [yields_constU ht (inRange_wrap ht hb e)]
  rw [abs_le] at he
  rcases hn with rfl | rfl | rfl | rfl <;>
    simp [InRange, wrap, IrType.isSigned, bits, IrType.size, toU, toI] <;> omega

/-- A stored expression congruent to the result modulo `2 ^ 64`, or reduced to the width. -/
theorem yields_of_wrap (ht : IsInt t) (hb : t ≠ .bool) {e n : ℤ}
    (h : e ≡ wrap t n [ZMOD 18446744073709551616]) : Yields t (wrap t n) (constU e) :=
  (yields_constU ht (inRange_wrap ht hb n) e).2 h

theorem modEq_emod {f : ℤ → ℤ → ℤ} (hf : Ring2 f) (m : ℤ) :
    f (x % m) (y % m) % m = f x y % m :=
  hf.modEq (Int.mod_modEq x m) (Int.mod_modEq y m)

theorem abs_le_of_narrow (hn : Narrow t) (hx : InRange t x) : |x| ≤ 65536 := by
  rw [abs_le]
  rcases hn with rfl | rfl | rfl | rfl <;>
    simp [InRange, IrType.isSigned, bits, IrType.size] at hx <;> omega

theorem foldArith_narrow (f : ℤ → ℤ → ℤ) (hn : Narrow t) (hx : InRange t x) (hy : InRange t y) :
    foldArith f t t (BitVec.ofInt 64 x) (BitVec.ofInt 64 y) = constU (f x y) := by
  rcases hn with rfl | rfl | rfl | rfl
  · simp only [foldArith, u8_self hx, u8_self hy]
  · simp only [foldArith, u16_self hx, u16_self hy]
  · simp only [foldArith, i8_self hx, i8_self hy, constI, constU]
  · simp only [foldArith, i16_self hx, i16_self hy, constI, constU]

/-- A type of 64 bits. -/
def Full (t : IrType) : Prop := t = .u64 ∨ t = .addr ∨ t = .i64

theorem Full.yields (hf : Full t) {e n : ℤ}
    (h : e % 18446744073709551616 = n % 18446744073709551616) : Yields t (wrap t n) (constU e) := by
  have ht : IsInt t := by rcases hf with rfl | rfl | rfl <;> simp [IsInt, IrType.isInt]
  have hb : t ≠ .bool := by rcases hf with rfl | rfl | rfl <;> simp
  apply yields_of_wrap ht hb
  show _ % _ = _ % _
  rcases hf with rfl | rfl | rfl <;> simp [wrap, IrType.isSigned, bits, IrType.size, toU, toI] <;>
    omega

theorem Compat.full (h : Compat t t₁) (hf : Full t₁) : Full t := by
  rcases hf with rfl | rfl | rfl <;> simp [Compat] at h <;> unfold Full <;> tauto

theorem Compat.eq_of_not_full (h : Compat t t₁) (hf : ¬Full t₁) : t = t₁ := by
  rcases h with rfl | ⟨-, rfl | rfl⟩ | ⟨rfl, -⟩
  · rfl
  all_goals simp [Full] at hf

theorem arith_iff {f : ℤ → ℤ → ℤ} (hf : Ring2 f) (h₁ : Compat t t₁) (hx : InRange t₁ x)
    (hy : InRange t₂ y) :
    Yields t (wrap t (f x y)) (foldArith f t₁ t₂ (BitVec.ofInt 64 x) (BitVec.ofInt 64 y)) ↔
      (t₁ = t₂ → Narrow t₁ → InRange t₁ (f x y)) := by
  by_cases hn : t₁ = t₂ ∧ Narrow t₁
  · obtain ⟨rfl, hn⟩ := hn
    have htt : t = t₁ := h₁.eq_of_not_full (by rcases hn with rfl | rfl | rfl | rfl <;> simp [Full])
    subst htt
    rw [foldArith_narrow f hn hx hy,
      narrow_iff hn (hf.small (abs_le_of_narrow hn hx) (abs_le_of_narrow hn hy))]
    simp [hn]
  · have hr : t₁ = t₂ → Narrow t₁ → InRange t₁ (f x y) := fun h k => absurd ⟨h, k⟩ hn
    refine iff_of_true ?_ hr
    have h32 := modEq_emod (x := x) (y := y) hf 4294967296
    have h64 := modEq_emod (x := x) (y := y) hf 18446744073709551616
    unfold foldArith
    split
    · simp [Narrow] at hn
    · simp [Narrow] at hn
    · obtain rfl := h₁.eq_of_not_full (by simp [Full])
      rw [u32_ofInt, u32_ofInt]
      apply yields_of_wrap (by simp [IsInt, IrType.isInt]) (by simp)
      simp [wrap, IrType.isSigned, bits, IrType.size, toU, Int.ModEq, h32]
    all_goals first
      | (simp [Narrow] at hn; done)
      | (have hft : Full t := h₁.full (by simp [Full])
         rw [u64_ofInt, u64_ofInt]
         exact hft.yields h64)
      | skip
    · obtain rfl := h₁.eq_of_not_full (by simp [Full])
      rw [u32_ofInt, u32_ofInt]
      apply yields_of_wrap (by simp [IsInt, IrType.isInt]) (by simp)
      simp [wrap, IrType.isSigned, bits, IrType.size, toU, toI, Int.ModEq, h32]
    · exact yields_next _ _

theorem foldMul_eq (hx : InRange t₁ x) (hy : InRange t₂ y) :
    foldMul t₁ t₂ (BitVec.ofInt 64 x) (BitVec.ofInt 64 y) =
      foldArith (· * ·) t₁ t₂ (BitVec.ofInt 64 x) (BitVec.ofInt 64 y) := by
  unfold foldMul
  split
  · have h0 : 0 ≤ x * y := by
      simp [InRange, IrType.isSigned, bits, IrType.size] at hx hy
      exact mul_nonneg hx.1 hy.1
    have h1 : x * y < 4294967296 := by
      simp [InRange, IrType.isSigned, bits, IrType.size] at hx hy
      nlinarith
    rw [u16_self hx, u16_self hy, foldArith_narrow _ (by simp [Narrow]) hx hy]
    unfold toU
    rw [Int.emod_eq_of_lt h0 (by simpa using h1)]
  · rfl

/-- A boolean operand of `ADD`, `SUB` and `MUL` is left to the other rules. -/
theorem yields_arith_intern {f : ℤ → ℤ → ℤ} (h₁ : Compat t t₁) (r : ℤ) (a b : Val) :
    Yields t r ((foldArith f t₁ t₂ a b).intern t) ↔ Yields t r (foldArith f t₁ t₂ a b) := by
  by_cases hb : t = .bool
  · subst hb
    obtain rfl : t₁ = .bool := by simpa [Compat, eq_comm] using h₁
    cases t₂ <;> rfl
  · exact yields_intern hb r _

theorem exact_add (h₁ : Compat t t₁) (hx : InRange t₁ x) (hy : InRange t₂ y) :
    Yields t (spec .add t t₁ t₂ x y)
        (foldConst .add t t₁ t₂ (BitVec.ofInt 64 x) (BitVec.ofInt 64 y)) ↔
      Safe .add t t₁ t₂ x y := by
  show Yields t (wrap t (x + y)) ((foldArith _ _ _ _ _).intern t) ↔ _
  rw [yields_arith_intern h₁]
  exact arith_iff ring2_add h₁ hx hy

theorem exact_sub (h₁ : Compat t t₁) (hx : InRange t₁ x) (hy : InRange t₂ y) :
    Yields t (spec .sub t t₁ t₂ x y)
        (foldConst .sub t t₁ t₂ (BitVec.ofInt 64 x) (BitVec.ofInt 64 y)) ↔
      Safe .sub t t₁ t₂ x y := by
  show Yields t (wrap t (x - y)) ((foldArith _ _ _ _ _).intern t) ↔ _
  rw [yields_arith_intern h₁]
  exact arith_iff ring2_sub h₁ hx hy

theorem exact_mul (h₁ : Compat t t₁) (hx : InRange t₁ x) (hy : InRange t₂ y) :
    Yields t (spec .mul t t₁ t₂ x y)
        (foldConst .mul t t₁ t₂ (BitVec.ofInt 64 x) (BitVec.ofInt 64 y)) ↔
      Safe .mul t t₁ t₂ x y := by
  show Yields t (wrap t (x * y)) ((foldMul _ _ _ _).intern t) ↔ _
  rw [foldMul_eq hx hy, yields_arith_intern h₁]
  exact arith_iff ring2_mul h₁ hx hy

/-! ## Division -/

/-- The truncated quotient stays in a symmetric range, but for the quotient of its minimum by
`-1`. -/
theorem tdiv_bounds {m : ℤ} (h0 : -m ≤ x) (h1 : x < m) (h : ¬(x = -m ∧ y = -1)) :
    -m ≤ x.tdiv y ∧ x.tdiv y < m := by
  have hq : (x.tdiv y).natAbs = x.natAbs / y.natAbs := Int.natAbs_tdiv x y
  have hle : x.natAbs / y.natAbs ≤ x.natAbs := Nat.div_le_self _ _
  refine ⟨by omega, ?_⟩
  by_contra hm
  have hx : x = -m := by omega
  have hy1 : y.natAbs = 1 := by
    by_contra hne
    rcases Nat.lt_or_gt_of_ne hne with h2 | h2
    · obtain rfl : y = 0 := by omega
      rw [Int.tdiv_zero] at hm
      omega
    · have hlt : x.natAbs / y.natAbs < x.natAbs := Nat.div_lt_self (by omega) h2
      rw [← hq] at hlt
      omega
  rcases Int.natAbs_eq y with hy | hy
  · rw [hy1] at hy
    rw [hy] at hm
    simp at hm
    omega
  · exact h ⟨hx, by omega⟩

theorem tdiv_bounds_nonneg {m : ℤ} (h0 : 0 ≤ x) (h1 : x < m) (h2 : 0 ≤ y) :
    0 ≤ x.tdiv y ∧ x.tdiv y < m := by
  rw [Int.tdiv_eq_ediv_of_nonneg h0]
  exact ⟨Int.ediv_nonneg h0 h2, lt_of_le_of_lt (Int.ediv_le_self _ h0) h1⟩

theorem inRange_signed (hs : t.isSigned = true) (n : ℤ) :
    InRange t n ↔ -2 ^ (bits t - 1) ≤ n ∧ n < 2 ^ (bits t - 1) := by
  have hb : t ≠ .bool := by
    rintro rfl
    simp [IrType.isSigned] at hs
  rw [InRange, if_neg hb, if_pos hs]

theorem inRange_unsigned (hs : t.isSigned = false) (hb : t ≠ .bool) (n : ℤ) :
    InRange t n ↔ 0 ≤ n ∧ n < 2 ^ bits t := by
  rw [InRange, if_neg hb, if_neg (by simp [hs])]

/-- A result in range is stored as it is. -/
theorem yields_self (ht : IsInt t) {r : ℤ} (hr : InRange t r) : Yields t (wrap t r) (constU r) := by
  rw [wrap_eq_self ht hr]
  exact (yields_constU ht hr r).2 rfl

theorem yields_div_signed (ht : IsInt t) (hs : t.isSigned = true) (hx : InRange t x)
    (h : ¬(x = -2 ^ (bits t - 1) ∧ y = -1)) :
    Yields t (wrap t (x.tdiv y)) (constI (x.tdiv y)) := by
  rw [inRange_signed hs] at hx
  exact yields_self ht ((inRange_signed hs _).2 (tdiv_bounds hx.1 hx.2 h))

theorem yields_div_unsigned (ht : IsInt t) (hs : t.isSigned = false) (hb : t ≠ .bool)
    (hx : InRange t x) (hy : InRange t y) :
    Yields t (wrap t (x.tdiv y)) (constU (x.tdiv y)) := by
  rw [inRange_unsigned hs hb] at hx hy
  exact yields_self ht ((inRange_unsigned hs hb _).2 (tdiv_bounds_nonneg hx.1 hx.2 hy.1))

/-- A rule that emits the instruction under a test. -/
theorem yields_unless {p : Prop} [Decidable p] {r : ℤ} {o : Outcome} (h : ¬p → Yields t r o) :
    Yields t r (if p then .emit else o) := by
  by_cases hp : p
  · rw [if_pos hp]
    exact yields_emit _ _
  · rw [if_neg hp]
    exact h hp

theorem yields_div (hx : InRange t₁ x) (hy : InRange t₂ y) :
    Yields t₁ (wrap t₁ (x.tdiv y))
      (foldDiv t₁ t₂ (BitVec.ofInt 64 x) (BitVec.ofInt 64 y)) := by
  unfold foldDiv
  split
  · refine yields_unless fun _ => ?_
    rw [u8_self hx, u8_self hy]
    exact yields_div_unsigned ⟨rfl, by simp⟩ rfl (by simp) hx hy
  · refine yields_unless fun _ => ?_
    rw [u16_self hx, u16_self hy]
    exact yields_div_unsigned ⟨rfl, by simp⟩ rfl (by simp) hx hy
  · refine yields_unless fun _ => ?_
    rw [u32_self hx, u32_self hy]
    exact yields_div_unsigned ⟨rfl, by simp⟩ rfl (by simp) hx hy
  · refine yields_unless fun _ => ?_
    rw [u64_self ⟨rfl, by simp⟩ rfl hx, u64_self ⟨rfl, by simp⟩ rfl hy]
    exact yields_div_unsigned ⟨rfl, by simp⟩ rfl (by simp) hx hy
  · refine yields_unless fun _ => ?_
    rw [u64_self ⟨rfl, by simp⟩ rfl hx, u64_self ⟨rfl, by simp⟩ rfl hy]
    exact yields_div_unsigned ⟨rfl, by simp⟩ rfl (by simp) hx hy
  · refine yields_unless fun h => ?_
    rw [i64_self rfl hy, u8_ofInt] at h
    rw [i8_self hx, i8_self hy]
    apply yields_div_signed ⟨rfl, by simp⟩ rfl hx
    rintro ⟨rfl, rfl⟩
    simp [bits, IrType.size] at h
  · refine yields_unless fun h => ?_
    rw [i64_self rfl hy, u16_ofInt] at h
    rw [i16_self hx, i16_self hy]
    apply yields_div_signed ⟨rfl, by simp⟩ rfl hx
    rintro ⟨rfl, rfl⟩
    simp [bits, IrType.size] at h
  · refine yields_unless fun h => ?_
    rw [i64_self rfl hy, u32_ofInt] at h
    rw [i32_self hx, i32_self hy]
    apply yields_div_signed ⟨rfl, by simp⟩ rfl hx
    rintro ⟨rfl, rfl⟩
    simp [bits, IrType.size] at h
  · refine yields_unless fun h => ?_
    rw [i64_self rfl hy, u64_ofInt] at h
    rw [i64_self rfl hx, i64_self rfl hy]
    apply yields_div_signed ⟨rfl, by simp⟩ rfl hx
    rintro ⟨rfl, rfl⟩
    simp [bits, IrType.size] at h
  · exact yields_next _ _

theorem exact_div (hx : InRange t₁ x) (hy : InRange t₂ y) :
    Yields t₁ (spec .div t₁ t₁ t₂ x y)
      (foldConst .div t₁ t₁ t₂ (BitVec.ofInt 64 x) (BitVec.ofInt 64 y)) := by
  show Yields t₁ (wrap t₁ (x.tdiv y)) ((foldDiv _ _ _ _).intern t₁)
  by_cases hb : t₁ = .bool
  · subst hb
    cases t₂ <;> exact yields_next _ _
  · rw [yields_intern hb]
    exact yields_div hx hy

/-- The remainder lies between zero and the dividend. -/
theorem tmod_bounds (x y : ℤ) :
    (0 ≤ x → 0 ≤ x.tmod y ∧ x.tmod y ≤ x) ∧ (x ≤ 0 → x ≤ x.tmod y ∧ x.tmod y ≤ 0) := by
  have habs : (x.tmod y).natAbs = x.natAbs % y.natAbs := Int.natAbs_tmod x y
  have hle : (x.tmod y).natAbs ≤ x.natAbs := by
    rw [habs]
    exact Nat.mod_le _ _
  constructor
  · intro h
    have h0 : 0 ≤ x.tmod y := Int.tmod_nonneg y h
    omega
  · intro h
    have h0 : 0 ≤ (-x).tmod y := Int.tmod_nonneg y (by omega)
    rw [Int.neg_tmod] at h0
    omega

theorem inRange_tmod (hb : t ≠ .bool) (hx : InRange t x) :
    InRange t (x.tmod y) := by
  obtain ⟨hpos, hneg⟩ := tmod_bounds x y
  by_cases hs : t.isSigned = true
  · rw [inRange_signed hs] at *
    rcases le_total 0 x with h | h
    · have := hpos h
      omega
    · have := hneg h
      omega
  · rw [inRange_unsigned (by simpa using hs) hb] at *
    have := hpos hx.1
    omega

theorem yields_mod_unsigned (ht : IsInt t) (hs : t.isSigned = false) (hb : t ≠ .bool)
    (hx : InRange t x) (hy : InRange t y) :
    Yields t (wrap t (x.tmod y)) (if u64 (BitVec.ofInt 64 y) = 0 then .emit
      else constU ((u64 (BitVec.ofInt 64 x)).tmod (u64 (BitVec.ofInt 64 y)))) := by
  refine yields_unless fun _ => ?_
  rw [u64_self ht hs hx, u64_self ht hs hy]
  exact yields_self ht (inRange_tmod hb hx)

theorem yields_mod_signed (ht : IsInt t) (hs : t.isSigned = true) (hx : InRange t x)
    (hy : InRange t y) :
    Yields t (wrap t (x.tmod y)) (if i64 (BitVec.ofInt 64 y) = 0 then .emit
      else if i64 (BitVec.ofInt 64 x) = -2 ^ 63 ∧ i64 (BitVec.ofInt 64 y) = -1 then .undefined
      else constI ((i64 (BitVec.ofInt 64 x)).tmod (i64 (BitVec.ofInt 64 y)))) ↔
      ¬(x = -2 ^ 63 ∧ y = -1) := by
  have hb : t ≠ .bool := by
    rintro rfl
    simp [IrType.isSigned] at hs
  rw [i64_self hs hx, i64_self hs hy]
  by_cases h : x = -2 ^ 63 ∧ y = -1
  · rw [if_neg (by omega), if_pos h]
    exact iff_of_false (not_yields_undefined _ _) (not_not.2 h)
  · refine iff_of_true (yields_unless fun _ => ?_) h
    rw [if_neg h]
    exact yields_self ht (inRange_tmod hb hx)

theorem exact_mod (hx : InRange t₁ x) (hy : InRange t₂ y) :
    Yields t₁ (spec .mod t₁ t₁ t₂ x y)
        (foldConst .mod t₁ t₁ t₂ (BitVec.ofInt 64 x) (BitVec.ofInt 64 y)) ↔
      Safe .mod t₁ t₁ t₂ x y := by
  show Yields t₁ (wrap t₁ (x.tmod y)) ((foldMod _ _ _ _).intern t₁) ↔ (_ → _ → _)
  by_cases hb : t₁ = .bool
  · subst hb
    cases t₂ <;> simp [foldMod, Outcome.intern, yields_next]
  rw [yields_intern hb]
  unfold foldMod
  split
  iterate 5
    exact iff_of_true (yields_mod_unsigned ⟨rfl, by simp⟩ rfl (by simp) hx hy) (by simp)
  iterate 3
    rw [yields_mod_signed ⟨rfl, by simp⟩ rfl hx hy]
    simp only [InRange, IrType.isSigned, bits, IrType.size] at hx
    simp at hx ⊢
    omega
  · rw [yields_mod_signed ⟨rfl, by simp⟩ rfl hx hy]
    simp
  · refine iff_of_true (yields_next _ _) ?_
    rintro rfl rfl
    simp_all

/-! ## Negation and absolute value -/

theorem exact_neg (x : ℤ) (b : Val) :
    Yields t₁ (spec .neg t₁ t₁ t₂ x y) (foldConst .neg t₁ t₁ t₂ (BitVec.ofInt 64 x) b) := by
  show Yields t₁ (wrap t₁ (-x)) ((foldNeg _ _).intern t₁)
  by_cases hb : t₁ = .bool
  · subst hb
    exact yields_next _ _
  rw [yields_intern hb]
  unfold foldNeg
  split
  · refine yields_of_wrap ⟨rfl, by simp⟩ (by simp) ?_
    simp [wrap, IrType.isSigned, bits, IrType.size, toI, Int.ModEq]
    omega
  · refine yields_of_wrap ⟨rfl, by simp⟩ (by simp) ?_
    simp [wrap, IrType.isSigned, bits, IrType.size, toI, Int.ModEq]
    omega
  · refine yields_of_wrap ⟨rfl, by simp⟩ (by simp) ?_
    simp [wrap, IrType.isSigned, bits, IrType.size, toI, toU, Int.ModEq]
    omega
  · refine yields_of_wrap ⟨rfl, by simp⟩ (by simp) ?_
    simp [wrap, IrType.isSigned, bits, IrType.size, toI, Int.ModEq]
    omega
  · exact yields_next _ _

/-- The rules of `ABS` keep an operand that is not negative. -/
theorem yields_abs (ht : IsInt t) (hs : t.isSigned = true) (hx : InRange t x) {o : Outcome} {p : Prop}
    (hneg : x < 0 → (Yields t (wrap t (-x)) o ↔ p)) (hpos : 0 ≤ x → p) :
    Yields t (wrap t |x|)
      (if i64 (BitVec.ofInt 64 x) ≥ 0 then .const (BitVec.ofInt 64 x) else o) ↔ p := by
  rw [i64_self hs hx]
  by_cases h : 0 ≤ x
  · rw [if_pos h, abs_of_nonneg h]
    exact iff_of_true (yields_self ht hx) (hpos h)
  · rw [if_neg h, abs_of_neg (by omega)]
    exact hneg (by omega)

theorem exact_abs (hx : InRange t₁ x) (b : Val) :
    Yields t₁ (spec .abs t₁ t₁ t₂ x y) (foldConst .abs t₁ t₁ t₂ (BitVec.ofInt 64 x) b) ↔
      Safe .abs t₁ t₁ t₂ x y := by
  show Yields t₁ (wrap t₁ |x|) ((foldAbs _ _).intern t₁) ↔ (_ → _) ∧ (_ → _)
  by_cases hb : t₁ = .bool
  · subst hb
    simp [foldAbs, Outcome.intern, yields_next]
  rw [yields_intern hb]
  unfold foldAbs
  split
  · refine yields_abs ⟨rfl, by simp⟩ rfl hx (fun h => ?_) (fun h => by simp; omega)
    rw [i8_self hx]
    simp only [InRange, IrType.isSigned, bits, IrType.size] at hx
    have hx' : -128 ≤ x ∧ x < 128 := by simpa using hx
    have he : |(-x)| ≤ 4294967296 := by
      rw [abs_le]
      omega
    refine (narrow_iff (by simp [Narrow]) he).trans ?_
    simp [InRange, IrType.isSigned, bits, IrType.size]
    omega
  · refine yields_abs ⟨rfl, by simp⟩ rfl hx (fun h => ?_) (fun h => by simp; omega)
    rw [i16_self hx]
    simp only [InRange, IrType.isSigned, bits, IrType.size] at hx
    have hx' : -32768 ≤ x ∧ x < 32768 := by simpa using hx
    have he : |(-x)| ≤ 4294967296 := by
      rw [abs_le]
      omega
    refine (narrow_iff (by simp [Narrow]) he).trans ?_
    simp [InRange, IrType.isSigned, bits, IrType.size]
    omega
  · refine yields_abs ⟨rfl, by simp⟩ rfl hx (fun h => iff_of_true ?_ (by simp)) (fun h => by simp)
    refine yields_of_wrap ⟨rfl, by simp⟩ (by simp) ?_
    simp [wrap, IrType.isSigned, bits, IrType.size, toI, toU, Int.ModEq]
    omega
  · refine yields_abs ⟨rfl, by simp⟩ rfl hx (fun h => iff_of_true ?_ (by simp)) (fun h => by simp)
    refine yields_of_wrap ⟨rfl, by simp⟩ (by simp) ?_
    simp [wrap, IrType.isSigned, bits, IrType.size, toI, Int.ModEq]
    omega
  · refine iff_of_true (yields_next _ _) ⟨?_, ?_⟩ <;> rintro rfl <;> simp_all

end IrJit.Fold
