import IrJit.Fold.Bitwise

/-!
# Fold.Folding — every constant rule of `ir_folding`

The remaining rules (minimum, maximum, conversions), and the theorem for all of them: a fold of
canonical constants is exact if and only if the operands are `Safe` for the opcode.
-/

namespace IrJit.Fold

variable {t t₁ t₂ : IrType} {x y : ℤ}

/-! ## Minimum and maximum -/

/-- A constant of the type of the instruction is interned as it is. -/
theorem yields_intern_self (ht : IsInt t) (hx : InRange t x) :
    Yields t x ((Outcome.const (BitVec.ofInt 64 x)).intern t) := by
  by_cases hb : t = .bool
  · subst hb
    rcases inRange_bool_cases hx with rfl | rfl
    · exact (yields_foldBool _ _).2 (by simp)
    · exact (yields_foldBool _ _).2 (by simp)
  · rw [yields_intern hb]
    exact (yields_const ht hx _).2 rfl

/-- `MIN` and `MAX` of two operands of one type choose one of the operands. -/
theorem yields_minMax {rel : ℤ → ℤ → Bool} {m : ℤ} (hm : m = if rel x y then x else y)
    (hc : Compat t₁ t₂) (hx : InRange t₁ x) (hy : InRange t₂ y) :
    Yields t₁ m
      ((foldMinMax rel t₁ t₂ (BitVec.ofInt 64 x) (BitVec.ofInt 64 y)).intern t₁) := by
  have key : ∀ {t : IrType} (b : Bool), b = rel x y → IsInt t → InRange t x → InRange t y →
      Yields t m ((Outcome.const (if b then BitVec.ofInt 64 x else BitVec.ofInt 64 y)).intern t) := by
    rintro t b rfl ht hx hy
    rw [hm]
    split_ifs
    · exact yields_intern_self ht hx
    · exact yields_intern_self ht hy
  unfold foldMinMax
  split
  iterate 6
    rw [u64_self ⟨rfl, by simp⟩ rfl hx, u64_self ⟨rfl, by simp⟩ rfl hy]
    exact key _ rfl ⟨rfl, by simp⟩ hx hy
  · rw [i64_self rfl hx, i64_self rfl hy]
    exact key _ rfl ⟨rfl, by simp⟩ hx hy
  iterate 4
    exact absurd hc (by simp [Compat])
  · exact yields_next _ _

theorem exact_min (hc : Compat t₁ t₂) (hx : InRange t₁ x) (hy : InRange t₂ y) :
    Yields t₁ (spec .min t₁ t₁ t₂ x y)
      (foldConst .min t₁ t₁ t₂ (BitVec.ofInt 64 x) (BitVec.ofInt 64 y)) := by
  refine yields_minMax ?_ hc hx hy
  show min x y = _
  rw [min_def]
  simp

theorem exact_max (hc : Compat t₁ t₂) (hx : InRange t₁ x) (hy : InRange t₂ y) :
    Yields t₁ (spec .max t₁ t₁ t₂ x y)
      (foldConst .max t₁ t₁ t₂ (BitVec.ofInt 64 x) (BitVec.ofInt 64 y)) := by
  refine yields_minMax ?_ hc hx hy
  show max x y = _
  rw [max_comm, max_def]
  simp

/-! ## Conversions -/

theorem size_pos (ht : IsInt t) : 0 < t.size := by
  have h := (bits_pos ht).1
  unfold bits at h
  omega

theorem ne_bool_of_lt (h₁ : IsInt t₁) (hlt : t₁.size < t.size) : t ≠ .bool := by
  rintro rfl
  have h := size_pos h₁
  rw [show IrType.bool.size = 1 from rfl] at hlt
  omega

theorem size_cases (h₁ : IsInt t₁) (h : t₁.size < 8) :
    (t₁ = .bool ∨ t₁ = .u8 ∨ t₁ = .char ∨ t₁ = .i8) ∨ (t₁ = .u16 ∨ t₁ = .i16) ∨ t₁ = .u32 ∨
      t₁ = .i32 := by
  obtain ⟨h2, h3⟩ := h₁
  cases t₁ <;> simp [IrType.isInt, IrType.size] at h2 h3 h ⊢

/-- A sign-extended operand of a narrower type, stored for the type `t`. -/
theorem sext_iff {s : ℤ} {k : ℕ} (ht : IsInt t) (hk : 0 < k) (hlt : k < t.size)
    (h0 : -2 ^ (8 * k - 1) ≤ s) (h1 : s < 2 ^ (8 * k - 1)) :
    Yields t (wrap t s) (constI s) ↔ (t = .u16 ∨ t = .u32 → 0 ≤ s) := by
  have hb : t ≠ .bool := by
    rintro rfl
    simp only [IrType.size] at hlt
    omega
  have hp : (2 : ℤ) ^ (8 * k - 1) ≤ 2 ^ (8 * (t.size - 1) - 1) :=
    pow_le_pow_right₀ (by norm_num) (by omega)
  rw [yields_constI ht (inRange_wrap ht hb _)]
  obtain ⟨h2, h3⟩ := ht
  cases t <;> simp [IrType.isInt] at h2 h3 <;> simp [IrType.size] at hlt hp <;>
    simp [wrap, IrType.isSigned, bits, IrType.size, toI, toU] <;> omega

theorem toI_bounds {w : ℕ} (hw : 0 < w) (n : ℤ) : -2 ^ (w - 1) ≤ toI w n ∧ toI w n < 2 ^ (w - 1) := by
  have h0 : 0 ≤ (n + 2 ^ (w - 1)) % 2 ^ w := Int.emod_nonneg _ (by positivity)
  have h1 : (n + 2 ^ (w - 1)) % 2 ^ w < 2 ^ w := Int.emod_lt_of_pos _ (by positivity)
  have h2 : (2 : ℤ) ^ w = 2 * 2 ^ (w - 1) := by
    rw [← pow_succ', Nat.sub_add_cancel hw]
  unfold toI
  omega

theorem exact_sext (ht : IsInt t) (h₁ : IsInt t₁) (hlt : t₁.size < t.size) (x : ℤ) (b : Val) :
    Yields t (spec .sext t t₁ t₂ x y) (foldConst .sext t t₁ t₂ (BitVec.ofInt 64 x) b) ↔
      Safe .sext t t₁ t₂ x y := by
  show Yields t (wrap t (toI (bits t₁) x)) ((foldSext t₁ _).intern t) ↔ (_ → _)
  rw [yields_intern (ne_bool_of_lt h₁ hlt)]
  have hs := toI_bounds (bits_pos h₁).1 x
  have key : Yields t (wrap t (toI (bits t₁) x)) (constI (toI (bits t₁) x)) ↔ _ :=
    sext_iff ht (size_pos h₁) hlt hs.1 hs.2
  have h8 : t₁.size < 8 := lt_of_lt_of_le hlt t.size_le
  rcases size_cases h₁ h8 with (rfl | rfl | rfl | rfl) | (rfl | rfl) | rfl | rfl
  iterate 4
    rw [foldSext, i8_ofInt]
    exact key
  iterate 2
    rw [foldSext, i16_ofInt]
    exact key
  iterate 2
    rw [foldSext, i32_ofInt]
    exact key

/-- A zero-extended operand of a narrower type fits the type `t`. -/
theorem inRange_zext {z : ℤ} {k : ℕ} (ht : IsInt t) (hk : 0 < k) (hlt : k < t.size) (h0 : 0 ≤ z)
    (h1 : z < 2 ^ (8 * k)) : InRange t z := by
  have hp : (2 : ℤ) ^ (8 * k) ≤ 2 ^ (8 * (t.size - 1)) :=
    pow_le_pow_right₀ (by norm_num) (by omega)
  obtain ⟨h2, h3⟩ := ht
  cases t <;> simp [IrType.isInt] at h2 h3 <;> simp [IrType.size] at hlt hp <;>
    simp [InRange, IrType.isSigned, bits, IrType.size] <;> omega

theorem exact_zext (ht : IsInt t) (h₁ : IsInt t₁) (hlt : t₁.size < t.size) (x : ℤ) (b : Val) :
    Yields t (spec .zext t t₁ t₂ x y) (foldConst .zext t t₁ t₂ (BitVec.ofInt 64 x) b) := by
  show Yields t (wrap t (toU (bits t₁) x)) ((foldZext t₁ _).intern t)
  rw [yields_intern (ne_bool_of_lt h₁ hlt)]
  have hz0 : 0 ≤ toU (bits t₁) x := Int.emod_nonneg _ (by positivity)
  have hz1 : toU (bits t₁) x < 2 ^ bits t₁ := Int.emod_lt_of_pos _ (by positivity)
  have key := yields_self ht (inRange_zext ht (size_pos h₁) hlt hz0 hz1)
  have h8 : t₁.size < 8 := lt_of_lt_of_le hlt t.size_le
  rcases size_cases h₁ h8 with (rfl | rfl | rfl | rfl) | (rfl | rfl) | rfl | rfl
  iterate 4
    rw [foldZext, u8_ofInt]
    exact key
  iterate 2
    rw [foldZext, u16_ofInt]
    exact key
  iterate 2
    rw [foldZext, u32_ofInt]
    exact key

/-- A rule that stores the member of the type `t` keeps the low bits of its operand. -/
theorem yields_member (ht : IsInt t) (hb : t ≠ .bool) {e : ℤ} (he : e = wrap t x) :
    Yields t (wrap t x) (constU e) := by
  rw [he]
  exact yields_of_wrap ht hb rfl

/-- The boolean constant of the low byte. -/
theorem yields_bool_byte (x : ℤ) :
    Yields .bool (if decide (toU 8 x ≠ 0) then 1 else 0) ((constU (toU 8 x)).intern .bool) := by
  show Yields .bool _ (foldBool (decide (BitVec.ofInt 64 (toU 8 x) ≠ 0)))
  have h0 : BitVec.ofInt 64 (toU 8 x) ≠ 0 ↔ toU 8 x ≠ 0 := by
    rw [show (0 : Val) = BitVec.ofInt 64 0 from rfl, ne_eq, ofInt_eq_iff]
    unfold toU
    omega
  rw [yields_foldBool, decide_eq_decide.2 h0]

theorem yields_truncTo (t : IrType) (x : ℤ) :
    Yields t (if t = .bool then if decide (toU 8 x ≠ 0) then 1 else 0 else wrap t x)
      ((truncTo t (BitVec.ofInt 64 x)).intern t) := by
  by_cases hb : t = .bool
  · subst hb
    rw [if_pos rfl, truncTo, u8_ofInt]
    exact yields_bool_byte x
  rw [if_neg hb, yields_intern hb]
  unfold truncTo
  split
  iterate 2
    rw [i8_ofInt]
    exact yields_member ⟨rfl, by simp⟩ hb rfl
  · rw [i16_ofInt]
    exact yields_member ⟨rfl, by simp⟩ hb rfl
  · rw [i32_ofInt]
    exact yields_member ⟨rfl, by simp⟩ hb rfl
  · rw [u8_ofInt]
    exact yields_member ⟨rfl, by simp⟩ hb rfl
  · exact absurd rfl hb
  · rw [u16_ofInt]
    exact yields_member ⟨rfl, by simp⟩ hb rfl
  · rw [u32_ofInt]
    exact yields_member ⟨rfl, by simp⟩ hb rfl
  · exact yields_next _ _

theorem exact_trunc (x : ℤ) (b : Val) :
    Yields t (spec .trunc t t₁ t₂ x y) (foldConst .trunc t t₁ t₂ (BitVec.ofInt 64 x) b) := by
  have key := yields_truncTo t x
  show Yields t _ ((foldTrunc t t₁ _).intern t)
  cases t₁ <;> first
    | exact yields_next _ _
    | exact key

theorem exact_bitcast (x : ℤ) (b : Val) :
    Yields t (spec .bitcast t t₁ t₂ x y) (foldConst .bitcast t t₁ t₂ (BitVec.ofInt 64 x) b) := by
  show Yields t (if t = .bool then if decide (toU 8 x ≠ 0) then 1 else 0 else wrap t x)
    ((foldBitcast t t₁ _).intern t)
  unfold foldBitcast
  by_cases h₁ : (t₁.isInt && decide (t₁ ≠ .void)) = true
  · rw [if_pos h₁]
    by_cases hb : t = .bool
    · subst hb
      rw [if_pos rfl, intern_foldBool, yields_foldBool, i8_ofInt]
      have h0 : toU 8 x ≠ 0 ↔ (x + 128) % 256 - 128 ≠ 0 := by
        unfold toU
        omega
      rw [decide_eq_decide.2 h0]
    rw [if_neg hb, yields_intern hb]
    split
    · exact absurd rfl hb
    iterate 2
      rw [i8_ofInt]
      exact yields_member ⟨rfl, by simp⟩ hb rfl
    · rw [i16_ofInt]
      exact yields_member ⟨rfl, by simp⟩ hb rfl
    · rw [i32_ofInt]
      exact yields_member ⟨rfl, by simp⟩ hb rfl
    · rw [i64_ofInt]
      exact yields_member ⟨rfl, by simp⟩ hb rfl
    · rw [u8_ofInt]
      exact yields_member ⟨rfl, by simp⟩ hb rfl
    · rw [u16_ofInt]
      exact yields_member ⟨rfl, by simp⟩ hb rfl
    · rw [u32_ofInt]
      exact yields_member ⟨rfl, by simp⟩ hb rfl
    · rw [u64_ofInt]
      exact yields_member ⟨rfl, by simp⟩ hb rfl
    · rw [u64_ofInt]
      exact yields_member ⟨rfl, by simp⟩ hb rfl
    · exact yields_next _ _
  · rw [if_neg h₁]
    exact yields_next _ _

/-! ## All the rules -/

/-- **A fold of canonical integer constants is exact and canonical if and only if its operands are
`Safe` for the opcode.** -/
theorem exact_iff_safe {op : IrOp} {a b : Val} (hw : WellTyped op t t₁ t₂) (h₁ : IsInt t₁)
    (ha : Canonical t₁ a) (hb : Canonical t₂ b) :
    Exact op t t₁ t₂ a b ↔ Safe op t t₁ t₂ (valueOf t₁ a) (valueOf t₂ b) := by
  obtain ⟨hx, hax⟩ := ha
  obtain ⟨hy, hby⟩ := hb
  unfold Exact
  generalize valueOf t₁ a = x at *
  generalize valueOf t₂ b = y at *
  subst hax hby
  cases op
  case eq =>
    obtain rfl := hw
    exact iff_of_true (exact_eq hx hy) trivial
  case ne =>
    obtain rfl := hw
    exact iff_of_true (exact_ne hx hy) trivial
  case lt | ge | le | gt =>
    obtain rfl := hw
    exact iff_of_true (yields_order _ hx hy) trivial
  case ult | uge | ule | ugt =>
    obtain rfl := hw
    refine iff_of_true (yields_unsignedOrder (fun a b c d h k => ?_) hx hy) trivial
    simp only [ge_iff_le, gt_iff_lt, ← not_lt, h, k]
  case add => exact exact_add hw.1 hx hy
  case sub => exact exact_sub hw.1 hx hy
  case mul => exact exact_mul hw.1 hx hy
  case div =>
    obtain ⟨rfl, -⟩ := hw
    exact iff_of_true (exact_div hx hy) trivial
  case mod =>
    obtain ⟨rfl, -⟩ := hw
    exact exact_mod hx hy
  case neg =>
    obtain rfl := hw
    exact iff_of_true (exact_neg x _) trivial
  case abs =>
    obtain rfl := hw
    exact exact_abs hx _
  case not =>
    obtain rfl := hw
    exact exact_not hx _
  case or =>
    obtain ⟨rfl, -⟩ := hw
    exact iff_of_true (exact_or hx hy) trivial
  case and =>
    obtain ⟨rfl, -⟩ := hw
    exact iff_of_true (exact_and hx hy) trivial
  case xor =>
    obtain ⟨rfl, -⟩ := hw
    exact exact_xor hx hy
  case shl =>
    obtain rfl := hw
    exact exact_shl hx y
  case shr =>
    obtain rfl := hw
    exact exact_shr hx y
  case sar =>
    obtain rfl := hw
    exact exact_sar hx y
  case rol =>
    obtain rfl := hw
    exact exact_rol x y
  case ror =>
    obtain rfl := hw
    exact exact_ror x y
  case min =>
    obtain ⟨rfl, hc⟩ := hw
    exact iff_of_true (exact_min hc hx hy) trivial
  case max =>
    obtain ⟨rfl, hc⟩ := hw
    exact iff_of_true (exact_max hc hx hy) trivial
  case sext => exact exact_sext hw.1 h₁ hw.2 x _
  case zext => exact iff_of_true (exact_zext hw.1 h₁ hw.2 x _) trivial
  case trunc => exact iff_of_true (exact_trunc x _) trivial
  case bitcast => exact iff_of_true (exact_bitcast x _) trivial
  all_goals exact iff_of_true (yields_next _ _) trivial

theorem inRange_u8 (n : ℤ) : InRange .u8 n ↔ 0 ≤ n ∧ n < 256 := by
  simp [InRange, IrType.isSigned, bits, IrType.size]

theorem canonical_u8 {n : ℤ} (h0 : 0 ≤ n) (h1 : n < 256) : Canonical .u8 (BitVec.ofInt 64 n) :=
  canonical_ofInt ⟨rfl, by simp⟩ ((inRange_u8 n).2 ⟨h0, h1⟩)

/-- `100 + 100` fits `IR_U8`. -/
theorem add_u8_exact : Exact .add .u8 .u8 .u8 (BitVec.ofInt 64 100) (BitVec.ofInt 64 100) := by
  have hw : WellTyped .add .u8 .u8 .u8 := ⟨Or.inl rfl, Or.inl rfl⟩
  have hc : Canonical .u8 (BitVec.ofInt 64 100) := canonical_u8 (by norm_num) (by norm_num)
  refine (exact_iff_safe hw ⟨rfl, by simp⟩ hc hc).2 ?_
  intro _ _
  exact (inRange_u8 _).2 (by decide)

/-- `200 + 100` does not: the fold stores 300 for a constant of type `IR_U8`. -/
theorem add_u8_not_exact :
    ¬∀ (op : IrOp) (t t₁ t₂ : IrType) (a b : Val), WellTyped op t t₁ t₂ → IsInt t₁ →
      Canonical t₁ a → Canonical t₂ b → Exact op t t₁ t₂ a b := by
  intro h
  have hadd : Exact .add .u8 .u8 .u8 (BitVec.ofInt 64 200) (BitVec.ofInt 64 100) :=
    h .add .u8 .u8 .u8 _ _ ⟨Or.inl rfl, Or.inl rfl⟩ ⟨rfl, by simp⟩
      (canonical_u8 (by norm_num) (by norm_num)) (canonical_u8 (by norm_num) (by norm_num))
  obtain ⟨-, hc⟩ := hadd.2 300 (by decide)
  exact absurd hc.2 (by decide)

end IrJit.Fold
