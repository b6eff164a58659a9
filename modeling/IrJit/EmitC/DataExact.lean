import IrJit.EmitC.DataSound
import Mathlib.Data.List.TakeWhile

/-!
# EmitC.DataExact — rotations, counts, overflow arithmetic, and all data instructions
-/

namespace IrJit.EmitC

open Fold

variable {env : Name → ℤ} {I : DataInsn}

/-! ## Rotations -/

theorem arith_self {u : IrType} {n : ℤ} (hu : IsInt u) (h : InRange u n) :
    arith u n = some (u, n) := by
  unfold arith
  by_cases hs : u.isSigned = true
  · rw [if_pos hs, if_pos ((inRange_signed hs n).1 h)]
  · rw [if_neg hs, wrap_eq_self hu h]

/-- `w - y`, the complementary count. -/
theorem eval_complement {f : CExpr} {t v : IrType} {w : ℕ} {y : ℤ} (k : Shown env f t v y)
    (hw : w ≤ 64) (h0 : 0 ≤ y) (h1 : y ≤ w) :
    ∃ u, eval env (.bin .sub (.lit .i32 w) f) = some (u, w - y) := by
  have hlit : InRange .i32 (w : ℤ) := by
    simp [InRange, IrType.isSigned, bits, IrType.size]
    omega
  have hcw : InRange (common .i32 v) w := inRange_common_of_nonneg hlit (by omega)
  have hcy : InRange (common .i32 v) y := by
    rw [common_comm]
    exact inRange_common_of_nonneg (inRange_promote k.isInt_c k.inRange_c) h0
  have hcs : InRange (common .i32 v) (w - y) := by
    rw [common_comm] at hcw ⊢
    obtain ⟨p, hp⟩ := common_cases v .i32
    rw [hp] at hcw ⊢
    rcases promote_cases p with h | h | h | h <;> rw [h] at hcw ⊢ <;>
      simp [InRange, IrType.isSigned, bits, IrType.size] at hcw ⊢ <;> omega
  refine ⟨common .i32 v, ?_⟩
  rw [eval, k.eval]
  simp only [eval, Option.bind_some, binary]
  rw [EmitC.convert_common, EmitC.convert_common, wrap_eq_self (isInt_common _ _) hcw,
    wrap_eq_self (isInt_common _ _) hcy]
  exact arith_self (isInt_common _ _) hcs

theorem common_self (u : IrType) : common (promote u) (promote u) = promote u := by
  cases u <;> rfl

theorem ofInt_congr {w : ℕ} {m n : ℤ} (h : m ≡ n [ZMOD 2 ^ w]) :
    BitVec.ofInt w m = BitVec.ofInt w n := by
  apply BitVec.eq_of_toNat_eq
  rw [BitVec.toNat_ofInt, BitVec.toNat_ofInt]
  have h' : m % ((2 ^ w : ℕ) : ℤ) = n % ((2 ^ w : ℕ) : ℤ) := by
    push_cast
    exact h
  rw [h']

theorem ofBits_setWidth (t : IrType) {m : ℕ} (p : BitVec m) :
    ofBits t (p.setWidth (bits t)) = ofBits t p := by
  unfold ofBits
  apply wrap_congr
  rw [BitVec.toNat_setWidth]
  push_cast
  exact Int.mod_modEq _ _

theorem toNat_ofInt_width (w : ℕ) (x : ℤ) : ((BitVec.ofInt w x).toNat : ℤ) = toU w x := by
  rw [BitVec.toNat_ofInt, Int.toNat_of_nonneg]
  · push_cast
    rfl
  · exact Int.emod_nonneg _ (by positivity)

theorem ofInt_shl (w : ℕ) (x : ℤ) (k : ℕ) :
    BitVec.ofInt w (toU w x * 2 ^ k) = BitVec.ofInt w x <<< k := by
  apply BitVec.eq_of_toNat_eq
  zify
  rw [toNat_ofInt_width, BitVec.toNat_shiftLeft, Nat.shiftLeft_eq]
  push_cast
  rw [toNat_ofInt_width]
  rfl

theorem ofInt_shr (w : ℕ) (x : ℤ) (k : ℕ) :
    BitVec.ofInt w (toU w x / 2 ^ k) = BitVec.ofInt w x >>> k := by
  have h0 : 0 ≤ toU w x := Int.emod_nonneg _ (by positivity)
  have h1 : toU w x < 2 ^ w := Int.emod_lt_of_pos _ (by positivity)
  have hq := (ediv_pow_bounds (toU w x) k).1 h0
  apply BitVec.eq_of_toNat_eq
  zify
  rw [toNat_ofInt_width, BitVec.toNat_ushiftRight, Nat.shiftRight_eq_div_pow]
  push_cast
  rw [toNat_ofInt_width]
  exact Int.emod_eq_of_lt hq.1 (lt_of_le_of_lt hq.2 h1)

/-- The two halves of a rotation, joined in a C type at least as wide. -/
theorem wrap_or {t u : IrType} (hle : bits t ≤ bits (promote u)) {m n m' n' : ℤ}
    (hm : wrap t m = wrap t m') (hn : wrap t n = wrap t n') :
    wrap t (ofBits (promote u) (BitVec.ofInt (bits (promote u)) m ||| BitVec.ofInt _ n)) =
      ofBits t (BitVec.ofInt (bits t) m' ||| BitVec.ofInt (bits t) n') := by
  have hcm : m ≡ m' [ZMOD 2 ^ bits t] :=
    ((wrap_modEq t m).symm.trans (by rw [hm])).trans (wrap_modEq t m')
  have hcn : n ≡ n' [ZMOD 2 ^ bits t] :=
    ((wrap_modEq t n).symm.trans (by rw [hn])).trans (wrap_modEq t n')
  show wrap t (wrap (promote u) _) = _
  rw [wrap_wrap hle]
  show ofBits t _ = _
  rw [← ofBits_setWidth, BitVec.setWidth_or, setWidth_ofInt hle, setWidth_ofInt hle,
    ofInt_congr hcm, ofInt_congr hcn]

/-- `|` of two values of one promoted type. -/
theorem eval_or {e f : CExpr} {t u : IrType} (hle : bits t ≤ bits (promote u)) {m n m' n' : ℤ}
    (he : eval env e = some (promote u, m)) (hf : eval env f = some (promote u, n))
    (hm : wrap t m = wrap t m') (hn : wrap t n = wrap t n') :
    ∃ r, eval env (.bin .or e f) = some (promote u, r) ∧
      wrap t r = ofBits t (BitVec.ofInt (bits t) m' ||| BitVec.ofInt (bits t) n') := by
  rw [eval, he, hf]
  simp only [Option.bind_some, binary]
  rw [common_self, convert_promote, convert_promote]
  refine ⟨_, rfl, wrap_or hle ?_ ?_⟩
  · rw [wrap_wrap hle, hm]
  · rw [wrap_wrap hle, hn]

/-- A type that holds both halves of a rotation is at least as wide. -/
theorem bits_le_of_halves {t u : IrType} (ht : IsInt t) {y : ℤ} (h1 : y < bits (promote u))
    (h2 : bits t - y < bits (promote u)) : bits t ≤ bits (promote u) := by
  have hu : bits (promote u) = 32 ∨ bits (promote u) = 64 := by
    rcases promote_cases u with h | h | h | h <;> rw [h] <;> simp [bits, IrType.size]
  rcases bits_cases ht with h | h | h | h <;> rw [h] at h2 ⊢ <;> omega

section Rotations

variable (hT : DataTyped I) (hD : OpDefined I env) (hP : Proper I env)

include hT hD hP

/-- The casted operands of a rotation. -/
theorem shown_rotation (hop : I.op = .rol ∨ I.op = .ror) (h0 : 0 ≤ I.b.value env)
    (h1 : I.b.value env < bits I.a.type) :
    Shown env (unsignedCast I.a.type (emitArg I.a)) (toUnsigned I.a.type) I.a.unsignedType
        (toU (bits I.a.type) (I.a.value env)) ∧
      Shown env (unsignedCast I.a.type (emitArg I.b)) (toUnsigned I.a.type) I.b.unsignedType
        (I.b.value env) := by
  have hbt : I.a.type = I.type ∧ I.b.type = I.type := by
    have hT' := hT.2.2
    rcases hop with hop | hop <;> simp only [hop] at hT' <;> exact hT'.2
  have har : 2 ≤ arity I.op := by rcases hop with hop | hop <;> simp [hop, arity]
  have hy := shown_unsignedCast (shown_b (by rw [hbt.2]; exact hT.1) har hD hP)
  rw [hbt.2, ← hbt.1, toU_count hT.2.1 h0 h1] at hy
  exact ⟨shown_unsignedCast (shown_a hT hD hP), hy⟩

theorem assigns_rol (hop : I.op = .rol) : Assigns I env := by
  have hT' := hT.2.2
  have hP' := hP.2
  simp only [hop] at hT' hP'
  obtain ⟨hnb, hat, hbt⟩ := hT'
  obtain ⟨h0, h1, hfit, h2⟩ := hP'
  obtain ⟨hx, hy⟩ := shown_rotation hT hD hP (Or.inl hop) h0 h1
  have hX : 0 ≤ toU (bits I.a.type) (I.a.value env) := Int.emod_nonneg _ (by positivity)
  have hw := (bits_pos hT.2.1).2
  obtain ⟨r, hshl, hr⟩ := eval_shl hx hy.eval h0 hfit fun _ => hX
  obtain ⟨v, hc⟩ := eval_complement hy hw h0 h1.le
  have hshr := eval_shr hx hc (by omega) h2
  have hle : bits I.type ≤ bits (promote I.a.unsignedType) := by
    rw [← hat]
    have := hfit.1
    exact bits_le_of_halves hT.2.1 (y := I.b.value env) (by omega) h2
  obtain ⟨q, hor, hq⟩ := eval_or hle hshl hshr hr rfl
  refine assigns_of_eval (by rw [hop]; rfl)
    (by rw [show emitExpr I = emitRolRor .shl .shr I.a.type (emitArg I.a) (emitArg I.b) by
      simp [emitExpr, hop]]; exact hor) ?_
  simp only [result, hop, spec]
  have hk : (I.b.value env).toNat < bits I.type := by
    rw [← hat]
    omega
  have hcompl : (bits I.type - I.b.value env).toNat = bits I.type - (I.b.value env).toNat := by
    omega
  rw [hat] at hq h1 ⊢
  rw [shift_eq h0 h1, ← rol_eq _ hk, rol, ← ofInt_shl, ← ofInt_shr, ← hcompl, ← hq]
  exact if_neg hnb

theorem assigns_ror (hop : I.op = .ror) : Assigns I env := by
  have hT' := hT.2.2
  have hP' := hP.2
  simp only [hop] at hT' hP'
  obtain ⟨hnb, hat, hbt⟩ := hT'
  obtain ⟨h0, h1, hfit, h2⟩ := hP'
  obtain ⟨hx, hy⟩ := shown_rotation hT hD hP (Or.inr hop) h0 h1
  have hX : 0 ≤ toU (bits I.a.type) (I.a.value env) := Int.emod_nonneg _ (by positivity)
  have hw := (bits_pos hT.2.1).2
  obtain ⟨v, hc⟩ := eval_complement hy hw h0 h1.le
  obtain ⟨r, hshl, hr⟩ := eval_shl hx hc (by omega) hfit fun _ => hX
  have hshr := eval_shr hx hy.eval h0 h2
  have hle : bits I.type ≤ bits (promote I.a.unsignedType) := by
    rw [← hat]
    have := hfit.1
    exact bits_le_of_halves hT.2.1 (y := I.b.value env) h2 (by omega)
  obtain ⟨q, hor, hq⟩ := eval_or hle hshr hshl rfl hr
  refine assigns_of_eval (by rw [hop]; rfl)
    (by rw [show emitExpr I = emitRolRor .shr .shl I.a.type (emitArg I.a) (emitArg I.b) by
      simp [emitExpr, hop]]; exact hor) ?_
  simp only [result, hop, spec]
  have hk : (I.b.value env).toNat < bits I.type := by
    rw [← hat]
    omega
  have hcompl : (bits I.type - I.b.value env).toNat = bits I.type - (I.b.value env).toNat := by
    omega
  rw [hat] at hq h1 ⊢
  rw [shift_eq h0 h1, ← ror_eq _ hk, ror, ← ofInt_shl, ← ofInt_shr, ← hcompl, ← hq]
  exact if_neg hnb

end Rotations

/-! ## Counts -/

/-- The bits of a value below the width are those of its patterns. -/
theorem getLsbD_ofInt {w m i : ℕ} (hle : w ≤ m) (hi : i < w) (x : ℤ) :
    (BitVec.ofInt m x).getLsbD i = (BitVec.ofInt w x).getLsbD i := by
  rw [← setWidth_ofInt hle, BitVec.getLsbD_setWidth]
  simp [hi]

theorem getLsbD_ofInt_of_lt {w m i : ℕ} {x : ℤ} (hi : w ≤ i) (h0 : 0 ≤ x) (h1 : x < 2 ^ w) :
    (BitVec.ofInt m x).getLsbD i = false := by
  obtain ⟨n, rfl⟩ := Int.eq_ofNat_of_zero_le h0
  have hn : n < 2 ^ i := by
    have h2 : n < 2 ^ w := by exact_mod_cast h1
    exact lt_of_lt_of_le h2 (Nat.pow_le_pow_right (by norm_num) hi)
  rw [BitVec.ofInt_natCast, BitVec.getLsbD_ofNat, Nat.testBit_lt_two_pow hn, Bool.and_false]

theorem popcount_ofInt {w m : ℕ} {x : ℤ} (hle : w ≤ m) (h0 : 0 ≤ x) (h1 : x < 2 ^ w) :
    popcount (BitVec.ofInt m x) = popcount (BitVec.ofInt w x) := by
  obtain ⟨k, rfl⟩ := Nat.exists_eq_add_of_le hle
  unfold popcount
  rw [List.range_add, List.countP_append]
  have hlow : (List.range w).countP (BitVec.ofInt (w + k) x).getLsbD =
      (List.range w).countP (BitVec.ofInt w x).getLsbD :=
    List.countP_congr fun i hi => by rw [getLsbD_ofInt hle (List.mem_range.1 hi)]
  have hhigh : ((List.range k).map (w + ·)).countP (BitVec.ofInt (w + k) x).getLsbD = 0 := by
    rw [List.countP_eq_zero]
    intro i hi
    obtain ⟨j, -, rfl⟩ := List.mem_map.1 hi
    rw [getLsbD_ofInt_of_lt (by omega) h0 h1]
    simp
  rw [hlow, hhigh, Nat.add_zero]

theorem popcount_le {w : ℕ} (p : BitVec w) : popcount p ≤ w := by
  unfold popcount
  exact (List.countP_le_length).trans (by simp)

theorem leadingZeros_le {w : ℕ} (p : BitVec w) : leadingZeros p ≤ w := by
  unfold leadingZeros
  exact (List.takeWhile_sublist _).length_le.trans (by simp)

theorem trailingZeros_le {w : ℕ} (p : BitVec w) : trailingZeros p ≤ w := by
  unfold trailingZeros
  exact (List.takeWhile_sublist _).length_le.trans (by simp)

theorem leadingZeros_of_msb {w : ℕ} {p : BitVec w} (h : p.msb = true) : leadingZeros p = 0 := by
  unfold leadingZeros
  cases w with
  | zero => rfl
  | succ w =>
    have h0 : p.getMsbD 0 = true := h
    rw [List.range_succ_eq_map]
    simp [h0]

theorem takeWhile_congr {α : Type} {p q : α → Bool} {l : List α} (h : ∀ a ∈ l, p a = q a) :
    l.takeWhile p = l.takeWhile q := by
  induction l with
  | nil => rfl
  | cons a l ih =>
    rw [List.takeWhile_cons, List.takeWhile_cons, h a (by simp),
      ih fun b hb => h b (List.mem_cons_of_mem a hb)]

theorem trailingZeros_lt {w : ℕ} {p : BitVec w} (h : p ≠ 0) : trailingZeros p ≠ w := by
  intro hlen
  apply h
  have hall : (List.range w).takeWhile (fun i => !p.getLsbD i) = List.range w := by
    apply (List.takeWhile_prefix _).eq_of_length
    rw [List.length_range]
    exact hlen
  rw [List.takeWhile_eq_self_iff] at hall
  apply BitVec.eq_of_getLsbD_eq
  intro i hi
  simpa using hall i (List.mem_range.2 hi)

theorem trailingZeros_ofInt {w m : ℕ} {x : ℤ} (hle : w ≤ m) (h : BitVec.ofInt w x ≠ 0) :
    trailingZeros (BitVec.ofInt m x) = trailingZeros (BitVec.ofInt w x) := by
  obtain ⟨k, rfl⟩ := Nat.exists_eq_add_of_le hle
  have hlow : (List.range w).takeWhile (fun i => !(BitVec.ofInt (w + k) x).getLsbD i) =
      (List.range w).takeWhile fun i => !(BitVec.ofInt w x).getLsbD i :=
    takeWhile_congr fun i hi => by rw [getLsbD_ofInt hle (List.mem_range.1 hi)]
  have hne := trailingZeros_lt h
  unfold trailingZeros at hne ⊢
  rw [List.range_add, List.takeWhile_append, hlow, if_neg (by simpa using hne)]

theorem ofInt_ne_zero {t : IrType} {x : ℤ} (ht : IsInt t) (hx : InRange t x) (h0 : x ≠ 0) :
    BitVec.ofInt (bits t) x ≠ 0 := by
  intro hz
  have hw := wrap_eq_self ht hx
  have h := wrap_congr (t := t) (m := x) (n := 0) <| by
    have hu := toNat_ofInt_width (bits t) x
    rw [hz] at hu
    simpa [toU, Int.ModEq] using hu.symm
  rw [hw] at h
  apply h0
  rw [h]
  unfold wrap toI toU
  obtain ⟨h1, h2⟩ := ht
  cases t <;> simp [IrType.isInt] at h1 h2 <;> rfl

theorem inRange_count {t : IrType} (ht : IsInt t) (hb : t ≠ .bool) {n : ℕ} (hn : n ≤ 64) :
    InRange t n := by
  obtain ⟨h1, h2⟩ := ht
  cases t <;> simp [IrType.isInt] at h1 h2 hb <;>
    simp [InRange, IrType.isSigned, bits, IrType.size] <;> omega

/-- The parameter type of the builtins. -/
def countType (t : IrType) : IrType := if t.size = 8 then .u64 else .u32

theorem bits_countType {t : IrType} (ht : IsInt t) :
    (32 ≤ bits t → bits (countType t) = bits t) ∧ bits t ≤ bits (countType t) := by
  obtain ⟨h1, h2⟩ := ht
  cases t <;> simp [IrType.isInt] at h1 h2 <;> simp [countType, bits, IrType.size]

/-- A value that is negative as an `int8_t` or an `int16_t` is negative as an `int`. -/
theorem msb_ofInt {t : IrType} {m : ℕ} {x : ℤ} (hx : InRange t x) (h0 : x < 0)
    (ht : IsInt t) (hm : bits t ≤ m) : (BitVec.ofInt m x).msb = true := by
  have hpos := bits_pos ht
  have hlow : -2 ^ (bits t - 1) ≤ x := by
    by_cases hs : t.isSigned = true
    · exact ((inRange_signed hs x).1 hx).1
    · have := nonneg_of_unsigned hx (by simpa using hs)
      omega
  have hle : (2 : ℤ) ^ (bits t - 1) ≤ 2 ^ (m - 1) :=
    pow_le_pow_right₀ (by norm_num) (by omega)
  have h2 : (2 : ℤ) ^ m = 2 * 2 ^ (m - 1) := by
    rw [← pow_succ']
    congr 1
    omega
  rw [BitVec.msb_eq_decide]
  have hnat : ((BitVec.ofInt m x).toNat : ℤ) = x + 2 ^ m := by
    rw [toNat_ofInt_width, toU, ← Int.add_emod_right]
    exact Int.emod_eq_of_lt (by omega) (by omega)
  rw [decide_eq_true_eq]
  zify
  rw [hnat]
  omega

section Counts

variable (hT : DataTyped I) (hD : OpDefined I env) (hP : Proper I env)

include hT hD hP

theorem assigns_count (f : Builtin) {n : ℕ} (hnb : I.type ≠ .bool)
    (hemit : emitExpr I = emitCount f I.type (emitArg I.a)) (hov : overflowOp I.op = none)
    (hcall : callBuiltin f (countType I.type) (I.a.value env) = some (IrType.i32, (n : ℤ))) (hn : n ≤ 64)
    (hres : result I (I.a.value env) (I.b.value env) (I.c.value env) = n) : Assigns I env := by
  have ha := shown_a hT hD hP
  refine assigns_of_eval hov (u := .i32) (r := n) ?_ ?_
  · rw [hemit]
    show eval env (.builtin f (countType I.type) (emitArg I.a)) = _
    rw [eval, ha.eval]
    exact hcall
  · rw [hres]
    exact convert_self hT.1 (inRange_count hT.1 hnb hn)

theorem assigns_ctpop (hop : I.op = .ctpop) : Assigns I env := by
  have hT' := hT.2.2
  have hP' := hP.2
  simp only [hop] at hT' hP'
  obtain ⟨hnb, hat⟩ := hT'
  have hx : InRange I.a.type (I.a.value env) := hD.1.1
  rw [hat] at hP' hx
  obtain ⟨hwide, hle⟩ := bits_countType hT.1
  have heq : popcount (BitVec.ofInt (bits (countType I.type)) (I.a.value env)) =
      popcount (BitVec.ofInt (bits I.type) (I.a.value env)) := by
    rcases hP' with h32 | h0
    · rw [hwide h32]
    · apply popcount_ofInt hle h0
      by_cases hs : I.type.isSigned = true
      · have hb := ((inRange_signed hs _).1 hx).2
        exact hb.trans_le (pow_le_pow_right₀ (by norm_num) (by omega))
      · unfold InRange at hx
        rw [if_neg hnb, if_neg hs] at hx
        exact hx.2
  refine assigns_count hT hD hP .popcount hnb (by unfold emitExpr; rw [hop]) (by rw [hop]; rfl)
    rfl ?_ ?_
  · rw [heq]
    exact (popcount_le _).trans (bits_pos hT.1).2
  · rw [heq, ← hat]
    simp [result, hop]

theorem assigns_ctlz (hop : I.op = .ctlz) : Assigns I env := by
  have hT' := hT.2.2
  have hP' := hP.2
  have hD' := hD.2
  simp only [hop] at hT' hP' hD'
  obtain ⟨hnb, hat⟩ := hT'
  have hx : InRange I.a.type (I.a.value env) := hD.1.1
  rw [hat] at hP' hx
  obtain ⟨hwide, hle⟩ := bits_countType hT.1
  have heq : BitVec.ofInt (bits (countType I.type)) (I.a.value env) ≠ 0 ∧
      leadingZeros (BitVec.ofInt (bits (countType I.type)) (I.a.value env)) =
        leadingZeros (BitVec.ofInt (bits I.type) (I.a.value env)) := by
    rcases hP' with h32 | h0
    · rw [hwide h32]
      exact ⟨ofInt_ne_zero hT.1 hx hD', rfl⟩
    · have hmsb := msb_ofInt hx h0 hT.1 hle
      refine ⟨fun hz => ?_, ?_⟩
      · rw [hz] at hmsb
        simp at hmsb
      · rw [leadingZeros_of_msb hmsb, leadingZeros_of_msb (msb_ofInt hx h0 hT.1 le_rfl)]
  refine assigns_count hT hD hP .clz hnb (by unfold emitExpr; rw [hop]) (by rw [hop]; rfl)
    (if_neg heq.1) ?_ ?_
  · rw [heq.2]
    exact (leadingZeros_le _).trans (bits_pos hT.1).2
  · rw [heq.2, ← hat]
    simp [result, hop]

theorem assigns_cttz (hop : I.op = .cttz) : Assigns I env := by
  have hT' := hT.2.2
  have hD' := hD.2
  simp only [hop] at hT' hD'
  obtain ⟨hnb, hat⟩ := hT'
  have hx : InRange I.a.type (I.a.value env) := hD.1.1
  rw [hat] at hx
  obtain ⟨-, hle⟩ := bits_countType hT.1
  have hne := ofInt_ne_zero hT.1 hx hD'
  have hne' : BitVec.ofInt (bits (countType I.type)) (I.a.value env) ≠ 0 := by
    intro hz
    apply hne
    rw [← setWidth_ofInt hle, hz]
    simp
  have heq := trailingZeros_ofInt hle hne
  refine assigns_count hT hD hP .ctz hnb (by unfold emitExpr; rw [hop]) (by rw [hop]; rfl)
    (if_neg hne') ?_ ?_
  · rw [heq]
    exact (trailingZeros_le _).trans (bits_pos hT.1).2
  · rw [heq, ← hat]
    simp [result, hop]

end Counts

/-! ## Overflow arithmetic -/

theorem wrap_eq_iff {t : IrType} {n : ℤ} (ht : IsInt t) (hb : t ≠ .bool) :
    wrap t n = n ↔ InRange t n := by
  refine ⟨fun h => ?_, wrap_eq_self ht⟩
  rw [← h]
  exact inRange_wrap ht hb n

/-- A narrow operand is an `int`. -/
theorem promote_ctype {a : Arg} (ht : IsInt a.type) (hn : bits a.type < 32)
    (hx : InRange a.type (a.value env)) (hp : Printable a) : promote a.ctype = .i32 := by
  cases a with
  | const t n =>
    have hx' : InRange t n := hx
    obtain ⟨h1, h2⟩ := ht
    show promote ((typeOf (printConst t n)).getD .void) = .i32
    cases t <;> simp [Arg.type, IrType.isInt, bits, IrType.size] at h1 h2 hn <;>
      simp [InRange, IrType.isSigned, bits, IrType.size] at hx' <;>
      simp only [printConst, decimal] <;> split_ifs <;> first | rfl | omega
  | var t r =>
    obtain ⟨h1, h2⟩ := ht
    show promote t = .i32
    cases t <;> simp [Arg.type, IrType.isInt, bits, IrType.size] at h1 h2 hn <;> rfl

theorem common_of_promote {u v : IrType} (hu : promote u = .i32) (hv : promote v = .i32) :
    common u v = .i32 := by
  unfold common
  rw [hu, hv]
  rfl

/-- An operand that is not the variable assigned to. -/
theorem value_update {a : Arg} {d : ℕ} (hne : a ≠ .var a.type d) (n : ℤ) :
    a.value (Function.update env (.d d) n) = a.value env := by
  cases a with
  | const t m => rfl
  | var t r =>
    have hr : r ≠ d := fun h => hne (by rw [h]; rfl)
    show Function.update env (.d d) n (.d r) = env (.d r)
    exact Function.update_of_ne (by simpa using hr) _ _

/-- The type the flag of a narrow overflow instruction is computed in. -/
def flagType (t : IrType) : IrType := if t.isSigned then .i32 else .u32

theorem common_flagType (t : IrType) : common (flagType t) (flagType t) = flagType t := by
  unfold flagType
  split_ifs <;> rfl

theorem isInt_flagType (t : IrType) : IsInt (flagType t) := by
  unfold flagType
  split_ifs <;> exact ⟨rfl, by simp⟩

theorem flagType_ne_bool (t : IrType) : flagType t ≠ .bool := by
  unfold flagType
  split_ifs <;> simp

theorem inRange_flagType {t : IrType} {n : ℤ} (ht : IsInt t) (hn : bits t < 32)
    (h : InRange t n) : InRange (flagType t) n := by
  obtain ⟨h1, h2⟩ := ht
  cases t <;> simp [IrType.isInt, bits, IrType.size] at h1 h2 hn <;>
    simp [InRange, flagType, IrType.isSigned, bits, IrType.size] at h ⊢ <;> omega

/-- The test of the second statement: the stored result differs from the one computed in 32 bits. -/
theorem flag_iff {t : IrType} {n : ℤ} (ht : IsInt t) (hb : t ≠ .bool) (hn : bits t < 32)
    (h : InRange .i32 n) : wrap t n = wrap (flagType t) n ↔ InRange t n := by
  rw [← wrap_eq_iff ht hb]
  constructor
  · intro heq
    obtain ⟨h1, h2⟩ := ht
    cases t <;> simp [IrType.isInt, bits, IrType.size] at h1 h2 hn hb <;>
      simp [InRange, IrType.isSigned, bits, IrType.size] at h <;>
      simp [wrap, flagType, IrType.isSigned, bits, IrType.size, toU, toI] at heq ⊢ <;> omega
  · intro heq
    have hr := (wrap_eq_iff ht hb).1 heq
    rw [heq, wrap_eq_self (isInt_flagType t) (inRange_flagType ht hn hr)]

section Overflow

variable (hT : DataTyped I) (hD : OpDefined I env) (hP : Proper I env)

include hT hD hP

/-- The first statement of a narrow overflow instruction. -/
theorem exec_result (op : BinOp) {g : ℤ → ℤ → ℤ} (hg : Ring2 g)
    (hsem : ∀ a b : IrType × ℤ, binary op a b =
      arith (common a.1 b.1) (g (convert (common a.1 b.1) a.2) (convert (common a.1 b.1) b.2)))
    (har : arity I.op = 2) (hnb : I.type ≠ .bool) (hat : I.a.type = I.type)
    (hbt : I.b.type = I.type) (hw : bits I.type < 32)
    (hr : InRange .i32 (g (I.a.value env) (I.b.value env))) :
    exec env (.assign (.d I.dst) I.type (.bin op (emitArg I.a) (emitArg I.b))) =
      some (Function.update env (.d I.dst)
        (wrap I.type (g (I.a.value env) (I.b.value env)))) := by
  have ha := shown_a hT hD hP
  have hb := shown_b (by rw [hbt]; exact hT.1) (by omega) hD hP
  have hca := promote_ctype hT.2.1 (by rw [hat]; exact hw) ha.inRange hP.1.1
  have hcb := promote_ctype hb.isInt (by rw [hbt]; exact hw) hb.inRange (hP.1.2.1 (by omega))
  have hf : Fits I.type (common I.a.ctype I.b.ctype) (g (I.a.value env) (I.b.value env)) := by
    rw [common_of_promote hca hcb]
    exact Or.inl hr
  obtain ⟨r, hev, hwrap⟩ := eval_arith hg hsem ha hb hf
  rw [exec, hev]
  simp only [Option.map_some, convert, if_neg hnb]
  rw [hwrap]

/-- The second one. -/
theorem exec_flag (op : BinOp) {g : ℤ → ℤ → ℤ} (hg : Ring2 g)
    (hsem : ∀ a b : IrType × ℤ, binary op a b =
      arith (common a.1 b.1) (g (convert (common a.1 b.1) a.2) (convert (common a.1 b.1) b.2)))
    (har : arity I.op = 2) (hnb : I.type ≠ .bool) (hat : I.a.type = I.type)
    (hbt : I.b.type = I.type) (hw : bits I.type < 32) {env' : Name → ℤ}
    (hd : env' (.d I.dst) = wrap I.type (g (I.a.value env) (I.b.value env)))
    (hva : I.a.value env' = I.a.value env) (hvb : I.b.value env' = I.b.value env)
    (hr : InRange .i32 (g (I.a.value env) (I.b.value env))) :
    ∃ n, exec env' (.assign (.d I.overflow) .bool
        (.bin .ne (.cast (flagType I.type) (.var I.type (.d I.dst)))
          (.bin op (.cast (flagType I.type) (emitArg I.a)) (.cast (flagType I.type) (emitArg I.b))))) =
      some (Function.update env' (.d I.overflow) n) ∧ (n = 0 ∨ n = 1) ∧
      (n = 0 ↔ InRange I.type (g (I.a.value env) (I.b.value env))) := by
  have hi := isInt_flagType I.type
  have hnf := flagType_ne_bool I.type
  have hbi : IsInt I.b.type := by
    rw [hbt]
    exact hT.1
  have ha : Shown env' (emitArg I.a) I.a.type I.a.ctype (I.a.value env') :=
    shown_arg hT.2.1 (by rw [hva]; exact hD.1.1) hP.1.1
  have hb : Shown env' (emitArg I.b) I.b.type I.b.ctype (I.b.value env') :=
    shown_arg hbi (by rw [hvb]; exact hD.1.2.1 (by omega)) (hP.1.2.1 (by omega))
  have hxa := inRange_flagType hT.2.1 (by rw [hat]; exact hw) ha.inRange
  have hxb := inRange_flagType hbi (by rw [hbt]; exact hw) hb.inRange
  rw [hat] at hxa
  rw [hbt] at hxb
  have hca := shown_cast ha hi hnf
  have hcb := shown_cast hb hi hnf
  rw [wrap_eq_self hi hxa, hva] at hca
  rw [wrap_eq_self hi hxb, hvb] at hcb
  have hf : Fits (flagType I.type) (common (flagType I.type) (flagType I.type))
      (g (I.a.value env) (I.b.value env)) := by
    rw [common_flagType]
    by_cases hs : I.type.isSigned = true
    · exact Or.inl (by simpa [flagType, hs] using hr)
    · refine Or.inr ⟨?_, le_rfl⟩
      rw [flagType, if_neg hs]
      rfl
  obtain ⟨r, hev, hwrap⟩ := eval_arith hg hsem hca hcb hf
  rw [common_flagType] at hev
  have hst := inRange_flagType hT.1 hw
    (inRange_wrap hT.1 hnb (g (I.a.value env) (I.b.value env)))
  have hvar : eval env' (.cast (flagType I.type) (.var I.type (.d I.dst))) =
      some (flagType I.type, wrap I.type (g (I.a.value env) (I.b.value env))) := by
    rw [eval, eval, hd]
    simp only [Option.map_some, convert, if_neg hnf]
    rw [wrap_eq_self hi hst]
  refine ⟨if wrap I.type (g (I.a.value env) (I.b.value env)) =
    wrap (flagType I.type) (g (I.a.value env) (I.b.value env)) then 0 else 1, ?_, ?_, ?_⟩
  · rw [exec, eval, hvar, hev]
    simp only [Option.bind_some, Option.map_some, binary, common_flagType, truth]
    simp only [convert, if_neg hnf]
    rw [wrap_eq_self hi hst, hwrap]
    split_ifs <;> simp_all
  · split_ifs
    · exact Or.inl rfl
    · exact Or.inr rfl
  · rw [← flag_iff hT.1 hnb hw hr]
    split_ifs with h
    · simp [h]
    · simp [h]

theorem assigns_overflow (op : BinOp) {g : ℤ → ℤ → ℤ} (hg : Ring2 g)
    (hsem : ∀ a b : IrType × ℤ, binary op a b =
      arith (common a.1 b.1) (g (convert (common a.1 b.1) a.2) (convert (common a.1 b.1) b.2)))
    (hexact : ∀ x y, exact op x y = g x y) (har : arity I.op = 2)
    (hov : overflowOp I.op = some op) (hemit : emitData I = emitOverflowMath I op)
    (ht : I.type ≠ .bool ∧ I.a.type = I.type ∧ I.b.type = I.type ∧ I.overflow ≠ I.dst)
    (hp : bits I.a.type < 32 ∧ I.a ≠ .var I.a.type I.dst ∧ I.b ≠ .var I.b.type I.dst)
    (hr : InRange .i32 (g (I.a.value env) (I.b.value env)))
    (hres : ∀ x y z, result I x y z = wrap I.type (g x y)) : Assigns I env := by
  obtain ⟨hnb, hat, hbt, hne⟩ := ht
  obtain ⟨hw, hna, hnb'⟩ := hp
  rw [hat] at hw
  have h1 := exec_result hT hD hP op hg hsem har hnb hat hbt hw hr
  obtain ⟨n, h2, h01, hn⟩ := exec_flag hT hD hP op hg hsem har hnb hat hbt hw
    (Function.update_self _ _ env) (value_update hna _) (value_update hnb' _) hr
  have hsize : ¬(I.type.size = 4 ∨ I.type.size = 8) := by
    unfold bits at hw
    omega
  refine ⟨Function.update (Function.update env (.d I.dst)
    (wrap I.type (g (I.a.value env) (I.b.value env)))) (.d I.overflow) n, ?_, ?_, ?_⟩
  · rw [hemit, emitOverflowMath]
    dsimp only
    rw [if_neg hsize, execAll, h1, Option.bind_some, execAll]
    change (exec _ (.assign (.d I.overflow) .bool
        (.bin .ne (.cast (flagType I.type) (.var I.type (.d I.dst)))
          (.bin op (.cast (flagType I.type) (emitArg I.a))
            (.cast (flagType I.type) (emitArg I.b)))))).bind _ = _
    rw [h2]
    rfl
  · rw [Function.update_of_ne (by simpa using hne.symm), Function.update_self, hres]
  · intro op' hop'
    rw [hov] at hop'
    cases hop'
    rw [Function.update_self, hexact]
    exact ⟨hn, h01⟩

omit hP in
theorem narrow_operands (har : arity I.op = 2) (hbt : I.b.type = I.type) (hat : I.a.type = I.type)
    (hw : bits I.a.type < 32) :
    (-2 ^ 16 < I.a.value env ∧ I.a.value env < 2 ^ 16) ∧
      (-2 ^ 16 < I.b.value env ∧ I.b.value env < 2 ^ 16) := by
  have key : ∀ n, InRange I.type n → -2 ^ 16 < n ∧ n < 2 ^ 16 := by
    intro n hn
    obtain ⟨h1, h2⟩ := hT.1
    rw [hat] at hw
    revert hw h1 h2 hn
    generalize I.type = t
    cases t <;> simp [IrType.isInt, bits, IrType.size, InRange, IrType.isSigned] <;> omega
  have hx : InRange I.a.type (I.a.value env) := hD.1.1
  have hy : InRange I.b.type (I.b.value env) := hD.1.2.1 (by omega)
  rw [hat] at hx
  rw [hbt] at hy
  exact ⟨key _ hx, key _ hy⟩

theorem assigns_addOv (hop : I.op = .addOv) : Assigns I env := by
  have hT' := hT.2.2
  have hP' := hP.2
  simp only [hop] at hT' hP'
  obtain ⟨hx, hy⟩ := narrow_operands hT hD (by rw [hop]; decide) hT'.2.2.1 hT'.2.1 hP'.1
  refine assigns_overflow hT hD hP .add ring2_add (fun _ _ => rfl) (fun _ _ => rfl)
    (by rw [hop]; decide) (by rw [hop]; rfl) (by unfold emitData; rw [hop]) hT' hP' ?_
    (fun x y z => by unfold result; rw [hop]; rfl)
  simp [InRange, IrType.isSigned, bits, IrType.size]
  omega

theorem assigns_subOv (hop : I.op = .subOv) : Assigns I env := by
  have hT' := hT.2.2
  have hP' := hP.2
  simp only [hop] at hT' hP'
  obtain ⟨hx, hy⟩ := narrow_operands hT hD (by rw [hop]; decide) hT'.2.2.1 hT'.2.1 hP'.1
  refine assigns_overflow hT hD hP .sub ring2_sub (fun _ _ => rfl) (fun _ _ => rfl)
    (by rw [hop]; decide) (by rw [hop]; rfl) (by unfold emitData; rw [hop]) hT' hP' ?_
    (fun x y z => by unfold result; rw [hop]; rfl)
  simp [InRange, IrType.isSigned, bits, IrType.size]
  omega

theorem assigns_mulOv (hop : I.op = .mulOv) : Assigns I env := by
  have hT' := hT.2.2
  have hP' := hP.2
  simp only [hop] at hT' hP'
  exact assigns_overflow hT hD hP .mul ring2_mul (fun _ _ => rfl) (fun _ _ => rfl)
    (by rw [hop]; decide) (by rw [hop]; rfl) (by unfold emitData; rw [hop]) hT'
    ⟨hP'.1, hP'.2.1, hP'.2.2.1⟩ hP'.2.2.2 (fun x y z => by unfold result; rw [hop]; rfl)

end Overflow

/-! ## All data instructions -/

/-- `d_3 = d_1 op d_2` of type `t`; the variable of the `OVERFLOW` is `d_4`. -/
def twoVars (op : IrOp) (t : IrType) : DataInsn where
  op := op
  type := t
  dst := 3
  a := .var t 1
  b := .var t 2
  c := .var t 2
  overflow := 4

/-- Every variable holds seven. -/
def sevens : Name → ℤ := fun _ => 7

end IrJit.EmitC
