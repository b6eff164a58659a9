import IrJit.Fold.Bitwise
import IrJit.Narrow.Promote

/-!
# Narrow.Value — the low bits of what an instruction computes

An instruction reads its operands at its own type and leaves a value of this type.  The operators that
commute with taking the low bits do so whatever the operands are; the order of two values, the sign of a
value and the count of a shift are not decided by low bits, and so MIN, MAX, ABS and SHL are conditional.
-/

namespace IrJit.Narrow

open Fold (IsInt Val bits i16 i32 i8 ofBits setWidth_ofInt shift spec toI toNat_ofInt toU u16 u32 u8
  valueOf wrap)
open IfConv (Insn isConstRef)

variable {t u type src : IrType} {op : IrOp} {a b n x y z : ℤ} {other : IrOp → IrType → List ℤ → ℤ}

/-! ## Values -/

/-- A value read at a type. -/
def read (t : IrType) (n : ℤ) : ℤ := if t.isInt = true ∧ t ≠ .void then wrap t n else n

/-- The comparisons. -/
def isCompare (op : IrOp) : Bool :=
  op = .eq || op = .ne || op = .lt || op = .ge || op = .le || op = .gt || op = .ult || op = .uge
    || op = .ule || op = .ugt

/-- What an instruction of type `t` computes from the values `xs` of its operands, of the types `ts`.
`other` stands for the instructions that are not about integers. -/
def compute (other : IrOp → IrType → List ℤ → ℤ) (op : IrOp) (t : IrType) (ts : List IrType)
    (xs : List ℤ) : ℤ :=
  let t₁ := ts.getD 0 .void
  let t₂ := ts.getD 1 .void
  let x := xs.getD 0 0
  let y := xs.getD 1 0
  read t <|
    if isUnary op then if t.isInt then spec op t t t (read t x) 0 else other op t xs
    else if isBinary op then if t.isInt then spec op t t t (read t x) (read t y) else other op t xs
    else if isExt op || op = .bitcast then
      if t.isInt && t₁.isInt then spec op t t₁ t₁ x 0 else other op t xs
    else if isCompare op then if t₁.isInt then spec op .bool t₁ t₂ x y else other op t xs
    else if op = .cond then if x ≠ 0 then y else xs.getD 2 0
    else if op = .phi then x
    else other op t xs

/-- The low bits of a value: what `TRUNC` makes of it. -/
def low (type : IrType) (v : ℤ) : ℤ := spec .trunc type type type v 0

/-! ## Low bits -/

theorem toU_modEq (w : ℕ) (n : ℤ) : toU w n ≡ n [ZMOD 2 ^ w] := Int.mod_modEq n (2 ^ w)

theorem toI_modEq (w : ℕ) (n : ℤ) : toI w n ≡ n [ZMOD 2 ^ w] := by
  have h := (Int.mod_modEq (n + 2 ^ (w - 1)) (2 ^ w)).sub_right (2 ^ (w - 1))
  rwa [add_sub_cancel_right] at h

theorem wrap_modEq (t : IrType) (n : ℤ) : wrap t n ≡ n [ZMOD 2 ^ bits t] := by
  unfold wrap
  split
  · exact toI_modEq _ _
  · exact toU_modEq _ _

/-- Numbers with the same low bits have the same value in the type. -/
theorem wrap_eq_iff : wrap t a = wrap t b ↔ a ≡ b [ZMOD 2 ^ bits t] := by
  constructor
  · intro h
    exact ((wrap_modEq t a).symm.trans (by rw [h])).trans (wrap_modEq t b)
  · intro h
    unfold wrap
    split
    · unfold toI
      rw [show (a + 2 ^ (bits t - 1)) % 2 ^ bits t = (b + 2 ^ (bits t - 1)) % 2 ^ bits t from
        h.add_right _]
    · exact h

theorem bits_le (h : type.size ≤ t.size) : bits type ≤ bits t := by
  unfold bits
  omega

theorem modEq_of_le {v w : ℕ} (h : v ≤ w) (hm : a ≡ b [ZMOD 2 ^ w]) : a ≡ b [ZMOD 2 ^ v] :=
  hm.of_dvd (pow_dvd_pow 2 h)

/-- The low bits of a number that was read at a larger type first. -/
theorem wrap_wrap (h : type.size ≤ t.size) (n : ℤ) : wrap type (wrap t n) = wrap type n :=
  wrap_eq_iff.2 (modEq_of_le (bits_le h) (wrap_modEq t n))

theorem wrap_self (t : IrType) (n : ℤ) : wrap t (wrap t n) = wrap t n := wrap_wrap le_rfl n

theorem low_eq (hb : type ≠ .bool) (v : ℤ) : low type v = wrap type v := if_neg hb

theorem read_eq (ht : IsInt t) (n : ℤ) : read t n = wrap t n := if_pos ht

theorem read_read (t : IrType) (n : ℤ) : read t (read t n) = read t n := by
  unfold read
  split_ifs
  · exact wrap_self t n
  · rfl

theorem low_bool (v : ℤ) : low .bool v = if v % 256 = 0 then 0 else 1 := by
  show (if decide (toU 8 v ≠ 0) then (1 : ℤ) else 0) = _
  by_cases h : v % 256 = 0 <;> simp [toU, h]

theorem low_low (type : IrType) (v : ℤ) : low type (low type v) = low type v := by
  by_cases hb : type = .bool
  · subst hb
    rw [low_bool, low_bool]
    by_cases h : v % 256 = 0 <;> simp [h]
  · rw [low_eq hb, low_eq hb, wrap_self]

theorem read_low (hi : IsInt type) (v : ℤ) : read type (low type v) = low type v := by
  rw [read_eq hi]
  by_cases hb : type = .bool
  · subst hb
    rw [low_bool]
    split <;> rfl
  · rw [low_eq hb, wrap_self]

/-! ## Operators that commute with taking the low bits -/

/-- The conditions for the low bits of a result to be the result on the low bits of the operands `x`
and `y`, which are values of the type `t`. -/
def Commutes (type t : IrType) (op : IrOp) (x y : ℤ) : Prop :=
  match op with
  -- the order of the low bits is that of the values, or these do not differ
  | .min | .max => (x ≤ y ↔ low type x ≤ low type y) ∨ low type x = low type y
  | .abs => low type |x| = low type |low type x|
  -- the count is taken modulo the width of the type
  | .shl =>
    low type (x * 2 ^ shift (bits t) y) = low type (low type x * 2 ^ shift (bits type) (low type y))
  | _ => True

/-- When a map commutes with the minimum. -/
theorem min_map_iff {α β : Type} [LinearOrder α] [LinearOrder β] (f : α → β) (x y : α) :
    min (f x) (f y) = f (min x y) ↔ (x ≤ y ↔ f x ≤ f y) ∨ f x = f y := by
  rcases lt_trichotomy x y with h | rfl | h
  · rw [min_eq_left h.le, min_eq_left_iff]
    simp only [h.le, true_iff]
    exact ⟨.inl, fun h => h.elim id le_of_eq⟩
  · simp
  · rw [min_eq_right h.le, min_eq_right_iff]
    simp only [h.not_ge, false_iff, not_le]
    exact le_iff_lt_or_eq.trans (or_congr_right eq_comm)

/-- When a map commutes with the maximum. -/
theorem max_map_iff {α β : Type} [LinearOrder α] [LinearOrder β] (f : α → β) (x y : α) :
    max (f x) (f y) = f (max x y) ↔ (x ≤ y ↔ f x ≤ f y) ∨ f x = f y := by
  rcases lt_trichotomy x y with h | rfl | h
  · rw [max_eq_right h.le, max_eq_right_iff]
    simp only [h.le, true_iff]
    exact ⟨.inl, fun h => h.elim id le_of_eq⟩
  · simp
  · rw [max_eq_left h.le, max_eq_left_iff]
    simp only [h.not_ge, false_iff, not_le]
    exact le_iff_lt_or_eq.trans (or_congr_right eq_comm)

section

variable (hb : type ≠ .bool) (hs : type.size ≤ t.size)
include hb hs

omit hs in
theorem low_modEq (v : ℤ) : low type v ≡ v [ZMOD 2 ^ bits type] := by
  rw [low_eq hb]
  exact wrap_modEq type v

/-- The result in the narrow type is the low bits of the result when the numbers before wrapping agree. -/
theorem wrap_eq_low (h : a ≡ b [ZMOD 2 ^ bits type]) : wrap type a = low type (wrap t b) := by
  rw [low_eq hb, wrap_wrap hs]
  exact wrap_eq_iff.2 h

theorem wrap_eq_low_iff : wrap type a = low type (wrap t b) ↔ low type b = low type a := by
  rw [low_eq hb, low_eq hb, low_eq hb, wrap_wrap hs]
  exact eq_comm

theorem commutes_unary (htb : t ≠ .bool) (hop : isUnary op = true) :
    spec op type type type (low type x) 0 = low type (spec op t t t x 0) ↔ Commutes type t op x y := by
  have hx := low_modEq hb x
  simp only [isUnary, Bool.or_eq_true, decide_eq_true_eq] at hop
  rcases hop with (rfl | rfl) | rfl
  · exact iff_of_true (wrap_eq_low hb hs hx.neg) trivial
  · exact wrap_eq_low_iff hb hs
  · refine iff_of_true ?_ trivial
    show (if type = .bool then _ else wrap type (-low type x - 1))
      = low type (if t = .bool then _ else wrap t (-x - 1))
    rw [if_neg hb, if_neg htb]
    exact wrap_eq_low hb hs (hx.neg.sub_right 1)

/-- An operation on the patterns of the values. -/
theorem ofBits_eq_low {f : ∀ w, BitVec w → BitVec w → BitVec w}
    (hf : ∀ v w (p q : BitVec w), v ≤ w → (f w p q).setWidth v = f v (p.setWidth v) (q.setWidth v)) :
    ofBits type (f (bits type) (BitVec.ofInt _ (low type x)) (BitVec.ofInt _ (low type y)))
      = low type (ofBits t (f (bits t) (BitVec.ofInt _ x) (BitVec.ofInt _ y))) := by
  have hle := bits_le hs
  have hpat : ∀ n, BitVec.ofInt (bits type) (low type n) = (BitVec.ofInt (bits t) n).setWidth (bits type) := by
    intro n
    rw [setWidth_ofInt hle]
    apply BitVec.eq_of_toNat_eq
    rw [BitVec.toNat_ofInt, BitVec.toNat_ofInt]
    push_cast
    rw [show low type n % 2 ^ bits type = n % 2 ^ bits type from low_modEq hb n]
  apply wrap_eq_low hb hs
  rw [hpat, hpat, ← hf _ _ _ _ hle, BitVec.toNat_setWidth]
  push_cast
  exact Int.mod_modEq _ _

theorem commutes_binary (hop : isBinary op = true) :
    spec op type type type (low type x) (low type y) = low type (spec op t t t x y) ↔
      Commutes type t op x y := by
  have hx := low_modEq hb x
  have hy := low_modEq hb y
  simp only [isBinary, Bool.or_eq_true, decide_eq_true_eq] at hop
  rcases hop with (((((((rfl | rfl) | rfl) | rfl) | rfl) | rfl) | rfl) | rfl) | rfl
  · exact iff_of_true (wrap_eq_low hb hs (hx.add hy)) trivial
  · exact iff_of_true (wrap_eq_low hb hs (hx.sub hy)) trivial
  · exact iff_of_true (wrap_eq_low hb hs (hx.mul hy)) trivial
  · exact min_map_iff (low type) x y
  · exact max_map_iff (low type) x y
  · exact iff_of_true (ofBits_eq_low hb hs (f := fun _ p q => p ||| q) fun _ _ _ _ _ => BitVec.setWidth_or) trivial
  · exact iff_of_true (ofBits_eq_low hb hs (f := fun _ p q => p &&& q) fun _ _ _ _ _ => BitVec.setWidth_and) trivial
  · exact iff_of_true (ofBits_eq_low hb hs (f := fun _ p q => p ^^^ q) fun _ _ _ _ _ => BitVec.setWidth_xor) trivial
  · exact wrap_eq_low_iff hb hs

end

/-! ## Extensions and truncations -/

/-- What `ir_check` and the rules of `ir_fold.h` say of the types of an extension or truncation. -/
def ExtTypes (op : IrOp) (t src : IrType) : Prop :=
  IsInt t ∧ IsInt src ∧ if op = .trunc then t.size < src.size else src.size < t.size

/-- The number that an extension or truncation wraps. -/
def extended (op : IrOp) (src : IrType) (x : ℤ) : ℤ :=
  match op with
  | .sext => toI (bits src) x
  | .zext => toU (bits src) x
  | _ => x

theorem extended_modEq (op : IrOp) (src : IrType) (x : ℤ) : extended op src x ≡ x [ZMOD 2 ^ bits src] := by
  unfold extended
  split
  · exact toI_modEq _ _
  · exact toU_modEq _ _
  · exact Int.ModEq.refl x

theorem spec_ext (htb : t ≠ .bool) (hop : isExt op = true) : spec op t src u x y = wrap t (extended op src x) := by
  simp only [isExt, Bool.or_eq_true, decide_eq_true_eq] at hop
  rcases hop with (rfl | rfl) | rfl
  · rfl
  · rfl
  · exact if_neg htb

/-- An extension or truncation of a value that is not narrow, after its opcode is adapted. -/
theorem ext_low (hb : type ≠ .bool) (htb : t ≠ .bool) (hs : type.size ≤ t.size) (hop : isExt op = true)
    (hty : ExtTypes op t src) (x : ℤ) :
    spec (Ctx.extOp type src op) type src src x 0 = low type (spec op t src src x 0) := by
  rw [spec_ext htb hop]
  have hx := extended_modEq op src x
  unfold Ctx.extOp
  split_ifs with heq hgt hne
  · -- the source is as wide as the narrow type
    have hbits : bits type = bits src := by
      unfold bits
      rw [heq]
    show (if type = .bool then _ else wrap type x) = _
    rw [if_neg hb]
    exact wrap_eq_low hb hs (hbits ▸ hx.symm)
  · show (if type = .bool then _ else wrap type x) = _
    rw [if_neg hb]
    exact wrap_eq_low hb hs (modEq_of_le (bits_le (Nat.le_of_lt hgt)) hx.symm)
  all_goals
    -- a smaller source: the opcode is that of an extension already
    have hsize := hty.2.2
    split_ifs at hsize with htrunc
    · omega
  · simp only [isExt, Bool.or_eq_true, decide_eq_true_eq] at hop
    rcases hop with (h | h) | h
    · exact absurd h hne.2
    · exact absurd h hne.1
    · exact absurd h htrunc
  · simp only [isExt, Bool.or_eq_true, decide_eq_true_eq] at hop
    rcases hop with (h | h) | h
    · exact absurd h hne.2
    · exact absurd h hne.1
    · exact absurd h htrunc
  · rw [spec_ext hb hop]
    exact wrap_eq_low hb hs (Int.ModEq.refl _)

/-- An extension of a narrow value. -/
theorem ext_same (hb : type ≠ .bool) (htb : t ≠ .bool) (hs : type.size ≤ t.size) (hop : isExt op = true)
    (hx : wrap type x = x) : x = low type (spec op t type type x 0) := by
  rw [spec_ext htb hop, ← wrap_eq_low hb hs (extended_modEq op type x).symm, hx]

/-- The constant of the narrow type. -/
theorem const_low (hi : IsInt type) (hw : type.size < 8) (hb : type ≠ .bool) (hs : type.size ≤ t.size) (v : Val) :
    valueOf type (narrowVal type v) = low type (valueOf t v) := by
  have hlow : low type (valueOf t v) = valueOf type v := by
    rw [low_eq hb, valueOf, wrap_wrap hs, valueOf]
  rw [hlow]
  obtain ⟨h1, h2⟩ := hi
  cases type <;> simp [IrType.isInt, IrType.size] at h1 h2 hw hb
  all_goals
    simp only [narrowVal, valueOf, wrap, IrType.isSigned, bits, IrType.size, toNat_ofInt, i8, u8, i16, u16, i32, u32,
      toI, toU]
    simp
    try omega

end IrJit.Narrow
