import IrJit.EmitC.Data
import IrJit.Fold.Bitwise

/-!
# EmitC.DataSpec — when a printed statement computes the result of its instruction

`result` is the value of an instruction, `Proper` the condition under which its statement assigns it:
every constant is printed with its own value, no signed C operation overflows, no count reaches the
width of the type, and the overflow instruction is one of the narrow ones.
-/

namespace IrJit.EmitC

open Fold

/-- The value of an instruction with operands `x`, `y`, `z`. -/
def result (I : DataInsn) (x y z : ℤ) : ℤ :=
  match I.op with
  | .cond => if x ≠ 0 then y else z
  | .ctpop => popcount (BitVec.ofInt (bits I.a.type) x)
  | .ctlz => leadingZeros (BitVec.ofInt (bits I.a.type) x)
  | .cttz => trailingZeros (BitVec.ofInt (bits I.a.type) x)
  | .addOv => spec .add I.type I.a.type I.b.type x y
  | .subOv => spec .sub I.type I.a.type I.b.type x y
  | .mulOv => spec .mul I.type I.a.type I.b.type x y
  | op => spec op I.type I.a.type I.b.type x y

/-- The operation of an overflow instruction. -/
def overflowOp : IrOp → Option BinOp
  | .addOv => some .add
  | .subOv => some .sub
  | .mulOv => some .mul
  | _ => none

/-- The opcodes the C back end prints as data instructions, with their types. -/
def DataTyped (I : DataInsn) : Prop :=
  IsInt I.type ∧ IsInt I.a.type ∧
    match I.op with
    | .eq | .ne | .lt | .ge | .le | .gt | .ult | .uge | .ule | .ugt =>
      I.type = .bool ∧ I.b.type = I.a.type
    | .add | .sub | .mul =>
      I.type ≠ .bool ∧ IsInt I.b.type ∧ Compat I.type I.a.type ∧ Compat I.type I.b.type
    | .div | .mod | .shl | .shr | .sar | .rol | .ror =>
      I.type ≠ .bool ∧ I.a.type = I.type ∧ I.b.type = I.type
    | .or | .and | .xor | .min | .max => I.a.type = I.type ∧ I.b.type = I.type
    | .neg | .abs | .ctpop | .ctlz | .cttz => I.type ≠ .bool ∧ I.a.type = I.type
    | .not => I.a.type = I.type
    | .cond => I.b.type = I.type ∧ I.c.type = I.type
    | .sext | .zext => I.a.type.size < I.type.size
    | .trunc => I.type.size < I.a.type.size
    | .addOv | .subOv | .mulOv =>
      I.type ≠ .bool ∧ I.a.type = I.type ∧ I.b.type = I.type ∧ I.overflow ≠ I.dst
    | _ => False

def arity : IrOp → ℕ
  | .cond => 3
  | .neg | .abs | .not | .ctpop | .ctlz | .cttz | .sext | .zext | .trunc => 1
  | _ => 2

/-- A condition on the operands the opcode has. -/
def ForOperands (I : DataInsn) (P : Arg → Prop) : Prop :=
  P I.a ∧ (2 ≤ arity I.op → P I.b) ∧ (3 ≤ arity I.op → P I.c)

/-- The operands are values of their types, for which the operation is defined. -/
def OpDefined (I : DataInsn) (env : Name → ℤ) : Prop :=
  ForOperands I (fun a => InRange a.type (a.value env)) ∧
    match I.op with
    | .div =>
      I.b.value env ≠ 0 ∧
        ¬(I.a.value env = -2 ^ (bits I.type - 1) ∧ I.b.value env = -1)
    | .mod => I.b.value env ≠ 0
    | .ctlz | .cttz => I.a.value env ≠ 0
    | _ => True

/-! ## The condition -/

/-- The constant is printed as an expression with its value. -/
def Printable : Arg → Prop
  | .const t n => (t = .char → 0 ≤ n) ∧ (t = .u64 → n < 2 ^ 63) ∧ (t = .i64 → n ≠ -2 ^ 63)
  | .var _ _ => True

/-- The C type of the text of an operand. -/
def Arg.ctype (a : Arg) : IrType := (typeOf (emitArg a)).getD .void

def Arg.unsignedType (a : Arg) : IrType :=
  if a.type.isSigned then unsignedOf a.type.size else a.ctype

def Arg.signedType (a : Arg) : IrType :=
  if a.type.isSigned then a.ctype else signedOf a.type.size

/-- A result `n` of C type `u` is good for a variable of type `t`: it does not overflow, or it wraps
around above the width of `t`. -/
def Fits (t u : IrType) (n : ℤ) : Prop := InRange u n ∨ (u.isSigned = false ∧ bits t ≤ bits u)

/-- A shift to the left of a value `x` of C type `u`, for a variable of type `t`. -/
def ShlFits (t u : IrType) (x : ℤ) (k : ℕ) : Prop :=
  k < bits (promote u) ∧ Fits t (promote u) (x * 2 ^ k)

/-- The statement of the instruction assigns its result. -/
def Proper (I : DataInsn) (env : Name → ℤ) : Prop :=
  let x := I.a.value env
  let y := I.b.value env
  let w := bits I.a.type
  let u := common I.a.ctype I.b.ctype
  ForOperands I Printable ∧
    match I.op with
    | .add => Fits I.type u (x + y)
    | .sub => Fits I.type u (x - y)
    | .mul => Fits I.type u (x * y)
    | .mod => u.isSigned = true → ¬(x = -2 ^ (bits u - 1) ∧ y = -1)
    | .neg => I.a.startsWithMinus = false ∧ Fits I.type (promote I.a.ctype) (-x)
    | .not => I.type ≠ .bool → Fits I.type (promote I.a.ctype) (-x - 1)
    | .abs =>
      I.a.type.isSigned = true →
        I.a.startsWithMinus = false ∧ (x < 0 → InRange (promote I.a.ctype) (-x))
    | .shl =>
      0 ≤ y ∧ y < w ∧ ShlFits I.type I.a.ctype x y.toNat ∧
        ((promote I.a.ctype).isSigned = true → 0 ≤ x)
    | .shr => 0 ≤ y ∧ y < w ∧ y < bits (promote I.a.unsignedType)
    | .sar => 0 ≤ y ∧ y < w ∧ y < bits (promote I.a.signedType)
    | .rol =>
      0 ≤ y ∧ y < w ∧ ShlFits I.type I.a.unsignedType (toU w x) y.toNat ∧
        w - y < bits (promote I.a.unsignedType)
    | .ror =>
      0 ≤ y ∧ y < w ∧ ShlFits I.type I.a.unsignedType (toU w x) (w - y).toNat ∧
        y < bits (promote I.a.unsignedType)
    | .ctpop => 32 ≤ w ∨ 0 ≤ x
    | .ctlz => 32 ≤ w ∨ x < 0
    | .addOv => w < 32 ∧ I.a ≠ .var I.a.type I.dst ∧ I.b ≠ .var I.b.type I.dst
    | .subOv => w < 32 ∧ I.a ≠ .var I.a.type I.dst ∧ I.b ≠ .var I.b.type I.dst
    | .mulOv =>
      w < 32 ∧ I.a ≠ .var I.a.type I.dst ∧ I.b ≠ .var I.b.type I.dst ∧ InRange .i32 (x * y)
    | _ => True

/-- The statements assign the result to the variable of the instruction, and for an overflow
instruction the flag to the variable of its `OVERFLOW`. -/
def Assigns (I : DataInsn) (env : Name → ℤ) : Prop :=
  ∃ env', execAll env (emitData I) = some env' ∧
    env' (.d I.dst) = result I (I.a.value env) (I.b.value env) (I.c.value env) ∧
    ∀ op, overflowOp I.op = some op → (env' (.d I.overflow) = 0 ↔
      InRange I.type (exact op (I.a.value env) (I.b.value env))) ∧
      (env' (.d I.overflow) = 0 ∨ env' (.d I.overflow) = 1)

/-! ## Types and conversions -/

variable {t u : IrType} {x y : ℤ}

theorem promote_cases (t : IrType) :
    promote t = .i32 ∨ promote t = .u32 ∨ promote t = .i64 ∨ promote t = .u64 := by
  cases t <;> simp [promote]

theorem isInt_promote (t : IrType) : IsInt (promote t) := by
  rcases promote_cases t with h | h | h | h <;> rw [h] <;> exact ⟨rfl, by simp⟩

theorem promote_ne_bool (t : IrType) : promote t ≠ .bool := by
  rcases promote_cases t with h | h | h | h <;> rw [h] <;> simp

theorem convert_promote (t : IrType) (n : ℤ) : convert (promote t) n = wrap (promote t) n :=
  if_neg (promote_ne_bool t)

theorem inRange_promote (ht : IsInt t) (hx : InRange t x) : InRange (promote t) x := by
  obtain ⟨h1, h2⟩ := ht
  cases t <;> simp [IrType.isInt] at h1 h2 <;>
    simp [InRange, promote, IrType.isSigned, bits, IrType.size] at hx ⊢ <;> omega

theorem convert_promote_self (ht : IsInt t) (hx : InRange t x) : convert (promote t) x = x := by
  rw [convert_promote]
  exact wrap_eq_self (isInt_promote t) (inRange_promote ht hx)

theorem common_cases (t u : IrType) : ∃ v, common t u = promote v := by
  unfold common
  dsimp only
  split_ifs
  · exact ⟨u, rfl⟩
  · exact ⟨t, rfl⟩
  · exact ⟨u, rfl⟩
  · exact ⟨t, rfl⟩

/-- The conversion to a signed common type keeps the value. -/
theorem inRange_common_of_signed (hx : InRange (promote t) x)
    (hs : (common t u).isSigned = true) : InRange (common t u) x := by
  unfold common at hs ⊢
  dsimp only at hs ⊢
  rcases promote_cases t with h | h | h | h <;> rcases promote_cases u with k | k | k | k <;>
    rw [h] at hx <;> rw [h, k] at hs ⊢ <;>
    simp [IrType.size, IrType.isSigned] at hs ⊢ <;>
    simp [InRange, IrType.isSigned, bits, IrType.size] at hx ⊢ <;> omega

/-- So does the conversion of a value that is not negative. -/
theorem inRange_common_of_nonneg (hx : InRange (promote t) x) (h0 : 0 ≤ x) :
    InRange (common t u) x := by
  unfold common
  dsimp only
  rcases promote_cases t with h | h | h | h <;> rcases promote_cases u with k | k | k | k <;>
    rw [h] at hx <;> rw [h, k] <;>
    simp [IrType.size, IrType.isSigned] <;>
    simp [InRange, IrType.isSigned, bits, IrType.size] at hx ⊢ <;> omega

theorem common_comm (t u : IrType) : common t u = common u t := by
  unfold common
  dsimp only
  rcases promote_cases t with h | h | h | h <;> rcases promote_cases u with k | k | k | k <;>
    rw [h, k] <;> rfl

theorem common_signed (ht : (promote t).isSigned = true) (hu : (promote u).isSigned = true) :
    (common t u).isSigned = true := by
  unfold common
  dsimp only
  split_ifs <;> assumption

/-! ## Operands -/

/-- The expression `e` prints a value `x` of the IR type `t`, with the C type `u`. -/
structure Shown (env : Name → ℤ) (e : CExpr) (t u : IrType) (x : ℤ) : Prop where
  eval : eval env e = some (u, x)
  typeOf : typeOf e = some u
  isInt : IsInt t
  isInt_c : IsInt u
  inRange : InRange t x
  inRange_c : InRange u x
  signed : t.isSigned = true → (promote u).isSigned = true
  nonneg : t.isSigned = false → 0 ≤ x

variable {env : Name → ℤ} {e f : CExpr} {v : IrType}

theorem nonneg_of_unsigned (hx : InRange t x) (hs : t.isSigned = false) : 0 ≤ x := by
  unfold InRange at hx
  rw [hs] at hx
  split_ifs at hx
  · exact hx.1
  · contradiction
  · exact hx.1

theorem shown_lit (ht : IsInt t) (hx : InRange t x) (hu : u = .i32 ∨ u = .i64)
    (hxu : InRange u x) : Shown env (.lit u x) t u x where
  eval := rfl
  typeOf := rfl
  isInt := ht
  isInt_c := by rcases hu with rfl | rfl <;> exact ⟨rfl, by simp⟩
  inRange := hx
  inRange_c := hxu
  signed _ := by rcases hu with rfl | rfl <;> rfl
  nonneg := nonneg_of_unsigned hx

theorem decimal_cases (h0 : 0 ≤ x) (h1 : x < 2 ^ 63) :
    ∃ u, (u = .i32 ∨ u = .i64) ∧ decimal x = .lit u x ∧ InRange u x ∧ InRange u (-x) := by
  unfold decimal
  by_cases h : x < 2 ^ 31
  · refine ⟨.i32, Or.inl rfl, if_pos h, ?_, ?_⟩ <;>
      simp [InRange, IrType.isSigned, bits, IrType.size] <;> omega
  · rw [if_neg h, if_pos h1]
    refine ⟨.i64, Or.inr rfl, rfl, ?_, ?_⟩ <;>
      simp [InRange, IrType.isSigned, bits, IrType.size] <;> omega

theorem shown_decimal (ht : IsInt t) (hx : InRange t x) (h0 : 0 ≤ x) (h1 : x < 2 ^ 63) :
    ∃ u, Shown env (decimal x) t u x := by
  obtain ⟨u, hu, heq, hxu, -⟩ := decimal_cases h0 h1
  rw [heq]
  exact ⟨u, shown_lit ht hx hu hxu⟩

theorem shown_negative (ht : IsInt t) (hs : t.isSigned = true) (hx : InRange t x) (h0 : x < 0)
    (h1 : x ≠ -2 ^ 63) : ∃ u, Shown env (.neg (decimal (-x))) t u x := by
  have hlow : -2 ^ 63 ≤ x := by
    obtain ⟨h2, h3⟩ := ht
    cases t <;> simp [IrType.isSigned] at hs <;>
      simp [InRange, IrType.isSigned, bits, IrType.size] at hx <;> omega
  obtain ⟨u, hu, heq, hxu, hnu⟩ := decimal_cases (x := -x) (by omega) (by omega)
  rw [neg_neg] at hnu
  refine ⟨u, ?_, ?_, ht, ?_, hx, hnu, ?_, ?_⟩
  · rw [heq]
    rcases hu with rfl | rfl
    · rw [EmitC.eval, EmitC.eval]
      show arith .i32 (-convert (promote .i32) (-x)) = _
      rw [convert_promote_self ⟨rfl, by simp⟩ hxu, neg_neg]
      exact if_pos (by simpa [InRange, IrType.isSigned] using hnu)
    · rw [EmitC.eval, EmitC.eval]
      show arith .i64 (-convert (promote .i64) (-x)) = _
      rw [convert_promote_self ⟨rfl, by simp⟩ hxu, neg_neg]
      exact if_pos (by simpa [InRange, IrType.isSigned] using hnu)
  · rw [heq]
    rcases hu with rfl | rfl <;> rfl
  · rcases hu with rfl | rfl <;> exact ⟨rfl, by simp⟩
  · intro _
    rcases hu with rfl | rfl <;> rfl
  · intro hns
    rw [hs] at hns
    cases hns

theorem shown_hexadecimal (hx : InRange .addr x) : ∃ u, Shown env (hexadecimal x) .addr u x := by
  have hb : 0 ≤ x ∧ x < 2 ^ 64 := by
    simpa [InRange, IrType.isSigned, bits, IrType.size] using hx
  have key : ∀ u, IsInt u → InRange u x → Shown env (.lit u x) .addr u x := fun u hi hr =>
    ⟨rfl, rfl, ⟨rfl, by simp⟩, hi, hx, hr, fun h => absurd h (by simp [IrType.isSigned]),
      fun _ => hb.1⟩
  unfold hexadecimal
  split_ifs
  · exact ⟨_, key .i32 ⟨rfl, by simp⟩ (by simp [InRange, IrType.isSigned, bits, IrType.size]; omega)⟩
  · exact ⟨_, key .u32 ⟨rfl, by simp⟩ (by simp [InRange, IrType.isSigned, bits, IrType.size]; omega)⟩
  · exact ⟨_, key .i64 ⟨rfl, by simp⟩ (by simp [InRange, IrType.isSigned, bits, IrType.size]; omega)⟩
  · exact ⟨_, key .u64 ⟨rfl, by simp⟩ (by simp [InRange, IrType.isSigned, bits, IrType.size]; omega)⟩

theorem shown_const (ht : IsInt t) (hx : InRange t x) (hp : Printable (.const t x)) :
    ∃ u, Shown env (printConst t x) t u x := by
  obtain ⟨hchar, hu64, hi64⟩ := hp
  by_cases haddr : t = .addr
  · subst haddr
    unfold printConst
    dsimp only
    split_ifs with h0
    · exact shown_hexadecimal hx
    · obtain rfl : x = 0 := by omega
      exact shown_decimal ht hx le_rfl (by norm_num)
  by_cases hc : t = .char
  · subst hc
    have h0 := hchar rfl
    refine ⟨.i32, ?_⟩
    unfold printConst
    dsimp only
    rw [if_neg (by omega)]
    exact shown_lit ht hx (Or.inl rfl) (inRange_promote ht hx)
  have hlow : x ≠ -2 ^ 63 ∧ x < 2 ^ 63 := by
    obtain ⟨h2, h3⟩ := ht
    cases t <;> simp [IrType.isInt] at h2 h3 haddr hc <;>
      simp [InRange, IrType.isSigned, bits, IrType.size] at hx hu64 hi64 <;> omega
  by_cases hs : t.isSigned = true
  · have heq : printConst t x = if x < 0 then .neg (decimal (-x)) else decimal x := by
      cases t <;> simp [IrType.isSigned] at hs hc <;> rfl
    rw [heq]
    split_ifs with h0
    · exact shown_negative ht hs hx h0 hlow.1
    · exact shown_decimal ht hx (by omega) hlow.2
  · have h0 := nonneg_of_unsigned hx (by simpa using hs)
    have heq : printConst t x = decimal x := by
      obtain ⟨h2, h3⟩ := ht
      cases t <;> simp [IrType.isInt, IrType.isSigned] at h2 h3 hs haddr <;> rfl
    rw [heq]
    exact shown_decimal ht hx h0 hlow.2

theorem shown_arg {a : Arg} (ht : IsInt a.type) (hx : InRange a.type (a.value env))
    (hp : Printable a) : Shown env (emitArg a) a.type a.ctype (a.value env) := by
  cases a with
  | const t n =>
    obtain ⟨u, hu⟩ : ∃ u, Shown env (printConst t n) t u n := shown_const ht hx hp
    have hc : (Arg.const t n).ctype = u := by
      show (typeOf (printConst t n)).getD .void = u
      rw [hu.typeOf]
      rfl
    rw [hc]
    exact hu
  | var t r =>
    refine ⟨rfl, rfl, ht, ht, hx, hx, fun hs => ?_, nonneg_of_unsigned hx⟩
    cases t <;> first | rfl | cases hs

/-! ## Binary operations -/

/-- The common type of two operands of one IR type keeps their values. -/
theorem Shown.inRange_common (h : Shown env e t u x) (k : Shown env f t v y) :
    InRange (common u v) x := by
  by_cases hs : t.isSigned = true
  · exact inRange_common_of_signed (inRange_promote h.isInt_c h.inRange_c)
      (common_signed (h.signed hs) (k.signed hs))
  · exact inRange_common_of_nonneg (inRange_promote h.isInt_c h.inRange_c)
      (h.nonneg (by simpa using hs))

theorem convert_common (u v : IrType) (n : ℤ) : convert (common u v) n = wrap (common u v) n := by
  obtain ⟨p, hp⟩ := common_cases u v
  rw [hp, convert_promote]

theorem isInt_common (u v : IrType) : IsInt (common u v) := by
  obtain ⟨p, hp⟩ := common_cases u v
  rw [hp]
  exact isInt_promote p

theorem Shown.convert_common (h : Shown env e t u x) (k : Shown env f t v y) :
    convert (common u v) x = x := by
  rw [EmitC.convert_common]
  exact wrap_eq_self (isInt_common u v) (h.inRange_common k)

theorem Shown.convert_common' (h : Shown env e t u x) (k : Shown env f t v y) :
    convert (common u v) y = y := by
  rw [common_comm]
  exact k.convert_common h

theorem Shown.eval_bin (h : Shown env e t u x) {t' : IrType} (k : Shown env f t' v y)
    (op : BinOp) : EmitC.eval env (.bin op e f) = binary op (u, x) (v, y) := by
  rw [EmitC.eval, h.eval, k.eval]
  rfl

/-- Comparisons of values of one type. -/
theorem eval_compare (h : Shown env e t u x) (k : Shown env f t v y) (op : BinOp)
    (rel : ℤ → ℤ → Bool) (hop : ∀ a b : IrType × ℤ, binary op a b =
      truth (rel (convert (common a.1 b.1) a.2) (convert (common a.1 b.1) b.2))) :
    eval env (.bin op e f) = some (.i32, if rel x y then 1 else 0) := by
  rw [h.eval_bin k, hop]
  dsimp only
  rw [h.convert_common k, h.convert_common' k]
  rfl

theorem wrap_modEq (t : IrType) (n : ℤ) : wrap t n ≡ n [ZMOD 2 ^ bits t] := by
  unfold wrap toI toU
  split_ifs
  · have h := Int.mod_modEq (n + 2 ^ (bits t - 1)) (2 ^ bits t)
    simpa using h.sub_right (2 ^ (bits t - 1))
  · exact Int.mod_modEq n _

theorem wrap_congr {m n : ℤ} (h : m ≡ n [ZMOD 2 ^ bits t]) : wrap t m = wrap t n := by
  unfold wrap toI toU
  split_ifs
  · have h1 : (m + 2 ^ (bits t - 1)) % 2 ^ bits t = (n + 2 ^ (bits t - 1)) % 2 ^ bits t :=
      h.add_right _
    rw [h1]
  · exact h

theorem wrap_wrap (hle : bits t ≤ bits u) (n : ℤ) : wrap t (wrap u n) = wrap t n :=
  wrap_congr ((wrap_modEq u n).of_dvd (pow_dvd_pow 2 hle))

/-- Arithmetic in a C type `u` for a variable of type `t`. -/
theorem arith_fits (hu : IsInt u) {m n : ℤ} (hm : m ≡ n [ZMOD 2 ^ bits u])
    (hs : u.isSigned = true → m = n) (hf : Fits t u n) :
    ∃ r, arith u m = some (u, r) ∧ wrap t r = wrap t n := by
  unfold arith
  by_cases hsu : u.isSigned = true
  · have hr : InRange u n := by
      rcases hf with h | ⟨h, -⟩
      · exact h
      · rw [hsu] at h
        cases h
    rw [if_pos hsu, hs hsu, if_pos ((inRange_signed hsu n).1 hr)]
    exact ⟨n, rfl, rfl⟩
  · rw [if_neg hsu, wrap_congr hm]
    refine ⟨_, rfl, ?_⟩
    rcases hf with h | ⟨-, h⟩
    · rw [wrap_eq_self hu h]
    · exact wrap_wrap h n

/-- A ring operation on two operands. -/
theorem eval_arith {g : ℤ → ℤ → ℤ} (hg : Ring2 g) {op : BinOp}
    (hop : ∀ a b : IrType × ℤ, binary op a b =
      arith (common a.1 b.1) (g (convert (common a.1 b.1) a.2) (convert (common a.1 b.1) b.2)))
    {t₁ t₂ : IrType} (h : Shown env e t₁ u x) (k : Shown env f t₂ v y)
    (hf : Fits t (common u v) (g x y)) :
    ∃ r, eval env (.bin op e f) = some (common u v, r) ∧ wrap t r = wrap t (g x y) := by
  rw [h.eval_bin k, hop]
  dsimp only
  have hm : g (convert (common u v) x) (convert (common u v) y) ≡ g x y [ZMOD 2 ^ bits (common u v)] := by
    rw [EmitC.convert_common, EmitC.convert_common]
    exact hg.modEq (wrap_modEq _ _) (wrap_modEq _ _)
  refine arith_fits (isInt_common u v) hm (fun hs => ?_) hf
  have hx : convert (common u v) x = x := by
    rw [EmitC.convert_common]
    exact wrap_eq_self (isInt_common u v)
      (inRange_common_of_signed (inRange_promote h.isInt_c h.inRange_c) hs)
  have hy : convert (common u v) y = y := by
    rw [EmitC.convert_common]
    refine wrap_eq_self (isInt_common u v) ?_
    rw [common_comm] at hs ⊢
    exact inRange_common_of_signed (inRange_promote k.isInt_c k.inRange_c) hs
  rw [hx, hy]

/-! ## Statements -/

theorem assigns_of_eval {I : DataInsn} {r : ℤ} (hov : overflowOp I.op = none)
    (heval : eval env (emitExpr I) = some (u, r))
    (hr : convert I.type r = result I (I.a.value env) (I.b.value env) (I.c.value env)) :
    Assigns I env := by
  have hdata : emitData I = [.assign (.d I.dst) I.type (emitExpr I)] := by
    unfold emitData
    unfold overflowOp at hov
    split <;> simp_all
  refine ⟨Function.update env (.d I.dst) (convert I.type r), ?_, ?_, ?_⟩
  · rw [hdata]
    simp [execAll, exec, heval]
  · rw [Function.update_self, hr]
  · intro op hop
    rw [hov] at hop
    cases hop

end IrJit.EmitC
