import IrJit.EmitC.DataSpec
import IrJit.Fold.Folding

/-!
# EmitC.DataSound — the printed statements compute the results

One lemma for each opcode, then the theorem for all of them.
-/

namespace IrJit.EmitC

open Fold

variable {env : Name → ℤ} {I : DataInsn}

/-! ## The operands of an instruction -/

theorem shown_a (hT : DataTyped I) (hD : OpDefined I env) (hP : Proper I env) :
    Shown env (emitArg I.a) I.a.type I.a.ctype (I.a.value env) :=
  shown_arg hT.2.1 hD.1.1 hP.1.1

theorem shown_b (hi : IsInt I.b.type) (har : 2 ≤ arity I.op) (hD : OpDefined I env)
    (hP : Proper I env) : Shown env (emitArg I.b) I.b.type I.b.ctype (I.b.value env) :=
  shown_arg hi (hD.1.2.1 har) (hP.1.2.1 har)

theorem shown_c (hi : IsInt I.c.type) (har : 3 ≤ arity I.op) (hD : OpDefined I env)
    (hP : Proper I env) : Shown env (emitArg I.c) I.c.type I.c.ctype (I.c.value env) :=
  shown_arg hi (hD.1.2.2 har) (hP.1.2.2 har)

theorem convert_bool (b : Bool) : convert .bool (if b then 1 else 0) = if b then 1 else 0 := by
  cases b <;> rfl

/-! ## Comparisons -/

section Compare

variable (hT : DataTyped I) (hD : OpDefined I env) (hP : Proper I env)

include hT hD hP

/-- A signed comparison, or one of an unsigned type. -/
theorem assigns_compare (op : BinOp) {rel : ℤ → ℤ → Bool}
    (hsem : ∀ a b : IrType × ℤ, binary op a b =
      truth (rel (convert (common a.1 b.1) a.2) (convert (common a.1 b.1) b.2)))
    (har : arity I.op = 2) (hov : overflowOp I.op = none) (ht : I.type = .bool)
    (hb : I.b.type = I.a.type) (hemit : emitExpr I = .bin op (emitArg I.a) (emitArg I.b))
    (hres : ∀ x y z, result I x y z = if rel x y then 1 else 0) : Assigns I env := by
  have ha := shown_a hT hD hP
  have hib : IsInt I.b.type := by
    rw [hb]
    exact hT.2.1
  have hb' := shown_b hib (by omega) hD hP
  rw [hb] at hb'
  refine assigns_of_eval hov (u := .i32) (r := if rel (I.a.value env) (I.b.value env) then 1 else 0)
    ?_ ?_
  · rw [hemit]
    exact eval_compare ha hb' op rel hsem
  · rw [ht, convert_bool, hres]

end Compare

theorem isInt_unsignedOf (n : ℕ) : IsInt (unsignedOf n) := by
  unfold unsignedOf
  split <;> exact ⟨rfl, by simp⟩

theorem isInt_signedOf (n : ℕ) : IsInt (signedOf n) := by
  unfold signedOf
  split <;> exact ⟨rfl, by simp⟩

theorem bits_unsignedOf {t : IrType} (ht : IsInt t) : bits (unsignedOf t.size) = bits t := by
  obtain ⟨h1, h2⟩ := ht
  cases t <;> simp [IrType.isInt] at h1 h2 <;> rfl

theorem bits_signedOf {t : IrType} (ht : IsInt t) : bits (signedOf t.size) = bits t := by
  obtain ⟨h1, h2⟩ := ht
  cases t <;> simp [IrType.isInt] at h1 h2 <;> rfl

theorem unsignedOf_unsigned (n : ℕ) : (unsignedOf n).isSigned = false := by
  unfold unsignedOf
  split <;> rfl

theorem signedOf_signed (n : ℕ) : (signedOf n).isSigned = true := by
  unfold signedOf
  split <;> rfl

theorem unsignedOf_ne_bool (n : ℕ) : unsignedOf n ≠ .bool := by
  unfold unsignedOf
  split <;> simp

theorem signedOf_ne_bool (n : ℕ) : signedOf n ≠ .bool := by
  unfold signedOf
  split <;> simp

theorem wrap_unsignedOf {t : IrType} (ht : IsInt t) (n : ℤ) :
    wrap (unsignedOf t.size) n = toU (bits t) n := by
  unfold wrap
  rw [unsignedOf_unsigned, bits_unsignedOf ht]
  rfl

theorem wrap_signedOf {t : IrType} (ht : IsInt t) (n : ℤ) :
    wrap (signedOf t.size) n = toI (bits t) n := by
  unfold wrap
  rw [signedOf_signed, bits_signedOf ht]
  rfl

/-- The IR type of the text of `ir_emit_unsigned_cast`. -/
def toUnsigned (t : IrType) : IrType := if t.isSigned then unsignedOf t.size else t

def toSigned (t : IrType) : IrType := if t.isSigned then t else signedOf t.size

theorem toU_self {t : IrType} {x : ℤ} (ht : IsInt t) (hs : t.isSigned = false) (hx : InRange t x) :
    toU (bits t) x = x := by
  have h := wrap_eq_self ht hx
  unfold wrap at h
  rwa [hs] at h

theorem toI_self {t : IrType} {x : ℤ} (ht : IsInt t) (hs : t.isSigned = true) (hx : InRange t x) :
    toI (bits t) x = x := by
  have h := wrap_eq_self ht hx
  unfold wrap at h
  rwa [if_pos hs] at h

theorem shown_cast {e : CExpr} {t u v : IrType} {x : ℤ} (h : Shown env e t u x) (hv : IsInt v)
    (hb : v ≠ .bool) : Shown env (.cast v e) v v (wrap v x) where
  eval := by
    rw [EmitC.eval, h.eval]
    simp [convert, hb]
  typeOf := rfl
  isInt := hv
  isInt_c := hv
  inRange := inRange_wrap hv hb x
  inRange_c := inRange_wrap hv hb x
  signed hs := by cases v <;> first | rfl | cases hs
  nonneg := nonneg_of_unsigned (inRange_wrap hv hb x)

theorem shown_unsignedCast {a : Arg} (h : Shown env (emitArg a) a.type a.ctype (a.value env)) :
    Shown env (unsignedCast a.type (emitArg a)) (toUnsigned a.type) a.unsignedType
      (toU (bits a.type) (a.value env)) := by
  unfold unsignedCast toUnsigned Arg.unsignedType
  by_cases hs : a.type.isSigned = true
  · rw [if_pos hs, if_pos hs, if_pos hs, ← wrap_unsignedOf h.isInt]
    exact shown_cast h (isInt_unsignedOf _) (unsignedOf_ne_bool _)
  · rw [if_neg hs, if_neg hs, if_neg hs, toU_self h.isInt (by simpa using hs) h.inRange]
    exact h

theorem shown_signedCast {a : Arg} (h : Shown env (emitArg a) a.type a.ctype (a.value env)) :
    Shown env (signedCast a.type (emitArg a)) (toSigned a.type) a.signedType
      (toI (bits a.type) (a.value env)) := by
  unfold signedCast toSigned Arg.signedType
  by_cases hs : a.type.isSigned = true
  · rw [if_pos hs, if_pos hs, if_pos hs, toI_self h.isInt hs h.inRange]
    exact h
  · rw [if_neg hs, if_neg hs, if_neg hs, ← wrap_signedOf h.isInt]
    exact shown_cast h (isInt_signedOf _) (signedOf_ne_bool _)

section Unsigned

variable (hT : DataTyped I) (hD : OpDefined I env) (hP : Proper I env)

include hT hD hP

theorem assigns_unsigned (op : BinOp) (rel : ℤ → ℤ → Bool)
    (hsem : ∀ a b : IrType × ℤ, binary op a b =
      truth (rel (convert (common a.1 b.1) a.2) (convert (common a.1 b.1) b.2)))
    (har : arity I.op = 2) (hov : overflowOp I.op = none) (ht : I.type = .bool)
    (hb : I.b.type = I.a.type)
    (hemit : emitExpr I =
      .bin op (unsignedCast I.a.type (emitArg I.a)) (unsignedCast I.a.type (emitArg I.b)))
    (hres : ∀ x y z, result I x y z =
      if rel (toU (bits I.a.type) x) (toU (bits I.b.type) y) then 1 else 0) : Assigns I env := by
  have ha := shown_unsignedCast (shown_a hT hD hP)
  have hib : IsInt I.b.type := by
    rw [hb]
    exact hT.2.1
  have hb' := shown_unsignedCast (shown_b hib (by omega) hD hP)
  rw [hb] at hb' hres
  refine assigns_of_eval hov (u := .i32) (r := if rel (toU (bits I.a.type) (I.a.value env))
    (toU (bits I.a.type) (I.b.value env)) then 1 else 0) ?_ ?_
  · rw [hemit]
    exact eval_compare ha hb' op rel hsem
  · rw [ht, convert_bool, hres]

/-! ## Arithmetic -/

theorem assigns_arith (op : BinOp) {g : ℤ → ℤ → ℤ} (hg : Ring2 g)
    (hsem : ∀ a b : IrType × ℤ, binary op a b =
      arith (common a.1 b.1) (g (convert (common a.1 b.1) a.2) (convert (common a.1 b.1) b.2)))
    (har : arity I.op = 2) (hov : overflowOp I.op = none) (ht : I.type ≠ .bool)
    (hib : IsInt I.b.type) (hemit : emitExpr I = .bin op (emitArg I.a) (emitArg I.b))
    (hf : Fits I.type (common I.a.ctype I.b.ctype) (g (I.a.value env) (I.b.value env)))
    (hres : ∀ x y z, result I x y z = wrap I.type (g x y)) : Assigns I env := by
  have ha := shown_a hT hD hP
  have hb := shown_b hib (by omega) hD hP
  obtain ⟨r, hr, hwrap⟩ := eval_arith hg hsem ha hb hf
  refine assigns_of_eval hov (by rw [hemit]; exact hr) ?_
  rw [hres, ← hwrap]
  exact if_neg ht

/-- Both operands of a division keep their values in the common type. -/
theorem eval_division (op : BinOp) (har : arity I.op = 2) (hb : I.b.type = I.a.type) :
    eval env (.bin op (emitArg I.a) (emitArg I.b)) =
        binary op (I.a.ctype, I.a.value env) (I.b.ctype, I.b.value env) ∧
      convert (common I.a.ctype I.b.ctype) (I.a.value env) = I.a.value env ∧
      convert (common I.a.ctype I.b.ctype) (I.b.value env) = I.b.value env ∧
      InRange (common I.a.ctype I.b.ctype) (I.a.value env) ∧
      InRange (common I.a.ctype I.b.ctype) (I.b.value env) := by
  have ha := shown_a hT hD hP
  have hib : IsInt I.b.type := by
    rw [hb]
    exact hT.2.1
  have hb' := shown_b hib (by omega) hD hP
  rw [hb] at hb'
  refine ⟨ha.eval_bin hb' op, ha.convert_common hb', ha.convert_common' hb', ha.inRange_common hb', ?_⟩
  rw [common_comm]
  exact hb'.inRange_common ha

end Unsigned

/-- The quotient of two values of a C type does not overflow. -/
theorem arith_tdiv {u : IrType} {x y : ℤ} (hu : IsInt u) (hx : InRange u x) (hy : InRange u y)
    (hb : u ≠ .bool) (h : u.isSigned = true → ¬(x = -2 ^ (bits u - 1) ∧ y = -1)) :
    arith u (x.tdiv y) = some (u, x.tdiv y) := by
  unfold arith
  by_cases hs : u.isSigned = true
  · rw [inRange_signed hs] at hx
    rw [if_pos hs, if_pos (tdiv_bounds hx.1 hx.2 (h hs))]
  · have hs' : u.isSigned = false := by simpa using hs
    rw [if_neg hs]
    have hx' := (inRange_unsigned hs' hb x).1 hx
    have hy' := (inRange_unsigned hs' hb y).1 hy
    rw [wrap_eq_self hu ((inRange_unsigned hs' hb _).2 (tdiv_bounds_nonneg hx'.1 hx'.2 hy'.1))]

/-- The minimum of `int32_t` as a constant of a wider type is a `long`. -/
theorem ctype_min {a : Arg} (ht : a.type = .i64) (hx : a.value env = -2 ^ 31) : a.ctype = .i64 := by
  cases a with
  | const t n =>
    obtain rfl : t = .i64 := ht
    obtain rfl : n = -2 ^ 31 := hx
    rfl
  | var t r => exact ht

theorem common_i64 (u : IrType) : bits (common .i64 u) = 64 := by
  cases u <;> rfl

theorem bits_common (t u : IrType) : bits (common t u) = 32 ∨ bits (common t u) = 64 := by
  obtain ⟨v, hv⟩ := common_cases t u
  rw [hv]
  rcases promote_cases v with h | h | h | h <;> rw [h] <;> simp [bits, IrType.size]

/-- A division that overflows the common type overflows the type of its operands. -/
theorem div_min {a b : Arg} (hi : IsInt a.type) (hx : InRange a.type (a.value env))
    (h : a.value env = -2 ^ (bits (common a.ctype b.ctype) - 1)) :
    a.value env = -2 ^ (bits a.type - 1) := by
  obtain ⟨h1, h2⟩ := hi
  rcases bits_common a.ctype b.ctype with hu | hu
  · have hx31 : a.value env = -2 ^ 31 := by rw [h, hu]
    by_cases h64 : a.type = .i64
    · rw [ctype_min h64 hx31, common_i64] at hu
      cases hu
    · rw [hx31] at hx ⊢
      cases ha : a.type <;> rw [ha] at hx h1 h2 h64 <;> simp [IrType.isInt] at h1 h2 h64 <;>
        simp [InRange, IrType.isSigned, bits, IrType.size] at hx ⊢
  · have hx63 : a.value env = -2 ^ 63 := by rw [h, hu]
    rw [hx63] at hx ⊢
    cases ha : a.type <;> rw [ha] at hx h1 h2 <;> simp [IrType.isInt] at h1 h2 <;>
      simp [InRange, IrType.isSigned, bits, IrType.size] at hx ⊢

theorem common_ne_bool (t u : IrType) : common t u ≠ .bool := by
  obtain ⟨v, hv⟩ := common_cases t u
  rw [hv]
  exact promote_ne_bool v

theorem eval_minus {a : Arg} {t : IrType} (h : Shown env (emitArg a) a.type a.ctype (a.value env))
    (hm : a.startsWithMinus = false) (hf : Fits t (promote a.ctype) (-a.value env)) :
    ∃ r, eval env (emitMinus a) = some (promote a.ctype, r) ∧
      wrap t r = wrap t (-a.value env) := by
  unfold emitMinus
  rw [hm, if_neg (by simp), eval, h.eval]
  show ∃ r, arith (promote a.ctype) (-convert (promote a.ctype) (a.value env)) = _ ∧ _
  rw [convert_promote_self h.isInt_c h.inRange_c]
  exact arith_fits (isInt_promote _) rfl (fun _ => rfl) hf

theorem typeOf_minus {a : Arg} (h : Shown env (emitArg a) a.type a.ctype (a.value env))
    (hm : a.startsWithMinus = false) : typeOf (emitMinus a) = some (promote a.ctype) := by
  unfold emitMinus
  rw [hm, if_neg (by simp), typeOf, h.typeOf]
  rfl

theorem common_promote (u : IrType) : common (promote u) u = promote u := by
  cases u <;> rfl

/-- A conditional expression evaluates one of its operands and converts it to their common type. -/
theorem eval_cond {c a b : CExpr} {t u v : IrType} {n : ℤ} (hc : eval env c = some (t, n))
    (ha : typeOf a = some u) (hb : typeOf b = some v) :
    eval env (.cond c a b) =
      (eval env (if n ≠ 0 then a else b)).map fun w => (common u v, convert (common u v) w.2) := by
  rw [eval, typeOf, ha, hb, hc]
  simp only [Option.bind_some, Option.map_some]
  split_ifs <;> rfl

/-- The choice between two printed values of one type. -/
theorem eval_choice {c e f : CExpr} {t₀ t u v : IrType} {n x y : ℤ} (hc : eval env c = some (t₀, n))
    (h : Shown env e t u x) (k : Shown env f t v y) :
    eval env (.cond c e f) = some (common u v, if n ≠ 0 then x else y) := by
  rw [eval_cond hc h.typeOf k.typeOf]
  split_ifs
  · rw [h.eval, Option.map_some, h.convert_common k]
  · rw [k.eval, Option.map_some, h.convert_common' k]

section Division

variable (hT : DataTyped I) (hD : OpDefined I env) (hP : Proper I env)

include hT hD hP

theorem assigns_div (hop : I.op = .div) : Assigns I env := by
  have hT' := hT.2.2
  have hD' := hD.2
  simp only [hop] at hT' hD'
  obtain ⟨hnb, hat, hbt⟩ := hT'
  obtain ⟨heval, hcx, hcy, hrx, hry⟩ :=
    eval_division hT hD hP .div (by rw [hop]; decide) (by rw [hat, hbt])
  have hmin : (common I.a.ctype I.b.ctype).isSigned = true →
      ¬(I.a.value env = -2 ^ (bits (common I.a.ctype I.b.ctype) - 1) ∧ I.b.value env = -1) := by
    rintro - ⟨h1, h2⟩
    have h := div_min hT.2.1 hD.1.1 h1
    rw [hat] at h
    exact hD'.2 ⟨h, h2⟩
  have harith := arith_tdiv (isInt_common _ _) hrx hry (common_ne_bool _ _) hmin
  refine assigns_of_eval (by rw [hop]; rfl) (u := common I.a.ctype I.b.ctype)
    (r := (I.a.value env).tdiv (I.b.value env)) ?_ ?_
  · rw [show emitExpr I = .bin .div (emitArg I.a) (emitArg I.b) by unfold emitExpr; rw [hop], heval]
    simp only [binary, hcx, hcy]
    rw [if_neg hD'.1, harith]
  · rw [show ∀ z, result I (I.a.value env) (I.b.value env) z =
      wrap I.type ((I.a.value env).tdiv (I.b.value env)) from fun z => by unfold result; rw [hop]; rfl]
    exact if_neg hnb

theorem assigns_mod (hop : I.op = .mod) : Assigns I env := by
  have hT' := hT.2.2
  have hD' := hD.2
  have hP' := hP.2
  simp only [hop] at hT' hD' hP'
  obtain ⟨hnb, hat, hbt⟩ := hT'
  obtain ⟨heval, hcx, hcy, hrx, hry⟩ :=
    eval_division hT hD hP .mod (by rw [hop]; decide) (by rw [hat, hbt])
  have harith := arith_tdiv (isInt_common _ _) hrx hry (common_ne_bool _ _) hP'
  refine assigns_of_eval (by rw [hop]; rfl) (u := common I.a.ctype I.b.ctype)
    (r := (I.a.value env).tmod (I.b.value env)) ?_ ?_
  · rw [show emitExpr I = .bin .mod (emitArg I.a) (emitArg I.b) by unfold emitExpr; rw [hop], heval]
    simp only [binary, hcx, hcy]
    rw [if_neg hD', harith]
    rfl
  · rw [show ∀ z, result I (I.a.value env) (I.b.value env) z =
      wrap I.type ((I.a.value env).tmod (I.b.value env)) from fun z => by unfold result; rw [hop]; rfl]
    exact if_neg hnb

/-! ## Unary operations -/

theorem assigns_neg (hop : I.op = .neg) : Assigns I env := by
  have hT' := hT.2.2
  have hP' := hP.2
  simp only [hop] at hT' hP'
  obtain ⟨r, heval, hr⟩ := eval_minus (shown_a hT hD hP) hP'.1 hP'.2
  refine assigns_of_eval (by rw [hop]; rfl) (u := promote I.a.ctype) (r := r) ?_ ?_
  · rw [show emitExpr I = emitMinus I.a by unfold emitExpr; rw [hop]]
    exact heval
  · rw [show ∀ y z, result I (I.a.value env) y z = wrap I.type (-I.a.value env) from
      fun y z => by unfold result; rw [hop]; rfl, ← hr]
    exact if_neg hT'.1

theorem assigns_not (hop : I.op = .not) : Assigns I env := by
  have hT' := hT.2.2
  have hP' := hP.2
  simp only [hop] at hT' hP'
  have ha := shown_a hT hD hP
  by_cases hb : I.type = .bool
  · refine assigns_of_eval (by rw [hop]; rfl) (u := .i32)
      (r := if decide (I.a.value env = 0) then 1 else 0) ?_ ?_
    · rw [show emitExpr I = .lnot (emitArg I.a) by unfold emitExpr; rw [hop]; simp only [hb, if_true], eval, ha.eval]
      rfl
    · have hx := ha.inRange
      rw [hT', hb] at hx
      rw [hb, convert_bool, show ∀ y z, result I (I.a.value env) y z = 1 - I.a.value env from
        fun y z => by unfold result; rw [hop]; exact if_pos hb]
      rcases inRange_bool_cases hx with h | h <;> simp [h]
  · refine assigns_of_eval (by rw [hop]; rfl) (u := promote I.a.ctype)
      (r := wrap (promote I.a.ctype) (-I.a.value env - 1)) ?_ ?_
    · rw [show emitExpr I = .compl (emitArg I.a) by unfold emitExpr; rw [hop]; simp only [hb, if_false], eval, ha.eval]
      simp [convert_promote_self ha.isInt_c ha.inRange_c]
    · rw [show ∀ y z, result I (I.a.value env) y z = wrap I.type (-I.a.value env - 1) from
        fun y z => by unfold result; rw [hop]; exact if_neg hb]
      refine (if_neg hb).trans ?_
      rcases hP' hb with h | ⟨-, h⟩
      · rw [wrap_eq_self (isInt_promote _) h]
      · exact wrap_wrap h _

theorem assigns_abs (hop : I.op = .abs) : Assigns I env := by
  have hT' := hT.2.2
  have hP' := hP.2
  simp only [hop] at hT' hP'
  have ha := shown_a hT hD hP
  have hres : ∀ y z, result I (I.a.value env) y z = wrap I.type |I.a.value env| :=
    fun y z => by unfold result; rw [hop]; rfl
  by_cases hs : I.a.type.isSigned = true
  · obtain ⟨hm, hneg⟩ := hP' hs
    have hp : (promote I.a.ctype).isSigned = true := ha.signed hs
    have hzero : Shown env (.lit .i32 0) I.a.type .i32 0 :=
      shown_lit ha.isInt (by
        rw [inRange_signed hs]
        exact ⟨by simp, by positivity⟩) (Or.inl rfl) (by simp [InRange, IrType.isSigned, bits])
    have hlt : eval env (.bin .lt (emitArg I.a) (.lit .i32 0)) =
        some (.i32, if decide (I.a.value env < 0) then 1 else 0) :=
      eval_compare ha hzero .lt (fun a b => decide (a < b)) fun _ _ => rfl
    have hcond := eval_cond hlt (typeOf_minus ha hm) ha.typeOf
    rw [common_promote] at hcond
    refine assigns_of_eval (by rw [hop]; rfl) (u := promote I.a.ctype)
      (r := |I.a.value env|) ?_ ?_
    · rw [show emitExpr I = .cond (.bin .lt (emitArg I.a) (.lit .i32 0)) (emitMinus I.a)
        (emitArg I.a) by simp [emitExpr, emitAbs, hop, hs], hcond]
      by_cases h0 : I.a.value env < 0
      · have hr := hneg h0
        obtain ⟨r, heval, hwrap⟩ := eval_minus (t := promote I.a.ctype) ha hm (Or.inl hr)
        rw [wrap_eq_self (isInt_promote _) hr] at hwrap
        simp only [h0, decide_true, if_true, one_ne_zero, ne_eq, not_false_eq_true, heval,
          Option.map_some, abs_of_neg h0]
        rw [convert_promote, hwrap]
      · simp only [h0, decide_false, Bool.false_eq_true, if_false, ne_eq, not_true_eq_false, ha.eval,
          Option.map_some, abs_of_nonneg (not_lt.1 h0)]
        rw [convert_promote_self ha.isInt_c ha.inRange_c]
    · rw [hres]
      exact if_neg hT'.1
  · have h0 := ha.nonneg (by simpa using hs)
    refine assigns_of_eval (by rw [hop]; rfl) (u := I.a.ctype) (r := I.a.value env) ?_ ?_
    · rw [show emitExpr I = emitArg I.a by simp [emitExpr, emitAbs, hop, hs]]
      exact ha.eval
    · rw [hres, abs_of_nonneg h0]
      exact if_neg hT'.1

end Division

/-! ## Bitwise operations -/

/-- The patterns of two values in two types agree modulo `2 ^ 64`. -/
theorem ofBits_modEq {f : (w : ℕ) → BitVec w → BitVec w → BitVec w}
    (hf : ∀ (t : IrType) (w : ℕ) (p q : BitVec w), f 64 (store t p) (store t q) = store t (f w p q))
    {t u : IrType} {x y : ℤ} (ht : IsInt t) (hu : IsInt u) (hx : InRange t x) (hy : InRange t y)
    (hxu : InRange u x) (hyu : InRange u y) :
    ofBits u (f _ (BitVec.ofInt (bits u) x) (BitVec.ofInt (bits u) y)) % 18446744073709551616 =
      ofBits t (f _ (BitVec.ofInt (bits t) x) (BitVec.ofInt (bits t) y)) % 18446744073709551616 := by
  rw [← ofInt_eq_iff, ofInt_ofBits hu, ofInt_ofBits ht, ← hf, ← hf, ← ofInt_eq_store hu hxu,
    ← ofInt_eq_store hu hyu, ← ofInt_eq_store ht hx, ← ofInt_eq_store ht hy]

theorem wrap_of_modEq {t : IrType} (ht : IsInt t) {m n : ℤ}
    (h : m % 18446744073709551616 = n % 18446744073709551616) : wrap t m = wrap t n := by
  apply wrap_congr
  have h64 : m ≡ n [ZMOD 2 ^ 64] := by simpa [Int.ModEq] using h
  exact h64.of_dvd (pow_dvd_pow 2 (bits_pos ht).2)

theorem wrap_ofBits (t : IrType) {w : ℕ} (p : BitVec w) : wrap t (ofBits t p) = ofBits t p :=
  wrap_wrap le_rfl _

theorem inRange_bounds {t : IrType} {n : ℤ} (ht : IsInt t) (h : InRange t n) :
    -2 ^ 63 ≤ n ∧ n < 2 ^ 64 := by
  obtain ⟨h1, h2⟩ := ht
  cases t <;> simp [IrType.isInt] at h1 h2 <;>
    simp [InRange, IrType.isSigned, bits, IrType.size] at h ⊢ <;> omega

theorem convert_bool_of_eq {m n : ℤ} (h : m = 0 ∨ m = 1) (hmn : m = n) : convert .bool m = n := by
  subst hmn
  rcases h with rfl | rfl <;> rfl

theorem convert_self {t : IrType} {n : ℤ} (ht : IsInt t) (h : InRange t n) : convert t n = n := by
  unfold convert
  split_ifs with hb h0
  · subst hb
    rcases inRange_bool_cases h with rfl | rfl <;> simp at h0 ⊢
  · subst hb
    rcases inRange_bool_cases h with rfl | rfl <;> simp at h0 ⊢
  · exact wrap_eq_self ht h

/-- Two casts in a row. -/
theorem eval_casts {t u v w : IrType} {e : CExpr} {x : ℤ} (h : Shown env e t u x) (hv : v ≠ .bool)
    (hw : w ≠ .bool) : eval env (.cast w (.cast v e)) = some (w, wrap w (wrap v x)) := by
  rw [eval, eval, h.eval]
  simp [convert, hv, hw]

section Bitwise

variable (hT : DataTyped I) (hD : OpDefined I env) (hP : Proper I env)

include hT hD hP

theorem assigns_bitwise (op : BinOp) {f : (w : ℕ) → BitVec w → BitVec w → BitVec w}
    (hf : ∀ (t : IrType) (w : ℕ) (p q : BitVec w), f 64 (store t p) (store t q) = store t (f w p q))
    (hsem : ∀ a b : IrType × ℤ, binary op a b = some (common a.1 b.1, ofBits (common a.1 b.1)
      (f _ (BitVec.ofInt (bits (common a.1 b.1)) (convert (common a.1 b.1) a.2))
        (BitVec.ofInt (bits (common a.1 b.1)) (convert (common a.1 b.1) b.2)))))
    (har : arity I.op = 2) (hov : overflowOp I.op = none) (hat : I.a.type = I.type)
    (hbt : I.b.type = I.type)
    (hemit : emitExpr I = .bin op (emitArg I.a) (emitArg I.b))
    (hbool : I.type = .bool → ∀ x y : ℤ, InRange .bool x → InRange .bool y →
      InRange .bool (ofBits .bool (f _ (BitVec.ofInt (bits .bool) x) (BitVec.ofInt (bits .bool) y))))
    (hres : ∀ x y z, result I x y z =
      ofBits I.type (f _ (BitVec.ofInt (bits I.type) x) (BitVec.ofInt (bits I.type) y))) :
    Assigns I env := by
  obtain ⟨heval, hcx, hcy, hrx, hry⟩ := eval_division hT hD hP op har (by rw [hat, hbt])
  have hx : InRange I.a.type (I.a.value env) := hD.1.1
  have hy : InRange I.b.type (I.b.value env) := hD.1.2.1 (by omega)
  rw [hat] at hx
  rw [hbt] at hy
  have hmod := ofBits_modEq hf hT.1 (isInt_common I.a.ctype I.b.ctype) hx hy hrx hry
  have heval' : eval env (emitExpr I) = some (common I.a.ctype I.b.ctype,
      ofBits (common I.a.ctype I.b.ctype)
        (f _ (BitVec.ofInt (bits (common I.a.ctype I.b.ctype)) (I.a.value env))
          (BitVec.ofInt (bits (common I.a.ctype I.b.ctype)) (I.b.value env)))) := by
    rw [hemit, heval, hsem]
    dsimp only
    rw [hcx, hcy]
  refine assigns_of_eval hov heval' ?_
  rw [hres]
  by_cases hb : I.type = .bool
  · -- the operands are 0 or 1, and so is the result
    rw [hb] at hmod hx hy ⊢
    have hr := hbool hb _ _ hx hy
    have hR := inRange_bounds (isInt_common I.a.ctype I.b.ctype) (ofBits_inRange
      (isInt_common I.a.ctype I.b.ctype) (common_ne_bool _ _)
      (f _ (BitVec.ofInt (bits (common I.a.ctype I.b.ctype)) (I.a.value env))
        (BitVec.ofInt (bits (common I.a.ctype I.b.ctype)) (I.b.value env))))
    rcases inRange_bool_cases hr with h | h
    · rw [h] at hmod ⊢
      exact convert_bool_of_eq (Or.inl (by omega)) (by omega)
    · rw [h] at hmod ⊢
      exact convert_bool_of_eq (Or.inr (by omega)) (by omega)
  · refine (if_neg hb).trans ?_
    rw [wrap_of_modEq hT.1 hmod, wrap_ofBits]

/-- `||` and `&&` on booleans. -/
theorem assigns_logical (op : BinOp) {g : Bool → Bool → Bool} (ht : I.type = .bool)
    (hsem : ∀ a b : IrType × ℤ, binary op a b = truth (g (a.2 ≠ 0) (b.2 ≠ 0)))
    (har : arity I.op = 2) (hov : overflowOp I.op = none) (hat : I.a.type = I.type)
    (hbt : I.b.type = I.type) (hemit : emitExpr I = .bin op (emitArg I.a) (emitArg I.b))
    (hres : ∀ x y z, InRange .bool x → InRange .bool y →
      result I x y z = if g (x ≠ 0) (y ≠ 0) then 1 else 0) : Assigns I env := by
  obtain ⟨heval, -⟩ := eval_division hT hD hP op har (by rw [hat, hbt])
  have hx : InRange I.a.type (I.a.value env) := hD.1.1
  have hy : InRange I.b.type (I.b.value env) := hD.1.2.1 (by omega)
  rw [hat, ht] at hx
  rw [hbt, ht] at hy
  refine assigns_of_eval hov (by rw [hemit, heval, hsem]; rfl) ?_
  rw [hres _ _ _ hx hy, ht]
  exact convert_bool _

theorem assigns_or (hop : I.op = .or) : Assigns I env := by
  have hT' := hT.2.2
  simp only [hop] at hT'
  by_cases hb : I.type = .bool
  · refine assigns_logical hT hD hP .lor (g := fun a b => a || b) hb (fun _ _ => rfl) (by rw [hop]; decide)
      (by rw [hop]; rfl) hT'.1 hT'.2 (by unfold emitExpr; rw [hop]; simp only [hb, if_true]) ?_
    intro x y z hx hy
    rw [show ∀ x y z, result I x y z = ofBits I.type (BitVec.ofInt (bits I.a.type) x ||| BitVec.ofInt (bits I.a.type) y) from
      fun x y z => by unfold result; rw [hop]; rfl]
    rw [hT'.1, hb]
    rcases inRange_bool_cases hx with rfl | rfl <;> rcases inRange_bool_cases hy with rfl | rfl <;>
      decide
  · refine assigns_bitwise hT hD hP .or (f := fun _ p q => p ||| q) (fun t _ => store_or t)
      (fun _ _ => rfl) (by rw [hop]; decide) (by rw [hop]; rfl) hT'.1 hT'.2
      (by unfold emitExpr; rw [hop]; simp only [hb, if_false]) (fun h => absurd h hb) ?_
    intro x y z
    rw [show ∀ x y z, result I x y z = ofBits I.type (BitVec.ofInt (bits I.a.type) x ||| BitVec.ofInt (bits I.a.type) y) from
      fun x y z => by unfold result; rw [hop]; rfl]
    rw [hT'.1]

theorem assigns_and (hop : I.op = .and) : Assigns I env := by
  have hT' := hT.2.2
  simp only [hop] at hT'
  by_cases hb : I.type = .bool
  · refine assigns_logical hT hD hP .land (g := fun a b => a && b) hb (fun _ _ => rfl) (by rw [hop]; decide)
      (by rw [hop]; rfl) hT'.1 hT'.2 (by unfold emitExpr; rw [hop]; simp only [hb, if_true]) ?_
    intro x y z hx hy
    rw [show ∀ x y z, result I x y z = ofBits I.type (BitVec.ofInt (bits I.a.type) x &&& BitVec.ofInt (bits I.a.type) y) from
      fun x y z => by unfold result; rw [hop]; rfl]
    rw [hT'.1, hb]
    rcases inRange_bool_cases hx with rfl | rfl <;> rcases inRange_bool_cases hy with rfl | rfl <;>
      decide
  · refine assigns_bitwise hT hD hP .and (f := fun _ p q => p &&& q) (fun t _ => store_and t)
      (fun _ _ => rfl) (by rw [hop]; decide) (by rw [hop]; rfl) hT'.1 hT'.2
      (by unfold emitExpr; rw [hop]; simp only [hb, if_false]) (fun h => absurd h hb) ?_
    intro x y z
    rw [show ∀ x y z, result I x y z = ofBits I.type (BitVec.ofInt (bits I.a.type) x &&& BitVec.ofInt (bits I.a.type) y) from
      fun x y z => by unfold result; rw [hop]; rfl]
    rw [hT'.1]

theorem assigns_xor (hop : I.op = .xor) : Assigns I env := by
  have hT' := hT.2.2
  simp only [hop] at hT'
  refine assigns_bitwise hT hD hP .xor (f := fun _ p q => p ^^^ q) (fun t _ => store_xor t)
    (fun _ _ => rfl) (by rw [hop]; decide) (by rw [hop]; rfl) hT'.1 hT'.2
    (by unfold emitExpr; rw [hop]) (fun _ x y hx hy => ?_) ?_
  · rcases inRange_bool_cases hx with rfl | rfl <;> rcases inRange_bool_cases hy with rfl | rfl <;>
      simp only [InRange, if_true] <;> decide
  · intro x y z
    rw [show ∀ x y z, result I x y z = ofBits I.type (BitVec.ofInt (bits I.a.type) x ^^^ BitVec.ofInt (bits I.a.type) y) from
      fun x y z => by unfold result; rw [hop]; rfl]
    rw [hT'.1]

/-! ## Choices -/

theorem assigns_min (hop : I.op = .min) : Assigns I env := by
  have hT' := hT.2.2
  simp only [hop] at hT'
  have hx := shown_a hT hD hP
  have hy := shown_b (by rw [hT'.2]; exact hT.1) (by rw [hop]; decide) hD hP
  rw [hT'.1] at hx
  rw [hT'.2] at hy
  have hc := eval_compare hx hy .lt (fun a b => decide (a < b)) fun _ _ => rfl
  refine assigns_of_eval (by rw [hop]; rfl)
    (by rw [show emitExpr I = .cond (.bin .lt (emitArg I.a) (emitArg I.b)) (emitArg I.a)
      (emitArg I.b) by unfold emitExpr; rw [hop]]; exact eval_choice hc hx hy) ?_
  have hres : ∀ z, result I (I.a.value env) (I.b.value env) z =
      if I.a.value env < I.b.value env then I.a.value env else I.b.value env := by
    intro z
    rw [show ∀ x y z, result I x y z = min x y from
      fun x y z => by unfold result; rw [hop]; rfl]
    rw [min_def]
    split_ifs <;> omega
  rw [hres]
  by_cases h : I.a.value env < I.b.value env
  · simpa [h] using convert_self hT.1 hx.inRange
  · simpa [h] using convert_self hT.1 hy.inRange

theorem assigns_max (hop : I.op = .max) : Assigns I env := by
  have hT' := hT.2.2
  simp only [hop] at hT'
  have hx := shown_a hT hD hP
  have hy := shown_b (by rw [hT'.2]; exact hT.1) (by rw [hop]; decide) hD hP
  rw [hT'.1] at hx
  rw [hT'.2] at hy
  have hc := eval_compare hx hy .gt (fun a b => decide (a > b)) fun _ _ => rfl
  refine assigns_of_eval (by rw [hop]; rfl)
    (by rw [show emitExpr I = .cond (.bin .gt (emitArg I.a) (emitArg I.b)) (emitArg I.a)
      (emitArg I.b) by unfold emitExpr; rw [hop]]; exact eval_choice hc hx hy) ?_
  have hres : ∀ z, result I (I.a.value env) (I.b.value env) z =
      if I.a.value env > I.b.value env then I.a.value env else I.b.value env := by
    intro z
    rw [show ∀ x y z, result I x y z = max x y from
      fun x y z => by unfold result; rw [hop]; rfl]
    rw [max_def]
    split_ifs <;> omega
  rw [hres]
  by_cases h : I.a.value env > I.b.value env
  · simpa [h] using convert_self hT.1 hx.inRange
  · simpa [h] using convert_self hT.1 hy.inRange

theorem assigns_cond (hop : I.op = .cond) : Assigns I env := by
  have hT' := hT.2.2
  simp only [hop] at hT'
  have hx := shown_a hT hD hP
  have hy := shown_b (by rw [hT'.1]; exact hT.1) (by rw [hop]; decide) hD hP
  have hz := shown_c (by rw [hT'.2]; exact hT.1) (by rw [hop]; decide) hD hP
  rw [hT'.1] at hy
  rw [hT'.2] at hz
  refine assigns_of_eval (by rw [hop]; rfl)
    (by rw [show emitExpr I = .cond (emitArg I.a) (emitArg I.b) (emitArg I.c) by
      simp [emitExpr, hop]]; exact eval_choice hx.eval hy hz) ?_
  rw [show ∀ x y z, result I x y z = if x ≠ 0 then y else z from
    fun x y z => by unfold result; rw [hop]]
  by_cases h : I.a.value env ≠ 0
  · rw [if_pos h]
    exact convert_self hT.1 hy.inRange
  · rw [if_neg h]
    exact convert_self hT.1 hz.inRange

/-! ## Extensions -/

theorem assigns_sext (hop : I.op = .sext) : Assigns I env := by
  have hT' := hT.2.2
  simp only [hop] at hT'
  have hx := shown_a hT hD hP
  refine assigns_of_eval (by rw [hop]; rfl)
    (by rw [show emitExpr I = .cast (signedOf I.type.size) (.cast (signedOf I.a.type.size)
      (emitArg I.a)) by unfold emitExpr; rw [hop]]
        exact eval_casts hx (signedOf_ne_bool _) (signedOf_ne_bool _)) ?_
  rw [show ∀ x y z, result I x y z = wrap I.type (toI (bits I.a.type) x) from
    fun x y z => by unfold result; rw [hop]; rfl]
  refine (if_neg (ne_bool_of_lt hT.2.1 hT')).trans ?_
  rw [wrap_wrap (bits_signedOf hT.1).ge, wrap_signedOf hT.2.1]

theorem assigns_zext (hop : I.op = .zext) : Assigns I env := by
  have hT' := hT.2.2
  simp only [hop] at hT'
  have hx := shown_a hT hD hP
  refine assigns_of_eval (by rw [hop]; rfl)
    (by rw [show emitExpr I = .cast (unsignedOf I.type.size) (.cast (unsignedOf I.a.type.size)
      (emitArg I.a)) by unfold emitExpr; rw [hop]]
        exact eval_casts hx (unsignedOf_ne_bool _) (unsignedOf_ne_bool _)) ?_
  rw [show ∀ x y z, result I x y z = wrap I.type (toU (bits I.a.type) x) from
    fun x y z => by unfold result; rw [hop]; rfl]
  refine (if_neg (ne_bool_of_lt hT.2.1 hT')).trans ?_
  rw [wrap_wrap (bits_unsignedOf hT.1).ge, wrap_unsignedOf hT.2.1]

theorem assigns_trunc (hop : I.op = .trunc) : Assigns I env := by
  have hT' := hT.2.2
  simp only [hop] at hT'
  have hx := shown_a hT hD hP
  have hle : bits I.type ≤ bits (unsignedOf I.a.type.size) := by
    rw [bits_unsignedOf hT.2.1]
    unfold bits
    omega
  refine assigns_of_eval (by rw [hop]; rfl)
    (by rw [show emitExpr I = .cast (unsignedOf I.type.size) (.cast (unsignedOf I.a.type.size)
      (emitArg I.a)) by unfold emitExpr; rw [hop]]
        exact eval_casts hx (unsignedOf_ne_bool _) (unsignedOf_ne_bool _)) ?_
  rw [show ∀ x y z, result I x y z = if I.type = .bool then (if decide (toU 8 x ≠ 0) then 1 else 0) else wrap I.type x from
    fun x y z => by unfold result; rw [hop]; rfl]
  by_cases hb : I.type = .bool
  · rw [if_pos hb]
    rw [← bits_unsignedOf hT.1] at hle
    rw [wrap_wrap hle, wrap_unsignedOf hT.1, hb]
    show (if toU 8 _ ≠ 0 then 1 else 0) = if decide (toU 8 _ ≠ 0) then 1 else 0
    simp
  · rw [if_neg hb]
    refine (if_neg hb).trans ?_
    rw [wrap_wrap (bits_unsignedOf hT.1).ge, wrap_wrap hle]

end Bitwise

/-! ## Shifts -/

theorem eval_shl {e f : CExpr} {t t₁ u v : IrType} {x y : ℤ} (h : Shown env e t₁ u x)
    (k : eval env f = some (v, y)) (h0 : 0 ≤ y) (hf : ShlFits t u x y.toNat)
    (hs : (promote u).isSigned = true → 0 ≤ x) :
    ∃ r, eval env (.bin .shl e f) = some (promote u, r) ∧ wrap t r = wrap t (x * 2 ^ y.toNat) := by
  have hlt : y < bits (promote u) := by
    have := hf.1
    omega
  rw [eval, h.eval, k]
  simp only [Option.bind_some, binary]
  rw [if_pos ⟨h0, hlt, hs⟩, convert_promote_self h.isInt_c h.inRange_c]
  exact arith_fits (isInt_promote u) rfl (fun _ => rfl) hf.2

theorem eval_shr {e f : CExpr} {t₁ u v : IrType} {x y : ℤ} (h : Shown env e t₁ u x)
    (k : eval env f = some (v, y)) (h0 : 0 ≤ y) (hlt : y < bits (promote u)) :
    eval env (.bin .shr e f) = some (promote u, x / 2 ^ y.toNat) := by
  rw [eval, h.eval, k]
  simp only [Option.bind_some, binary]
  rw [if_pos ⟨h0, hlt⟩, convert_promote_self h.isInt_c h.inRange_c]

theorem shift_eq {w : ℕ} {y : ℤ} (h0 : 0 ≤ y) (h1 : y < w) : shift w y = y.toNat := by
  unfold shift
  rw [Int.emod_eq_of_lt h0 h1]

theorem bits_cases {t : IrType} (ht : IsInt t) : bits t = 8 ∨ bits t = 16 ∨ bits t = 32 ∨ bits t = 64 := by
  obtain ⟨h1, h2⟩ := ht
  cases t <;> simp [IrType.isInt] at h1 h2 <;> simp [bits, IrType.size]

/-- A count below the width is the same number in both casts. -/
theorem toU_count {t : IrType} {y : ℤ} (ht : IsInt t) (h0 : 0 ≤ y) (h1 : y < bits t) :
    toU (bits t) y = y := by
  unfold toU
  rcases bits_cases ht with h | h | h | h <;> rw [h] at h1 ⊢ <;> omega

theorem toI_count {t : IrType} {y : ℤ} (ht : IsInt t) (h0 : 0 ≤ y) (h1 : y < bits t) :
    toI (bits t) y = y := by
  unfold toI
  rcases bits_cases ht with h | h | h | h <;> rw [h] at h1 ⊢ <;> omega

section Shifts

variable (hT : DataTyped I) (hD : OpDefined I env) (hP : Proper I env)

include hT hD hP

theorem assigns_shl (hop : I.op = .shl) : Assigns I env := by
  have hT' := hT.2.2
  have hP' := hP.2
  simp only [hop] at hT' hP'
  obtain ⟨hnb, hat, hbt⟩ := hT'
  obtain ⟨h0, h1, hfit, hs⟩ := hP'
  have hx := shown_a hT hD hP
  have hy := shown_b (by rw [hbt]; exact hT.1) (by rw [hop]; decide) hD hP
  obtain ⟨r, heval, hr⟩ := eval_shl hx hy.eval h0 hfit hs
  refine assigns_of_eval (by rw [hop]; rfl)
    (by rw [show emitExpr I = .bin .shl (emitArg I.a) (emitArg I.b) by unfold emitExpr; rw [hop]]
        exact heval) ?_
  rw [show ∀ x y z, result I x y z = wrap I.type (x * 2 ^ shift (bits I.a.type) y) from
    fun x y z => by unfold result; rw [hop]; rfl]
  rw [shift_eq h0 h1, ← hr]
  exact if_neg hnb

theorem assigns_shr (hop : I.op = .shr) : Assigns I env := by
  have hT' := hT.2.2
  have hP' := hP.2
  simp only [hop] at hT' hP'
  obtain ⟨hnb, hat, hbt⟩ := hT'
  obtain ⟨h0, h1, h2⟩ := hP'
  have hx := shown_unsignedCast (shown_a hT hD hP)
  have hy := shown_unsignedCast (shown_b (by rw [hbt]; exact hT.1) (by rw [hop]; decide) hD hP)
  rw [hbt, ← hat, toU_count hT.2.1 h0 h1] at hy
  refine assigns_of_eval (by rw [hop]; rfl)
    (by rw [show emitExpr I = .bin .shr (unsignedCast I.a.type (emitArg I.a))
      (unsignedCast I.a.type (emitArg I.b)) by unfold emitExpr; rw [hop]]
        exact eval_shr hx hy.eval h0 h2) ?_
  rw [show ∀ x y z, result I x y z = wrap I.type (toU (bits I.a.type) x / 2 ^ shift (bits I.a.type) y) from
    fun x y z => by unfold result; rw [hop]; rfl]
  rw [shift_eq h0 h1]
  exact if_neg hnb

theorem assigns_sar (hop : I.op = .sar) : Assigns I env := by
  have hT' := hT.2.2
  have hP' := hP.2
  simp only [hop] at hT' hP'
  obtain ⟨hnb, hat, hbt⟩ := hT'
  obtain ⟨h0, h1, h2⟩ := hP'
  have hx := shown_signedCast (shown_a hT hD hP)
  have hy := shown_signedCast (shown_b (by rw [hbt]; exact hT.1) (by rw [hop]; decide) hD hP)
  rw [hbt, ← hat, toI_count hT.2.1 h0 h1] at hy
  refine assigns_of_eval (by rw [hop]; rfl)
    (by rw [show emitExpr I = .bin .shr (signedCast I.a.type (emitArg I.a))
      (signedCast I.a.type (emitArg I.b)) by unfold emitExpr; rw [hop]]
        exact eval_shr hx hy.eval h0 h2) ?_
  rw [show ∀ x y z, result I x y z = wrap I.type (toI (bits I.a.type) x / 2 ^ shift (bits I.a.type) y) from
    fun x y z => by unfold result; rw [hop]; rfl]
  rw [shift_eq h0 h1]
  exact if_neg hnb

end Shifts

end IrJit.EmitC
