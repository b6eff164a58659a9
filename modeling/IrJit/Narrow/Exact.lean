import IrJit.Narrow.Replace

/-!
# Narrow.Exact — the narrow expression evaluates to the low bits of the wide one

An instruction that keeps the low bits does so whatever it is; the graph after the walk then evaluates, operand
by operand, to the low bits of what the graph before it does.
-/

namespace IrJit.Narrow

open Fold (IsInt bits spec toU valueOf wrap)
open IfConv (Insn isConstRef)

variable {base mid ctx' : Ctx} {type t : IrType} {root i ref' n m o o' : ℤ} {D : ℤ → Prop} {V : ℤ → List ℤ}
  {fuel : ℕ} {T : Type} {W : World T} {τ : T} {v : ℤ} {ρ : ℤ → ℤ} {op : IrOp}

/-! ## One instruction -/

/-- The instructions that the test lets pass. -/
inductive Ctx.Kind (base : Ctx) (n : ℤ) : Prop
  | const (neg : n < 0) (sym : (base.insn n).op.isSymConst = false)
  | ext (pos : 0 < n) (op : isExt (base.insn n).op = true)
  | unary (pos : 0 < n) (op : isUnary (base.insn n).op = true)
  | binary (pos : 0 < n) (op : isBinary (base.insn n).op = true)
  | cond (pos : 0 < n) (op : (base.insn n).op = .cond)
  | phi (pos : 0 < n) (op : (base.insn n).op = .phi)

/-- The test has been made for the whole expression. -/
theorem Ctx.Visited.may (C : base.Checked) (h : base.Visited root n)
    (hmay : base.mayPromoteTrunc type fuel root = some true) :
    ∃ fuel, base.mayPromoteTrunc type fuel n = some true := by
  induction h with
  | root => exact ⟨fuel, hmay⟩
  | operand _ ho ih =>
    obtain ⟨fuel, h⟩ := ih
    cases fuel with
    | zero => simp [Ctx.mayPromoteTrunc] at h
    | succ fuel =>
      rcases mayPromoteTrunc_eq C h with ⟨hneg, -⟩ | ⟨-, -, -, hops⟩
      · unfold Ctx.narrowOps at ho
        rw [if_pos (by simpa [isConstRef] using hneg)] at ho
        exact absurd ho List.not_mem_nil
      · exact ⟨fuel, hops _ ho⟩

theorem Ctx.Visited.kind (C : base.Checked) (h : base.Visited root n)
    (hmay : base.mayPromoteTrunc type fuel root = some true) : base.Kind n := by
  obtain ⟨fuel, h⟩ := h.may C hmay
  cases fuel with
  | zero => simp [Ctx.mayPromoteTrunc] at h
  | succ fuel =>
    rcases mayPromoteTrunc_eq C h with ⟨hneg, hsym⟩ | ⟨hpos, -, h | h | h | h | h, -⟩
    · exact .const hneg hsym
    · exact .ext hpos h
    · exact .unary hpos h
    · exact .binary hpos h
    · exact .cond hpos h
    · exact .phi hpos h

theorem Ctx.Kind.ne_zero (h : base.Kind n) : n ≠ 0 := by
  cases h <;> omega

theorem compute_unary (ht : IsInt t) (h : isUnary op = true) (other : IrOp → IrType → List ℤ → ℤ) (ts : List IrType)
    (xs : List ℤ) : compute other op t ts xs = read t (spec op t t t (read t (xs.getD 0 0)) 0) := by
  unfold compute
  dsimp only
  rw [if_pos h, if_pos ht.1]

theorem compute_binary (ht : IsInt t) (h : isBinary op = true) (other : IrOp → IrType → List ℤ → ℤ) (ts : List IrType)
    (xs : List ℤ) : compute other op t ts xs
      = read t (spec op t t t (read t (xs.getD 0 0)) (read t (xs.getD 1 0))) := by
  unfold compute
  dsimp only
  rw [if_neg (by simp [not_unary_of_binary h]), if_pos h, if_pos ht.1]

theorem not_unary_of_ext (h : isExt op = true) : isUnary op = false ∧ isBinary op = false := by
  simp only [isExt, Bool.or_eq_true, decide_eq_true_eq] at h
  rcases h with (h | h) | h <;> rw [h] <;> exact ⟨rfl, rfl⟩

theorem compute_ext {src : IrType} (ht : IsInt t) (hsrc : IsInt src) (h : isExt op = true ∨ op = .bitcast)
    (other : IrOp → IrType → List ℤ → ℤ) (x : ℤ) :
    compute other op t [src] [x] = read t (spec op t src src x 0) := by
  have hno : isUnary op = false ∧ isBinary op = false := by
    rcases h with h | rfl
    · exact not_unary_of_ext h
    · exact ⟨rfl, rfl⟩
  have hext : (isExt op || decide (op = .bitcast)) = true := by simpa using h
  unfold compute
  dsimp only
  rw [if_neg (by simp [hno.1]), if_neg (by simp [hno.2]), if_pos hext]
  show read t (if t.isInt && src.isInt then spec op t src src x 0 else _) = _
  rw [ht.1, hsrc.1]
  rfl

theorem compute_cond (other : IrOp → IrType → List ℤ → ℤ) (ts : List IrType) (x y z : ℤ) :
    compute other .cond t ts [x, y, z] = read t (if x ≠ 0 then y else z) := rfl

theorem extOp_eq (type : IrType) (h : isExt op = true) (src : IrType) :
    isExt (Ctx.extOp type src op) = true ∨ Ctx.extOp type src op = .bitcast := by
  unfold Ctx.extOp
  split_ifs
  · exact .inr rfl
  all_goals first | exact .inl rfl | exact .inl h

theorem wideValue_pos (pos : 0 < n) : base.wideValue W n ρ = base.value W n ρ :=
  if_neg (by simpa [isConstRef] using pos.le)

theorem wideValue_neg (neg : n < 0) : base.wideValue W n ρ = valueOf (base.insn n).type (base.val n) :=
  if_pos (by simpa [isConstRef] using neg)

theorem narrowValue_neg (neg : n < 0) : base.narrowValue W type n ρ = valueOf type (narrowVal type (base.val n)) :=
  if_pos (by simpa [isConstRef] using neg)

section

variable (pos : 0 < n)
include pos

theorem narrowValue_pos : base.narrowValue W type n ρ =
    if isExt (base.insn n).op then
      if (base.insn (base.insn n).op1).type = type then ρ (base.insn n).op1
      else compute W.other (Ctx.extOp type (base.insn (base.insn n).op1).type (base.insn n).op) type
        [(base.insn (base.insn n).op1).type] [ρ (base.insn n).op1]
    else if (base.insn n).op = .cond then
      if ρ (base.insn n).op1 ≠ 0 then low type (ρ (base.insn n).op2) else low type (ρ (base.insn n).op3)
    else compute W.other (base.insn n).op type [] ((base.insn n).operands.map fun o => low type (ρ o)) :=
  if_neg (by simpa [isConstRef] using pos.le)

theorem narrowValue_bypassed (h : base.Bypassed type n) : base.narrowValue W type n ρ = ρ (base.insn n).op1 := by
  rw [narrowValue_pos pos, if_pos h.2.1, if_pos h.2.2]

theorem narrowValue_ext (h : isExt (base.insn n).op = true) (hsrc : (base.insn (base.insn n).op1).type ≠ type) :
    base.narrowValue W type n ρ = compute W.other (Ctx.extOp type (base.insn (base.insn n).op1).type (base.insn n).op)
      type [(base.insn (base.insn n).op1).type] [ρ (base.insn n).op1] := by
  rw [narrowValue_pos pos, if_pos h, if_neg hsrc]

theorem narrowValue_cond (h : (base.insn n).op = .cond) : base.narrowValue W type n ρ =
    if ρ (base.insn n).op1 ≠ 0 then low type (ρ (base.insn n).op2) else low type (ρ (base.insn n).op3) := by
  rw [narrowValue_pos pos, if_neg (by rw [h]; decide), if_pos h]

theorem narrowValue_plain (h : isUnary (base.insn n).op = true ∨ isBinary (base.insn n).op = true) :
    base.narrowValue W type n ρ =
      compute W.other (base.insn n).op type [] ((base.insn n).operands.map fun o => low type (ρ o)) := by
  have hext : isExt (base.insn n).op = false := h.elim not_ext_of_unary not_ext_of_binary
  have hcond : (base.insn n).op ≠ .cond := by
    intro hcond
    rw [hcond] at h
    rcases h with h | h <;> cases h
  rw [narrowValue_pos pos, if_neg (by simp [hext]), if_neg hcond]

end

/-- Most operators commute with taking the low bits. -/
theorem commutes_of_ne {x y : ℤ} (h : ¬(op = .min ∨ op = .max ∨ op = .abs ∨ op = .shl)) :
    Commutes type t op x y := by
  unfold Commutes
  split <;> simp at h
  trivial

theorem read_min (hi : IsInt type) (x y : ℤ) : read type (min (low type x) (low type y)) = min (low type x) (low type y) := by
  rcases min_choice (low type x) (low type y) with h | h <;> rw [h, read_low hi]

theorem read_max (hi : IsInt type) (x y : ℤ) : read type (max (low type x) (low type y)) = max (low type x) (low type y) := by
  rcases max_choice (low type x) (low type y) with h | h <;> rw [h, read_low hi]

/-- The result of a unary operator is a value of the type. -/
theorem read_spec_unary (hi : IsInt type) (hb : type ≠ .bool) (hop : isUnary op = true) (x y : ℤ) :
    read type (spec op type type type x y) = spec op type type type x y := by
  rw [read_eq hi]
  simp only [isUnary, Bool.or_eq_true, decide_eq_true_eq] at hop
  rcases hop with (rfl | rfl) | rfl
  · exact wrap_self type _
  · exact wrap_self type _
  · show wrap type (if type = .bool then _ else wrap type _) = if type = .bool then _ else wrap type _
    rw [if_neg hb, wrap_self]

/-- The result of a binary operator on values of the type is one. -/
theorem read_spec_binary (hi : IsInt type) (hop : isBinary op = true) (x y : ℤ) :
    read type (spec op type type type (low type x) (low type y)) = spec op type type type (low type x) (low type y) := by
  simp only [isBinary, Bool.or_eq_true, decide_eq_true_eq] at hop
  rcases hop with (((((((rfl | rfl) | rfl) | rfl) | rfl) | rfl) | rfl) | rfl) | rfl
  case inl.inl.inl.inl.inl.inr => exact read_min hi x y
  case inl.inl.inl.inl.inr => exact read_max hi x y
  all_goals
    rw [read_eq hi]
    exact wrap_self type _

section

variable (C : base.Checked) (hi : IsInt type) (hw : type.size < 8)
include C hi hw

/-- The condition on an instruction is exact: it computes the low bits of its value if and only if it meets it. -/
theorem keepsLow_iff (hkind : base.Kind n) (hphi : (base.insn n).op ≠ .phi)
    (hext : base.Bypassed type n → wrap type (ρ (base.insn n).op1) = ρ (base.insn n).op1) :
    base.KeepsLow W type n ρ ↔ base.narrowValue W type n ρ = low type (base.wideValue W n ρ) := by
  by_cases hmis : base.Misfit type n
  · exact ⟨fun K => K.1 hmis, fun h => ⟨fun _ => h, fun hno => absurd hmis hno⟩⟩
  have hcomm : base.KeepsLow W type n ρ ↔ Commutes type (base.insn n).type (base.insn n).op
      (read (base.insn n).type (ρ (base.insn n).op1)) (read (base.insn n).type (ρ (base.insn n).op2)) :=
    ⟨fun K => K.2 hmis, fun h => ⟨fun hno => absurd hno hmis, fun _ => h⟩⟩
  rw [hcomm]
  unfold Ctx.Misfit at hmis
  push Not at hmis
  obtain ⟨hb, htb, hti, hs⟩ := hmis
  have hread : ∀ z, low type (read (base.insn n).type z) = low type z := by
    intro z
    rw [read_eq hti, low_eq hb, low_eq hb, wrap_wrap hs]
  cases hkind with
  | const neg sym =>
    rw [narrowValue_neg neg, wideValue_neg neg]
    refine iff_of_true (commutes_of_ne fun h => ?_) (const_low hi hw hb hs _)
    have hconst := C.consts n neg.le
    rcases h with h | h | h | h <;> rw [h] at hconst <;> cases hconst
  | ext pos op =>
    have hty := C.ext n op
    refine iff_of_true (commutes_of_ne fun h => ?_) ?_
    · rcases h with h | h | h | h <;> rw [h] at op <;> cases op
    rw [wideValue_pos pos, Ctx.value, operands_ext C op, List.map_singleton, List.map_singleton,
      compute_ext hti hty.2.1 (.inl op), hread]
    by_cases hsrc : (base.insn (base.insn n).op1).type = type
    · rw [narrowValue_bypassed pos ⟨pos, op, hsrc⟩, hsrc]
      exact ext_same hb htb hs op (hext ⟨pos, op, hsrc⟩)
    · rw [narrowValue_ext pos op hsrc, compute_ext hi hty.2.1 (extOp_eq type op _), ext_low hb htb hs op hty,
        read_low hi]
  | unary pos op =>
    rw [narrowValue_plain pos (.inl op), wideValue_pos pos, Ctx.value, operands_unary C op, compute_unary hi op,
      compute_unary hti op, hread, ← commutes_unary hb hs htb op]
    show _ ↔ read type (spec _ type type type (read type (low type (ρ (base.insn n).op1))) 0) = _
    rw [read_low hi, ← hread (ρ (base.insn n).op1), read_spec_unary hi hb op]
    rfl
  | binary pos op =>
    rw [narrowValue_plain pos (.inr op), wideValue_pos pos, Ctx.value, operands_binary C op, compute_binary hi op,
      compute_binary hti op, hread, ← commutes_binary hb hs op]
    show _ ↔ read type (spec _ type type type (read type (low type (ρ (base.insn n).op1)))
      (read type (low type (ρ (base.insn n).op2)))) = _
    rw [read_low hi, read_low hi, ← hread (ρ (base.insn n).op1), ← hread (ρ (base.insn n).op2),
      read_spec_binary hi op]
    rfl
  | cond pos op =>
    refine iff_of_true (commutes_of_ne fun h => ?_) ?_
    · rw [op] at h
      exact absurd h (by decide)
    rw [narrowValue_cond pos op, wideValue_pos pos, Ctx.value, operands_cond C op, op]
    show _ = low type (read _ (if ρ (base.insn n).op1 ≠ 0 then ρ (base.insn n).op2 else ρ (base.insn n).op3))
    rw [hread]
    split <;> rfl
  | phi pos op => exact absurd op hphi

end

/-! ## A condition that becomes MIN or MAX -/

theorem read_bool (t : IrType) (p : Prop) [Decidable p] : read t (if p then 1 else 0) = if p then 1 else 0 := by
  by_cases hp : p
  · rw [if_pos hp]
    cases t <;> rfl
  · rw [if_neg hp]
    cases t <;> rfl

theorem compute_compare (hi : IsInt type) (h : isCompare op = true) (hno : isUnary op = false ∧ isBinary op = false ∧
    isExt op = false ∧ op ≠ .bitcast) (other : IrOp → IrType → List ℤ → ℤ) (t : IrType) (x y : ℤ) :
    compute other op t [type, type] [x, y] = read t (spec op .bool type type x y) := by
  obtain ⟨h1, h2, h3, h4⟩ := hno
  unfold compute
  simp [h, h1, h2, h3, h4, hi.1]

/-- The low bits read without a sign. -/
theorem toU_low (hs : type.isSigned = false) (v : ℤ) : toU (bits type) (low type v) = low type v := by
  by_cases hb : type = .bool
  · subst hb
    rw [low_bool]
    split <;> rfl
  · rw [low_eq hb, wrap, hs]
    exact Int.emod_emod_of_dvd _ dvd_rfl

/-- Choosing by an order of the low bits. -/
theorem select_order (hi : IsInt type) (h : Ctx.isOrder type op = true) (other : IrOp → IrType → List ℤ → ℤ)
    (t : IrType) (x y : ℤ) :
    (if compute other op t [type, type] [low type x, low type y] ≠ 0 then low type x else low type y)
      = if Ctx.isLess op then min (low type x) (low type y) else max (low type x) (low type y) := by
  have hx (hs : type.isSigned = false) := toU_low hs x
  have hy (hs : type.isSigned = false) := toU_low hs y
  generalize low type x = a at *
  generalize low type y = b at *
  unfold Ctx.isOrder at h
  cases hs : type.isSigned with
  | true =>
    rw [if_pos hs] at h
    simp only [Bool.or_eq_true, decide_eq_true_eq] at h
    rcases h with ((rfl | rfl) | rfl) | rfl
    all_goals rw [compute_compare hi rfl ⟨rfl, rfl, rfl, by decide⟩]
    all_goals simp only [spec, read_bool, Ctx.isLess, min_def, max_def]
    all_goals grind
  | false =>
    rw [if_neg (by simp [hs])] at h
    simp only [Bool.or_eq_true, decide_eq_true_eq] at h
    rcases h with ((rfl | rfl) | rfl) | rfl
    all_goals rw [compute_compare hi rfl ⟨rfl, rfl, rfl, by decide⟩]
    all_goals simp only [spec, read_bool, Ctx.isLess, hx hs, hy hs, min_def, max_def]
    all_goals grind

/-! ## The operands after the walk -/

/-- The reference is read as a whole: it is not entered, unless it is the TRUNC, and is as it was. -/
structure Whole (base mid : Ctx) (D : ℤ → Prop) (i n : ℤ) : Prop where
  range : -(base.constsCount : ℤ) < n
  outside : D n → n = i
  insn : mid.insn n = base.insn n

theorem Ctx.Narrowed.type_eq {ctx : Ctx} (h : base.Narrowed type ctx n) : (ctx.insn n).type = type := by
  cases h <;> assumption

section

variable {S : Start base type i root} (O : S.Over ref' D V mid)
include O

theorem Walked.whole_start : Whole base mid D i i :=
  ⟨by have := S.pos; omega, fun _ => rfl, O.inv.start.2⟩

/-- The operand that takes the place of the TRUNC is not the TRUNC. -/
theorem Walked.ne_start : ref' ≠ i := by
  have hpos := S.pos
  rcases O.image.cases with ⟨-, hneg⟩ | ⟨-, hby, rfl⟩ | ⟨-, -, rfl⟩
  · omega
  · intro h
    have hops := operands_ext S.checked hby.2.1
    refine S.checked.acyclic i root (by rw [S.op]; rfl) (cls_of_visited (.inl hby.2.1)) ?_ ?_
    · rw [S.operands]
      exact List.mem_singleton_self _
    · rw [hops, h]
      exact List.mem_singleton_self _
  · exact S.ne

/-- The instructions of the expression are entered. -/
theorem Walked.visited_entered (h : base.Visited root n) (hpos : 0 < n) (hby : ¬base.Bypassed type n) : D n := by
  induction h with
  | root => exact O.reach root (List.mem_singleton_self _) hpos hby
  | @operand p o _ hmem ih =>
    have hext : ¬isExt (base.insn p).op = true := by
      intro h
      rw [narrowOps_ext h] at hmem
      exact absurd hmem List.not_mem_nil
    have hp : 0 < p := by
      by_contra hp
      have hnil := S.checked.operands_const (not_lt.1 hp)
      have := mem_operands_of_narrowOps S.checked hmem
      rw [hnil] at this
      exact absurd this List.not_mem_nil
    have hD := ih hp fun h => hext h.2.1
    have hpi : p ≠ i := by
      rintro rfl
      exact hext (by rw [S.op]; rfl)
    exact (O.done p hD hpi).2.2.2.2.2 o hmem hpos hby

/-- An operand that is not entered is as it was, unless it is an extension that is gone. -/
theorem Walked.whole_of_operand (ho : o ∈ (base.insn n).operands) (hD : D o → o = i)
    (hkept : ¬base.Bypassed type o ∨ ∃ m, 0 < m ∧ m ≠ i ∧ o ∈ (mid.insn m).operands) : Whole base mid D i o := by
  have hr := S.checked.range n o ho
  refine ⟨hr, hD, ?_⟩
  rcases lt_or_ge 0 o with hpos | hneg
  · by_cases hDo : D o
    · rw [hD hDo]
      exact O.inv.start.2
    · rcases O.outside hpos hDo with h | ⟨hby, -, -, hnot⟩
      · exact h
      · rcases hkept with h | ⟨m, hm, hmi, hmem⟩
        · exact absurd hby h
        · exact absurd hmem (hnot m hm hmi)
  · exact (O.inv.consts o hneg hr).1

/-- The value that an extension is left out for. -/
theorem Walked.whole_source (h : base.Bypassed type n) : Whole base mid D i (base.insn n).op1 := by
  have hops := operands_ext S.checked h.2.1
  have hmem : (base.insn n).op1 ∈ (base.insn n).operands := by
    rw [hops]
    exact List.mem_singleton_self _
  have hnD : ¬D n := by
    intro hD
    rcases O.inv.entered n hD with rfl | ⟨hby, -⟩
    · exact S.not_bypassed h
    · exact hby h
  refine O.whole_of_operand hmem (O.inv.operand_outside S hnD hmem) (.inl ?_)
  have him : base.Image type mid n (base.insn n).op1 := by
    unfold Ctx.Image
    rw [if_neg (not_lt.2 h.1.le)]
    exact .inl ⟨h, rfl⟩
  exact him.not_bypassed S.checked

/-- What stands for an operand has the narrow type. -/
theorem Walked.image_type_mid (hvis : base.Visited root n) (hn : n ≠ 0) (him : base.Image type mid n o') (hne : o' ≠ i) :
    (mid.insn o').type = type := by
  unfold Ctx.Image at him
  split_ifs at him with hneg
  · exact him.2.2.2.1
  · have hpos : 0 < n := by omega
    rcases him with ⟨hby, rfl⟩ | ⟨hby, rfl⟩
    · rw [(O.whole_source hby).insn, hby.2.2]
    · exact (O.done _ (O.visited_entered hvis hpos hby) hne).2.2.2.1.type_eq

end

end IrJit.Narrow
