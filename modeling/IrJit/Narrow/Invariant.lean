import IrJit.Narrow.Graph

/-!
# Narrow.Invariant — what holds while an expression is narrowed

An instruction is entered when the walk comes to it, and left with the narrow type.  In between the references to
its operands are replaced in the use lists, one after the other, before they are in the instruction: the lists
are exact for the operands an instruction is going to have.
-/

namespace IrJit.Narrow

open Fold (IsInt)
open IfConv (Insn isConstRef)

/-- The reference that takes the place of an operand. -/
def subst (o o' a : ℤ) : ℤ := if a = o then o' else a

/-- `o'` stands for the operand `o` of an instruction that is narrowed. -/
def Ctx.Image (base : Ctx) (type : IrType) (ctx : Ctx) (o o' : ℤ) : Prop :=
  if o < 0 then
    o' < 0 ∧ -(ctx.constsCount : ℤ) < o' ∧ (ctx.insn o').op = constOp type ∧ (ctx.insn o').type = type ∧
      ctx.val o' = narrowVal type (base.val o)
  else (base.Bypassed type o ∧ o' = (base.insn o).op1) ∨ (¬base.Bypassed type o ∧ o' = o)

/-- The instruction has one use, besides those it may have as an input of itself. -/
def Ctx.Once (base : Ctx) (n : ℤ) : Prop := ((base.uses n).filter (· ≠ n)).length ≤ 1

/-- The TRUNC `i` and its operand. -/
structure Start (base : Ctx) (type : IrType) (i root : ℤ) : Prop where
  checked : base.Checked
  op : (base.insn i).op = .trunc
  type_eq : (base.insn i).type = type
  root_eq : (base.insn i).op1 = root
  separate : base.Separate type root

/-- What is left of an instruction that is narrowed. -/
inductive Ctx.Narrowed (base : Ctx) (type : IrType) (ctx : Ctx) (n : ℤ) : Prop
  | plain (op : isUnary (base.insn n).op = true ∨ isBinary (base.insn n).op = true)
    (op' : (ctx.insn n).op = (base.insn n).op) (type' : (ctx.insn n).type = type)
    (operands : List.Forall₂ (base.Image type ctx) (base.insn n).operands (ctx.insn n).operands)
  | cond {a b : ℤ} (op : (base.insn n).op = .cond) (op' : (ctx.insn n).op = .cond) (type' : (ctx.insn n).type = type)
    (operands : (ctx.insn n).operands = [(base.insn n).op1, a, b])
    (left : base.Image type ctx (base.insn n).op2 a) (right : base.Image type ctx (base.insn n).op3 b)
  | fused {a b : ℤ} (op : (base.insn n).op = .cond)
    (order : Ctx.isOrder type (base.insn (base.insn n).op1).op = true)
    (left' : (base.insn (base.insn n).op1).op1 = a) (right' : (base.insn (base.insn n).op1).op2 = b)
    (op' : (ctx.insn n).op = if Ctx.isLess (base.insn (base.insn n).op1).op then .min else .max)
    (type' : (ctx.insn n).type = type) (operands : (ctx.insn n).operands = [a, b, 0])
    (left : base.Image type ctx (base.insn n).op2 a) (right : base.Image type ctx (base.insn n).op3 b)
  | phi (op : (base.insn n).op = .phi) (op' : (ctx.insn n).op = .phi) (type' : (ctx.insn n).type = type)
    (inputs : List.Forall₂ (base.Image type ctx) (base.inputs n) (ctx.inputs n))
  | ext (op : isExt (base.insn n).op = true) (src : (base.insn (base.insn n).op1).type ≠ type)
    (op' : (ctx.insn n).op = Ctx.extOp type (base.insn (base.insn n).op1).type (base.insn n).op)
    (type' : (ctx.insn n).type = type) (operands : (ctx.insn n).operands = (base.insn n).operands)

/-- The invariant: `D` are the instructions entered, and `V` the operands that the use lists account for. -/
structure Inv (base : Ctx) (type : IrType) (i root : ℤ) (D : ℤ → Prop) (V : ℤ → List ℤ) (ctx : Ctx) : Prop where
  exact : ∀ w n, 0 < w → (ctx.uses w).count n = (V n).count w
  outside : ∀ n, 0 < n → ¬D n → (ctx.insn n = base.insn n ∧ V n = (base.insn n).operands) ∨
    (base.Bypassed type n ∧ base.Visited root n ∧ ctx.insn n = (base.insn n).makeNop ∧ V n = [] ∧ ctx.uses n = [])
  none : ∀ n ≤ 0, V n = []
  pos : ∀ n, D n → 0 < n
  entered : ∀ n, D n → n = i ∨
    ¬base.Bypassed type n ∧ base.Once n ∧ (n = root ∨ ∃ p, D p ∧ p ≠ n ∧ n ∈ base.narrowOps p)
  start : D i ∧ ctx.insn i = base.insn i
  consts : ∀ n ≤ 0, -(base.constsCount : ℤ) < n → ctx.insn n = base.insn n ∧ ctx.val n = base.val n
  constsCount : base.constsCount ≤ ctx.constsCount
  constOps : ∀ n ≤ 0, isConst (ctx.insn n).op = true

/-- What a part of the walk, from the operands `os` of `use` on, leaves as it was. -/
structure Frame (base : Ctx) (type : IrType) (i root use : ℤ) (os : List ℤ) (D : ℤ → Prop) (V : ℤ → List ℤ) (ctx : Ctx)
    (D' : ℤ → Prop) (V' : ℤ → List ℤ) (ctx' : Ctx) : Prop where
  inv : Inv base type i root D' V' ctx'
  mono : ∀ m, D m → D' m
  reach : ∀ o ∈ os, 0 < o → ¬base.Bypassed type o → D' o
  fresh : ∀ m, D' m → ¬D m → m ∈ os ∨ ∃ p, D' p ∧ ¬D p ∧ p ≠ m ∧ m ∈ base.narrowOps p
  keep : ∀ m, D m → m ≠ use → V' m = V m ∧ ctx'.insn m = ctx.insn m
  done : ∀ m, D' m → ¬D m → 0 < m ∧ base.Visited root m ∧ ¬base.Bypassed type m ∧ base.Narrowed type ctx' m ∧
    V' m = (ctx'.insn m).operands ∧ ∀ o ∈ base.narrowOps m, 0 < o → ¬base.Bypassed type o → D' o
  consts : ∀ n ≤ 0, -(ctx.constsCount : ℤ) < n → ctx'.insn n = ctx.insn n ∧ ctx'.val n = ctx.val n
  constsCount : ctx.constsCount ≤ ctx'.constsCount

/-- The walk comes to the operand `ref` of `use`; the TRUNC may be a leaf of its own expression. -/
structure Arrives (base : Ctx) (type : IrType) (i root use ref : ℤ) (D : ℤ → Prop) (V : ℤ → List ℤ) (ctx : Ctx) :
    Prop where
  inv : Inv base type i root D V ctx
  entered : D use
  operand : use = i ∧ ref = root ∨ ref ∈ base.narrowOps use
  slot : ref ∈ V use
  ne : use ≠ ref
  back : D ref → ref = i
  visited : base.Visited root ref
  whole : ref = root ∨ D root ∧ (ctx.insn root).type = (base.insn root).type

/-- The operand `ref` is not entered. -/
structure Ready (base : Ctx) (type : IrType) (i root use ref : ℤ) (D : ℤ → Prop) (V : ℤ → List ℤ) (ctx : Ctx) :
    Prop extends Arrives base type i root use ref D V ctx where
  fresh : ¬D ref

/-- The walk has been at the operand `ref` of `use`, which becomes `ref'`. -/
structure Walked (base : Ctx) (type : IrType) (i root use ref : ℤ) (D : ℤ → Prop) (V : ℤ → List ℤ) (ctx : Ctx)
    (ref' : ℤ) (D' : ℤ → Prop) (V' : ℤ → List ℤ) (ctx' : Ctx) : Prop extends
    Frame base type i root use [ref] D V ctx D' V' ctx' where
  slots : V' use = (V use).map (subst ref ref')
  kept : ctx'.insn use = ctx.insn use
  image : base.Image type ctx' ref ref'

variable {base ctx ctx' ctx'' : Ctx} {type : IrType} {root i use ref ref' n o o' a w : ℤ} {os os' : List ℤ}
  {D D' D'' : ℤ → Prop} {V V' V'' : ℤ → List ℤ}

/-! ## Frames -/

theorem Ctx.Image.mono (h : base.Image type ctx o o')
    (hc : ∀ n ≤ 0, -(ctx.constsCount : ℤ) < n → ctx'.insn n = ctx.insn n ∧ ctx'.val n = ctx.val n)
    (hcount : ctx.constsCount ≤ ctx'.constsCount) : base.Image type ctx' o o' := by
  unfold Ctx.Image at h ⊢
  split_ifs at h ⊢ with ho
  · obtain ⟨hneg, hrange, hop, hty, hval⟩ := h
    obtain ⟨hinsn, hval'⟩ := hc o' hneg.le hrange
    exact ⟨hneg, by omega, by rw [hinsn, hop], by rw [hinsn, hty], by rw [hval', hval]⟩
  · exact h

theorem Ctx.Image.modify (h : base.Image type ctx o o') (hpos : 0 < ref) (f : Insn → Insn) :
    base.Image type (ctx.modify ref f) o o' :=
  h.mono (fun n hn _ => ⟨ctx.modify_of_ne f (by omega), rfl⟩) le_rfl

theorem Ctx.Narrowed.mono (h : base.Narrowed type ctx n) (hn : ctx'.insn n = ctx.insn n)
    (hc : ∀ n ≤ 0, -(ctx.constsCount : ℤ) < n → ctx'.insn n = ctx.insn n ∧ ctx'.val n = ctx.val n)
    (hcount : ctx.constsCount ≤ ctx'.constsCount) : base.Narrowed type ctx' n := by
  cases h with
  | plain op op' type' operands =>
    exact .plain op (by rw [hn, op']) (by rw [hn, type']) (by rw [hn]; exact operands.imp fun _ _ h => h.mono hc hcount)
  | cond op op' type' operands left right =>
    exact .cond op (by rw [hn, op']) (by rw [hn, type']) (by rw [hn, operands]) (left.mono hc hcount)
      (right.mono hc hcount)
  | fused op order left' right' op' type' operands left right =>
    exact .fused op order left' right' (by rw [hn, op']) (by rw [hn, type']) (by rw [hn, operands])
      (left.mono hc hcount) (right.mono hc hcount)
  | phi op op' type' inputs =>
    refine .phi op (by rw [hn, op']) (by rw [hn, type']) ?_
    unfold Ctx.inputs at inputs ⊢
    rw [hn]
    exact inputs.imp fun _ _ h => h.mono hc hcount
  | ext op src op' type' operands =>
    exact .ext op src (by rw [hn, op']) (by rw [hn, type']) (by rw [hn, operands])

/-- Two parts of the walk, one after the other. -/
theorem Frame.trans (h : Frame base type i root use os D V ctx D' V' ctx') (hD : D use)
    (h' : Frame base type i root use os' D' V' ctx' D'' V'' ctx'') :
    Frame base type i root use (os ++ os') D V ctx D'' V'' ctx'' where
  inv := h'.inv
  mono m hm := h'.mono m (h.mono m hm)
  reach o ho hpos hby := (List.mem_append.1 ho).elim (fun ho => h'.mono o (h.reach o ho hpos hby))
    fun ho => h'.reach o ho hpos hby
  fresh m hm hnot := by
    by_cases hm' : D' m
    · rcases h.fresh m hm' hnot with hos | ⟨p, hp, hnp, hne, hop⟩
      · exact .inl (List.mem_append_left _ hos)
      · exact .inr ⟨p, h'.mono p hp, hnp, hne, hop⟩
    · rcases h'.fresh m hm hm' with hos | ⟨p, hp, hnp, hne, hop⟩
      · exact .inl (List.mem_append_right _ hos)
      · exact .inr ⟨p, hp, fun hp' => hnp (h.mono p hp'), hne, hop⟩
  keep m hm hne := by
    obtain ⟨hV, hinsn⟩ := h.keep m hm hne
    obtain ⟨hV', hinsn'⟩ := h'.keep m (h.mono m hm) hne
    exact ⟨hV'.trans hV, hinsn'.trans hinsn⟩
  done m hm hnot := by
    by_cases hm' : D' m
    · obtain ⟨hpos, hvis, hby, hnar, hV, hclosed⟩ := h.done m hm' hnot
      have hne : m ≠ use := by
        rintro rfl
        exact hnot hD
      obtain ⟨hV', hinsn⟩ := h'.keep m hm' hne
      exact ⟨hpos, hvis, hby, hnar.mono hinsn h'.consts h'.constsCount, by rw [hV', hV, hinsn],
        fun o ho hpos hby => h'.mono o (hclosed o ho hpos hby)⟩
    · exact h'.done m hm hm'
  consts n hn hr := by
    obtain ⟨hinsn, hval⟩ := h.consts n hn hr
    have := h.constsCount
    obtain ⟨hinsn', hval'⟩ := h'.consts n hn (by omega)
    exact ⟨hinsn'.trans hinsn, hval'.trans hval⟩
  constsCount := h.constsCount.trans h'.constsCount

theorem Frame.refl (use : ℤ) (h : Inv base type i root D V ctx) : Frame base type i root use [] D V ctx D V ctx where
  inv := h
  mono _ hm := hm
  reach _ ho := absurd ho List.not_mem_nil
  fresh _ hm hnot := absurd hm hnot
  keep _ _ _ := ⟨rfl, rfl⟩
  done _ hm hnot := absurd hm hnot
  consts _ _ _ := ⟨rfl, rfl⟩
  constsCount := le_rfl

/-! ## Uses -/

theorem Ctx.Checked.pos_of_op (C : base.Checked) (h : isConst (base.insn n).op = false) : 0 < n := by
  by_contra hn
  rw [C.consts n (not_lt.1 hn)] at h
  cases h

/-- No data instruction is an operand of its own. -/
theorem Ctx.Checked.not_self (C : base.Checked) (n : ℤ) (h : (base.insn n).op.cls = .data) :
    n ∉ (base.insn n).operands := fun hn => C.acyclic n n h h hn hn

theorem Ctx.Checked.ne_operand (C : base.Checked) (h : (base.insn n).op.cls = .data) (ho : o ∈ (base.insn n).operands) :
    n ≠ o := by
  rintro rfl
  exact C.not_self n h ho

theorem Start.pos (S : Start base type i root) : 0 < i := S.checked.pos_of_op (by rw [S.op]; rfl)

theorem Start.types (S : Start base type i root) : IsInt type ∧ IsInt (base.insn root).type ∧
    type.size < (base.insn root).type.size := by
  have h := S.checked.ext i (by rw [S.op]; rfl)
  rw [S.op, S.type_eq, S.root_eq] at h
  exact ⟨h.1, h.2.1, by simpa using h.2.2⟩

theorem Start.not_bypassed (S : Start base type i root) : ¬base.Bypassed type i := by
  rintro ⟨-, -, hty⟩
  rw [S.root_eq] at hty
  have := S.types.2.2
  rw [hty] at this
  exact lt_irrefl _ this

section

variable (C : base.Checked)
include C

/-- The operands of an instruction with a fixed number of inputs. -/
theorem Ctx.Checked.operands_eq (h : (base.insn n).op.hasVarInputs = false) {k : ℕ}
    (hk : (base.insn n).op.inputEdges = k) (h3 : k ≤ 3) :
    (base.insn n).operands = [(base.insn n).op1, (base.insn n).op2, (base.insn n).op3].take k := by
  have hin := C.inputs n h
  unfold Insn.operands
  rw [hin, hk, List.take_append_of_le_length (by simpa using h3)]

theorem operands_ext (h : isExt (base.insn n).op = true) : (base.insn n).operands = [(base.insn n).op1] := by
  simp only [isExt, Bool.or_eq_true, decide_eq_true_eq] at h
  rcases h with (h | h) | h
  all_goals exact C.operands_eq (k := 1) (by rw [h]; rfl) (by rw [h]; rfl) (by omega)

theorem operands_unary (h : isUnary (base.insn n).op = true) : (base.insn n).operands = [(base.insn n).op1] := by
  simp only [isUnary, Bool.or_eq_true, decide_eq_true_eq] at h
  rcases h with (h | h) | h
  all_goals exact C.operands_eq (k := 1) (by rw [h]; rfl) (by rw [h]; rfl) (by omega)

theorem operands_binary (h : isBinary (base.insn n).op = true) :
    (base.insn n).operands = [(base.insn n).op1, (base.insn n).op2] := by
  simp only [isBinary, Bool.or_eq_true, decide_eq_true_eq] at h
  rcases h with (((((((h | h) | h) | h) | h) | h) | h) | h) | h
  all_goals exact C.operands_eq (k := 2) (by rw [h]; rfl) (by rw [h]; rfl) (by omega)

theorem operands_cond (h : (base.insn n).op = .cond) :
    (base.insn n).operands = [(base.insn n).op1, (base.insn n).op2, (base.insn n).op3] :=
  C.operands_eq (k := 3) (by rw [h]; rfl) (by rw [h]; rfl) le_rfl

theorem mem_operands_of_narrowOps (h : o ∈ base.narrowOps n) : o ∈ (base.insn n).operands := by
  unfold Ctx.narrowOps at h
  dsimp only at h
  split_ifs at h with hc hu hb hcond hphi
  · exact absurd h List.not_mem_nil
  · rw [operands_unary C hu]
    exact h
  · rw [operands_binary C hb]
    exact h
  · rw [operands_cond C hcond]
    exact List.mem_cons_of_mem _ h
  · exact List.mem_of_mem_drop (List.mem_of_mem_filter h)
  · exact absurd h List.not_mem_nil

/-- A single use is by one instruction, which has it for one operand. -/
theorem Ctx.Once.unique (h : base.Once n) (hpos : 0 < n) {p q : ℤ} (hp : n ∈ (base.insn p).operands) (hpn : p ≠ n)
    (hq : n ∈ (base.insn q).operands) (hqn : q ≠ n) : p = q ∧ (base.insn p).operands.count n = 1 := by
  have hmem : ∀ {r}, n ∈ (base.insn r).operands → r ≠ n → r ∈ (base.uses n).filter (· ≠ n) := by
    intro r hr hrn
    rw [List.mem_filter, decide_eq_true_eq]
    refine ⟨?_, hrn⟩
    rw [← List.count_pos_iff, C.uses n r hpos, List.count_pos_iff]
    exact hr
  have hlen : ((base.uses n).filter (· ≠ n)).length = 1 :=
    le_antisymm h (List.length_pos_of_mem (hmem hp hpn))
  obtain ⟨r, hr⟩ := List.length_eq_one_iff.1 hlen
  have hpr := hmem hp hpn
  have hqr := hmem hq hqn
  rw [hr, List.mem_singleton] at hpr hqr
  refine ⟨by rw [hpr, hqr], ?_⟩
  rw [← C.uses n p hpos, ← List.count_filter (p := (· ≠ n)) (by simpa using hpn), hr, hpr]
  simp

end

/-- The walk does not go past an extension or truncation. -/
theorem narrowOps_ext (h : isExt (base.insn n).op = true) : base.narrowOps n = [] := by
  unfold Ctx.narrowOps
  dsimp only
  simp only [isExt, Bool.or_eq_true, decide_eq_true_eq] at h
  rcases h with (h | h) | h <;> rw [h] <;> exact ite_self _

theorem Start.operands (S : Start base type i root) : (base.insn i).operands = [root] := by
  rw [operands_ext S.checked (by rw [S.op]; rfl), S.root_eq]

theorem Start.ne (S : Start base type i root) : root ≠ i := by
  intro h
  refine S.checked.not_self i (by rw [S.op]; rfl) ?_
  rw [S.operands, h]
  exact List.mem_singleton_self _

/-! ## The test of the walk -/

theorem allTrue_eq {f : ℤ → Option Bool} {l : List ℤ} (h : allTrue f l = some true) : ∀ o ∈ l, f o = some true := by
  induction l with
  | nil => exact fun o ho => absurd ho List.not_mem_nil
  | cons a l ih =>
    simp only [allTrue, Option.bind_eq_bind, Option.bind_eq_some_iff] at h
    obtain ⟨b, hb, h⟩ := h
    cases b with
    | false => simp at h
    | true =>
      intro o ho
      rcases List.mem_cons.1 ho with rfl | ho
      · exact hb
      · exact ih (by simpa using h) o ho

theorem and_of_ite {p : Prop} [Decidable p] {x : Option Bool} (h : (if p then x else some false) = some true) :
    p ∧ x = some true := by
  by_cases hp : p
  · rw [if_pos hp] at h
    exact ⟨hp, h⟩
  · rw [if_neg hp] at h
    simp at h

/-- What the test says of an instruction: it is of a kind that the walk knows, has one use or is an extension of
a narrow value, and the test has been made for the operands. -/
theorem mayPromoteTrunc_eq {fuel : ℕ} (C : base.Checked) (h : base.mayPromoteTrunc type (fuel + 1) ref = some true) :
    (ref < 0 ∧ (base.insn ref).op.isSymConst = false) ∨
    (0 < ref ∧ (base.Bypassed type ref ∨ base.Once ref) ∧ (isExt (base.insn ref).op = true ∨
      isUnary (base.insn ref).op = true ∨ isBinary (base.insn ref).op = true ∨ (base.insn ref).op = .cond ∨
      (base.insn ref).op = .phi) ∧ ∀ o ∈ base.narrowOps ref, base.mayPromoteTrunc type fuel o = some true) := by
  have honce : (base.uses ref).length = 1 → base.Once ref := fun h => (List.length_filter_le _ _).trans h.le
  unfold Ctx.mayPromoteTrunc at h
  dsimp only at h
  by_cases hc : isConstRef ref = true
  · rw [if_pos hc] at h
    exact .inl ⟨by simpa [isConstRef] using hc, by simpa using h⟩
  have hops : base.narrowOps ref = if isUnary (base.insn ref).op then [(base.insn ref).op1]
      else if isBinary (base.insn ref).op then [(base.insn ref).op1, (base.insn ref).op2]
      else if (base.insn ref).op = .cond then [(base.insn ref).op2, (base.insn ref).op3]
      else if (base.insn ref).op = .phi then (base.inputs ref).filter (· ≠ ref) else [] := if_neg hc
  rw [if_neg hc] at h
  refine .inr ?_
  by_cases hext : isExt (base.insn ref).op = true
  · rw [if_pos hext, Option.some.injEq, Bool.or_eq_true, decide_eq_true_eq, decide_eq_true_eq] at h
    have hpos : 0 < ref := C.pos_of_op (by
      simp only [isExt, Bool.or_eq_true, decide_eq_true_eq] at hext
      rcases hext with (h | h) | h <;> rw [h] <;> rfl)
    refine ⟨hpos, h.imp (fun h => ⟨hpos, hext, h⟩) honce, .inl hext, ?_⟩
    rw [narrowOps_ext hext]
    exact fun o ho => absurd ho List.not_mem_nil
  rw [if_neg hext] at h
  by_cases hun : isUnary (base.insn ref).op = true
  · rw [if_pos hun] at h hops
    obtain ⟨hone, h⟩ := and_of_ite h
    refine ⟨C.pos_of_op ?_, .inr (honce hone), .inr (.inl hun), ?_⟩
    · simp only [isUnary, Bool.or_eq_true, decide_eq_true_eq] at hun
      rcases hun with (h | h) | h <;> rw [h] <;> rfl
    · rw [hops]
      intro o ho
      rw [List.mem_singleton.1 ho]
      exact h
  rw [if_neg hun] at h hops
  by_cases hbin : isBinary (base.insn ref).op = true
  · rw [if_pos hbin] at h hops
    obtain ⟨hone, h⟩ := and_of_ite h
    refine ⟨C.pos_of_op ?_, .inr (honce hone), .inr (.inr (.inl hbin)), hops ▸ allTrue_eq h⟩
    simp only [isBinary, Bool.or_eq_true, decide_eq_true_eq] at hbin
    rcases hbin with (((((((h | h) | h) | h) | h) | h) | h) | h) | h <;> rw [h] <;> rfl
  rw [if_neg hbin] at h hops
  by_cases hcond : (base.insn ref).op = .cond
  · rw [if_pos hcond] at h hops
    obtain ⟨hone, h⟩ := and_of_ite h
    exact ⟨C.pos_of_op (by rw [hcond]; rfl), .inr (honce hone), .inr (.inr (.inr (.inl hcond))),
      hops ▸ allTrue_eq h⟩
  rw [if_neg hcond] at h hops
  by_cases hphi : (base.insn ref).op = .phi
  · rw [if_pos hphi] at h hops
    rw [← ite_not] at h
    obtain ⟨huses, h⟩ := and_of_ite h
    refine ⟨C.pos_of_op (by rw [hphi]; rfl), .inr ?_, .inr (.inr (.inr (.inr hphi))), hops ▸ allTrue_eq h⟩
    by_cases hone : (base.uses ref).length = 1
    · exact honce hone
    · by_contra hnot
      exact huses ⟨not_le.1 hnot, by simpa using hone⟩
  · rw [if_neg hphi] at h
    simp at h

end IrJit.Narrow
