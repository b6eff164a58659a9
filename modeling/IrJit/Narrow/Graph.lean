import IrJit.Narrow.Value

/-!
# Narrow.Graph — the graphs that are narrowed, and what their instructions evaluate to

The leaves of a graph have values at every instant, and a PHI takes the value that one of its inputs has at
another instant: evaluation makes no difference between the PHIs of a loop and others.
-/

namespace IrJit.Narrow

open Fold (IsInt valueOf)
open IfConv (Insn isConstRef)

/-! ## Evaluation -/

/-- The opcodes of the constants and of the unused slot. -/
def isConst (op : IrOp) : Bool := op = .nop || op.isConstOp || op.isSymConst || op = .funcAddr

/-- What does not depend on the integer instructions of a graph: the values of its leaves, the results of the
other instructions, and which input a PHI takes, of which instant. -/
structure World (T : Type) where
  other : IrOp → IrType → List ℤ → ℤ
  leaf : ℤ → T → ℤ
  select : ℤ → T → ℕ × T

variable {T : Type}

namespace Ctx

variable (ctx : Ctx) (W : World T)

/-- The value of an instruction when its operands have the values `ρ`. -/
def value (n : ℤ) (ρ : ℤ → ℤ) : ℤ :=
  compute W.other (ctx.insn n).op (ctx.insn n).type ((ctx.insn n).operands.map fun o => (ctx.insn o).type)
    ((ctx.insn n).operands.map ρ)

/-- The data inputs of a PHI. -/
def inputs (n : ℤ) : List ℤ := (ctx.insn n).operands.drop 1

/-- The reference evaluates to a value at an instant. -/
inductive Evaluates : ℤ → T → ℤ → Prop
  | const {n : ℤ} {τ : T} (neg : n < 0) (op : (ctx.insn n).op ≠ .nop) (sym : (ctx.insn n).op.isSymConst = false) :
    Evaluates n τ (valueOf (ctx.insn n).type (ctx.val n))
  | sym {n : ℤ} {τ : T} (neg : n < 0) (sym : (ctx.insn n).op.isSymConst = true) :
    Evaluates n τ (read (ctx.insn n).type (W.leaf n τ))
  | data {n : ℤ} {τ : T} {ρ : ℤ → ℤ} (pos : 0 < n) (cls : (ctx.insn n).op.cls = .data) (zero : ρ 0 = 0)
    (operands : ∀ o ∈ (ctx.insn n).operands, o ≠ 0 → Evaluates o τ (ρ o)) : Evaluates n τ (ctx.value W n ρ)
  | phi {n o : ℤ} {τ τ' : T} {k : ℕ} {v : ℤ} (pos : 0 < n) (op : (ctx.insn n).op = .phi)
    (select : W.select n τ = (k, τ')) (input : (ctx.inputs n)[k]? = some o) (operand : Evaluates o τ' v) :
    Evaluates n τ (read (ctx.insn n).type v)
  | leaf {n : ℤ} {τ : T} (pos : 0 < n) (cls : (ctx.insn n).op.cls ≠ .data) (phi : (ctx.insn n).op ≠ .phi)
    (nop : (ctx.insn n).op ≠ .nop) : Evaluates n τ (read (ctx.insn n).type (W.leaf n τ))

variable {ctx W} {n : ℤ} {τ : T} {u v : ℤ}

theorem value_congr {ρ ρ' : ℤ → ℤ} (h : ∀ o ∈ (ctx.insn n).operands, ρ o = ρ' o) :
    ctx.value W n ρ = ctx.value W n ρ' := by
  unfold value
  rw [List.map_congr_left h]

theorem Evaluates.unique (h : ctx.Evaluates W n τ u) (h' : ctx.Evaluates W n τ v) : u = v := by
  induction h generalizing v with
  | const neg op sym =>
    cases h' with
    | const => rfl
    | sym _ hsym => rw [sym] at hsym; cases hsym
    | data pos => omega
    | phi pos => omega
    | leaf pos => omega
  | sym neg sym =>
    cases h' with
    | const _ _ hsym => rw [sym] at hsym; cases hsym
    | sym => rfl
    | data pos => omega
    | phi pos => omega
    | leaf pos => omega
  | data pos cls zero operands ih =>
    cases h' with
    | const neg => omega
    | sym neg => omega
    | data _ _ zero' operands' =>
      refine value_congr fun o ho => ?_
      by_cases h0 : o = 0
      · rw [h0, zero, zero']
      · exact ih o ho h0 (operands' o ho h0)
    | phi _ op => rw [op] at cls; cases cls
    | leaf _ hcls => exact absurd cls hcls
  | phi pos op select input operand ih =>
    cases h' with
    | const neg => omega
    | sym neg => omega
    | data _ cls => rw [op] at cls; cases cls
    | phi _ _ select' input' operand' =>
      rw [select] at select'
      obtain ⟨rfl, rfl⟩ := Prod.mk.inj select'
      rw [input, Option.some.injEq] at input'
      subst input'
      rw [ih operand']
    | leaf _ _ phi => exact absurd op phi
  | leaf pos cls phi nop =>
    cases h' with
    | const neg => omega
    | sym neg => omega
    | data _ hcls => exact absurd hcls cls
    | phi _ op => exact absurd op phi
    | leaf => rfl

/-- The value of an instruction is a value of its type. -/
theorem Evaluates.range (h : ctx.Evaluates W n τ v) : read (ctx.insn n).type v = v := by
  cases h with
  | const =>
    unfold valueOf read
    split_ifs
    · exact wrap_self _ _
    · rfl
  | sym => exact read_read _ _
  | data => exact read_read _ _
  | phi => exact read_read _ _
  | leaf => exact read_read _ _

theorem Evaluates.ne_zero (h : ctx.Evaluates W n τ v) : n ≠ 0 := by
  cases h <;> omega

/-- What an operand counts for; an unused operand is zero. -/
def Gives (ctx : Ctx) (W : World T) (τ : T) (o x : ℤ) : Prop := (o = 0 ∧ x = 0) ∨ ctx.Evaluates W o τ x

open Classical in
/-- The value of an operand, if it has one. -/
noncomputable def valueAt (ctx : Ctx) (W : World T) (τ : T) (n : ℤ) : ℤ :=
  if h : ∃ v, ctx.Evaluates W n τ v then h.choose else 0

theorem Gives.valueAt_eq (h : ctx.Gives W τ n v) : ctx.valueAt W τ n = v := by
  unfold valueAt
  rcases h with ⟨rfl, rfl⟩ | h
  · exact dif_neg fun ⟨_, h⟩ => h.ne_zero rfl
  · rw [dif_pos ⟨v, h⟩]
    exact (Exists.choose_spec ⟨v, h⟩ : ctx.Evaluates W n τ _).unique h

/-- A data instruction whose operands give the values `xs`. -/
theorem Evaluates.of_gives (xs : List ℤ) (pos : 0 < n) (cls : (ctx.insn n).op.cls = .data)
    (h : List.Forall₂ (ctx.Gives W τ) (ctx.insn n).operands xs) :
    ctx.Evaluates W n τ (compute W.other (ctx.insn n).op (ctx.insn n).type
      ((ctx.insn n).operands.map fun o => (ctx.insn o).type) xs) := by
  have hxs : xs = (ctx.insn n).operands.map (ctx.valueAt W τ) := by
    generalize (ctx.insn n).operands = l at h
    induction h with
    | nil => rfl
    | cons h _ ih => rw [List.map_cons, h.valueAt_eq, ← ih]
  rw [hxs]
  refine .data pos cls (Gives.valueAt_eq (.inl ⟨rfl, rfl⟩)) fun o ho hne => ?_
  rw [hxs, List.forall₂_map_right_iff, List.forall₂_same] at h
  exact (h o ho).resolve_left fun h => hne h.1

/-! ## The expression -/

variable (ctx) (type : IrType)

/-- What `ir_check` says of a context, with complete use lists. -/
structure Checked : Prop where
  consts : ∀ n ≤ 0, isConst (ctx.insn n).op = true
  zero : (ctx.insn 0).op = .nop
  constsCount : 3 < ctx.constsCount
  false_ : (ctx.insn Consts.irFalse).op = .cBool ∧ (ctx.insn Consts.irFalse).type = .bool ∧
    ctx.val Consts.irFalse = 0
  true_ : (ctx.insn Consts.irTrue).op = .cBool ∧ (ctx.insn Consts.irTrue).type = .bool ∧
    ctx.val Consts.irTrue = 1
  inputs : ∀ n, (ctx.insn n).op.hasVarInputs = false → (ctx.insn n).inputsCount = (ctx.insn n).op.inputEdges
  operands : ∀ n, (ctx.insn n).operands.length = (ctx.insn n).inputsCount
  phi : ∀ n, (ctx.insn n).op = .phi → (ctx.insn n).operands ≠ []
  range : ∀ n, ∀ o ∈ (ctx.insn n).operands, -(ctx.constsCount : ℤ) < o
  uses : ∀ w n, 0 < w → (ctx.uses w).count n = (ctx.insn n).operands.count w
  ext : ∀ n, isExt (ctx.insn n).op = true →
    ExtTypes (ctx.insn n).op (ctx.insn n).type (ctx.insn (ctx.insn n).op1).type
  -- without a PHI no value depends on itself
  acyclic : ∀ n o, (ctx.insn n).op.cls = .data → (ctx.insn o).op.cls = .data → o ∈ (ctx.insn n).operands →
    n ∉ (ctx.insn o).operands

/-- The operands that are narrowed with an instruction. -/
def narrowOps (n : ℤ) : List ℤ :=
  let insn := ctx.insn n
  if isConstRef n then []
  else if isUnary insn.op then [insn.op1]
  else if isBinary insn.op then [insn.op1, insn.op2]
  else if insn.op = .cond then [insn.op2, insn.op3]
  else if insn.op = .phi then (ctx.inputs n).filter (· ≠ n)
  else []

/-- The instructions of the expression, with its leaves. -/
inductive Visited (root : ℤ) : ℤ → Prop
  | root : Visited root root
  | operand {n o : ℤ} (parent : Visited root n) (mem : o ∈ ctx.narrowOps n) : Visited root o

/-- An extension of a value that has the narrow type; the value takes its place. -/
def Bypassed (n : ℤ) : Prop :=
  0 < n ∧ isExt (ctx.insn n).op = true ∧ (ctx.insn (ctx.insn n).op1).type = type

/-- The extensions that go are not of constants, and what they are an operand of reads them where it is narrowed
only, and once if it is a PHI. -/
structure Separate (root : ℤ) : Prop where
  operand : ∀ n, ctx.Visited root n → ctx.Bypassed type n → 0 < (ctx.insn n).op1
  cond : ∀ n, ctx.Visited root n → ∀ o ∈ ctx.narrowOps n, ctx.Bypassed type o → (ctx.insn n).op = .cond →
    o ≠ (ctx.insn n).op1
  phi : ∀ n, ctx.Visited root n → ∀ o ∈ ctx.narrowOps n, ctx.Bypassed type o → (ctx.insn n).op = .phi →
    (ctx.insn n).operands.count o = 1

variable (W)

/-- What an instruction of the narrow type computes when its operands have the low bits of the values `ρ`; a
value that an extension is left out for has all its bits. -/
def narrowValue (n : ℤ) (ρ : ℤ → ℤ) : ℤ :=
  let insn := ctx.insn n
  let src := (ctx.insn insn.op1).type
  if isConstRef n then valueOf type (narrowVal type (ctx.val n))
  else if isExt insn.op then
    if src = type then ρ insn.op1 else compute W.other (extOp type src insn.op) type [src] [ρ insn.op1]
  else if insn.op = .cond then if ρ insn.op1 ≠ 0 then low type (ρ insn.op2) else low type (ρ insn.op3)
  else compute W.other insn.op type [] (insn.operands.map fun o => low type (ρ o))

/-- The value of a constant or an instruction with the operand values `ρ`. -/
def wideValue (n : ℤ) (ρ : ℤ → ℤ) : ℤ :=
  if isConstRef n then valueOf (ctx.insn n).type (ctx.val n) else ctx.value W n ρ

/-- The narrow type does not fit the type of an instruction: it is `BOOL`, or the instruction belongs to the
count of a shift and is of a smaller type. -/
def Misfit (n : ℤ) : Prop :=
  type = .bool ∨ (ctx.insn n).type = .bool ∨ ¬IsInt (ctx.insn n).type ∨ (ctx.insn n).type.size < type.size

/-- The instruction keeps the low bits of its value when its operands do. -/
def KeepsLow (n : ℤ) (ρ : ℤ → ℤ) : Prop :=
  let insn := ctx.insn n
  (ctx.Misfit type n → ctx.narrowValue W type n ρ = low type (ctx.wideValue W n ρ)) ∧
    (¬ctx.Misfit type n → Commutes type insn.type insn.op (read insn.type (ρ insn.op1)) (read insn.type (ρ insn.op2)))

/-- Everywhere in the expression the low bits are kept. -/
structure KeepsLowBits (root : ℤ) : Prop where
  const : ∀ n, ctx.Visited root n → n < 0 → ctx.KeepsLow W type n fun _ => 0
  data : ∀ n τ ρ, ctx.Visited root n → 0 < n → (ctx.insn n).op.cls = .data → ρ 0 = 0 →
    (∀ o ∈ (ctx.insn n).operands, o ≠ 0 → ctx.Evaluates W o τ (ρ o)) → ctx.KeepsLow W type n ρ
  phi : ∀ n o τ v, ctx.Visited root n → (ctx.insn n).op = .phi → o ∈ ctx.inputs n → ctx.Evaluates W o τ v →
    ctx.Misfit type n → low type (read (ctx.insn n).type v) = low type v

end Ctx

end IrJit.Narrow
