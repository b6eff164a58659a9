import IrJit.Core.Ops
import IrJit.Core.Types
import Mathlib.Tactic.Common

/-!
# Load.Buffers — the stores of the loader into its fixed buffers (`ir_func_proto`, `ir_insn`, `val`)

A text is what the rules of the grammar read, in their order, as far as the loader gets: where it stops at a
syntax error the lists just end.  A store out of bounds is an outcome of its own.  `items` are the actions of the
rules that store, so that the whole run is the run of its items.
-/

namespace IrJit.Load

/-! ## Texts -/

/-- What an operand of an instruction is (`val`); a function prototype has the types of its parameters. -/
inductive Operand
  | ref | str | number | null
  | func (params : List IrType)

/-- `ir_insn`, what stands behind the equals sign. -/
inductive Insn
  | const | sym | label | str
  | func (params : List IrType)
  | funcAddr (params : List IrType)
  /-- `op/count(...)`; `count` are the low 32 bits of the number. -/
  | opN (op : IrOp) (count : BitVec 32) (operands : List Operand)
  | op (op : IrOp) (operands : List Operand) (atMost3 : operands.length ≤ 3)

/-- `ir_sym_data`; `callback` says that the loader has a function `sym_data_ref`. -/
inductive SymData
  | sym (nameLen : ℕ) (callback : Bool)
  | func (nameLen : ℕ) (callback : Bool)
  | const

/-- The declarations of `ir`, with the lengths of the names. -/
inductive Decl
  | externSym (nameLen : ℕ)
  | externFunc (nameLen : ℕ) (params : List IrType)
  | sym (nameLen : ℕ) (data : List SymData)
  | func (nameLen : ℕ) (params : List IrType) (body : List Insn)

inductive Text
  | decls (decls : List Decl)
  | body (body : List Insn)

/-! ## The loader -/

inductive LoadError
  | nameTooLong | nameTooParams | negativeOperands | tooManyOperands
  deriving DecidableEq

/-- How loading ends early: with an error, or with a store outside of a buffer. -/
inductive Stop
  | rejected (e : LoadError)
  | outOfBounds
  deriving DecidableEq

/-- A store to the index `i` of a buffer with `size` elements. -/
def store (size i : ℕ) : Except Stop Unit := if i < size then .ok () else .error .outOfBounds

def reject (e : LoadError) : Except Stop Unit := .error (.rejected e)

/-- `char name[256]`: the length of the name is checked, and the name is copied, with a `NUL`. -/
def irName (len : ℕ) : Except Stop Unit := do
  if len > 255 then reject .nameTooLong
  -- `memcpy` of no byte stores nothing
  if len > 0 then store 256 (len - 1)
  store 256 len

/-- `IR_MAX_OPERANDS`. -/
def maxOperands : ℕ := 512

/-- The rules that call `ir_func_proto`. -/
inductive Place
  | ir | insn | val
  deriving DecidableEq

/-- The length of `param_types`. -/
def Place.paramTypes : Place → ℕ
  | .ir => 256
  | .insn => maxOperands + 1
  | .val => 256

/-- The loop of `ir_func_proto`, from the parameter `n` on. -/
def protoLoop (place : Place) : ℕ → List IrType → Except Stop Unit
  | _, [] => .ok ()
  | n, _ :: types => do
    store place.paramTypes n
    let n := n + 1
    if n > 256 then reject .nameTooParams
    protoLoop place n types

/-- `ir_func_proto`. -/
def irFuncProto (place : Place) : List IrType → Except Stop Unit
  | [] => .ok ()
  | _ :: types => do
    store place.paramTypes 0
    protoLoop place 1 types

/-- `val`. -/
def val : Operand → Except Stop Unit
  | .func params => irFuncProto .val params
  | _ => .ok ()

/-- The number of operands: the control operand of `PHI` and `SNAPSHOT` and the two first operands of a call are
not counted in the text. -/
def adjustCount (op : IrOp) (count : BitVec 32) : BitVec 32 :=
  let count := if op = .phi ∨ op = .snapshot then count + 1 else count
  if op = .call ∨ op = .tailcall ∨ op = .asm then count + 2 else count

/-- The `ir_ref` slots of the instructions that `ir_emit_N` reserves. -/
def slots (count : ℕ) : ℕ := 4 * (1 + count / 4)

/-- `ir_emit_N` clears the operands up to `count|3`. -/
def emitN (count : ℕ) : Except Stop Unit := store (slots count) (count ||| 3)

/-- The operand `n` is stored by `ir_set_op`. -/
def setOp (count n : ℕ) : Except Stop Unit := do
  if n > count then reject .tooManyOperands
  store (slots count) n

/-- The operands of `op/count(...)`, behind the operand `n`. -/
def setOps (count : ℕ) : ℕ → List Operand → Except Stop Unit
  | _, [] => .ok ()
  | n, v :: operands => do
    val v
    setOp count (n + 1)
    setOps count (n + 1) operands

/-- The checks of the number of operands, and `ir_emit_N`. -/
def declareN (op : IrOp) (count : BitVec 32) : Except Stop Unit := do
  if (adjustCount op count).toInt < 0 then reject .negativeOperands
  if (adjustCount op count).toInt > maxOperands then reject .tooManyOperands
  emitN (adjustCount op count).toNat

def vals : List Operand → Except Stop Unit
  | [] => .ok ()
  | v :: operands => do
    val v
    vals operands

/-- `ir_insn`. -/
def irInsn : Insn → Except Stop Unit
  | .func params | .funcAddr params => irFuncProto .insn params
  | .opN op count operands => do
    declareN op count
    setOps (adjustCount op count).toNat 0 operands
  | .op _ operands _ => vals operands
  | _ => .ok ()

/-- `ir_func`. -/
def irFunc : List Insn → Except Stop Unit
  | [] => .ok ()
  | insn :: body => do
    irInsn insn
    irFunc body

/-- `ir_sym_data`. -/
def irSymData : SymData → Except Stop Unit
  | .sym len callback | .func len callback => if callback then irName len else .ok ()
  | .const => .ok ()

def irSymDataList : List SymData → Except Stop Unit
  | [] => .ok ()
  | d :: data => do
    irSymData d
    irSymDataList data

def irDecl : Decl → Except Stop Unit
  | .externSym len => irName len
  | .externFunc len params => do
    irName len
    irFuncProto .ir params
  | .sym len data => do
    irName len
    irSymDataList data
  | .func len params body => do
    irName len
    irFuncProto .ir params
    irFunc body

def irDecls : List Decl → Except Stop Unit
  | [] => .ok ()
  | d :: decls => do
    irDecl d
    irDecls decls

/-- `ir_load`. -/
def irLoad : Text → Except Stop Unit
  | .decls decls => irDecls decls
  | .body body => irFunc body

/-! ## Items -/

/-- The actions that store. -/
inductive Item
  | name (len : ℕ)
  | proto (place : Place) (types : List IrType)
  | declare (op : IrOp) (count : BitVec 32)
  | operand (count n : ℕ)

def Item.run : Item → Except Stop Unit
  | .name len => irName len
  | .proto place types => irFuncProto place types
  | .declare op count => declareN op count
  | .operand count n => setOp count n

/-- The limits that the loader checks, or means to check. -/
def Item.Accepted : Item → Prop
  | .name len => len ≤ 255
  | .proto _ types => types.length ≤ 256
  | .declare op count => 0 ≤ (adjustCount op count).toInt ∧ (adjustCount op count).toInt ≤ maxOperands
  | .operand count n => n ≤ count

/-- A prototype whose types do not fit in its array. -/
def Item.Overfull : Item → Prop
  | .proto place types => place ≠ .insn ∧ 256 < types.length
  | _ => False

def runItems : List Item → Except Stop Unit
  | [] => .ok ()
  | i :: items => do
    i.run
    runItems items

def Operand.items : Operand → List Item
  | .func params => [.proto .val params]
  | _ => []

def operandItems (count : ℕ) : ℕ → List Operand → List Item
  | _, [] => []
  | n, v :: operands => v.items ++ .operand count (n + 1) :: operandItems count (n + 1) operands

def Insn.items : Insn → List Item
  | .func params | .funcAddr params => [.proto .insn params]
  | .opN opcode count operands =>
    .declare opcode count :: operandItems (adjustCount opcode count).toNat 0 operands
  | .op _ operands _ => operands.flatMap Operand.items
  | _ => []

def SymData.items : SymData → List Item
  | .sym len callback | .func len callback => if callback then [.name len] else []
  | .const => []

def Decl.items : Decl → List Item
  | .externSym len => [.name len]
  | .externFunc len params => [.name len, .proto .ir params]
  | .sym len data => .name len :: data.flatMap SymData.items
  | .func len params body => .name len :: .proto .ir params :: body.flatMap Insn.items

/-- The storing actions of a text, in the order in which they are made. -/
def Text.items : Text → List Item
  | .decls ds => ds.flatMap Decl.items
  | .body insns => insns.flatMap Insn.items

variable {i : Item} {items items' : List Item} {place : Place} {types : List IrType} {count n : ℕ}

theorem bind_ok (m : Except Stop Unit) : (m >>= fun _ => .ok ()) = m := by
  cases m <;> rfl

theorem runItems_append : runItems (items ++ items') = (runItems items >>= fun _ => runItems items') := by
  induction items with
  | nil => rfl
  | cons i items ih =>
    rw [List.cons_append, runItems, runItems, ih]
    cases i.run <;> rfl

theorem runItems_singleton : runItems [i] = i.run := bind_ok i.run

/-- A list of parts is run part by part. -/
theorem runItems_flatMap {α : Type} {f : α → List Item} {g : α → Except Stop Unit} (gs : List α → Except Stop Unit)
    (hg : ∀ a, runItems (f a) = g a) (hnil : gs [] = .ok ()) (hcons : ∀ a l, gs (a :: l) = (g a >>= fun _ => gs l))
    (l : List α) : runItems (l.flatMap f) = gs l := by
  induction l with
  | nil => rw [List.flatMap_nil, hnil]; rfl
  | cons a l ih => rw [List.flatMap_cons, runItems_append, hg, ih, hcons]

theorem run_operand (v : Operand) : runItems v.items = val v := by
  cases v with
  | func params => exact runItems_singleton
  | ref => rfl
  | str => rfl
  | number => rfl
  | null => rfl

theorem run_operandItems (operands : List Operand) : runItems (operandItems count n operands) = setOps count n operands := by
  induction operands generalizing n with
  | nil => rfl
  | cons v operands ih => rw [operandItems, runItems_append, run_operand, runItems, ih, setOps]; rfl

theorem run_insn (insn : Insn) : runItems insn.items = irInsn insn := by
  cases insn with
  | func params => exact runItems_singleton
  | funcAddr params => exact runItems_singleton
  | opN op count operands => rw [Insn.items, runItems, run_operandItems]; rfl
  | op _ operands _ => exact runItems_flatMap vals run_operand rfl (fun _ _ => rfl) operands
  | const => rfl
  | sym => rfl
  | label => rfl
  | str => rfl

theorem run_symData (d : SymData) : runItems d.items = irSymData d := by
  cases d with
  | sym len callback => cases callback <;> first | exact runItems_singleton | rfl
  | func len callback => cases callback <;> first | exact runItems_singleton | rfl
  | const => rfl

theorem run_body (body : List Insn) : runItems (body.flatMap Insn.items) = irFunc body :=
  runItems_flatMap irFunc run_insn rfl (fun _ _ => rfl) body

theorem run_decl (d : Decl) : runItems d.items = irDecl d := by
  cases d with
  | externSym len => exact runItems_singleton
  | externFunc len params =>
    rw [Decl.items, runItems, runItems_singleton]
    rfl
  | sym len data =>
    rw [Decl.items, runItems, runItems_flatMap irSymDataList run_symData rfl (fun _ _ => rfl)]
    rfl
  | func len params body =>
    rw [Decl.items, runItems, runItems, run_body]
    rfl

/-- Loading a text runs its items. -/
theorem irLoad_items (text : Text) : irLoad text = runItems text.items := by
  cases text with
  | decls decls => exact (runItems_flatMap irDecls run_decl rfl (fun _ _ => rfl) decls).symm
  | body body => exact (run_body body).symm

/-! ## The outcome of one action -/

theorem irName_ok {len : ℕ} (h : len ≤ 255) : irName len = .ok () := by
  have hlast : len - 1 < 256 := by omega
  have hnul : len < 256 := by omega
  unfold irName store
  rw [if_neg (by omega), if_pos hlast, if_pos hnul]
  split_ifs <;> rfl

theorem irName_rejected {len : ℕ} (h : ¬ len ≤ 255) : irName len = .error (.rejected .nameTooLong) := by
  unfold irName
  rw [if_pos (by omega)]
  rfl

/-- The loop stores up to the limit. -/
theorem protoLoop_ok (h : n + types.length ≤ 256) : protoLoop place n types = .ok () := by
  induction types generalizing n with
  | nil => rfl
  | cons t types ih =>
    rw [List.length_cons] at h
    have hlt : n < place.paramTypes := by
      cases place <;> simp only [Place.paramTypes, maxOperands] <;> omega
    simp only [protoLoop, store, if_pos hlt, if_neg (show ¬ n + 1 > 256 by omega)]
    exact ih (by omega)

/-- The type number `257` is stored before the check: out of bounds, or into an array that has room for it. -/
theorem protoLoop_long (hn : n ≤ 256) (h : 256 < n + types.length) : protoLoop place n types
    = .error (if place = .insn then .rejected .nameTooParams else .outOfBounds) := by
  induction types generalizing n with
  | nil =>
    rw [List.length_nil] at h
    omega
  | cons t types ih =>
    rw [List.length_cons] at h
    rcases Nat.lt_or_eq_of_le hn with hlt | rfl
    · have hsize : n < place.paramTypes := by
        cases place <;> simp only [Place.paramTypes, maxOperands] <;> omega
      simp only [protoLoop, store, if_pos hsize, if_neg (show ¬ n + 1 > 256 by omega)]
      exact ih (by omega) (by omega)
    · cases place <;> rfl

theorem irFuncProto_ok (h : types.length ≤ 256) : irFuncProto place types = .ok () := by
  cases types with
  | nil => rfl
  | cons t types =>
    rw [List.length_cons] at h
    have hlt : 0 < place.paramTypes := by cases place <;> decide
    simp only [irFuncProto, store, if_pos hlt]
    exact protoLoop_ok (by omega)

theorem irFuncProto_long (h : 256 < types.length) : irFuncProto place types
    = .error (if place = .insn then .rejected .nameTooParams else .outOfBounds) := by
  cases types with
  | nil =>
    rw [List.length_nil] at h
    omega
  | cons t types =>
    rw [List.length_cons] at h
    have hlt : 0 < place.paramTypes := by cases place <;> decide
    simp only [irFuncProto, store, if_pos hlt]
    exact protoLoop_long (by omega) (by omega)

/-- The slots reserved for `count` operands have room for them. -/
theorem or_three_lt_slots (count : ℕ) : count ||| 3 < slots count := by
  have hmod : (count ||| 3) % 4 < 4 := Nat.mod_lt _ (by omega)
  have hdiv : (count ||| 3) / 4 = count / 4 := by
    rw [show (4 : ℕ) = 2 ^ 2 from rfl, ← Nat.shiftRight_eq_div_pow, ← Nat.shiftRight_eq_div_pow,
      Nat.shiftRight_or_distrib]
    exact Nat.or_zero _
  unfold slots
  omega

theorem setOp_cases : setOp count n = if n ≤ count then .ok () else .error (.rejected .tooManyOperands) := by
  unfold setOp
  by_cases h : n ≤ count
  · have hlt : n < slots count := by
      unfold slots
      omega
    rw [if_neg (by omega), if_pos h, store, if_pos hlt]
  · rw [if_pos (by omega), if_neg h]
    rfl

theorem declareN_cases (op : IrOp) (count : BitVec 32) : (Item.declare op count).Accepted ∧ declareN op count = .ok () ∨
    ¬ (Item.declare op count).Accepted ∧ ∃ e, declareN op count = .error (.rejected e) := by
  unfold declareN Item.Accepted emitN store
  rw [if_pos (or_three_lt_slots _)]
  split_ifs with h1 h2 h2
  · exact Or.inr ⟨by omega, _, rfl⟩
  · exact Or.inr ⟨by omega, _, rfl⟩
  · exact Or.inr ⟨by omega, _, rfl⟩
  · exact Or.inl ⟨⟨by omega, by omega⟩, rfl⟩

/-- **What one action can do**: it is made, it is rejected, or it stores the type number `257` out of bounds. -/
theorem Item.run_cases (i : Item) : i.Accepted ∧ i.run = .ok () ∨
    ¬ i.Accepted ∧ ¬ i.Overfull ∧ (∃ e, i.run = .error (.rejected e)) ∨
    ¬ i.Accepted ∧ i.Overfull ∧ i.run = .error .outOfBounds := by
  cases i with
  | name len =>
    by_cases h : len ≤ 255
    · exact Or.inl ⟨h, irName_ok h⟩
    · exact Or.inr (Or.inl ⟨h, not_false, _, irName_rejected h⟩)
  | proto place types =>
    by_cases h : types.length ≤ 256
    · exact Or.inl ⟨h, irFuncProto_ok h⟩
    · have hrun : irFuncProto place types = _ := irFuncProto_long (not_le.mp h)
      by_cases hp : place = .insn
      · exact Or.inr (Or.inl ⟨h, fun ho => ho.1 hp, _, by rw [Item.run, hrun, if_pos hp]⟩)
      · exact Or.inr (Or.inr ⟨h, ⟨hp, not_le.mp h⟩, by rw [Item.run, hrun, if_neg hp]⟩)
  | declare op count =>
    rcases declareN_cases op count with ⟨h, hrun⟩ | ⟨h, e, hrun⟩
    · exact Or.inl ⟨h, hrun⟩
    · exact Or.inr (Or.inl ⟨h, not_false, e, hrun⟩)
  | operand count n =>
    by_cases h : n ≤ count
    · exact Or.inl ⟨h, by rw [Item.run, setOp_cases, if_pos h]⟩
    · exact Or.inr (Or.inl ⟨h, not_false, _, by rw [Item.run, setOp_cases, if_neg h]⟩)

/-! ## Whole texts -/

/-- The run stores out of bounds exactly when an overfull prototype is the first action that is not accepted. -/
theorem runItems_outOfBounds : runItems items = .error .outOfBounds ↔
    ∃ pre i post, items = pre ++ i :: post ∧ (∀ j ∈ pre, j.Accepted) ∧ i.Overfull := by
  induction items with
  | nil =>
    constructor
    · intro h
      cases h
    · rintro ⟨pre, i, post, h, _⟩
      simp at h
  | cons i items ih =>
    have hsplit : (∃ pre j post, i :: items = pre ++ j :: post ∧ (∀ j ∈ pre, j.Accepted) ∧ j.Overfull) ↔
        i.Overfull ∨ i.Accepted ∧ ∃ pre j post, items = pre ++ j :: post ∧ (∀ j ∈ pre, j.Accepted) ∧ j.Overfull := by
      constructor
      · rintro ⟨pre, j, post, h, hpre, hj⟩
        cases pre with
        | nil =>
          rw [List.nil_append, List.cons.injEq] at h
          rw [h.1]
          exact Or.inl hj
        | cons a pre =>
          rw [List.cons_append, List.cons.injEq] at h
          obtain ⟨rfl, rfl⟩ := h
          exact Or.inr ⟨hpre i List.mem_cons_self, pre, j, post, rfl,
            fun j hj => hpre j (List.mem_cons_of_mem i hj), hj⟩
      · rintro (hi | ⟨hi, pre, j, post, rfl, hpre, hj⟩)
        · exact ⟨[], i, items, rfl, fun _ h => absurd h List.not_mem_nil, hi⟩
        · exact ⟨i :: pre, j, post, rfl, List.forall_mem_cons.mpr ⟨hi, hpre⟩, hj⟩
    rw [hsplit, ← ih, runItems]
    rcases i.run_cases with ⟨ha, hrun⟩ | ⟨ha, ho, e, hrun⟩ | ⟨ha, ho, hrun⟩
    · have hno : ¬ i.Overfull := by
        cases i with
        | proto place types => exact fun ho => not_le.mpr ho.2 ha
        | _ => exact not_false
      rw [hrun]
      simp only [hno, ha, true_and, false_or]
      rfl
    · rw [hrun]
      simp only [ho, ha, false_and, or_false, iff_false]
      intro h
      cases h
    · rw [hrun]
      simp only [ho, true_or, iff_true]
      rfl

/-- **Every store of the loader is within its buffer, exactly when no prototype at top level or in an operand has
more than 256 parameters, save behind the place where the text is rejected.** -/
theorem loader_stores_in_bounds (text : Text) : irLoad text ≠ .error .outOfBounds ↔
    ¬ ∃ pre place types post, text.items = pre ++ .proto place types :: post ∧ (∀ i ∈ pre, i.Accepted) ∧
      place ≠ .insn ∧ 256 < types.length := by
  rw [Ne, irLoad_items, runItems_outOfBounds, not_iff_not]
  constructor
  · rintro ⟨pre, i, post, h, hpre, hi⟩
    cases i with
    | proto place types => exact ⟨pre, place, types, post, h, hpre, hi⟩
    | name => exact hi.elim
    | declare => exact hi.elim
    | operand => exact hi.elim
  · rintro ⟨pre, place, types, post, h, hpre, hp, hlen⟩
    exact ⟨pre, .proto place types, post, h, hpre, hp, hlen⟩

/-- `extern func f(int32_t, ...)` with 257 parameters. -/
theorem proto_257_out_of_bounds :
    irLoad (.decls [.externFunc 1 (List.replicate 257 .i32)]) = .error .outOfBounds := by
  rw [irLoad_items, runItems_outOfBounds]
  refine ⟨[.name 1], .proto .ir (List.replicate 257 .i32), [], rfl, ?_, by decide, ?_⟩
  · simp [Item.Accepted]
  · rw [List.length_replicate]
    decide

end IrJit.Load
