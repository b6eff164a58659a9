import IrJit.Fold.Engine
import IrJit.Narrow.Outcome

/-!
# Narrow.Cse — equal computations found through the use lists (`ir_sccp.c`, 1344–1447)

A computation is looked for in the shortest use list of its operands.  The entries of the list use that
operand; what the operands do not tell is compared, or only asserted.
-/

namespace IrJit.Narrow

open Fold (Question)
open IfConv (Insn isConstRef nopInsn refsFrom mem_refsFrom)

variable {ctx : Ctx} {ref u : ℤ} {q : Question} {T : Type}

namespace Ctx

/-- `use_insn->opt == opt`. -/
def sameOpt (ctx : Ctx) (q : Question) (use : ℤ) : Bool :=
  (ctx.insn use).op = q.op && (ctx.insn use).type = q.type

/-- The fields that are compared: the more of them the more edges there are. -/
def isMatch (ctx : Ctx) (q : Question) (use : ℤ) : Bool :=
  match q.op.inputEdges with
  | 0 | 1 => ctx.sameOpt q use
  | 2 => ctx.sameOpt q use && (ctx.insn use).op1 = q.op1 && (ctx.insn use).op2 = q.op2
  | _ => ctx.sameOpt q use && (ctx.insn use).op1 = q.op1 && (ctx.insn use).op2 = q.op2
    && (ctx.insn use).op3 = q.op3

/-- The loop over a use list: the instruction found, and those that are queued. -/
def findUse (ctx : Ctx) (ref : ℤ) (q : Question) : List ℤ → ℤ × List ℤ
  | [] => (0, [])
  | use :: l =>
    if use ≠ ref ∧ ctx.isMatch q use = true then
      if use < ref then (use, [])
      else ((ctx.findUse ref q l).1, use :: (ctx.findUse ref q l).2)
    else ctx.findUse ref q l

/-- `use_list`: the shorter one of the list so far and that of another operand. -/
def shorter (ctx : Ctx) (useList : Option ℤ) (op : ℤ) : Option ℤ :=
  match useList with
  | none => some op
  | some r => if (ctx.uses r).length > (ctx.uses op).length then some op else some r

/-- The operand whose use list is searched. -/
def searched (ctx : Ctx) (q : Question) : Option ℤ :=
  let first := if isConstRef q.op1 then none else some q.op1
  let second := if isConstRef q.op2 then first else ctx.shorter first q.op2
  match q.op.inputEdges with
  | 0 | 1 => if q.op1 > 0 then some q.op1 else none
  | 2 => second
  | _ => if q.op3 > 0 then ctx.shorter second q.op3 else second

/-- `ir_iter_find_cse`. -/
def iterFindCse (ctx : Ctx) (ref : ℤ) (q : Question) : ℤ × List ℤ :=
  match ctx.searched q with
  | some r => ctx.findUse ref q (ctx.uses r)
  | none => (0, [])

/-- `ir_iter_find_cse1`; `optx` has one input. -/
def iterFindCse1 (ctx : Ctx) (op : IrOp) (type : IrType) (op1 : ℤ) : ℤ :=
  ((ctx.uses op1).find? fun use =>
    (ctx.insn use).op = op && (ctx.insn use).type = type && (ctx.insn use).inputsCount = 1).getD 0

/-- The instruction computes what is asked for. -/
structure Computes (ctx : Ctx) (u : ℤ) (q : Question) : Prop where
  op : (ctx.insn u).op = q.op
  type : (ctx.insn u).type = q.type
  op1 : (ctx.insn u).op1 = q.op1
  op2 : (ctx.insn u).op2 = q.op2
  op3 : (ctx.insn u).op3 = q.op3

/-- What is found computes what is asked for. -/
def MergesEqual (ctx : Ctx) (ref : ℤ) (q : Question) : Prop :=
  ∀ u, (ctx.iterFindCse ref q).1 = u → u ≠ 0 → ctx.Computes u q

/-- An instruction before `ref` that agrees with the question as far as the edges go. -/
def Earlier (ctx : Ctx) (ref : ℤ) (q : Question) (u : ℤ) : Prop :=
  u < ref ∧ (ctx.insn u).op = q.op ∧ (ctx.insn u).type = q.type
    ∧ (2 ≤ q.op.inputEdges → (ctx.insn u).op1 = q.op1 ∧ (ctx.insn u).op2 = q.op2)
    ∧ (3 ≤ q.op.inputEdges → (ctx.insn u).op3 = q.op3)

/-- In the use list that is searched, the first of these has no other operands that are not edges: the prototype of
a PROTO, the flag of a COPY, the guard left by a DIV or MOD. -/
def FirstAgrees (ctx : Ctx) (ref : ℤ) (q : Question) : Prop :=
  ∀ r l u l', u ≠ 0 → ctx.searched q = some r → ctx.uses r = l ++ u :: l' → ctx.Earlier ref q u →
    (∀ w ∈ l, ¬ctx.Earlier ref q w) →
    (q.op.inputEdges < 2 → (ctx.insn u).op2 = q.op2) ∧ (q.op.inputEdges < 3 → (ctx.insn u).op3 = q.op3)

end Ctx

/-! ## The search -/

theorem isMatch_iff : ctx.isMatch q u = true ↔ (ctx.insn u).op = q.op ∧ (ctx.insn u).type = q.type
    ∧ (2 ≤ q.op.inputEdges → (ctx.insn u).op1 = q.op1 ∧ (ctx.insn u).op2 = q.op2)
    ∧ (3 ≤ q.op.inputEdges → (ctx.insn u).op3 = q.op3) := by
  unfold Ctx.isMatch Ctx.sameOpt
  split
  next h => simp [h]
  next h => simp [h]
  next h => simp [h, and_assoc]
  next h0 h1 h2 =>
    simp only [imp_false] at h0 h1 h2
    have h3 : 3 ≤ q.op.inputEdges := by omega
    have h2 : 2 ≤ q.op.inputEdges := by omega
    simp [h2, h3, and_assoc]

/-- The search ends at the first earlier instruction that agrees. -/
theorem findUse_eq_find? (ctx : Ctx) (ref : ℤ) (q : Question) (l : List ℤ) :
    (ctx.findUse ref q l).1 = (l.find? fun u => u < ref && ctx.isMatch q u).getD 0 := by
  induction l with
  | nil => rfl
  | cons u l ih =>
    rw [Ctx.findUse, List.find?_cons]
    by_cases hm : ctx.isMatch q u = true
    · rcases lt_trichotomy u ref with h | rfl | h
      · rw [if_pos ⟨h.ne, hm⟩, if_pos h]
        simp [h, hm]
      · rw [if_neg (by simp)]
        simp [ih]
      · rw [if_pos ⟨h.ne', hm⟩, if_neg (by omega)]
        simp [ih, not_lt.2 h.le]
    · rw [if_neg (fun h => hm h.2)]
      simp [ih, hm]

theorem earlier_iff : (u < ref && ctx.isMatch q u) = true ↔ ctx.Earlier ref q u := by
  rw [Bool.and_eq_true, decide_eq_true_eq, isMatch_iff]
  rfl

/-- What is found, as a place in the list. -/
theorem findUse_eq_iff (l : List ℤ) (hu : u ≠ 0) :
    (ctx.findUse ref q l).1 = u ↔
      ∃ l₁ l₂, l = l₁ ++ u :: l₂ ∧ ctx.Earlier ref q u ∧ ∀ w ∈ l₁, ¬ctx.Earlier ref q w := by
  rw [findUse_eq_find?]
  constructor
  · intro h
    cases hf : l.find? fun u => u < ref && ctx.isMatch q u with
    | none =>
      rw [hf] at h
      exact absurd h.symm hu
    | some w =>
      rw [hf] at h
      obtain rfl : w = u := h
      obtain ⟨hw, l₁, l₂, hl, hbefore⟩ := List.find?_eq_some_iff_append.1 hf
      refine ⟨l₁, l₂, hl, earlier_iff.1 hw, fun w hw he => ?_⟩
      have hno := hbefore w hw
      rw [earlier_iff.2 he] at hno
      cases hno
  · rintro ⟨l₁, l₂, rfl, he, hbefore⟩
    have hf : (l₁ ++ u :: l₂).find? (fun u => u < ref && ctx.isMatch q u) = some u := by
      refine List.find?_eq_some_iff_append.2 ⟨earlier_iff.2 he, l₁, l₂, rfl, fun w hw => ?_⟩
      rw [Bool.not_eq_true', ← Bool.not_eq_true, earlier_iff]
      exact hbefore w hw
    rw [hf]
    rfl

/-! ## What the use list tells -/

theorem not_hasVarInputs {op : IrOp} (h : op.isFoldable = true) (hphi : op ≠ .phi) : op.hasVarInputs = false := by
  cases op <;> first | rfl | exact absurd rfl hphi | exact absurd h (by decide)

theorem Ctx.Checked.mem_operands (C : ctx.Checked) {r : ℤ} (hr : 0 < r) (hu : u ∈ ctx.uses r) :
    r ∈ (ctx.insn u).operands := by
  rw [← List.count_pos_iff, ← C.uses r u hr]
  exact List.count_pos_iff.2 hu

/-- The only edge of an instruction. -/
theorem Ctx.Checked.op1_of_mem (C : ctx.Checked) {r : ℤ} (hr : 0 < r) (hu : u ∈ ctx.uses r)
    (hvar : (ctx.insn u).op.hasVarInputs = false) (hone : (ctx.insn u).op.inputEdges < 2) : (ctx.insn u).op1 = r := by
  have hmem := C.mem_operands hr hu
  have hcount := C.inputs u hvar
  unfold Insn.operands at hmem
  rw [hcount] at hmem
  have hcases : (ctx.insn u).op.inputEdges = 0 ∨ (ctx.insn u).op.inputEdges = 1 := by omega
  rcases hcases with h | h
  · rw [h] at hmem
    cases hmem
  · rw [h] at hmem
    exact (List.mem_singleton.1 hmem).symm

theorem searched_of_lt (h : q.op.inputEdges < 2) : ctx.searched q = if q.op1 > 0 then some q.op1 else none := by
  have hcases : q.op.inputEdges = 0 ∨ q.op.inputEdges = 1 := by omega
  unfold Ctx.searched
  rcases hcases with h | h
  · simp only [h]
  · simp only [h]

/-- An instruction that is found agrees with the question, up to operands that are not edges. -/
theorem Ctx.Checked.computes_iff (C : ctx.Checked) (hf : q.op.isFoldable = true) (hphi : q.op ≠ .phi) {r : ℤ}
    (hs : ctx.searched q = some r) (hu : u ∈ ctx.uses r) (he : ctx.Earlier ref q u) :
    ctx.Computes u q ↔
      (q.op.inputEdges < 2 → (ctx.insn u).op2 = q.op2) ∧ (q.op.inputEdges < 3 → (ctx.insn u).op3 = q.op3) := by
  obtain ⟨-, hop, htype, h2, h3⟩ := he
  constructor
  · intro h
    exact ⟨fun _ => h.op2, fun _ => h.op3⟩
  · rintro ⟨hop2, hop3⟩
    by_cases hedges : q.op.inputEdges < 2
    · rw [searched_of_lt hedges] at hs
      split_ifs at hs with hpos
      obtain rfl := Option.some.inj hs
      have hop1 : (ctx.insn u).op1 = q.op1 :=
        C.op1_of_mem hpos hu (hop ▸ not_hasVarInputs hf hphi) (hop ▸ hedges)
      exact ⟨hop, htype, hop1, hop2 hedges, hop3 (by omega)⟩
    · have h12 := h2 (by omega)
      refine ⟨hop, htype, h12.1, h12.2, ?_⟩
      by_cases h : q.op.inputEdges < 3
      · exact hop3 h
      · exact h3 (by omega)

/-! ## The value -/

/-- What the question evaluates to with the operand values `ρ`. -/
def answer (ctx : Ctx) (W : World T) (q : Question) (ρ : ℤ → ℤ) : ℤ :=
  let operands := [q.op1, q.op2, q.op3].take q.op.inputEdges
  compute W.other q.op q.type (operands.map fun o => (ctx.insn o).type) (operands.map ρ)

/-- An instruction that computes what is asked for has the value that is asked for. -/
theorem Ctx.Computes.value (C : ctx.Checked) (hf : q.op.isFoldable = true) (hphi : q.op ≠ .phi)
    (h : ctx.Computes u q) (W : World T) (ρ : ℤ → ℤ) : ctx.value W u ρ = answer ctx W q ρ := by
  have hcount : (ctx.insn u).inputsCount = q.op.inputEdges := by
    rw [← h.op]
    exact C.inputs u (h.op ▸ not_hasVarInputs hf hphi)
  have hle : q.op.inputEdges ≤ 3 := by
    cases q.op <;> decide
  have hops : (ctx.insn u).operands = [q.op1, q.op2, q.op3].take q.op.inputEdges := by
    unfold Insn.operands
    rw [hcount, h.op1, h.op2, h.op3, List.take_append_of_le_length (by simpa using hle)]
  unfold Ctx.value answer
  rw [hops, h.op, h.type]

/-! ## Opcodes without other operands -/

/-- What `ir_iter_find_cse1` finds is the same conversion of the same value. -/
theorem Ctx.Checked.iterFindCse1_spec (C : ctx.Checked) {op : IrOp} {type : IrType} {op1 : ℤ} (hpos : 0 < op1)
    (hop : op = .int2fp ∨ op = .sext ∨ op = .zext) (hu : ctx.iterFindCse1 op type op1 = u) (hne : u ≠ 0) :
    (ctx.insn u).op = op ∧ (ctx.insn u).type = type ∧ (ctx.insn u).operands = [op1] := by
  unfold Ctx.iterFindCse1 at hu
  cases hf : (ctx.uses op1).find? fun use =>
      (ctx.insn use).op = op && (ctx.insn use).type = type && (ctx.insn use).inputsCount = 1 with
  | none =>
    rw [hf] at hu
    exact absurd hu.symm hne
  | some w =>
    rw [hf] at hu
    obtain rfl : w = u := hu
    have hmatch := List.find?_some hf
    simp only [Bool.and_eq_true, decide_eq_true_eq] at hmatch
    obtain ⟨⟨h1, h2⟩, hcount⟩ := hmatch
    have hflags : op.hasVarInputs = false ∧ op.inputEdges < 2 := by
      rcases hop with rfl | rfl | rfl <;> decide
    have hop1 := C.op1_of_mem hpos (List.mem_of_find?_eq_some hf) (h1 ▸ hflags.1) (h1 ▸ hflags.2)
    refine ⟨h1, h2, ?_⟩
    unfold Insn.operands
    rw [hcount, ← hop1]
    rfl

/-! ## The theorem -/

/-- **Value numbering merges equal computations only, if and only if the first instruction that agrees as far as
the edges go agrees in the operands that are not edges.** -/
theorem Ctx.Checked.iterFindCse_exact (C : ctx.Checked) (ref : ℤ) (hf : q.op.isFoldable = true) (hphi : q.op ≠ .phi) :
    (ctx.MergesEqual ref q ↔ ctx.FirstAgrees ref q) ∧
      (∀ u, ctx.Computes u q → ∀ (T : Type) (W : World T) (ρ : ℤ → ℤ), ctx.value W u ρ = answer ctx W q ρ) ∧
      ∀ op type op1 u, (op = .int2fp ∨ op = .sext ∨ op = .zext) → 0 < op1 → ctx.iterFindCse1 op type op1 = u →
        u ≠ 0 → (ctx.insn u).op = op ∧ (ctx.insn u).type = type ∧ (ctx.insn u).operands = [op1] := by
  refine ⟨⟨fun h r l u l' hne hs hl he hbefore => ?_, fun h u hu hne => ?_⟩, fun u h T W ρ => h.value C hf hphi W ρ,
    fun op type op1 u hop hpos hu hne => C.iterFindCse1_spec hpos hop hu hne⟩
  · have hmem : u ∈ ctx.uses r := hl ▸ List.mem_append_right _ List.mem_cons_self
    have hfound : (ctx.iterFindCse ref q).1 = u := by
      unfold Ctx.iterFindCse
      rw [hs]
      exact (findUse_eq_iff _ hne).2 ⟨l, l', hl, he, hbefore⟩
    exact (C.computes_iff hf hphi hs hmem he).1 (h u hfound hne)
  · unfold Ctx.iterFindCse at hu
    cases hs : ctx.searched q with
    | none =>
      rw [hs] at hu
      exact absurd hu.symm hne
    | some r =>
      rw [hs] at hu
      obtain ⟨l, l', hl, he, hbefore⟩ := (findUse_eq_iff _ hne).1 hu
      exact (C.computes_iff hf hphi hs (hl ▸ List.mem_append_right _ List.mem_cons_self) he).2
        (h r l u l' hne hs hl he hbefore)

/-- Two calls of a parameter, through the prototypes 1 and `p`. -/
def protoGraph (p : ℤ) : Ctx where
  insn
    | -3 => ⟨.cBool, .bool, 0, 0, 0, 0, []⟩
    | -2 => ⟨.cBool, .bool, 0, 0, 0, 0, []⟩
    | -1 => ⟨.cAddr, .addr, 0, 0, 0, 0, []⟩
    | 1 => ⟨.start, .void, 0, 0, 0, 0, []⟩
    | 2 => ⟨.param, .addr, 1, 1, 0, 0, []⟩
    | 3 => ⟨.proto, .addr, 1, 2, 1, 0, []⟩
    | 4 => ⟨.proto, .addr, 1, 2, p, 0, []⟩
    | 5 => ⟨.call, .void, 2, 1, 3, 0, []⟩
    | 6 => ⟨.call, .void, 2, 5, 4, 0, []⟩
    | 7 => ⟨.ret, .void, 2, 6, 0, 0, []⟩
    | _ => nopInsn
  val
    | -3 => 1
    | _ => 0
  constsCount := 4
  uses
    | 1 => [2, 5]
    | 2 => [3, 4]
    | 3 => [5]
    | 4 => [6]
    | 5 => [6]
    | 6 => [7]
    | _ => []

theorem protoGraph_checked {p : ℤ} (hp : p = 1 ∨ p = 2) : (protoGraph p).Checked := by
  have hout : ∀ n, n ∉ refsFrom (-3) 11 → (protoGraph p).insn n = nopInsn ∧ (protoGraph p).uses n = [] := by
    intro n hn
    rw [mem_refsFrom] at hn
    unfold protoGraph
    dsimp only
    constructor
    · split <;> first | rfl | omega
    · split <;> first | rfl | omega
  rcases hp with rfl | rfl
  all_goals exact checked_of_checksAt (refsFrom (-3) 11) hout rfl (by decide) ⟨rfl, rfl, rfl⟩ ⟨rfl, rfl, rfl⟩ (by decide)

/-- Two applications of one prototype. -/
theorem protoGraph_merged : (protoGraph 1).MergesEqual 4 ⟨.proto, .addr, 2, 1, 0⟩ := by
  refine ((protoGraph_checked (.inl rfl)).iterFindCse_exact 4 rfl (by decide)).1.2 ?_
  intro r l u l' _ hs hl _ _
  obtain rfl : 2 = r := Option.some.inj hs
  have hmem : u ∈ ([3, 4] : List ℤ) := by
    rw [show ([3, 4] : List ℤ) = l ++ u :: l' from hl]
    exact List.mem_append_right _ List.mem_cons_self
  rcases List.mem_cons.1 hmem with rfl | hmem
  · exact ⟨fun _ => rfl, fun _ => rfl⟩
  · rw [List.mem_singleton.1 hmem]
    exact ⟨fun _ => rfl, fun _ => rfl⟩

/-- The second prototype is replaced by the first one. -/
theorem protoGraph_confused :
    (protoGraph 2).Checked ∧ (protoGraph 2).Computes 4 ⟨.proto, .addr, 2, 2, 0⟩ ∧
      ¬(protoGraph 2).MergesEqual 4 ⟨.proto, .addr, 2, 2, 0⟩ := by
  refine ⟨protoGraph_checked (.inr rfl), ⟨rfl, rfl, rfl, rfl, rfl⟩, fun h => ?_⟩
  exact absurd (h 3 rfl (by decide)).op2 (by decide)

end IrJit.Narrow
