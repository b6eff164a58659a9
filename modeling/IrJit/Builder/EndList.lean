import IrJit.Core.Ops
import Mathlib.Data.Int.Basic
import Mathlib.Data.List.Basic
import Mathlib.Logic.Function.Basic
import Mathlib.Tactic.Common

/-!
# Builder.EndList — lists of `END`s that become a `MERGE` and a `PHI` (`ir.c`, 1117–1153 and 2812–2910)

The instruction array is an array of words: operand `n` of an instruction `r` is the word `4 r + n`, and
`n = 0` is the word of the opcode (bits 0–7), the type (bits 8–15) and the number of inputs (from bit
16 on).  An instruction with many operands takes several places of the array.
-/

namespace IrJit.Builder

/-- The words of the array, the number of its places that are taken, `ctx->control`, and
`IR_OPT_FOLDING`. -/
structure Ctx where
  word : ℤ → ℤ
  insnsCount : ℤ
  control : ℤ
  folding : Bool

/-- `IR_OPT` of an opcode and a type. -/
def opt (op : IrOp) (type : ℤ) : ℤ := op.ctorIdx + 256 * type

namespace Ctx

variable (C : Ctx)

/-- Operand `n`. -/
def op (r : ℤ) (n : ℤ) : ℤ := C.word (4 * r + n)

def opcode (r : ℤ) : ℤ := C.op r 0 % 256

def type (r : ℤ) : ℤ := C.op r 0 / 256 % 256

def inputsCount (r : ℤ) : ℕ := (C.op r 0 / 65536 % 65536).toNat

/-- `ir_set_op`, and any other store of an operand. -/
def setOp (r n v : ℤ) : Ctx := { C with word := Function.update C.word (4 * r + n) v }

/-- `ir_emit`; the reference is `C.insnsCount`. -/
def emit (optx op1 op2 op3 : ℤ) : Ctx :=
  { ((((C.setOp C.insnsCount 0 optx).setOp C.insnsCount 1 op1).setOp C.insnsCount 2 op2).setOp
      C.insnsCount 3 op3) with insnsCount := C.insnsCount + 1 }

/-- The last operand slot of an instruction with `count` operands, `count | 3`. -/
def lastSlot (count : ℕ) : ℤ := 4 * (count / 4 : ℕ) + 3

/-- `ir_emit_N`; the reference is `C.insnsCount`. -/
def emitN (optx : ℤ) (count : ℕ) : Ctx :=
  { C with
    word := fun w =>
      if w = 4 * C.insnsCount then optx + 65536 * count
      else if 4 * C.insnsCount < w ∧ w ≤ 4 * C.insnsCount + lastSlot count then 0
      else C.word w
    insnsCount := C.insnsCount + 1 + (count / 4 : ℕ) }

/-- `_ir_BEGIN`. -/
def begin (src : ℤ) : Ctx :=
  if C.folding = true ∧ src ≠ 0 ∧ src + 1 = C.insnsCount ∧ C.opcode src = IrOp.endOp.ctorIdx then
    -- "merge with the last END"
    { C with control := C.op src 1, insnsCount := C.insnsCount - 1 }
  else { C.emit (opt .beginOp 0) src 0 0 with control := C.insnsCount }

/-- `_ir_END_LIST`. -/
def endList (list : ℤ) : Ctx := { C.emit (opt .endOp 0) C.control list 0 with control := 0 }

/-- `_ir_END_PHI_LIST`. -/
def endPhiList (list val : ℤ) : Ctx := { C.emit (opt .endOp 0) C.control list val with control := 0 }

/-- The loop that counts the elements. -/
def countEnds : ℕ → ℤ → ℕ
  | 0, _ => 0
  | fuel + 1, ref => if C.op ref 2 = 0 then 1 else 1 + countEnds fuel (C.op ref 2)

/-- The loop that sets the inputs of the `MERGE`, from the last to the first. -/
def linkLoop (merge : ℤ) : ℕ → Ctx → ℤ → Ctx
  | 0, C, _ => C
  | n + 1, C, ref =>
    let C' := C.setOp merge ((n : ℤ) + 1) ref
    linkLoop merge n (C'.setOp ref 2 0) (C'.op ref 2)

/-- `_ir_MERGE_LIST`. -/
def mergeList (list : ℤ) : Ctx :=
  if list = 0 then C
  else if C.countEnds C.insnsCount.toNat list = 1 then (C.setOp list 2 0).begin list
  else
    linkLoop C.insnsCount (C.countEnds C.insnsCount.toNat list)
      { C.emitN (opt .merge 0) (C.countEnds C.insnsCount.toNat list) with control := C.insnsCount } list

/-- The loop over the inputs of the `MERGE` in `_ir_PHI_LIST`: `n` of them, from the one after `i` on. -/
def phiLoop (merge phi : ℤ) : ℕ → ℕ → Ctx → Ctx
  | 0, _, C => C
  | n + 1, i, C =>
    let ref := C.op merge ((i : ℤ) + 1)
    phiLoop merge phi n (i + 1)
      ((C.setOp phi ((i : ℤ) + 2) (C.op ref 3)).setOp ref 3 IrOp.endOp.ctorIdx)

/-- `_ir_PHI_LIST`, and the reference it returns. -/
def phiList (list : ℤ) : Ctx × ℤ :=
  if list = 0 then (C, 0)
  else if C.op list 2 = 0 then ((C.setOp list 3 0).begin list, C.op list 3)
  else if C.op list 3 = 0 then (C.mergeList list, 0)
  else
    let type := C.type (C.op list 3)
    let C₁ := C.mergeList list
    let phi := C₁.insnsCount
    let C₂ := C₁.emitN (opt .phi type) (C₁.inputsCount C₁.control + 1)
    let C₃ := C₂.setOp phi 1 C₂.control
    (phiLoop C₂.control phi (C₂.inputsCount C₂.control) 0 C₃, phi)

end Ctx

/-! ## Lists -/

/-- The last `END` of a list and its value; the newest stands first. -/
def newest (l : List (ℤ × ℤ)) : ℤ := (l.map Prod.fst).headD 0

/-- The lists that are built; between the calls anything may happen that leaves the `END`s as they are
and within the array. -/
inductive Built : Ctx → List (ℤ × ℤ) → Prop
  | nil {C : Ctx} : 0 < C.insnsCount → Built C []
  | endList {C : Ctx} {l : List (ℤ × ℤ)} : Built C l → C.control ≠ 0 →
    Built (C.endList (newest l)) ((C.insnsCount, 0) :: l)
  | endPhiList {C : Ctx} {l : List (ℤ × ℤ)} {val : ℤ} : Built C l → C.control ≠ 0 →
    Built (C.endPhiList (newest l) val) ((C.insnsCount, val) :: l)
  | other {C C' : Ctx} {l : List (ℤ × ℤ)} : Built C l → 0 < C'.insnsCount →
    (∀ e ∈ l, e.1 < C'.insnsCount ∧ ∀ k, 0 ≤ k → k < 4 → C'.word (4 * e.1 + k) = C.word (4 * e.1 + k)) →
    Built C' l

/-- Every element refers to the one before it and has its value. -/
def Linked (C : Ctx) : List (ℤ × ℤ) → Prop
  | [] => True
  | e :: l => C.op e.1 0 = opt .endOp 0 ∧ C.op e.1 2 = newest l ∧ C.op e.1 3 = e.2 ∧ Linked C l

/-- A list in the array. -/
structure IsList (C : Ctx) (l : List (ℤ × ℤ)) : Prop where
  start : 0 < C.insnsCount
  pos : ∀ e ∈ l, 0 < e.1 ∧ e.1 < C.insnsCount
  sorted : l.Pairwise fun e e' => e'.1 < e.1
  linked : Linked C l

section Lists

variable {C C' : Ctx} {l : List (ℤ × ℤ)}

theorem Linked.congr (h : Linked C l)
    (heq : ∀ e ∈ l, ∀ k, 0 ≤ k → k < 4 → C'.word (4 * e.1 + k) = C.word (4 * e.1 + k)) : Linked C' l := by
  induction l with
  | nil => trivial
  | cons e l ih =>
    obtain ⟨h0, h2, h3, hl⟩ := h
    have he := heq e (by simp)
    refine ⟨?_, ?_, ?_, ih hl fun e' he' => heq e' (by simp [he'])⟩
    · exact (he 0 (by omega) (by omega)).trans h0
    · exact (he 2 (by omega) (by omega)).trans h2
    · exact (he 3 (by omega) (by omega)).trans h3

theorem setOp_word (r n v w : ℤ) : (C.setOp r n v).word w = if w = 4 * r + n then v else C.word w := by
  unfold Ctx.setOp
  by_cases h : w = 4 * r + n
  · rw [if_pos h, h]
    exact Function.update_self ..
  · rw [if_neg h]
    exact Function.update_of_ne h ..

theorem emit_word (optx op1 op2 op3 w : ℤ) : (C.emit optx op1 op2 op3).word w =
    if w = 4 * C.insnsCount + 3 then op3 else if w = 4 * C.insnsCount + 2 then op2
    else if w = 4 * C.insnsCount + 1 then op1 else if w = 4 * C.insnsCount then optx else C.word w := by
  unfold Ctx.emit
  simp only [setOp_word, Int.add_zero]

/-- An `END` that is emitted enters the list. -/
theorem IsList.push (h : IsList C l) (val control : ℤ) :
    IsList { C.emit (opt .endOp 0) control (newest l) val with control := 0 } ((C.insnsCount, val) :: l) := by
  have hstart := h.start
  refine ⟨?_, ?_, ?_, ?_, ?_, ?_, ?_⟩
  · show 0 < C.insnsCount + 1
    omega
  · intro e he
    show 0 < e.1 ∧ e.1 < C.insnsCount + 1
    rcases List.mem_cons.1 he with rfl | he
    · exact ⟨hstart, by dsimp only; omega⟩
    · have := h.pos e he
      omega
  · exact List.pairwise_cons.2 ⟨fun e he => (h.pos e he).2, h.sorted⟩
  · show (C.emit _ _ _ _).word _ = _
    rw [emit_word, if_neg (by dsimp only; omega), if_neg (by dsimp only; omega),
      if_neg (by dsimp only; omega), if_pos (by dsimp only; omega)]
  · show (C.emit _ _ _ _).word _ = _
    rw [emit_word, if_neg (by dsimp only; omega), if_pos rfl]
  · show (C.emit _ _ _ _).word _ = _
    rw [emit_word, if_pos rfl]
  · refine h.linked.congr fun e he k hk hk' => ?_
    have hlt := (h.pos e he).2
    show (C.emit _ _ _ _).word _ = _
    rw [emit_word, if_neg (by omega), if_neg (by omega), if_neg (by omega), if_neg (by omega)]

/-- Every list that is built is one in the array. -/
theorem Built.isList (h : Built C l) : IsList C l := by
  induction h with
  | nil h => exact ⟨h, by simp, List.Pairwise.nil, trivial⟩
  | endList _ _ ih => exact ih.push 0 _
  | endPhiList _ _ ih => exact ih.push _ _
  | other _ hstart hkeep ih =>
    exact ⟨hstart, fun e he => ⟨(ih.pos e he).1, (hkeep e he).1⟩, ih.sorted,
      ih.linked.congr fun e he => (hkeep e he).2⟩

end Lists

/-! ## The loops -/

section Loops

variable {C : Ctx} {l : List (ℤ × ℤ)} {e : ℤ × ℤ}

theorem countEnds_eq (n : ℕ) : ∀ {l : List (ℤ × ℤ)} {e : ℤ × ℤ}, Linked C (e :: l) →
    (∀ e' ∈ e :: l, 0 < e'.1) → l.length < n → C.countEnds n e.1 = l.length + 1 := by
  induction n with
  | zero => exact fun _ _ h => absurd h (Nat.not_lt_zero _)
  | succ n ih =>
    intro l e hl hpos hn
    rw [Ctx.countEnds, hl.2.1]
    cases l with
    | nil => exact if_pos rfl
    | cons e' l =>
      have hne : newest (e' :: l) ≠ 0 := by
        have := hpos e' (by simp)
        show e'.1 ≠ 0
        omega
      rw [if_neg hne]
      have hrest := ih hl.2.2.2 (fun x hx => hpos x (List.mem_cons_of_mem _ hx))
        (by rw [List.length_cons] at hn; omega)
      show 1 + C.countEnds n e'.1 = _
      rw [hrest, List.length_cons]
      omega

/-- The words that the first loop writes. -/
structure LinkFrame (merge : ℤ) (l : List (ℤ × ℤ)) (w : ℤ) : Prop where
  inputs : w ≤ 4 * merge ∨ 4 * merge + l.length < w
  links : ∀ e ∈ l, w ≠ 4 * e.1 + 2

/-- The first loop: input `i` of the `MERGE` is the `i`-th `END` from the last one on, the links are
cleared. -/
theorem linkLoop_spec {merge : ℤ} : ∀ {l : List (ℤ × ℤ)} {C : Ctx}, Linked C l →
    (∀ e ∈ l, 0 < e.1 ∧ e.1 < merge) → l.Pairwise (fun e e' => e'.1 < e.1) →
    (∀ i, ∀ h : i < l.length,
      (Ctx.linkLoop merge l.length C (newest l)).op merge ((l.length - i : ℕ) : ℤ) = (l[i]).1) ∧
    (∀ e ∈ l, (Ctx.linkLoop merge l.length C (newest l)).op e.1 2 = 0) ∧
    (∀ w, LinkFrame merge l w → (Ctx.linkLoop merge l.length C (newest l)).word w = C.word w) ∧
    (Ctx.linkLoop merge l.length C (newest l)).insnsCount = C.insnsCount ∧
    (Ctx.linkLoop merge l.length C (newest l)).control = C.control := by
  intro l
  induction l with
  | nil => exact fun _ _ _ => ⟨fun i h => absurd h (Nat.not_lt_zero _), by simp, fun _ _ => rfl, rfl, rfl⟩
  | cons e l ih =>
    intro C hl hb hs
    obtain ⟨h0, h2, h3, hl'⟩ := hl
    have he := hb e (by simp)
    have hs' := List.pairwise_cons.1 hs
    -- the context after the first round
    have hround : Ctx.linkLoop merge (e :: l).length C (newest (e :: l)) =
        Ctx.linkLoop merge l.length ((C.setOp merge ((l.length : ℤ) + 1) e.1).setOp e.1 2 0) (newest l) := by
      show Ctx.linkLoop merge l.length ((C.setOp merge ((l.length : ℤ) + 1) e.1).setOp e.1 2 0)
        ((C.setOp merge ((l.length : ℤ) + 1) e.1).op e.1 2) = _
      have hread : (C.setOp merge ((l.length : ℤ) + 1) e.1).op e.1 2 = newest l := by
        rw [← h2]
        unfold Ctx.op
        rw [setOp_word, if_neg (by omega)]
      rw [hread]
    have hword : ∀ w, ((C.setOp merge ((l.length : ℤ) + 1) e.1).setOp e.1 2 0).word w =
        if w = 4 * e.1 + 2 then 0 else if w = 4 * merge + (l.length + 1) then e.1 else C.word w := by
      intro w
      rw [setOp_word, setOp_word]
    have hrest : ((C.setOp merge ((l.length : ℤ) + 1) e.1).setOp e.1 2 0).insnsCount = C.insnsCount ∧
        ((C.setOp merge ((l.length : ℤ) + 1) e.1).setOp e.1 2 0).control = C.control := ⟨rfl, rfl⟩
    rw [hround]
    generalize (C.setOp merge ((l.length : ℤ) + 1) e.1).setOp e.1 2 0 = C' at hword hrest ⊢
    have hl'' : Linked C' l := by
      refine hl'.congr fun e' he' k hk hk' => ?_
      have hlt := hs'.1 e' he'
      have hb' := hb e' (List.mem_cons_of_mem _ he')
      rw [hword, if_neg (by omega), if_neg (by omega)]
    obtain ⟨hin, hlink, hframe, hcount, hcontrol⟩ :=
      ih hl'' (fun e' he' => hb e' (List.mem_cons_of_mem _ he')) hs'.2
    refine ⟨?_, ?_, ?_, hcount.trans hrest.1, hcontrol.trans hrest.2⟩
    · intro i hi
      cases i with
      | zero =>
        have hkeep : LinkFrame merge l (4 * merge + (l.length + 1)) := by
          refine ⟨Or.inr (by omega), fun e' he' => ?_⟩
          have hb' := hb e' (List.mem_cons_of_mem _ he')
          omega
        show (Ctx.linkLoop merge l.length C' (newest l)).word (4 * merge + (((e :: l).length - 0 : ℕ) : ℤ)) = e.1
        have hidx : (4 * merge + (((e :: l).length - 0 : ℕ) : ℤ)) = 4 * merge + (l.length + 1) := by
          rw [Nat.sub_zero, List.length_cons]
          push_cast
          rfl
        rw [hidx, hframe _ hkeep, hword, if_neg (by omega), if_pos rfl]
      | succ i =>
        have hi' : i < l.length := by
          rw [List.length_cons] at hi
          omega
        have hidx : (e :: l).length - (i + 1) = l.length - i := by
          rw [List.length_cons]
          omega
        rw [hidx]
        exact hin i hi'
    · intro e' he'
      rcases List.mem_cons.1 he' with rfl | he'
      · have hkeep : LinkFrame merge l (4 * e'.1 + 2) := by
          refine ⟨Or.inl (by omega), fun x hx => ?_⟩
          have hlt := hs'.1 x hx
          omega
        show (Ctx.linkLoop merge l.length C' (newest l)).word (4 * e'.1 + 2) = 0
        rw [hframe _ hkeep, hword, if_pos rfl]
      · exact hlink e' he'
    · intro w hw
      have hin' := hw.inputs
      rw [List.length_cons] at hin'
      push_cast at hin'
      have hkeep : LinkFrame merge l w :=
        ⟨by omega, fun e' he' => hw.links e' (List.mem_cons_of_mem _ he')⟩
      have hne := hw.links e (by simp)
      rw [hframe w hkeep, hword, if_neg hne, if_neg (by omega)]

/-- The words that the second loop writes. -/
structure PhiFrame (phi : ℤ) (refs : List ℤ) (i : ℕ) (w : ℤ) : Prop where
  inputs : w < 4 * phi + (i + 2) ∨ 4 * phi + (i + 2) + refs.length ≤ w
  values : ∀ r ∈ refs, w ≠ 4 * r + 3

/-- The second loop, where the inputs of the `MERGE` from the one after `i` on are `refs`: the operands of
the `PHI` are their values. -/
theorem phiLoop_spec {merge phi : ℤ} : ∀ {refs : List ℤ} {i : ℕ} {C : Ctx},
    (∀ j, ∀ h : j < refs.length, C.op merge ((i + j : ℕ) + 1) = refs[j]) →
    (∀ r ∈ refs, 0 < r ∧ r < merge) → refs.Nodup → 4 * merge + i + refs.length < 4 * phi →
    (∀ j, ∀ h : j < refs.length,
      (Ctx.phiLoop merge phi refs.length i C).op phi ((i + j : ℕ) + 2) = C.op refs[j] 3) ∧
    (∀ w, PhiFrame phi refs i w → (Ctx.phiLoop merge phi refs.length i C).word w = C.word w) ∧
    (Ctx.phiLoop merge phi refs.length i C).insnsCount = C.insnsCount ∧
    (Ctx.phiLoop merge phi refs.length i C).control = C.control := by
  intro refs
  induction refs with
  | nil => exact fun _ _ _ _ => ⟨fun j h => absurd h (Nat.not_lt_zero _), fun _ _ => rfl, rfl, rfl⟩
  | cons r refs ih =>
    intro i C hin hb hd hphi
    have hr := hb r (by simp)
    have hd' := List.nodup_cons.1 hd
    have hfirst : C.op merge ((i : ℤ) + 1) = r := hin 0 (by simp)
    rw [List.length_cons] at hphi
    push_cast at hphi
    have hround : Ctx.phiLoop merge phi (r :: refs).length i C = Ctx.phiLoop merge phi refs.length (i + 1)
        ((C.setOp phi ((i : ℤ) + 2) (C.op r 3)).setOp r 3 IrOp.endOp.ctorIdx) := by
      show Ctx.phiLoop merge phi refs.length (i + 1) ((C.setOp phi ((i : ℤ) + 2)
        (C.op (C.op merge ((i : ℤ) + 1)) 3)).setOp (C.op merge ((i : ℤ) + 1)) 3 IrOp.endOp.ctorIdx) = _
      rw [hfirst]
    have hword : ∀ w, ((C.setOp phi ((i : ℤ) + 2) (C.op r 3)).setOp r 3 IrOp.endOp.ctorIdx).word w =
        if w = 4 * r + 3 then (IrOp.endOp.ctorIdx : ℤ) else if w = 4 * phi + (i + 2) then C.op r 3
        else C.word w := by
      intro w
      rw [setOp_word, setOp_word]
    have hrest : ((C.setOp phi ((i : ℤ) + 2) (C.op r 3)).setOp r 3 IrOp.endOp.ctorIdx).insnsCount =
        C.insnsCount ∧ ((C.setOp phi ((i : ℤ) + 2) (C.op r 3)).setOp r 3 IrOp.endOp.ctorIdx).control =
        C.control := ⟨rfl, rfl⟩
    rw [hround]
    generalize (C.setOp phi ((i : ℤ) + 2) (C.op r 3)).setOp r 3 IrOp.endOp.ctorIdx = C' at hword hrest ⊢
    have hkeep : ∀ w, w ≠ 4 * r + 3 → w ≠ 4 * phi + (i + 2) → C'.word w = C.word w := by
      intro w h1 h2
      rw [hword, if_neg h1, if_neg h2]
    obtain ⟨hout, hframe, hcount, hcontrol⟩ := ih (i := i + 1) (C := C')
      (fun j hj => by
        have h := hin (j + 1) (by rw [List.length_cons]; omega)
        have hidx : i + (j + 1) = i + 1 + j := by omega
        rw [hidx] at h
        rw [← h.trans (List.getElem_cons_succ ..)]
        refine hkeep _ ?_ ?_
        · push_cast
          omega
        · push_cast
          omega)
      (fun x hx => hb x (List.mem_cons_of_mem _ hx)) hd'.2 (by push_cast; omega)
    refine ⟨?_, ?_, hcount.trans hrest.1, hcontrol.trans hrest.2⟩
    · intro j hj
      cases j with
      | zero =>
        have hf : PhiFrame phi refs (i + 1) (4 * phi + (i + 2)) := by
          refine ⟨Or.inl (by push_cast; omega), fun x hx => ?_⟩
          have := hb x (List.mem_cons_of_mem _ hx)
          omega
        show (Ctx.phiLoop merge phi refs.length (i + 1) C').word (4 * phi + ((i : ℤ) + 2)) = C.op r 3
        rw [hframe _ hf, hword, if_neg (by omega), if_pos rfl]
      | succ j =>
        have hj' : j < refs.length := by
          rw [List.length_cons] at hj
          omega
        have hidx : i + (j + 1) = i + 1 + j := by omega
        rw [hidx, hout j hj', List.getElem_cons_succ]
        have hmem : refs[j] ∈ refs := List.getElem_mem hj'
        have hne : refs[j] ≠ r := fun h => hd'.1 (h ▸ hmem)
        have hb' := hb _ (List.mem_cons_of_mem _ hmem)
        exact hkeep _ (by omega) (by omega)
    · intro w hw
      have hin' := hw.inputs
      rw [List.length_cons] at hin'
      push_cast at hin'
      have hf : PhiFrame phi refs (i + 1) w :=
        ⟨by push_cast; omega, fun x hx => hw.values x (List.mem_cons_of_mem _ hx)⟩
      rw [hframe w hf]
      exact hkeep w (hw.values r (by simp)) (by omega)

end Loops

/-! ## Merges -/

section Merges

variable {C C' : Ctx} {l : List (ℤ × ℤ)} {e : ℤ × ℤ}

/-- The references and the values of a list, in the order in which its elements were made. -/
def refs (l : List (ℤ × ℤ)) : List ℤ := l.reverse.map Prod.fst

def vals (l : List (ℤ × ℤ)) : List ℤ := l.reverse.map Prod.snd

/-- What `_ir_MERGE_LIST` makes of two or more elements. -/
structure Merged (C C' : Ctx) (l : List (ℤ × ℤ)) : Prop where
  control : C'.control = C.insnsCount
  merge : C'.op C.insnsCount 0 = opt .merge 0 + 65536 * l.length
  inputs : ∀ i, ∀ h : i < (refs l).length, C'.op C.insnsCount ((i : ℤ) + 1) = (refs l)[i]
  links : ∀ e ∈ l, C'.op e.1 2 = 0
  count : C'.insnsCount = C.insnsCount + 1 + (l.length / 4 : ℕ)
  frame : ∀ w, w < 4 * C.insnsCount → (∀ e ∈ l, w ≠ 4 * e.1 + 2) → C'.word w = C.word w

/-- What `_ir_BEGIN` makes of one element: the `END` is taken back if it is the last instruction. -/
structure Begun (C C' : Ctx) (ref : ℤ) : Prop where
  taken : C.folding = true → ref + 1 = C.insnsCount → C'.control = C.op ref 1 ∧ C'.insnsCount = ref
  begun : ¬(C.folding = true ∧ ref + 1 = C.insnsCount) → C'.control = C.insnsCount ∧
    C'.op C.insnsCount 0 = opt .beginOp 0 ∧ C'.op C.insnsCount 1 = ref ∧ C'.insnsCount = C.insnsCount + 1

theorem length_refs (l : List (ℤ × ℤ)) : (refs l).length = l.length := by
  unfold refs
  rw [List.length_map, List.length_reverse]

theorem getElem_refs {i : ℕ} (h : i < (refs l).length) (h' : l.length - 1 - i < l.length) :
    (refs l)[i] = (l[l.length - 1 - i]).1 := by
  simp [refs]

theorem length_lt {B : ℤ} (h0 : 0 < B) : ∀ {l : List (ℤ × ℤ)}, (∀ e ∈ l, 0 < e.1 ∧ e.1 < B) →
    l.Pairwise (fun e e' => e'.1 < e.1) → (l.length : ℤ) < B := by
  intro l
  induction l generalizing B with
  | nil => exact fun _ _ => h0
  | cons e l ih =>
    intro hb hs
    have he := hb e (by simp)
    have hs' := List.pairwise_cons.1 hs
    have hrest := ih he.1 (fun x hx => ⟨(hb x (List.mem_cons_of_mem _ hx)).1, hs'.1 x hx⟩) hs'.2
    rw [List.length_cons]
    push_cast
    omega

theorem IsList.countEnds (h : IsList C l) (hne : l ≠ []) :
    newest l ≠ 0 ∧ C.countEnds C.insnsCount.toNat (newest l) = l.length := by
  have hlt := length_lt h.start h.pos h.sorted
  cases l with
  | nil => exact absurd rfl hne
  | cons e l =>
    have hpos := (h.pos e (by simp)).1
    have hcount := countEnds_eq C.insnsCount.toNat h.linked (fun x hx => (h.pos x hx).1)
      (by rw [List.length_cons] at hlt; push_cast at hlt; omega)
    refine ⟨?_, ?_⟩
    · show e.1 ≠ 0
      omega
    · rw [List.length_cons]
      exact hcount

theorem emitN_word_of_lt (optx : ℤ) (count : ℕ) {w : ℤ} (h : w < 4 * C.insnsCount) :
    (C.emitN optx count).word w = C.word w := by
  unfold Ctx.emitN
  dsimp only
  rw [if_neg (by omega), if_neg (by omega)]

theorem emitN_optx (optx : ℤ) (count : ℕ) : (C.emitN optx count).op C.insnsCount 0 = optx + 65536 * count := by
  unfold Ctx.op Ctx.emitN
  dsimp only
  rw [if_pos (by omega)]

theorem IsList.merged (h : IsList C l) (hn : 2 ≤ l.length) : Merged C (C.mergeList (newest l)) l := by
  obtain ⟨hne, hcount⟩ := h.countEnds (by rintro rfl; simp at hn)
  have heq : C.mergeList (newest l) = Ctx.linkLoop C.insnsCount l.length
      { C.emitN (opt .merge 0) l.length with control := C.insnsCount } (newest l) := by
    unfold Ctx.mergeList
    rw [if_neg hne, hcount, if_neg (by omega)]
  have hlinked : Linked { C.emitN (opt .merge 0) l.length with control := C.insnsCount } l := by
    refine h.linked.congr fun e he k hk hk' => ?_
    have hlt := (h.pos e he).2
    exact emitN_word_of_lt _ _ (by omega)
  obtain ⟨hin, hlink, hframe, hinsns, hcontrol⟩ := linkLoop_spec hlinked h.pos h.sorted
  rw [heq]
  refine ⟨hcontrol, ?_, ?_, hlink, hinsns, ?_⟩
  · have hkeep : LinkFrame C.insnsCount l (4 * C.insnsCount + 0) :=
      ⟨Or.inl (by omega), fun e _ => by omega⟩
    exact (hframe _ hkeep).trans (emitN_optx (C := C) _ _)
  · intro i hi
    rw [length_refs] at hi
    have hlast := hin (l.length - 1 - i) (by omega)
    have hidx : ((l.length - (l.length - 1 - i) : ℕ) : ℤ) = (i : ℤ) + 1 := by omega
    rw [hidx] at hlast
    rw [hlast, getElem_refs]
  · intro w hw hlinks
    rw [hframe w ⟨Or.inl (by omega), hlinks⟩]
    exact emitN_word_of_lt _ _ hw

theorem begin_begun {ref : ℤ} (hop : C.op ref 0 = opt .endOp 0) (hpos : 0 < ref) : Begun C (C.begin ref) ref ∧
    ∀ w, w < 4 * C.insnsCount → (C.begin ref).word w = C.word w := by
  have hcode : C.opcode ref = IrOp.endOp.ctorIdx := by
    unfold Ctx.opcode
    rw [hop]
    rfl
  unfold Ctx.begin
  by_cases hlast : C.folding = true ∧ ref + 1 = C.insnsCount
  · rw [if_pos ⟨hlast.1, by omega, hlast.2, hcode⟩]
    refine ⟨⟨fun _ _ => ⟨rfl, ?_⟩, fun h => absurd hlast h⟩, fun _ _ => rfl⟩
    show C.insnsCount - 1 = ref
    omega
  · rw [if_neg fun h => hlast ⟨h.1, h.2.2.1⟩]
    refine ⟨⟨fun hf hr => absurd ⟨hf, hr⟩ hlast, fun _ => ⟨rfl, ?_, ?_, rfl⟩⟩, fun w hw => ?_⟩
    · show (C.emit _ _ _ _).word _ = _
      rw [emit_word, if_neg (by omega), if_neg (by omega), if_neg (by omega), if_pos (by omega)]
    · show (C.emit _ _ _ _).word _ = _
      rw [emit_word, if_neg (by omega), if_neg (by omega), if_pos rfl]
    · show (C.emit _ _ _ _).word w = _
      rw [emit_word, if_neg (by omega), if_neg (by omega), if_neg (by omega), if_neg (by omega)]

/-- What `_ir_PHI_LIST` makes of two or more elements. -/
structure Chosen (C C' : Ctx) (phi : ℤ) (l : List (ℤ × ℤ)) : Prop where
  control : C'.control = C.insnsCount
  merge : C'.op C.insnsCount 0 = opt .merge 0 + 65536 * l.length
  inputs : ∀ i, ∀ h : i < (refs l).length, C'.op C.insnsCount ((i : ℤ) + 1) = (refs l)[i]
  phiOptx : C'.op phi 0 = opt .phi (C.type ((vals l).getLastD 0)) + 65536 * (l.length + 1)
  region : C'.op phi 1 = C.insnsCount
  values : ∀ i, ∀ h : i < (vals l).length, C'.op phi ((i : ℤ) + 2) = (vals l)[i]
  links : ∀ e ∈ l, C'.op e.1 2 = 0
  frame : ∀ w, w < 4 * C.insnsCount → (∀ e ∈ l, w ≠ 4 * e.1 + 2 ∧ w ≠ 4 * e.1 + 3) → C'.word w = C.word w

theorem Linked.values (h : Linked C l) (he : e ∈ l) : C.op e.1 3 = e.2 := by
  induction l with
  | nil => cases he
  | cons x l ih =>
    obtain ⟨-, -, h3, hl⟩ := h
    rcases List.mem_cons.1 he with rfl | he
    · exact h3
    · exact ih hl he

theorem IsList.nodup_refs (h : IsList C l) : (refs l).Nodup := by
  unfold refs
  rw [List.Nodup, List.pairwise_map, List.pairwise_reverse]
  exact h.sorted.imp fun hlt => by omega

theorem mem_refs {r : ℤ} (h : r ∈ refs l) : ∃ e ∈ l, e.1 = r := by
  unfold refs at h
  obtain ⟨e, he, rfl⟩ := List.mem_map.1 h
  exact ⟨e, List.mem_reverse.1 he, rfl⟩

theorem opt_lt : opt .merge 0 < 65536 ∧ 0 ≤ opt .merge 0 := by decide

/-- The number of inputs of the `MERGE`. -/
theorem Merged.inputsCount (h : Merged C C' l) (hn : l.length < 65536) :
    C'.inputsCount C.insnsCount = l.length := by
  have hopt := opt_lt
  unfold Ctx.inputsCount
  rw [h.merge]
  omega

/-- The newest element of a list of two or more. -/
theorem IsList.newest (h : IsList C l) (hn : 2 ≤ l.length) :
    C.op (Builder.newest l) 2 ≠ 0 ∧ (C.op (Builder.newest l) 3 = (vals l).getLastD 0) := by
  match l, hn with
  | e :: e' :: l, _ =>
    obtain ⟨-, h2, h3, -⟩ := h.linked
    have hpos := (h.pos e' (by simp)).1
    refine ⟨?_, ?_⟩
    · show C.op e.1 2 ≠ 0
      rw [h2]
      show e'.1 ≠ 0
      omega
    · show C.op e.1 3 = _
      rw [h3]
      simp [vals]

theorem IsList.chosen (h : IsList C l) (hn : 2 ≤ l.length) (hmax : l.length + 1 < 65536)
    (hval : (vals l).getLastD 0 ≠ 0) :
    Chosen C (C.phiList (Builder.newest l)).1 (C.phiList (Builder.newest l)).2 l := by
  have hm := h.merged hn
  obtain ⟨hne, -⟩ := h.countEnds (by rintro rfl; simp at hn)
  obtain ⟨hlink, hlast⟩ := h.newest hn
  have hcount := hm.inputsCount (by omega)
  have hnodup := h.nodup_refs
  have hlen := length_refs l
  have hbound : ∀ r ∈ refs l, 0 < r ∧ r < C.insnsCount := by
    intro r hr
    obtain ⟨e, he, rfl⟩ := mem_refs hr
    exact h.pos e he
  -- the context before the loop: the `PHI` has its region
  obtain ⟨C₃, hC₃⟩ : ∃ C₃, C₃ = ((C.mergeList (Builder.newest l)).emitN
      (opt .phi (C.type ((vals l).getLastD 0))) (l.length + 1)).setOp
        (C.mergeList (Builder.newest l)).insnsCount 1 C.insnsCount := ⟨_, rfl⟩
  have heq : C.phiList (Builder.newest l) =
      (Ctx.phiLoop C.insnsCount (C.mergeList (Builder.newest l)).insnsCount (refs l).length 0 C₃,
        (C.mergeList (Builder.newest l)).insnsCount) := by
    unfold Ctx.phiList
    rw [if_neg hne, if_neg hlink, if_neg (by rw [hlast]; exact hval), hlast]
    dsimp only
    have hsame : ∀ n, ((C.mergeList (Builder.newest l)).emitN (opt .phi (C.type ((vals l).getLastD 0))) n).inputsCount
        C.insnsCount = l.length := by
      intro n
      unfold Ctx.inputsCount Ctx.op
      rw [emitN_word_of_lt _ _ (by rw [hm.count]; omega)]
      exact hcount
    have hctl : ∀ n, ((C.mergeList (Builder.newest l)).emitN (opt .phi (C.type ((vals l).getLastD 0))) n).control =
        C.insnsCount := fun _ => hm.control
    rw [hm.control, hcount, hctl, hsame, hC₃, hlen]
  have hphi : 4 * C.insnsCount + l.length < 4 * (C.mergeList (Builder.newest l)).insnsCount := by
    rw [hm.count]
    omega
  have hkeep : ∀ w, w < 4 * (C.mergeList (Builder.newest l)).insnsCount →
      C₃.word w = (C.mergeList (Builder.newest l)).word w := by
    intro w hw
    rw [hC₃, setOp_word, if_neg (by omega), emitN_word_of_lt _ _ hw]
  have hcontrol : C₃.control = C.insnsCount := by
    rw [hC₃]
    exact hm.control
  have hoptx : C₃.op (C.mergeList (Builder.newest l)).insnsCount 0 =
      opt .phi (C.type ((vals l).getLastD 0)) + 65536 * (l.length + 1) := by
    rw [hC₃]
    unfold Ctx.op
    have hcast : ((l.length + 1 : ℕ) : ℤ) = l.length + 1 := by omega
    rw [setOp_word, if_neg (by omega), ← hcast]
    exact emitN_optx _ _
  have hregion : C₃.op (C.mergeList (Builder.newest l)).insnsCount 1 = C.insnsCount := by
    rw [hC₃]
    unfold Ctx.op
    rw [setOp_word, if_pos rfl]
  clear hC₃
  generalize C.mergeList (Builder.newest l) = C₁ at *
  rw [heq]
  dsimp only
  have hinputs : ∀ j, ∀ h : j < (refs l).length,
      C₃.op C.insnsCount (((0 + j : ℕ) : ℤ) + 1) = (refs l)[j] := fun j hj => by
    have hin := hm.inputs j hj
    rw [Nat.zero_add, ← hin]
    exact hkeep _ (by rw [hlen] at hj; omega)
  obtain ⟨hout, hframe, -, hcontrol'⟩ := phiLoop_spec hinputs hbound hnodup
    (show 4 * (C.insnsCount : ℤ) + ((0 : ℕ) : ℤ) + (refs l).length < 4 * C₁.insnsCount by omega)
  have hlt : ∀ w, w < 4 * C₁.insnsCount → (∀ r ∈ refs l, w ≠ 4 * r + 3) →
      (Ctx.phiLoop C.insnsCount C₁.insnsCount (refs l).length 0 C₃).word w = C₁.word w := by
    intro w hw hne
    rw [hframe w ⟨Or.inl (by omega), hne⟩, hkeep w hw]
  have hfar : ∀ w, 4 * C.insnsCount ≤ w → ∀ r ∈ refs l, w ≠ 4 * r + 3 := by
    intro w hw r hr
    have := hbound r hr
    omega
  refine ⟨hcontrol'.trans hcontrol, ?_, ?_, ?_, ?_, ?_, ?_, ?_⟩
  · exact (hlt _ (by omega) (hfar _ (by omega))).trans hm.merge
  · intro i hi
    refine (hlt _ ?_ (hfar _ (by omega))).trans (hm.inputs i hi)
    rw [hlen] at hi
    omega
  · exact (hframe _ ⟨Or.inl (by omega), hfar _ (by omega)⟩).trans hoptx
  · exact (hframe _ ⟨Or.inl (by omega), hfar _ (by omega)⟩).trans hregion
  · intro i hi
    have hi' : i < (refs l).length := by
      rw [hlen]
      simpa [vals] using hi
    have hvalue := hout i hi'
    rw [Nat.zero_add] at hvalue
    rw [hvalue]
    have hb := hbound _ (List.getElem_mem hi')
    have hkept : C₃.op (refs l)[i] 3 = C.op (refs l)[i] 3 := by
      refine (hkeep _ (by omega)).trans (hm.frame _ (by omega) fun e he => ?_)
      omega
    rw [hkept]
    have hrev : i < l.reverse.length := by simpa [vals] using hi
    have hmem : l.reverse[i] ∈ l := List.mem_reverse.1 (List.getElem_mem hrev)
    have hv := h.linked.values hmem
    simpa [refs, vals] using hv
  · intro e he
    refine (hlt _ ?_ ?_).trans (hm.links e he)
    · have := h.pos e he
      omega
    · intro r _
      omega
  · intro w hw hne
    refine (hlt w (by omega) fun r hr => ?_).trans (hm.frame w hw fun e he => (hne e he).1)
    obtain ⟨e, he, rfl⟩ := mem_refs hr
    exact (hne e he).2

/-- The single element of a list. -/
theorem IsList.single (h : IsList C [e]) : 0 < e.1 ∧ C.op e.1 0 = opt .endOp 0 ∧ C.op e.1 2 = 0 ∧
    C.op e.1 3 = e.2 :=
  ⟨(h.pos e (by simp)).1, h.linked.1, h.linked.2.1, h.linked.2.2.1⟩

/-- What is left of a single element, and of everything else. -/
structure Single (C C' : Ctx) (e : ℤ × ℤ) (val : ℤ) : Prop where
  begun : Begun C C' e.1
  link : C'.op e.1 2 = 0
  value : C'.op e.1 3 = val
  frame : ∀ w, w < 4 * C.insnsCount → w ≠ 4 * e.1 + 3 → C'.word w = C.word w

/-- A store to an operand of the only element, and `_ir_BEGIN`. -/
theorem IsList.single_begin (h : IsList C [e]) {n v : ℤ} (hn : n = 2 ∧ v = 0 ∨ n = 3) :
    Single C ((C.setOp e.1 n v).begin e.1) e (if n = 3 then v else e.2) := by
  obtain ⟨hpos, hop, hlink, hval⟩ := h.single
  have hlt := (h.pos e (by simp)).2
  have hread : ∀ k, k ≠ n → (C.setOp e.1 n v).op e.1 k = C.op e.1 k := by
    intro k hk
    unfold Ctx.op
    rw [setOp_word, if_neg (by omega)]
  obtain ⟨hbegun, hframe⟩ := begin_begun (C := C.setOp e.1 n v) (by rw [hread 0 (by omega)]; exact hop) hpos
  have hword : ∀ k, 0 ≤ k → k < 4 → ((C.setOp e.1 n v).begin e.1).op e.1 k = (C.setOp e.1 n v).op e.1 k :=
    fun k hk hk' => hframe _ (by show _ < 4 * C.insnsCount; omega)
  refine ⟨⟨fun hf hr => ?_, hbegun.begun⟩, ?_, ?_, fun w hw hne => ?_⟩
  · obtain ⟨hctl, hcount⟩ := hbegun.taken hf hr
    exact ⟨hctl.trans (hread 1 (by omega)), hcount⟩
  · rw [hword 2 (by omega) (by omega)]
    rcases hn with ⟨rfl, rfl⟩ | rfl
    · unfold Ctx.op
      rw [setOp_word, if_pos rfl]
    · exact (hread 2 (by omega)).trans hlink
  · rw [hword 3 (by omega) (by omega)]
    rcases hn with ⟨rfl, rfl⟩ | rfl
    · exact (hread 3 (by omega)).trans hval
    · unfold Ctx.op
      rw [setOp_word, if_pos rfl]
      rfl
  · refine (hframe w hw).trans ?_
    rw [setOp_word]
    split_ifs with hw'
    · rcases hn with ⟨rfl, rfl⟩ | rfl
      · rw [hw']
        exact hlink.symm
      · exact absurd hw' hne
    · rfl

end Merges

/-- **However a list is built, `_ir_MERGE_LIST` makes a `MERGE` of its elements in the order of their
creation, and `_ir_PHI_LIST` a `PHI` of their values; a single element gets a `BEGIN` unless it is the
last instruction and taken back, and its value is returned.** -/
theorem end_list_merges {C : Ctx} {l : List (ℤ × ℤ)} (h : Built C l) (hmax : l.length + 1 < 65536) :
    (∀ e, l = [e] → Single C (C.mergeList e.1) e e.2 ∧
      Single C (C.phiList e.1).1 e 0 ∧ (C.phiList e.1).2 = e.2) ∧
    (2 ≤ l.length → Merged C (C.mergeList (newest l)) l) ∧
    (2 ≤ l.length → (vals l).getLastD 0 ≠ 0 →
      Chosen C (C.phiList (newest l)).1 (C.phiList (newest l)).2 l) := by
  have hlist := h.isList
  refine ⟨?_, hlist.merged, fun hn => hlist.chosen hn hmax⟩
  rintro e rfl
  obtain ⟨hpos, -, hlink, hval⟩ := hlist.single
  obtain ⟨hne, hcount⟩ := hlist.countEnds (by simp)
  change e.1 ≠ 0 at hne
  change C.countEnds C.insnsCount.toNat e.1 = 1 at hcount
  have hmerge : C.mergeList e.1 = (C.setOp e.1 2 0).begin e.1 := by
    unfold Ctx.mergeList
    rw [if_neg hne, if_pos hcount]
  have hphi : C.phiList e.1 = ((C.setOp e.1 3 0).begin e.1, C.op e.1 3) := by
    unfold Ctx.phiList
    rw [if_neg hne, if_pos hlink]
  rw [hmerge, hphi]
  exact ⟨hlist.single_begin (Or.inl ⟨rfl, rfl⟩), hlist.single_begin (Or.inr rfl), hval⟩

/-- A function whose control is at its `START`. -/
def startCtx : Ctx := ⟨fun w => if w = 4 then IrOp.start.ctorIdx else 0, 2, 1, true⟩

/-- Two `END`s with the values -5 and -6. -/
def twoEnds : Ctx :=
  Ctx.endPhiList { startCtx.endPhiList 0 (-5) with control := 1 } 2 (-6)

theorem startCtx_built : Built (startCtx.endList 0) [(2, 0)] :=
  .endList (.nil (by decide)) (by decide)

theorem twoEnds_built : Built twoEnds [(3, -6), (2, -5)] := by
  have hone : Built (startCtx.endPhiList 0 (-5)) [(2, -5)] := .endPhiList (.nil (by decide)) (by decide)
  have hnext : Built { startCtx.endPhiList 0 (-5) with control := 1 } [(2, -5)] := by
    refine .other hone (by decide) fun e he => ⟨?_, fun _ _ _ => rfl⟩
    rw [List.mem_singleton.1 he]
    decide
  exact .endPhiList hnext (by decide)

/-- A single `END` that is the last instruction gets no `BEGIN`; with two, the operands of the values
are not cleared. -/
theorem end_list_not_merges :
    (¬∀ (C : Ctx) (l : List (ℤ × ℤ)), Built C l → l ≠ [] → l.length + 1 < 65536 →
      ∀ i, ∀ h : i < (refs l).length,
        (C.mergeList (newest l)).op (C.mergeList (newest l)).control ((i : ℤ) + 1) = (refs l)[i]) ∧
    ¬∀ (C : Ctx) (l : List (ℤ × ℤ)), Built C l → l ≠ [] → l.length + 1 < 65536 →
      ∀ e ∈ l, (C.phiList (newest l)).1.op e.1 3 = 0 := by
  constructor
  · intro h
    have hinput := h _ _ startCtx_built (by simp) (by decide) 0 (by decide)
    exact absurd hinput (by decide)
  · intro h
    have hvalue := h _ _ twoEnds_built (by simp) (by decide) (2, -5) (by simp)
    exact absurd hvalue (by decide)

theorem end_list_merges_two : Chosen twoEnds (twoEnds.phiList 3).1 (twoEnds.phiList 3).2 [(3, -6), (2, -5)] :=
  (end_list_merges twoEnds_built (by decide)).2.2 (by decide) (by decide)

end IrJit.Builder
