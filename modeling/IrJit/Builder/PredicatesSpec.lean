import IrJit.Builder.PredicatesChain

/-!
# Builder.PredicatesSpec — what the chain says about a condition

An execution comes to an instruction of a chain from the one before it, and the values of smaller references
stay as they are on the way; at `START`, `MERGE` and `LOOP_BEGIN` the walk ends, so nothing is said of how
they are reached.  An `ENTRY` may be entered from outside, whatever has been checked before it
(`Reaches.enter`), and the walk does not stop there.
-/

namespace IrJit.Predicates

open Mem (Insn Ctx)

/-! ## Executions -/

section Executions

variable (C : Ctx) (v : ℤ → BitVec 64)

/-- The value of a reference is not zero. -/
def truth (ref : ℤ) : Bool := nonZero (C.base ref).type (v ref)

/-- The constants that every context has, addresses as constants, and the types of comparisons. -/
structure WellFormed : Prop where
  null : (C.base irNull).type = .addr ∧ (C.base irNull).val = 0 ∧ (C.base irNull).op.isSymConst = false
  false_ : (C.base irFalse).type = .bool ∧ (C.base irFalse).val = 0 ∧ (C.base irFalse).op.isSymConst = false
  true_ : (C.base irTrue).type = .bool ∧ (C.base irTrue).val = 1 ∧ (C.base irTrue).op.isSymConst = false
  sym : ∀ r, (C.base r).op.isSymConst = true → (C.base r).type = .addr ∧ (C.base r).val ≠ 0
  compared : ∀ r, (C.base r).op = .eq ∨ (C.base r).op = .ne →
    (C.base r).type = .bool ∧ (C.base (C.base r).op1).type = (C.base (C.base r).op2).type

/-- What values instructions and constants have. -/
structure Models : Prop where
  const : ∀ r, r < 0 → (C.base r).op.isSymConst = false → v r = (C.base r).val
  sym : ∀ r, r < 0 → (C.base r).op.isSymConst = true → v r ≠ 0
  bool : ∀ r, (C.base r).type = .bool → v r = 0 ∨ v r = 1
  frame : ∀ r, isFrameAddr C r = true → v r ≠ 0 ∧ (C.base r).type = .addr
  eq : ∀ r, (C.base r).op = .eq → (C.base (C.base r).op2).type.isInt = true →
    v r = if v (C.base r).op1 = v (C.base r).op2 then 1 else 0
  ne : ∀ r, (C.base r).op = .ne → (C.base (C.base r).op2).type.isInt = true →
    v r = if v (C.base r).op1 = v (C.base r).op2 then 0 else 1

/-- Control comes past the instruction, or into this projection of a branch. -/
def Passes (insn : Insn) : Prop :=
  (insn.op = .guard → truth C v insn.op2 = true) ∧ (insn.op = .guardNot → truth C v insn.op2 = false) ∧
    (insn.op = .ifTrue → truth C v (C.base insn.op1).op2 = true) ∧
      (insn.op = .ifFalse → truth C v (C.base insn.op1).op2 = false)

/-- A block that may be entered from outside: an `ENTRY`, or a `BEGIN` with a label. -/
def Open (insn : Insn) : Prop := insn.op = .entry ∨ insn.op = .beginOp ∧ insn.op2 ≠ 0

/-- An execution has come past an instruction, with these values; it has entered from outside at
instructions in `A` only. -/
inductive Reaches (C : Ctx) (A : ℕ → Prop) : ℕ → (ℤ → BitVec 64) → Prop
  | enter {n : ℕ} {v : ℤ → BitVec 64} : isJoin (C.base n).op = true ∨ Open (C.base n) ∧ A n → Models C v →
    Reaches C A n v
  | step {m n : ℕ} {v v' : ℤ → BitVec 64} : Reaches C A m v → (C.base n).op1 = m → isJoin (C.base n).op = false →
    Passes C v' (C.base n) → Models C v' → (∀ r : ℤ, r ≤ m → v' r = v r) → Reaches C A n v'

end Executions

/-! ## The walk -/

section Walk

variable {C : Ctx} {A : ℕ → Prop} {v : ℤ → BitVec 64} {c limit : ℤ} {fuel n : ℕ} {prev : Option Insn}

theorem Reaches.models (h : Reaches C A n v) : Models C v := by
  cases h with
  | enter _ hm => exact hm
  | step _ _ _ _ hm _ => exact hm

/-- What the walk says is so in every execution that comes along the instructions it has looked at. -/
theorem check_sound {b : Bool} (hc : 0 ≤ c) (hlimit : c ≤ limit) (hv : Reaches C A n v)
    (hopen : ∀ m ∈ walked C c limit fuel n prev, Open (C.base m) → ¬A m)
    (h : checkDominatingPredicates C c limit fuel n prev = known b) :
    truth C v c = b ∨ (C.base n).op = .ifOp ∧ (C.base n).op2 = c ∧ ∃ p, prev = some p ∧ p.op = projOp b := by
  induction hv generalizing fuel prev with
  | @enter n v hn hm =>
    obtain ⟨-, rounds, -, hmem, hverdict⟩ := check_known hc h
    rcases hn with hjoin | ⟨hop, hA⟩
    · rw [verdict_join hjoin] at hverdict
      rcases hverdict with hverdict | ⟨hverdict, -⟩
      · exact absurd (Option.some.inj hverdict) (known_ne hc b)
      · exact absurd hverdict (Option.some_ne_none c)
    · exact absurd hA (hopen n hmem hop)
  | @step m n v v' hm hprev hjoin hpass hmodels hstable ih =>
    obtain ⟨-, rounds, -, -, hverdict | ⟨-, hnext, hsub⟩⟩ := check_known hc h
    · obtain ⟨hop2, hop | ⟨hop, hp⟩⟩ := verdict_known hc hverdict
      · left
        rw [← hop2]
        cases b with
        | true => exact hpass.1 hop
        | false => exact hpass.2.1 hop
      · exact Or.inr ⟨hop, hop2, hp⟩
    · rw [hprev, Int.toNat_natCast] at hnext hsub
      obtain ⟨hlt, -⟩ := check_known hc hnext
      have hsame : truth C v' c = truth C v c := by
        unfold truth
        rw [hstable c (by omega)]
      rcases ih (fun x hx => hopen x (hsub x hx)) hnext with htrue | ⟨hif, hop2, p, hp, hproj⟩
      · exact Or.inl (hsame.trans htrue)
      · -- into the projection
        obtain rfl := Option.some.inj hp
        left
        rw [← hop2, ← hprev]
        cases b with
        | true => exact hpass.2.2.1 hproj
        | false => exact hpass.2.2.2 hproj

end Walk

/-! ## Folded conditions -/

section Fold

variable {C : Ctx} {v : ℤ → BitVec 64} {ref : ℤ}

theorem truth_of_int {t : IrType} {x : BitVec 64} (ht : t.isInt = true) (hbool : t = .bool → x = 0 ∨ x = 1) :
    nonZero t x = decide (x ≠ 0) := by
  cases t with
  | bool =>
    rcases hbool rfl with rfl | rfl
    · decide
    · decide
  | double => cases ht
  | float => cases ht
  | _ => rfl

variable (hw : WellFormed C) (hm : Models C v)

include hw hm

theorem truth_irTrue : truth C v irTrue = true := by
  have hval := hm.const irTrue (by decide) hw.true_.2.2
  unfold truth
  rw [hval, hw.true_.1, hw.true_.2.1]
  decide

theorem truth_irFalse : truth C v irFalse = false := by
  have hval := hm.const irFalse (by decide) hw.false_.2.2
  unfold truth
  rw [hval, hw.false_.1, hw.false_.2.1]
  decide

theorem truth_known (b : Bool) : truth C v (known b) = b := by
  cases b with
  | true => exact truth_irTrue hw hm
  | false => exact truth_irFalse hw hm

/-- `ir_ref_is_true` of a constant. -/
theorem refIsTrue_eq (hr : ref < 0) : refIsTrue C ref = truth C v ref := by
  unfold refIsTrue
  by_cases ht : ref = irTrue
  · rw [if_pos ht, ht, truth_irTrue hw hm]
  · by_cases hf : ref = irFalse
    · rw [if_neg ht, if_pos hf, hf, truth_irFalse hw hm]
    · rw [if_neg ht, if_neg hf]
      unfold constIsTrue truth
      by_cases hs : (C.base ref).op.isSymConst = true
      · rw [if_pos hs, (hw.sym ref hs).1]
        exact (decide_eq_true (hm.sym ref hr hs)).symm
      · rw [if_neg hs, hm.const ref hr (Bool.eq_false_iff.2 hs)]

omit hw in
theorem truth_frame (hr : isFrameAddr C ref = true) : truth C v ref = true := by
  obtain ⟨hne, ht⟩ := hm.frame ref hr
  unfold truth
  rw [ht]
  exact decide_eq_true hne

/-- Folding keeps what a condition says. -/
theorem foldCondition_sound (ref : ℤ) : truth C v (foldCondition C ref) = truth C v ref := by
  unfold foldCondition
  dsimp only
  by_cases hne : (C.base ref).op = .ne ∧ (C.base ref).op2 < 0
  · rw [if_pos hne]
    by_cases hzero : (C.base (C.base ref).op2).type.isInt ∧ (C.base (C.base ref).op2).val = 0
    · rw [if_pos hzero]
      obtain ⟨hbool, htype⟩ := hw.compared ref (Or.inr hne.1)
      have hsym : (C.base (C.base ref).op2).op.isSymConst = false := by
        by_contra hs
        exact (hw.sym _ (Bool.not_eq_false _ ▸ hs)).2 hzero.2
      have hop2 : v (C.base ref).op2 = 0 := (hm.const _ hne.2 hsym).trans hzero.2
      have hval := hm.ne ref hne.1 hzero.1
      rw [hop2] at hval
      have hint : nonZero (C.base (C.base ref).op1).type (v (C.base ref).op1) =
          decide (v (C.base ref).op1 ≠ 0) :=
        truth_of_int (htype ▸ hzero.1) fun h => hm.bool _ h
      have hop1 : truth C v ref = truth C v (C.base ref).op1 := by
        unfold truth
        rw [hbool, hval, hint]
        by_cases h0 : v (C.base ref).op1 = 0
        · rw [if_pos h0, h0]
          decide
        · rw [if_neg h0]
          exact (decide_eq_true h0).symm
      rw [hop1]
      split_ifs with hframe
      · rw [truth_irTrue hw hm, truth_frame hm hframe]
      · rfl
    · rw [if_neg hzero]
  · rw [if_neg hne]
    by_cases htrue : (C.base ref).op = .eq ∧ (C.base ref).op2 = irTrue
    · rw [if_pos htrue]
      obtain ⟨hbool, htype⟩ := hw.compared ref (Or.inl htrue.1)
      rw [htrue.2, hw.true_.1] at htype
      have hone : v irTrue = 1 := (hm.const irTrue (by decide) hw.true_.2.2).trans hw.true_.2.1
      have hval := hm.eq ref htrue.1 (by rw [htrue.2, hw.true_.1]; rfl)
      rw [htrue.2, hone] at hval
      unfold truth
      rw [hbool, htype, hval]
      rcases hm.bool _ htype with h | h
      · rw [h]
        decide
      · rw [h]
        decide
    · rw [if_neg htrue]
      by_cases hnull : (C.base ref).op = .eq ∧ (C.base ref).op2 = irNull
      · rw [if_pos hnull]
        split_ifs with hframe
        · obtain ⟨hbool, -⟩ := hw.compared ref (Or.inl hnull.1)
          have hzero : v irNull = 0 := (hm.const irNull (by decide) hw.null.2.2).trans hw.null.2.1
          have hval := hm.eq ref hnull.1 (by rw [hnull.2, hw.null.1]; rfl)
          rw [hnull.2, hzero, if_neg (hm.frame _ hframe).1] at hval
          rw [truth_irFalse hw hm]
          unfold truth
          rw [hbool, hval]
          decide
        · rfl
      · rw [if_neg hnull]

end Fold

/-! ## The builder -/

section Main

variable (C : Ctx) (A : ℕ → Prop) (v : ℤ → BitVec 64)

/-- Does a guard leave?  `b` is what its condition has to be; one that is not emitted does not. -/
def leaves (b : Bool) (guard : Option ℤ) : Bool := guard.any fun r => truth C v r ≠ b

/-- The execution has not entered from outside at an instruction that the walk for a condition looks at. -/
def Undisturbed (c : ℤ) : Prop := 0 ≤ c → ∀ n ∈ lookedAt C c, Open (C.base n) → ¬A n

/-- In an execution that has come to `ctx->control`, the walks end and say what is so, and guards and branches
do what they would do with the conditions they were asked for; all this for conditions that `ok` holds of. -/
structure Sound (ok : ℤ → Prop) : Prop where
  ends : ∀ c, 0 ≤ c → ∀ fuel, C.control < fuel → ∀ limit, 0 ≤ limit →
    checkDominatingPredicates C c limit fuel C.control none =
      checkDominatingPredicates C c limit (C.control + 1) C.control none
  dominated : ∀ c, 0 ≤ c → ok c → ∀ b, dominated C c = known b → truth C v c = b
  dominatedFrom : ∀ c, 0 ≤ c → ok c → ∀ b, dominatedFrom C c = known b → truth C v c = b
  guard : ∀ c, ok c → leaves C v true (guardCondition C c) = leaves C v true (some c)
  guardNot : ∀ c, ok c → leaves C v false (guardNotCondition C c) = leaves C v false (some c)
  ifOp : ∀ c, ok (foldCondition C c) → truth C v (ifCondition C c) = truth C v c

variable {C A v} {c : ℤ}

/-- The walk from the control. -/
theorem dominated_sound (hv : Reaches C A C.control v) (hc : 0 ≤ c) (hok : Undisturbed C A c) {b : Bool}
    (h : dominated C c = known b) : truth C v c = b := by
  rcases check_sound hc le_rfl hv (hok hc) h with htruth | ⟨-, -, p, hp, -⟩
  · exact htruth
  · cases hp

/-- A condition behind the control has not been tested. -/
theorem dominatedFrom_eq (h : Chained C) : dominatedFrom C c = dominated C c ∨ dominatedFrom C c = c := by
  unfold dominatedFrom
  split_ifs with hlt
  · exact Or.inl rfl
  · exact Or.inr (h.check_late h.control_lt (by omega))

/-- The result of the walk says what the condition says. -/
theorem truth_dominated (hw : WellFormed C) (hv : Reaches C A C.control v) (hc : 0 ≤ c) (hok : Undisturbed C A c) :
    truth C v (dominated C c) = truth C v c := by
  rcases check_cases (C := C) c c (C.control + 1) C.control none with h | ⟨b, h⟩
  · exact congrArg (truth C v) h
  · have hb : dominated C c = known b := h
    rw [hb, truth_known hw hv.models, dominated_sound hv hc hok hb]

theorem guard_sound (hw : WellFormed C) (hv : Reaches C A C.control v) (hok : Undisturbed C A c) :
    leaves C v true (guardCondition C c) = leaves C v true (some c) := by
  have hm := hv.models
  unfold guardCondition
  split_ifs with hneg htrue hdom
  · have htruth : truth C v c = true := (refIsTrue_eq hw hm hneg).symm.trans htrue
    simp [leaves, htruth]
  · have htruth : truth C v c = false := (refIsTrue_eq hw hm hneg).symm.trans (Bool.eq_false_iff.2 htrue)
    simp [leaves, htruth, truth_irFalse hw hm]
  · have htruth : truth C v c = true := dominated_sound hv (by omega) hok hdom
    simp [leaves, htruth]
  · simp [leaves, truth_dominated hw hv (by omega) hok]

theorem guardNot_sound (hw : WellFormed C) (hv : Reaches C A C.control v) (hok : Undisturbed C A c) :
    leaves C v false (guardNotCondition C c) = leaves C v false (some c) := by
  have hm := hv.models
  unfold guardNotCondition
  split_ifs with hneg htrue hdom
  · have htruth : truth C v c = true := (refIsTrue_eq hw hm hneg).symm.trans htrue
    simp [leaves, htruth, truth_irTrue hw hm]
  · have htruth : truth C v c = false := (refIsTrue_eq hw hm hneg).symm.trans (Bool.eq_false_iff.2 htrue)
    simp [leaves, htruth]
  · have htruth : truth C v c = false := dominated_sound hv (by omega) hok hdom
    simp [leaves, htruth]
  · simp [leaves, truth_dominated hw hv (by omega) hok]

theorem if_sound (hw : WellFormed C) (hv : Reaches C A C.control v) (hok : Undisturbed C A (foldCondition C c)) :
    truth C v (ifCondition C c) = truth C v c := by
  have hm := hv.models
  rw [← foldCondition_sound hw hm c]
  unfold ifCondition
  dsimp only
  split_ifs with hneg htrue
  · rw [truth_irTrue hw hm, ← refIsTrue_eq hw hm hneg, htrue]
  · rw [truth_irFalse hw hm, ← refIsTrue_eq hw hm hneg, Bool.eq_false_iff.2 htrue]
  · exact truth_dominated hw hv (by omega) hok

/-- Executions that have entered from outside at nothing that is looked at. -/
theorem predicates_sound (hC : Built C) (hw : WellFormed C) (hv : Reaches C A C.control v) :
    Sound C v (Undisturbed C A) where
  ends := fun c _ fuel hfuel limit hlimit =>
    hC.chained.check_fuel hlimit hC.chained.control_lt hfuel (Nat.lt_succ_self _)
  dominated := fun c hc hok b h => dominated_sound hv hc hok h
  dominatedFrom := by
    intro c hc hok b h
    rcases dominatedFrom_eq hC.chained with heq | heq
    · exact dominated_sound hv hc hok (heq.symm.trans h)
    · exact absurd (heq.symm.trans h) (known_ne hc b)
  guard := fun c hok => guard_sound hw hv hok
  guardNot := fun c hok => guardNot_sound hw hv hok
  ifOp := fun c hok => if_sound hw hv hok

end Main

/-! ## A function with an entry -/

section Entry

/-- Constants only. -/
def constants : Ctx where
  base := fun r =>
    if r < 0 then ⟨.cBool, if r = irNull then .addr else .bool, 0, 0, 0, if r = irTrue then 1 else 0, 0⟩
    else node .nop .void 0 0 0
  insnsCount := 1
  control := 0
  pureProto := fun _ => false

/-- `START`, a parameter, a guard for it, `END`, and an `ENTRY` behind it. -/
def lateEntry : Ctx :=
  irEntry (endBlock (irGuard (emit (irStart constants) 0 (node .param .i32 1 0 0)) id 2 0) .endOp 0 0) 4 0

theorem constants_const : ∀ r < 0, (constants.base r).op.isConstOp = true ∨ (constants.base r).op.isSymConst = true := by
  intro r hr
  unfold constants
  dsimp only
  rw [if_pos hr]
  exact Or.inl rfl

theorem built_lateEntry : Built lateEntry := by
  have hstart : Built (irStart constants) := .start rfl rfl constants_const
  have hparam : Built (emit (irStart constants) 0 (node .param .i32 1 0 0)) := hstart.data rfl (by decide)
  have hguard : Built (irGuard (emit (irStart constants) 0 (node .param .i32 1 0 0)) id 2 0) :=
    hparam.guard (by decide) hparam (by decide) (by decide)
  exact .entry (.endBlock hguard (by decide) rfl (by decide)) ⟨by decide, by decide⟩ (Or.inr (Or.inl rfl))

/-- No comparisons, addresses or symbols, and no other constants. -/
structure Plain (C : Ctx) : Prop where
  op : ∀ r, (C.base r).op ≠ .eq ∧ (C.base r).op ≠ .ne ∧ (C.base r).op.isSymConst = false ∧ isFrameAddr C r = false
  const : ∀ r < 0, C.base r = constants.base r

variable {C : Ctx}

theorem Plain.emitted (h : Plain C) {extra : ℕ} {insn : Insn} (heq : insn.op ≠ .eq) (hne : insn.op ≠ .ne)
    (hsym : insn.op.isSymConst = false) (hframe : (insn.op = .alloca || insn.op = .vaddr) = false) :
    Plain (emit C extra insn) where
  op := by
    intro r
    unfold isFrameAddr emit
    dsimp only
    split_ifs
    · exact ⟨heq, hne, hsym, hframe⟩
    · exact ⟨by decide, by decide, rfl, rfl⟩
    · exact h.op r
  const := by
    intro r hr
    rw [← h.const r hr]
    show (if _ then _ else if _ then _ else _) = _
    rw [if_neg (by omega), if_neg (by omega)]

theorem plain_lateEntry : Plain lateEntry := by
  have hconst : Plain constants := by
    refine ⟨fun r => ?_, fun _ _ => rfl⟩
    unfold isFrameAddr constants
    dsimp only
    split_ifs <;> exact ⟨by decide, by decide, rfl, rfl⟩
  have hstart : Plain (irStart constants) := by
    have h : Plain (emit constants 0 (node .start .void 0 0 0)) :=
      hconst.emitted (by decide) (by decide) rfl rfl
    exact ⟨h.op, h.const⟩
  have hparam : Plain (emit (irStart constants) 0 (node .param .i32 1 0 0)) :=
    hstart.emitted (by decide) (by decide) rfl rfl
  have hguard : Plain (emit _ 0 (node .guard .void 1 2 0)) := hparam.emitted (by decide) (by decide) rfl rfl
  have hend : Plain (emit _ 0 (node .endOp .void 3 0 0)) := hguard.emitted (by decide) (by decide) rfl rfl
  have hentry : Plain (emit _ 0 (node .entry .void 4 0 0)) := hend.emitted (by decide) (by decide) rfl rfl
  exact ⟨hentry.op, hentry.const⟩

theorem Plain.wellFormed (h : Plain C) : WellFormed C where
  null := by
    rw [h.const irNull (by decide)]
    exact ⟨rfl, rfl, rfl⟩
  false_ := by
    rw [h.const irFalse (by decide)]
    exact ⟨rfl, rfl, rfl⟩
  true_ := by
    rw [h.const irTrue (by decide)]
    exact ⟨rfl, rfl, rfl⟩
  sym := fun r hr => absurd (hr.symm.trans (h.op r).2.2.1) (by decide)
  compared := fun r hr => (hr.elim (h.op r).1 (h.op r).2.1).elim

/-- The value of the parameter. -/
def withParam (x : Bool) : ℤ → BitVec 64 := fun r => if r = irTrue then 1 else if r = 2 ∧ x = true then 1 else 0

theorem Plain.models (h : Plain C) (x : Bool) : Models C (withParam x) where
  const := by
    intro r hr _
    rw [h.const r hr]
    unfold withParam constants
    dsimp only
    rw [if_pos hr]
    by_cases htrue : r = irTrue
    · rw [if_pos htrue]
      exact (if_pos htrue).symm
    · rw [if_neg htrue, if_neg (by omega)]
      exact (if_neg htrue).symm
  sym := fun r _ hr => absurd (hr.symm.trans (h.op r).2.2.1) (by decide)
  bool := by
    intro r _
    unfold withParam
    split_ifs
    · exact Or.inr rfl
    · exact Or.inr rfl
    · exact Or.inl rfl
  frame := fun r hr => absurd (hr.symm.trans (h.op r).2.2.2) (by decide)
  eq := fun r hr => absurd hr (h.op r).1
  ne := fun r hr => absurd hr (h.op r).2.1

/-- The guard has held, and then the execution has come to the `ENTRY` from before it. -/
theorem reaches_lateEntry : Reaches lateEntry (fun _ => False) lateEntry.control (withParam true) := by
  have hm := plain_lateEntry.models true
  have hstart : Reaches lateEntry (fun _ => False) 1 (withParam true) := .enter (Or.inl rfl) hm
  have hguard : Reaches lateEntry (fun _ => False) 3 (withParam true) :=
    hstart.step rfl rfl ⟨fun _ => by decide, by decide, by decide, by decide⟩ hm fun _ _ => rfl
  have hend : Reaches lateEntry (fun _ => False) 4 (withParam true) :=
    hguard.step rfl rfl ⟨by decide, by decide, by decide, by decide⟩ hm fun _ _ => rfl
  exact hend.step rfl rfl ⟨by decide, by decide, by decide, by decide⟩ hm fun _ _ => rfl

theorem predicates_sound_lateEntry : dominated lateEntry 2 = irTrue ∧ truth lateEntry (withParam true) 2 = true :=
  ⟨by decide, (predicates_sound built_lateEntry plain_lateEntry.wellFormed reaches_lateEntry).dominated 2 (by decide)
    (fun _ _ _ _ h => h) true (by decide)⟩

/-- Entered from outside with a zero. -/
theorem not_predicates_sound : ¬ ∀ (C : Ctx) (A : ℕ → Prop) (v : ℤ → BitVec 64), Built C → WellFormed C →
    Reaches C A C.control v → Sound C v fun _ => True := by
  intro h
  have hentered : Reaches lateEntry (fun _ => True) lateEntry.control (withParam false) :=
    .enter (Or.inr ⟨Or.inl rfl, trivial⟩) (plain_lateEntry.models false)
  have hsound := h lateEntry _ _ built_lateEntry plain_lateEntry.wellFormed hentered
  have htrue := hsound.dominated 2 (by decide) trivial true (by decide)
  exact absurd htrue (by decide)

end Entry

end IrJit.Predicates
