import IrJit.Ra.LiveRange
import IrJit.Ra.LiveSets

/-!
# Ra.LiveRanges — `ir_compute_live_ranges`

Blocks and their instructions are visited backwards.  What happens to the intervals is a sequence
of events, each about one virtual register: it is live at the end of the block, it is read, it is
defined.  The events depend on the function and on the live sets only.

The fixed intervals, the temporaries and the lists of use positions are not modelled: they are kept
beside the intervals of the virtual registers and are not read here.
-/

namespace IrJit.Ra

/-- What happens to an interval. -/
inductive Event
  | liveOut (v : ℕ)
  | read (r : Read)
  | define (v pos : ℕ)
  | phi (v ref : ℕ)

def Event.vreg : Event → ℕ
  | liveOut v => v
  | read r => r.vreg
  | define v _ => v
  | phi v _ => v

/-- `live_intervals` and `live_in_block`. -/
structure RangeState where
  ivals : ℕ → List Range
  liveIn : ℕ → ℕ

namespace Prog

variable (P : Prog)

/-- The first position of a block. -/
def startOf (b : ℕ) : ℕ := loadPos (P.block b).start

/-- The position after the last one of a block. -/
def endOf (b : ℕ) : ℕ := endPos (P.block b).last

/-- The position of the definition of the register of `ref`. -/
def defPosOf (ref : ℕ) : ℕ :=
  let c := P.constraintsOf ref
  if c.defReg.isSome then savePos ref
  else if c.reusesOp1 then if c.conflicts then usePos ref else loadPos ref
  else if c.conflicts then loadPos ref
  else defPos ref

/-- An event for the interval and the mark of its register. -/
def stepEvent (b : ℕ) : Event → List Range × ℕ → Option (List Range × ℕ)
  | .liveOut _, (rs, _) => some (addPrevLiveRange (P.startOf b) (P.endOf b) rs, b)
  | .read r, (rs, live) =>
    if live = b then some (rs, live) else some (addLiveRange (P.startOf b) r.upto rs, b)
  | .define _ pos, (rs, live) => (fixLiveRange pos rs).map fun rs => (rs, live)
  | .phi _ ref, (rs, live) =>
    -- a dead PHI gets a range of its own
    some (if rs = [] then addLiveRange (defPos ref) (usePos ref) [] else rs, live)

def applyEvent (st : RangeState) (be : ℕ × Event) : Option RangeState :=
  let v := be.2.vreg
  (P.stepEvent be.1 be.2 (st.ivals v, st.liveIn v)).map fun x =>
    ⟨Function.update st.ivals v x.1, Function.update st.liveIn v x.2⟩

/-- The events of one instruction. -/
def refEvents (ref : ℕ) : List Event :=
  if P.isSkipped ref then []
  else if P.vregs ref ≠ 0 then
    if P.isPhi ref then [.phi (P.vregs ref) ref]
    else .define (P.vregs ref) (P.defPosOf ref) :: (P.reads ref).map .read
  else (P.reads ref).map .read

/-- The instructions of a block backwards, a final END or LOOP_END left out. -/
def blockRefs (b : ℕ) : List ℕ :=
  match (P.block b).body.reverse with
  | [] => []
  | u :: us => if (P.insn u).op = .endOp ∨ (P.insn u).op = .loopEnd then us else u :: us

def blockEvents (sets : LiveSets) (b : ℕ) : List Event :=
  (sets.outs b).map .liveOut ++ (P.blockRefs b).flatMap P.refEvents

/-- All events, from the last block to the first. -/
def allEvents (sets : LiveSets) : List (ℕ × Event) :=
  (List.range' 1 P.blocksCount).reverse.flatMap fun b => (P.blockEvents sets b).map fun ev => (b, ev)

end Prog

/-- `ir_compute_live_ranges`. -/
def computeLiveRanges (P : Prog) : Option (LiveSets × RangeState) :=
  match computeLiveSets P with
  | none => none
  | some sets =>
    ((P.allEvents sets).foldlM P.applyEvent ⟨fun _ => [], fun _ => 0⟩).map fun st => (sets, st)

/-! ### One register at a time -/

section

variable {P : Prog}

/-- The run of the events of one register. -/
def runVreg (P : Prog) (evs : List (ℕ × Event)) (x : List Range × ℕ) : Option (List Range × ℕ) :=
  evs.foldlM (fun x be => P.stepEvent be.1 be.2 x) x

theorem runVreg_append (evs evs' : List (ℕ × Event)) (x : List Range × ℕ) :
    runVreg P (evs ++ evs') x = (runVreg P evs x).bind (runVreg P evs') := by
  unfold runVreg
  rw [List.foldlM_append]
  rfl

/-- The events of different registers do not interfere. -/
theorem foldlM_applyEvent : ∀ (evs : List (ℕ × Event)) (st : RangeState),
    (∀ v, ∃ x, runVreg P (evs.filter fun be => be.2.vreg = v) (st.ivals v, st.liveIn v) = some x) →
    ∃ st', evs.foldlM P.applyEvent st = some st' ∧ ∀ v,
      runVreg P (evs.filter fun be => be.2.vreg = v) (st.ivals v, st.liveIn v) =
        some (st'.ivals v, st'.liveIn v) := by
  intro evs
  induction evs with
  | nil => exact fun st _ => ⟨st, rfl, fun v => rfl⟩
  | cons be evs ih =>
    intro st hall
    obtain ⟨y, hy⟩ := hall be.2.vreg
    have hself : (be :: evs).filter (fun e => e.2.vreg = be.2.vreg) =
        be :: evs.filter fun e => e.2.vreg = be.2.vreg := by simp
    rw [hself] at hy
    simp only [runVreg, List.foldlM_cons, Option.bind_eq_bind, Option.bind_eq_some_iff] at hy
    obtain ⟨x, hx, hrest⟩ := hy
    set st₁ : RangeState := ⟨Function.update st.ivals be.2.vreg x.1,
      Function.update st.liveIn be.2.vreg x.2⟩ with hst₁
    have happly : P.applyEvent st be = some st₁ := by simp [Prog.applyEvent, hx, hst₁]
    have hsame : (st₁.ivals be.2.vreg, st₁.liveIn be.2.vreg) = x := by simp [hst₁]
    have hother : ∀ v, v ≠ be.2.vreg → (st₁.ivals v, st₁.liveIn v) = (st.ivals v, st.liveIn v) := by
      intro v hv
      simp [hst₁, Function.update_of_ne hv]
    have hskip : ∀ v, v ≠ be.2.vreg → (be :: evs).filter (fun e => e.2.vreg = v) =
        evs.filter fun e => e.2.vreg = v := by
      intro v hv
      simp [Ne.symm hv]
    obtain ⟨st', h1, h2⟩ := ih st₁ fun v => by
      by_cases hv : v = be.2.vreg
      · subst hv
        rw [hsame]
        exact ⟨y, hrest⟩
      · rw [hother v hv, ← hskip v hv]
        exact hall v
    refine ⟨st', by simp [List.foldlM_cons, happly, h1], fun v => ?_⟩
    by_cases hv : v = be.2.vreg
    · subst hv
      rw [hself]
      simp only [runVreg, List.foldlM_cons, Option.bind_eq_bind, hx, Option.bind_some]
      have h := h2 be.2.vreg
      rw [hsame] at h
      exact h
    · rw [hskip v hv, ← hother v hv]
      exact h2 v

end

end IrJit.Ra
