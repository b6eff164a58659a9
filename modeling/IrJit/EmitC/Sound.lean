import Mathlib
import IrJit.EmitC.Order

/-!
# EmitC.Sound — runs of the printed text

`Inv` relates the two executions: values agree, a variable agrees unless it already holds the value
of a `VSTORE` that is still to come, and a `VLOAD` that has not been overtaken has the value of its
variable.  Every step that meets `Ok` keeps it, and under it a step reads what it should.
-/

namespace IrJit.EmitC

variable {F : Func} {V : Type} {M : Meaning V}

/-! ## Forms -/

theorem form_eq_vload {i : ℕ} : form F i = .vload ↔ isVload (F.insn i).op = true := by
  unfold form isVload
  cases (F.insn i).op <;> simp
  all_goals split_ifs <;> simp

theorem form_eq_vstore {i : ℕ} : form F i = .vstore ↔ isVstore (F.insn i).op = true := by
  unfold form isVstore
  cases (F.insn i).op <;> simp
  all_goals split_ifs <;> simp

theorem form_eq_load {i : ℕ} (h : form F i = .load) : printsDef F i = true := by
  unfold form at h
  unfold printsDef
  cases hop : (F.insn i).op <;> simp_all
  all_goals (split_ifs at h)

/-- The statement of `i` starts with `ir_emit_def_ref`. -/
def Defines (F : Func) (i : ℕ) : Prop := form F i = .assign ∨ printsDef F i = true

theorem printsDef_form {i : ℕ} (h : printsDef F i = true) :
    form F i = .load ∨ form F i = .call := by
  unfold printsDef at h
  unfold form
  cases hop : (F.insn i).op <;> simp_all

theorem Defines.form {i : ℕ} (h : Defines F i) :
    form F i = .assign ∨ form F i = .load ∨ form F i = .call :=
  h.imp_right printsDef_form

theorem form_phi {i : ℕ} (h : (F.insn i).op = .phi) : form F i = .skip := by
  unfold EmitC.form
  rw [h]

/-- The value is in its own C variable once it has been computed. -/
def Plain (F : Func) (r : ℕ) : Prop :=
  form F r = .raw ∨ (F.insn r).op = .phi ∨ (Defines F r ∧ emitDefRef F r = .d r)

/-! ## The invariant -/

structure Inv (F : Func) (s c : State V) (g : Ghost) : Prop where
  plain : ∀ r, g.done r = true → Plain F r → c.reg r = s.reg r
  settled : ∀ x, g.owner x = none → c.var x = s.var x
  pending : ∀ x r, g.owner x = some r →
    c.var x = s.reg r ∧ emitDefRef F r = .var x ∧ Defines F r
  good : ∀ l, g.good l = true → isVload (F.insn l).op = true ∧ c.var (F.insn l).var = s.reg l

theorem inv_start (s : State V) : Inv F (start s).ir (start s).c (start s).ghost where
  plain _ h := by simp [start] at h
  settled _ _ := rfl
  pending _ _ h := by simp [start] at h
  good _ h := by simp [start] at h

/-! ## Reading -/

/-- An operand is a data operand of the instruction itself, or of an `ARGVAL`. -/
theorem use_of_operand (hF : WellFormed F) {i r : ℕ} (hi : i < F.size)
    (h : .ref r ∈ operands F i) (hr : HasValue F r) :
    ∃ q < F.size, .ref r ∈ (F.insn q).args ∧ (q = i ∨ (F.insn q).op = .argval) := by
  unfold operands at h
  split at h
  · obtain ⟨a, ha, hra⟩ := List.mem_map.1 h
    cases a with
    | const k => simp [argOf] at hra
    | ref r' =>
      by_cases hop : (F.insn r').op = .argval
      · rw [argOf, if_pos hop] at hra
        have hlt : r' < F.size := hF.refs_lt i hi r' (mem_refs_of_arg ha)
        match hargs : (F.insn r').args with
        | [] =>
          -- an `ARGVAL` itself has no value
          rw [hargs] at hra
          obtain rfl : r' = r := by simpa using hra
          have hskip : form F r' = .skip := by
            unfold form
            rw [hop]
          simp [HasValue, hskip, hop] at hr
        | b :: l =>
          rw [hargs] at hra
          obtain rfl : b = .ref r := by simpa using hra
          exact ⟨r', hlt, by simp [hargs], Or.inr hop⟩
      · rw [argOf, if_neg hop] at hra
        obtain rfl : r' = r := by simpa using hra
        exact ⟨i, hi, ha, Or.inl rfl⟩
  · exact ⟨i, hi, h, Or.inl rfl⟩

/-- A used value other than a `VLOAD` is in its own C variable, unless its only use is a `VSTORE`. -/
theorem plain_of_use (hF : WellFormed F) {q r : ℕ} (hq : q < F.size)
    (h : .ref r ∈ (F.insn q).args) (hv : HasValue F r) (hl : isVload (F.insn r).op = false)
    (hd : emitDefRef F r = .d r) : Plain F r := by
  rcases hv with hf | hf | hf | hf | hf | ⟨hf, ht⟩ | hf
  · rw [form_eq_vload, hl] at hf
    cases hf
  · exact Or.inl hf
  · exact Or.inr (Or.inr ⟨Or.inl hf, hd⟩)
  · exact Or.inr (Or.inr ⟨Or.inr (form_eq_load hf), hd⟩)
  · exact Or.inr (Or.inl hf)
  · have hlt : r < F.size := hF.refs_lt q hq r (mem_refs_of_arg h)
    obtain ⟨u, hu, hc⟩ := hF.ctrl_used r hlt hf
    have hcount := one_lt_useCount hq h hu hc
    refine Or.inr (Or.inr ⟨Or.inr ?_, hd⟩)
    unfold printsDef
    rw [hf]
    simp [ht, hcount]
  · refine Or.inr (Or.inr ⟨Or.inr ?_, hd⟩)
    unfold printsDef
    rw [hf]

theorem emitRef_eq {s c : State V} {g : Ghost} (h : Inv F s c g) {a : Opnd} (ha : OkRef F g a)
    (hp : ∀ r, a = .ref r → isVload (F.insn r).op = false → g.done r = true ∧ Plain F r) :
    emitRef F M c a = irRead M s a := by
  cases a with
  | const k => rfl
  | ref r =>
    unfold emitRef irRead
    by_cases hl : isVload (F.insn r).op = true
    · simp only [hl, if_true]
      exact (h.good r (ha hl)).2
    · obtain ⟨hd, hr⟩ := hp r rfl (by simpa using hl)
      simp only [hl]
      exact h.plain r hd hr

theorem emitReg_eq {s c : State V} {g : Ghost} (h : Inv F s c g) {a : Opnd} (ha : OkReg F a)
    (hp : ∀ r, a = .ref r → isVload (F.insn r).op = false → g.done r = true ∧ Plain F r) :
    emitReg M c a = irRead M s a := by
  cases a with
  | const k => rfl
  | ref r =>
    obtain ⟨hd, hr⟩ := hp r rfl ha
    exact h.plain r hd hr

/-- The operands of an instruction other than a `VSTORE` are in their own C variables. -/
theorem plain_operand (hF : WellFormed F) {g : Ghost} {i : ℕ} (hready : Ready F g (.insn i))
    (hf : form F i ≠ .vstore) {a : Opnd} (ha : a ∈ operands F i) :
    ∀ r, a = .ref r → isVload (F.insn r).op = false → g.done r = true ∧ Plain F r := by
  rintro r rfl hl
  obtain ⟨hd, hv⟩ := hready.2 _ ha
  obtain ⟨q, hq, hmem, hqi⟩ := use_of_operand hF hready.1 ha hv
  have hns : isVstore (F.insn q).op = false := by
    rcases hqi with rfl | hop
    · rw [ne_eq, form_eq_vstore] at hf
      simpa using hf
    · rw [hop]
      rfl
  exact ⟨hd, plain_of_use hF hq hmem hv hl (emitDefRef_of_use hq hmem hns)⟩

/-- The operand of a `VSTORE` that is printed is in its own C variable. -/
theorem plain_vstore (hF : WellFormed F) {g : Ghost} {i : ℕ} (hready : Ready F g (.insn i))
    {a : Opnd} (ha : a ∈ operands F i) (hc : useCount F a ≠ 1) :
    ∀ r, a = .ref r → isVload (F.insn r).op = false → g.done r = true ∧ Plain F r := by
  rintro r rfl hl
  obtain ⟨hd, hv⟩ := hready.2 _ ha
  obtain ⟨q, hq, hmem, -⟩ := use_of_operand hF hready.1 ha hv
  exact ⟨hd, plain_of_use hF hq hmem hv hl (emitDefRef_of_count hc)⟩

/-- The source of a copy to a `PHI` is in its own C variable. -/
theorem plain_copy (hF : WellFormed F) {g : Ghost} {copies : List (ℕ × Opnd)}
    (hready : Ready F g (.moves copies)) {p : ℕ × Opnd} (hp : p ∈ copies) :
    ∀ r, p.2 = .ref r → isVload (F.insn r).op = false → g.done r = true ∧ Plain F r := by
  intro r hr hl
  obtain ⟨hlt, hphi, hmem, havail⟩ := hready p hp
  rw [hr] at hmem havail
  obtain ⟨hd, hv⟩ := havail
  have hns : isVstore (F.insn p.1).op = false := by
    rw [hphi]
    rfl
  exact ⟨hd, plain_of_use hF hlt hmem hv hl (emitDefRef_of_use hlt hmem hns)⟩

theorem printed_eq (hF : WellFormed F) {s c : State V} {g : Ghost} (h : Inv F s c g) {i : ℕ}
    (hready : Ready F g (.insn i)) (hf : form F i ≠ .vstore) (hok : Ok F M g (.insn i))
    (hs : form F i ≠ .skip) (hl : form F i ≠ .vload) :
    printed F M c i = (operands F i).map (irRead M s) := by
  have href : ∀ a ∈ operands F i, OkRef F g a → emitRef F M c a = irRead M s a :=
    fun a ha hoka => emitRef_eq h hoka (plain_operand hF hready hf ha)
  have hreg : ∀ a ∈ operands F i, OkReg F a → emitReg M c a = irRead M s a :=
    fun a ha hoka => emitReg_eq h hoka (plain_operand hF hready hf ha)
  have hmem : form F i = .load ∨ form F i = .store →
      printed F M c i = (operands F i).map (irRead M s) := by
    intro hform
    have hok' : (∀ a ∈ (operands F i).head?, OkReg F a) ∧
        (∀ a ∈ (operands F i).tail, OkRef F g a) ∧ Settled M g := by
      rcases hform with hform | hform <;> simpa [Ok, hform] using hok
    unfold printed
    cases hops : operands F i with
    | nil => rcases hform with hform | hform <;> rw [hform] <;> rfl
    | cons a l =>
      rw [hops] at hok' href hreg
      have hhead : emitReg M c a = irRead M s a := hreg a (by simp) (hok'.1 a rfl)
      have htail : l.map (emitRef F M c) = l.map (irRead M s) :=
        List.map_congr_left fun b hb => href b (by simp [hb]) (hok'.2.1 b hb)
      rcases hform with hform | hform <;> rw [hform] <;> simp [hhead, htail]
  have hall : (∀ a ∈ operands F i, OkRef F g a) → printed F M c i = (operands F i).map (emitRef F M c)
      → printed F M c i = (operands F i).map (irRead M s) := by
    intro hrefs heq
    rw [heq]
    exact List.map_congr_left fun a ha => href a ha (hrefs a ha)
  cases hform : form F i with
  | skip => exact absurd hform hs
  | vload => exact absurd hform hl
  | vstore => exact absurd hform hf
  | load => exact hmem (Or.inl hform)
  | store => exact hmem (Or.inr hform)
  | assign => exact hall (by simpa [Ok, hform] using hok) (by simp [printed, hform])
  | raw => exact hall (by simpa [Ok, hform] using hok) (by simp [printed, hform])
  | read => exact hall (by simpa [Ok, hform] using hok) (by simp [printed, hform])
  | call =>
    have hok' : (∀ a ∈ operands F i, OkRef F g a) ∧ Settled M g := by simpa [Ok, hform] using hok
    exact hall hok'.1 (by simp [printed, hform])

theorem settled_of_ok {g : Ghost} {i : ℕ} (hok : Ok F M g (.insn i))
    (hf : form F i = .load ∨ form F i = .store ∨ form F i = .call) : Settled M g := by
  rcases hf with hf | hf | hf <;> simp only [Ok, hf] at hok
  · exact hok.2.2
  · exact hok.2.2
  · exact hok.2

/-- Under the invariant a step that meets the condition reads what it should. -/
theorem faithful_of_inv (hF : WellFormed F) {k : Config V} {e : Event}
    (h : Inv F k.ir k.c k.ghost) (hready : Ready F k.ghost e) (hok : Ok F M k.ghost e) :
    Faithful F M k e := by
  cases e with
  | moves copies =>
    intro p hp
    exact emitReg_eq h (hok p hp) (plain_copy hF hready hp)
  | insn i =>
    have hescaped : Settled M k.ghost → ∀ x, M.escaped x = true → k.c.var x = k.ir.var x :=
      fun hset x hx => h.settled x (hset x hx)
    cases hform : form F i with
    | skip => simp [Faithful, hform]
    | vload => simp [Faithful, hform]
    | assign =>
      simp only [Faithful, hform]
      exact printed_eq hF h hready (by simp [hform]) hok (by simp [hform]) (by simp [hform])
    | raw =>
      simp only [Faithful, hform]
      exact printed_eq hF h hready (by simp [hform]) hok (by simp [hform]) (by simp [hform])
    | read =>
      simp only [Faithful, hform]
      exact printed_eq hF h hready (by simp [hform]) hok (by simp [hform]) (by simp [hform])
    | vstore =>
      simp only [Faithful, hform]
      intro a ha hc
      have hok' := hok
      simp only [Ok, hform] at hok'
      exact emitRef_eq h (hok' a ha).1 (plain_vstore hF hready ha hc)
    | load =>
      simp only [Faithful, hform]
      exact ⟨printed_eq hF h hready (by simp [hform]) hok (by simp [hform]) (by simp [hform]),
        hescaped (settled_of_ok hok (by simp [hform]))⟩
    | store =>
      simp only [Faithful, hform]
      exact ⟨printed_eq hF h hready (by simp [hform]) hok (by simp [hform]) (by simp [hform]),
        hescaped (settled_of_ok hok (by simp [hform]))⟩
    | call =>
      simp only [Faithful, hform]
      exact ⟨printed_eq hF h hready (by simp [hform]) hok (by simp [hform]) (by simp [hform]),
        hescaped (settled_of_ok hok (by simp [hform]))⟩

/-! ## Steps -/

section Steps

variable {s c : State V} {g : Ghost} {i : ℕ}

theorem emitDefRef_cases (F : Func) (i : ℕ) :
    emitDefRef F i = .d i ∨ ∃ x, emitDefRef F i = .var x := by
  unfold emitDefRef
  split
  · split_ifs
    · exact Or.inr ⟨_, rfl⟩
    · exact Or.inl rfl
  · exact Or.inl rfl

theorem Defines.not_vload (hi : Defines F i) : isVload (F.insn i).op = false := by
  by_contra hl
  rw [Bool.not_eq_false, ← form_eq_vload] at hl
  rcases hi.form with hf | hf | hf <;> rw [hf] at hl <;> cases hl

theorem Defines.plain_iff (hi : Defines F i) : Plain F i ↔ emitDefRef F i = .d i := by
  constructor
  · rintro (hf | hf | ⟨-, hd⟩)
    · rcases hi.form with h | h | h <;> rw [h] at hf <;> cases hf
    · have hskip := form_phi hf
      rcases hi.form with h | h | h <;> rw [h] at hskip <;> cases hskip
    · exact hd
  · intro hd
    exact Or.inr (Or.inr ⟨hi, hd⟩)

/-- The value of an instruction that is neither pending nor a `VLOAD` may change in the IR; in the
text it must then change in the same way when it is in a C variable. -/
theorem Inv.setReg (h : Inv F s c g) (hnl : isVload (F.insn i).op = false)
    (hnp : ∀ x, ¬(Defines F i ∧ emitDefRef F i = .var x)) (c' : State V) (hvar : c'.var = c.var)
    {v : V} (hself : Plain F i → c'.reg i = v) (hother : ∀ r, r ≠ i → c'.reg r = c.reg r) :
    Inv F (s.setReg i v) c' (g.mark i) where
  plain r hr hp := by
    by_cases hri : r = i
    · subst hri
      rw [hself hp]
      simp [State.setReg]
    · have hdone : g.done r = true := by simpa [Ghost.mark, hri] using hr
      rw [hother r hri, h.plain r hdone hp]
      simp [State.setReg, hri]
  settled x hx := by
    rw [hvar]
    exact h.settled x hx
  pending x r hr := by
    obtain ⟨h1, h2, h3⟩ := h.pending x r hr
    have hri : r ≠ i := by
      rintro rfl
      exact hnp x ⟨h3, h2⟩
    refine ⟨?_, h2, h3⟩
    rw [hvar, h1]
    simp [State.setReg, hri]
  good l hl := by
    obtain ⟨h1, h2⟩ := h.good l hl
    have hli : l ≠ i := by
      rintro rfl
      rw [hnl] at h1
      cases h1
    refine ⟨h1, ?_⟩
    rw [hvar, h2]
    simp [State.setReg, hli]

/-- A statement that assigns what `ir_emit_def_ref` prints. -/
theorem Inv.define (h : Inv F s c g) (hi : Defines F i) (v : V) :
    Inv F (s.setReg i v) (c.assign v (emitDefRef F i)) ((g.mark i).define F i) := by
  unfold Ghost.define
  rcases emitDefRef_cases F i with hd | ⟨x, hd⟩
  · rw [hd]
    refine h.setReg hi.not_vload (fun x hx => ?_) (c.setReg i v) rfl (fun _ => ?_) (fun r hr => ?_)
    · rw [hd] at hx
      cases hx.2
    · simp [State.setReg]
    · simp [State.setReg, hr]
  · rw [hd]
    -- the value goes to the variable; nothing else in the text changes
    constructor
    · intro r hr hp
      have hri : r ≠ i := by
        rintro rfl
        rw [hi.plain_iff, hd] at hp
        cases hp
      have hdone : g.done r = true := by
        simpa [Ghost.mark, Ghost.touch, Ghost.own, hri] using hr
      simpa [State.assign, State.setVar, State.setReg, hri] using h.plain r hdone hp
    · intro y hy
      have hyx : y ≠ x := by
        rintro rfl
        simp [Ghost.own] at hy
      have hy' : g.owner y = none := by
        simpa [Ghost.mark, Ghost.touch, Ghost.own, hyx] using hy
      simpa [State.assign, State.setVar, State.setReg, hyx] using h.settled y hy'
    · intro y r hr
      by_cases hyx : y = x
      · subst hyx
        obtain rfl : i = r := by simpa [Ghost.own] using hr
        exact ⟨by simp [State.assign, State.setVar, State.setReg], hd, hi⟩
      · have hr' : g.owner y = some r := by
          simpa [Ghost.mark, Ghost.touch, Ghost.own, hyx] using hr
        obtain ⟨h1, h2, h3⟩ := h.pending y r hr'
        have hri : r ≠ i := by
          rintro rfl
          rw [hd] at h2
          exact hyx (Target.var.inj h2).symm
        refine ⟨?_, h2, h3⟩
        simpa [State.assign, State.setVar, State.setReg, hyx, hri] using h1
    · intro l hl
      have hl' : g.good l = true ∧ (F.insn l).var ≠ x := by
        simpa [Ghost.mark, Ghost.touch, Ghost.own] using hl
      obtain ⟨h1, h2⟩ := h.good l hl'.1
      have hli : l ≠ i := by
        rintro rfl
        rw [hi.not_vload] at h1
        cases h1
      refine ⟨h1, ?_⟩
      simpa [State.assign, State.setVar, State.setReg, hl'.2, hli] using h2

/-- A statement that assigns `d_N` whatever the uses are. -/
theorem Inv.raw (h : Inv F s c g) (hi : form F i = .raw) (v : V) :
    Inv F (s.setReg i v) (c.setReg i v) (g.mark i) := by
  refine h.setReg ?_ (fun x hx => ?_) (c.setReg i v) rfl (fun _ => ?_) (fun r hr => ?_)
  · rw [← Bool.not_eq_true, ← form_eq_vload, hi]
    simp
  · rcases hx.1.form with hf | hf | hf <;> rw [hi] at hf <;> cases hf
  · simp [State.setReg]
  · simp [State.setReg, hr]

/-- An instruction whose value, if any, is not in the text. -/
theorem Inv.hidden (h : Inv F s c g) (hi : ¬Plain F i) (hd : ¬Defines F i)
    (hl : isVload (F.insn i).op = false) (v : V) : Inv F (s.setReg i v) c (g.mark i) :=
  h.setReg hl (fun _ hx => hd hx.1) c rfl (fun hp => absurd hp hi) fun _ _ => rfl

theorem Inv.vload (h : Inv F s c g) (hi : isVload (F.insn i).op = true) :
    Inv F (s.setReg i (s.var (F.insn i).var)) c
      { g.mark i with good := Function.update g.good i (g.owner (F.insn i).var).isNone } := by
  have hform := form_eq_vload.2 hi
  have hnd : ¬Defines F i := by
    intro hd
    rw [hd.not_vload] at hi
    cases hi
  have hnp : ¬Plain F i := by
    rintro (hf | hf | ⟨hf, -⟩)
    · rw [hform] at hf
      cases hf
    · rw [form_phi hf] at hform
      cases hform
    · exact hnd hf
  constructor
  · intro r hr hp
    have hri : r ≠ i := by
      rintro rfl
      exact hnp hp
    simpa [State.setReg, hri] using h.plain r (by simpa [Ghost.mark, hri] using hr) hp
  · exact h.settled
  · intro x r hr
    obtain ⟨h1, h2, h3⟩ := h.pending x r hr
    have hri : r ≠ i := by
      rintro rfl
      exact hnd h3
    exact ⟨by simpa [State.setReg, hri] using h1, h2, h3⟩
  · intro l hl
    by_cases hli : l = i
    · subst hli
      have hnone : g.owner (F.insn l).var = none := by simpa using hl
      exact ⟨hi, by simpa [State.setReg] using h.settled _ hnone⟩
    · obtain ⟨h1, h2⟩ := h.good l (by simpa [hli] using hl)
      exact ⟨h1, by simpa [State.setReg, hli] using h2⟩

theorem Inv.vstore (h : Inv F s c g) (x : ℕ) (v : V) :
    Inv F (s.setVar x v) (c.setVar x v) ((g.touch F (· = x)).own x none) := by
  constructor
  · exact h.plain
  · intro y hy
    by_cases hyx : y = x
    · subst hyx
      simp [State.setVar]
    · have hy' : g.owner y = none := by simpa [Ghost.touch, Ghost.own, hyx] using hy
      simpa [State.setVar, hyx] using h.settled y hy'
  · intro y r hr
    have hyx : y ≠ x := by
      rintro rfl
      simp [Ghost.own] at hr
    have hr' : g.owner y = some r := by simpa [Ghost.touch, Ghost.own, hyx] using hr
    obtain ⟨h1, h2⟩ := h.pending y r hr'
    exact ⟨by simpa [State.setVar, hyx] using h1, h2⟩
  · intro l hl
    have hl' : g.good l = true ∧ (F.insn l).var ≠ x := by
      simpa [Ghost.touch, Ghost.own] using hl
    obtain ⟨h1, h2⟩ := h.good l hl'.1
    exact ⟨h1, by simpa [State.setVar, hl'.2] using h2⟩

/-- A `VSTORE` that prints nothing: the variable has the value already. -/
theorem Inv.vstore_done (h : Inv F s c g) {x r : ℕ} (hr : g.owner x = some r) :
    Inv F (s.setVar x (s.reg r)) c (g.own x none) := by
  constructor
  · exact h.plain
  · intro y hy
    by_cases hyx : y = x
    · subst hyx
      simpa [State.setVar] using (h.pending y r hr).1
    · have hy' : g.owner y = none := by simpa [Ghost.own, hyx] using hy
      simpa [State.setVar, hyx] using h.settled y hy'
  · intro y r' hr'
    have hyx : y ≠ x := by
      rintro rfl
      simp [Ghost.own] at hr'
    exact h.pending y r' (by simpa [Ghost.own, hyx] using hr')
  · exact h.good

theorem Inv.write (h : Inv F s c g) (hset : Settled M g) {w : ℕ → Option V}
    (hw : ∀ x, M.escaped x = false → w x = none) :
    Inv F (s.write w) (c.write w) (g.touch F fun x => (w x).isSome) := by
  constructor
  · exact h.plain
  · intro x hx
    have hcx := h.settled x hx
    simp only [State.write, hcx]
  · intro x r hr
    have hr' : g.owner x = some r := hr
    obtain ⟨h1, h2⟩ := h.pending x r hr'
    have hesc : M.escaped x = false := by
      by_contra hne
      rw [hset x (by simpa using hne)] at hr'
      cases hr'
    exact ⟨by simpa [State.write, hw x hesc] using h1, h2⟩
  · intro l hl
    have hl' : g.good l = true ∧ w (F.insn l).var = none := by simpa [Ghost.touch] using hl
    obtain ⟨h1, h2⟩ := h.good l hl'.1
    exact ⟨h1, by simpa [State.write, hl'.2] using h2⟩

theorem Inv.copy (h : Inv F s c g) {copies : List (ℕ × Opnd)} {f f' : Opnd → V}
    (hphi : ∀ p ∈ copies, (F.insn p.1).op = .phi) (hf : ∀ p ∈ copies, f' p.2 = f p.2) :
    Inv F (s.copy f copies) (c.copy f' copies)
      { g with done := fun r => g.done r || (copies.lookup r).isSome } := by
  have hmem : ∀ {r a}, copies.lookup r = some a → (r, a) ∈ copies := by
    intro r a hra
    obtain ⟨l₁, l₂, hl, -⟩ := List.lookup_eq_some_iff.1 hra
    rw [hl]
    simp
  have hnone : ∀ {r}, (F.insn r).op ≠ .phi → copies.lookup r = none := by
    intro r hr
    by_contra hne
    obtain ⟨a, ha⟩ := Option.ne_none_iff_exists'.1 hne
    exact hr (hphi _ (hmem ha))
  constructor
  · intro r hr hp
    cases hl : copies.lookup r with
    | none => simpa [State.copy, hl] using h.plain r (by simpa [hl] using hr) hp
    | some a => simpa [State.copy, hl] using hf _ (hmem hl)
  · exact h.settled
  · intro x r hr
    obtain ⟨h1, h2, h3⟩ := h.pending x r hr
    have hnphi : (F.insn r).op ≠ .phi := by
      intro hp
      have hskip := form_phi hp
      rcases h3.form with hf | hf | hf <;> rw [hf] at hskip <;> cases hskip
    exact ⟨by simpa [State.copy, hnone hnphi] using h1, h2, h3⟩
  · intro l hl
    obtain ⟨h1, h2⟩ := h.good l hl
    have hnphi : (F.insn l).op ≠ .phi := by
      intro hp
      rw [hp] at h1
      cases h1
    exact ⟨h1, by simpa [State.copy, hnone hnphi] using h2⟩

/-- A memory instruction or a call. -/
theorem Inv.effect (h : Inv F s c g) (hset : Settled M g)
    (hform : form F i = .load ∨ form F i = .store ∨ form F i = .call) {v : V} {w : ℕ → Option V}
    (hw : ∀ x, M.escaped x = false → w x = none) :
    Inv F ((s.write w).setReg i v)
      (if printsDef F i then (c.write w).assign v (emitDefRef F i) else c.write w)
      (if printsDef F i then ((g.mark i).touch F fun x => (w x).isSome).define F i
        else (g.mark i).touch F fun x => (w x).isSome) := by
  have hwrite := h.write hset hw
  by_cases hd : printsDef F i = true
  · rw [if_pos hd, if_pos hd]
    exact hwrite.define (Or.inr hd) v
  · rw [if_neg hd, if_neg hd]
    have hnd : ¬Defines F i := by
      rintro (hf | hf)
      · rcases hform with h1 | h1 | h1 <;> rw [hf] at h1 <;> cases h1
      · exact hd hf
    have hnp : ¬Plain F i := by
      rintro (hf | hf | ⟨hf, -⟩)
      · rcases hform with h1 | h1 | h1 <;> rw [hf] at h1 <;> cases h1
      · rcases hform with h1 | h1 | h1 <;> rw [form_phi hf] at h1 <;> cases h1
      · exact hnd hf
    have hnl : isVload (F.insn i).op = false := by
      rw [← Bool.not_eq_true, ← form_eq_vload]
      rcases hform with h1 | h1 | h1 <;> simp [h1]
    exact hwrite.hidden hnp hnd hnl v

end Steps

/-- One step keeps the invariant. -/
theorem step_inv (hF : WellFormed F) {k : Config V} {e : Event} (h : Inv F k.ir k.c k.ghost)
    (hready : Ready F k.ghost e) (hok : Ok F M k.ghost e) :
    Inv F (step F M k e).ir (step F M k e).c (step F M k e).ghost := by
  have hfaith := faithful_of_inv hF h hready hok
  cases e with
  | moves copies =>
    exact h.copy (fun p hp => (hready p hp).2.1) hfaith
  | insn i =>
    simp only [step, irStep, cStep, ghostStep]
    cases hform : form F i with
    | skip => exact h
    | read => exact h
    | raw =>
      simp only [Faithful, hform] at hfaith
      rw [hfaith]
      exact h.raw hform _
    | assign =>
      simp only [Faithful, hform] at hfaith
      rw [hfaith]
      exact h.define (Or.inl hform) _
    | vload => exact h.vload (form_eq_vload.1 hform)
    | vstore =>
      simp only [Faithful, hform] at hfaith
      simp only [Ok, hform] at hok
      obtain ⟨a, hops⟩ : ∃ a, operands F i = [a] := by
        simpa [operands, hform] using List.length_eq_one_iff.1 (hF.vstore_args i hready.1 hform)
      rw [hops] at hfaith hok ⊢
      simp only [List.map_cons, List.map_nil]
      by_cases hc : useCount F a = 1
      · obtain ⟨r, hr, rfl⟩ := Option.map_eq_some_iff.1 ((hok a (by simp)).2 hc)
        rw [if_neg (not_not.2 hc), if_neg (not_not.2 hc)]
        exact h.vstore_done hr
      · rw [if_pos hc, if_pos hc, hfaith a (by simp) hc]
        exact h.vstore _ _
    | load =>
      simp only [Faithful, hform] at hfaith
      rw [hfaith.1]
      simp only [M.reads_escaped i _ k.c.var k.ir.var hfaith.2]
      exact h.effect (settled_of_ok hok (by simp [hform])) (by simp [hform]) (M.writes_escaped i _ _)
    | store =>
      simp only [Faithful, hform] at hfaith
      rw [hfaith.1]
      simp only [M.reads_escaped i _ k.c.var k.ir.var hfaith.2]
      exact h.effect (settled_of_ok hok (by simp [hform])) (by simp [hform]) (M.writes_escaped i _ _)
    | call =>
      simp only [Faithful, hform] at hfaith
      rw [hfaith.1]
      simp only [M.reads_escaped i _ k.c.var k.ir.var hfaith.2]
      exact h.effect (settled_of_ok hok (by simp [hform])) (by simp [hform]) (M.writes_escaped i _ _)

/-! ## Two functions -/

/-- A table of instructions; the references above it are `NOP`s. -/
def Func.ofList (l : List Insn) : Func where
  size := l.length
  insn i := l.getD i ⟨.nop, .void, none, 0, []⟩
  constType _ := .i32
  stray _ := 0

/-- `v = p + p; l = v; return l`. -/
def storeThenLoad : Func := .ofList
  [⟨.nop, .void, none, 0, []⟩, ⟨.start, .void, none, 0, []⟩, ⟨.param, .i32, some 1, 0, []⟩,
    ⟨.var, .i32, some 1, 0, []⟩, ⟨.add, .i32, none, 0, [.ref 2, .ref 2]⟩,
    ⟨.vstore, .void, some 1, 3, [.ref 4]⟩, ⟨.vload, .i32, some 5, 3, []⟩,
    ⟨.ret, .void, some 6, 0, [.ref 6]⟩]

/-- `l = v; v = p + p; return l`. -/
def loadThenStore : Func := .ofList
  [⟨.nop, .void, none, 0, []⟩, ⟨.start, .void, none, 0, []⟩, ⟨.param, .i32, some 1, 0, []⟩,
    ⟨.var, .i32, some 1, 0, []⟩, ⟨.vload, .i32, some 1, 3, []⟩,
    ⟨.add, .i32, none, 0, [.ref 2, .ref 2]⟩, ⟨.vstore, .void, some 4, 3, [.ref 5]⟩,
    ⟨.ret, .void, some 6, 0, [.ref 4]⟩]

/-- The parameter is 5, an operation adds its operands. -/
def sums : Meaning ℕ where
  const k := k
  compute _ l := if l = [] then 5 else l.sum
  eff _ _ _ := (0, fun _ => none)
  escaped _ := false
  reads_escaped _ _ _ _ _ := rfl
  writes_escaped _ _ _ _ _ := rfl

def ones : State ℕ where
  reg _ := 1
  var _ := 1

end IrJit.EmitC
