import Mathlib.Data.List.GetD
import Mathlib.Order.Interval.Finset.Nat
import IrJit.Lib.Windmill
import IrJit.Dessa.Moves

/-!
# Dessa.MovesSpec — the moves of PHIs are a parallel assignment

`PhisOk` is what the callers promise of the PHIs of a block, `Linked` what the two loops over the uses
make of the tables, `MoveInv` the invariant of the loops that emit the copies.
-/

namespace IrJit.Dessa.PhiCtx

variable {c : PhiCtx} {k : ℕ} {uses : List ℤ}

/-- The PHIs among the uses of a block: they have virtual registers of their own, and a `k`-th input. -/
structure PhisOk (c : PhiCtx) (k : ℕ) (uses : List ℤ) : Prop where
  ref_pos : ∀ ref ∈ uses, c.isPhi ref → 0 < ref
  vreg : ∀ ref ∈ uses, c.isPhi ref → 1 ≤ c.vregs ref ∧ c.vregs ref ≤ c.vregsCount
  distinct : ∀ ref ∈ uses, ∀ ref' ∈ uses, c.isPhi ref → c.isPhi ref' → c.vregs ref = c.vregs ref' → ref = ref'
  input : ∀ ref ∈ uses, c.isPhi ref → c.op ref k ≠ 0

theorem isRegisterMove_iff {ref : ℤ} : c.isRegisterMove k ref = true ↔
    c.isPhi ref = true ∧ c.constOrAddress (c.op ref k) = false ∧ c.vregs (c.op ref k) ≠ c.vregs ref := by
  unfold isRegisterMove
  simp [and_assoc]

theorem constOrAddress_eq_false {ref : ℤ} : c.constOrAddress ref = false ↔ 0 ≤ ref ∧ c.vregs ref ≠ 0 := by
  unfold constOrAddress
  simp

/-! ### The tables -/

/-- The registers that a list of uses is collected to. -/
structure Collected (c : PhiCtx) (k : ℕ) (uses : List ℤ) (t : Tables) (todo : Finset ℕ) : Prop where
  todo : ∀ d, d ∈ todo ↔ ∃ ref ∈ uses, c.isRegisterMove k ref = true ∧ c.vregs ref = d
  dst : ∀ ref ∈ uses, c.isRegisterMove k ref = true → t.dst (c.vregs ref) = ref
  loc : ∀ ref ∈ uses, c.isRegisterMove k ref = true → t.loc (c.vregs ref) = 0
  pred : ∀ ref ∈ uses, c.isRegisterMove k ref = true → t.pred (c.vregs (c.op ref k)) = 0
  src : ∀ ref ∈ uses, c.isRegisterMove k ref = true →
    c.constOrAddress (t.src (c.vregs (c.op ref k))) = false ∧
      c.vregs (t.src (c.vregs (c.op ref k))) = c.vregs (c.op ref k) ∧ t.src (c.vregs (c.op ref k)) ≠ 0

theorem Collected.snoc {t : Tables} {todo : Finset ℕ} {l : List ℤ} {x : ℤ} (H : Collected c k l t todo)
    (hinj : ∀ ref ∈ l, c.isRegisterMove k ref = true → c.isRegisterMove k x = true →
      c.vregs ref = c.vregs x → ref = x) (h0 : c.isRegisterMove k x = true → c.op x k ≠ 0) :
    Collected c k (l ++ [x]) (c.collectCopy k (t, todo) x).1 (c.collectCopy k (t, todo) x).2 := by
  unfold collectCopy
  by_cases hx : c.isRegisterMove k x = true
  · rw [if_pos hx]
    dsimp only
    obtain ⟨-, hc, -⟩ := isRegisterMove_iff.mp hx
    refine ⟨?_, ?_, ?_, ?_, ?_⟩
    · intro d
      rw [Finset.mem_insert, H.todo d]
      constructor
      · rintro (rfl | ⟨ref, hr, hm, rfl⟩)
        · exact ⟨x, by simp, hx, rfl⟩
        · exact ⟨ref, by simp [hr], hm, rfl⟩
      · rintro ⟨ref, hr, hm, rfl⟩
        rcases List.mem_append.mp hr with hr | hr
        · exact Or.inr ⟨ref, hr, hm, rfl⟩
        · rw [List.mem_singleton.mp hr]
          exact Or.inl rfl
    all_goals
      intro ref hr hm
      dsimp only
      rcases List.mem_append.mp hr with hr | hr
    · by_cases hv : c.vregs ref = c.vregs x
      · rw [hv, Function.update_self]
        exact (hinj ref hr hm hx hv).symm
      · rw [Function.update_of_ne hv]
        exact H.dst ref hr hm
    · rw [List.mem_singleton.mp hr, Function.update_self]
    · by_cases hv : c.vregs ref = c.vregs x
      · rw [hv, Function.update_self]
      · rw [Function.update_of_ne hv]
        exact H.loc ref hr hm
    · rw [List.mem_singleton.mp hr, Function.update_self]
    · by_cases hv : c.vregs (c.op ref k) = c.vregs (c.op x k)
      · rw [hv, Function.update_self]
      · rw [Function.update_of_ne hv]
        exact H.pred ref hr hm
    · rw [List.mem_singleton.mp hr, Function.update_self]
    · by_cases hv : c.vregs (c.op ref k) = c.vregs (c.op x k)
      · rw [hv, Function.update_self]
        exact ⟨hc, rfl, h0 hx⟩
      · rw [Function.update_of_ne hv]
        exact H.src ref hr hm
    · rw [List.mem_singleton.mp hr, Function.update_self]
      exact ⟨hc, rfl, h0 hx⟩
  · rw [if_neg hx]
    have hmem : ∀ ref ∈ l ++ [x], c.isRegisterMove k ref = true → ref ∈ l := by
      intro ref hr hm
      rcases List.mem_append.mp hr with hr | hr
      · exact hr
      · exact absurd (List.mem_singleton.mp hr ▸ hm) hx
    refine ⟨fun d => ?_, fun ref hr hm => H.dst ref (hmem ref hr hm) hm,
      fun ref hr hm => H.loc ref (hmem ref hr hm) hm, fun ref hr hm => H.pred ref (hmem ref hr hm) hm,
      fun ref hr hm => H.src ref (hmem ref hr hm) hm⟩
    rw [H.todo d]
    constructor
    · rintro ⟨ref, hr, hm, h⟩
      exact ⟨ref, by simp [hr], hm, h⟩
    · rintro ⟨ref, hr, hm, h⟩
      exact ⟨ref, hmem ref hr hm, hm, h⟩

/-- The first loop, whatever the tables held before. -/
theorem collectCopies_spec (P : PhisOk c k uses) (t : Tables) :
    Collected c k uses (c.collectCopies k uses t).1 (c.collectCopies k uses t).2 := by
  have hrun : ∀ l, (∀ ref ∈ l, ref ∈ uses) →
      Collected c k l (c.collectCopies k l t).1 (c.collectCopies k l t).2 := by
    intro l
    induction l using List.reverseRecOn with
    | nil =>
      intro _
      exact ⟨fun d => by simp [collectCopies], by simp, by simp, by simp, by simp⟩
    | append_singleton l x ih =>
      intro hl
      unfold collectCopies
      rw [List.foldl_append]
      refine (ih (fun ref hr => hl ref (by simp [hr]))).snoc ?_ ?_
      · intro ref hr hm hx hv
        exact P.distinct ref (hl ref (by simp [hr])) x (hl x (by simp)) (isRegisterMove_iff.mp hm).1
          (isRegisterMove_iff.mp hx).1 hv
      · intro hx
        exact P.input x (hl x (by simp)) (isRegisterMove_iff.mp hx).1
  exact hrun uses (fun ref hr => hr)

/-- The second loop over a list of destinations. -/
theorem linkCopy_foldl (l : List ℕ) : ∀ t : Tables,
    (l.foldl (c.linkCopy k) t).src = t.src ∧ (l.foldl (c.linkCopy k) t).dst = t.dst ∧
    (∀ x, (l.foldl (c.linkCopy k) t).pred x = if x ∈ l then c.vregs (c.op (t.dst x) k) else t.pred x) ∧
    (∀ x, (l.foldl (c.linkCopy k) t).loc x =
      if ∃ d ∈ l, c.vregs (c.op (t.dst d) k) = x then x else t.loc x) := by
  induction l with
  | nil =>
    intro t
    simp
  | cons d l ih =>
    intro t
    obtain ⟨h1, h2, h3, h4⟩ := ih (c.linkCopy k t d)
    rw [List.foldl_cons]
    refine ⟨h1, h2, fun x => ?_, fun x => ?_⟩
    · rw [h3 x]
      by_cases hx : x ∈ l
      · simp [hx, linkCopy]
      · by_cases hd : x = d
        · subst hd
          simp [hx, linkCopy]
        · simp [hx, hd, linkCopy]
    · rw [h4 x, show (c.linkCopy k t d).dst = t.dst from rfl]
      by_cases hx : ∃ d' ∈ l, c.vregs (c.op (t.dst d') k) = x
      · rw [if_pos hx, if_pos]
        obtain ⟨d', hd', h⟩ := hx
        exact ⟨d', List.mem_cons_of_mem d hd', h⟩
      · rw [if_neg hx]
        by_cases hd : c.vregs (c.op (t.dst d) k) = x
        · rw [if_pos ⟨d, List.mem_cons_self, hd⟩]
          simp [linkCopy, hd]
        · rw [if_neg]
          · simp [linkCopy, Function.update_of_ne (Ne.symm hd)]
          · rintro ⟨d', hd', h⟩
            rcases List.mem_cons.mp hd' with rfl | hd'
            · exact hd h
            · exact hx ⟨d', hd', h⟩

/-- What the emitting loops need of the tables `pred` and `dst`. -/
structure Linked (c : PhiCtx) (D : Finset ℕ) (pred : ℕ → ℕ) (dst : ℕ → ℤ) : Prop where
  range : ∀ d ∈ D, 1 ≤ d ∧ d ≤ c.vregsCount
  pred_pos : ∀ d ∈ D, pred d ≠ 0
  pred_ne : ∀ d ∈ D, pred d ≠ d
  /-- `pred` tells which sources are destinations -/
  isDst : ∀ d ∈ D, pred (pred d) ≠ 0 → pred d ∈ D
  dst : ∀ d ∈ D, dst d ≠ 0 ∧ c.vregs (dst d) = d ∧ c.constOrAddress (dst d) = false

theorem Linked.zero_notMem {D : Finset ℕ} {pred : ℕ → ℕ} {dst : ℕ → ℤ} (L : Linked c D pred dst) : 0 ∉ D := by
  intro h
  have := (L.range 0 h).1
  omega

theorem Linked.card_le {D : Finset ℕ} {pred : ℕ → ℕ} {dst : ℕ → ℤ} (L : Linked c D pred dst) :
    D.card ≤ c.vregsCount := by
  have hsub : D ⊆ Finset.Icc 1 c.vregsCount := fun d hd => Finset.mem_Icc.mpr (L.range d hd)
  have hcard := Finset.card_le_card hsub
  rwa [Nat.card_Icc, Nat.add_sub_cancel] at hcard

/-! ### The copies -/

section

variable {V : Type} {constVal : ℤ → V} {D : Finset ℕ} {pred : ℕ → ℕ} {dst : ℕ → ℤ} {σ₀ : ℕ → V} {st st' : MoveState}

theorem execCopies_snoc (copies : List EmitCopy) (copy : EmitCopy) (σ : ℕ → V) :
    c.execCopies constVal (copies ++ [copy]) σ = c.execCopy constVal (c.execCopies constVal copies σ) copy := by
  unfold execCopies
  rw [List.foldl_append]
  rfl

/-- The reference `src x` stands for the register `x`, or for the temporary. -/
def StandsFor (c : PhiCtx) (src : ℕ → ℤ) (x : ℕ) : Prop :=
  c.place (src x) = x ∧ (src x ≠ 0 → c.constOrAddress (src x) = false)

theorem StandsFor.value {src : ℕ → ℤ} {x : ℕ} (h : StandsFor c src x) (σ : ℕ → V) :
    c.value constVal σ (src x) = σ x := by
  unfold PhiCtx.value
  rw [if_neg, h.1]
  rintro ⟨h0, h1⟩
  rw [h.2 h0] at h1
  exact absurd h1 (by simp)

theorem standsFor_of_vreg {src : ℕ → ℤ} {x : ℕ} (hc : c.constOrAddress (src x) = false)
    (hv : c.vregs (src x) = x) (h0 : src x ≠ 0) : StandsFor c src x :=
  ⟨by rw [place, if_neg h0, hv], fun _ => hc⟩

/-- The registers that wait. -/
def MoveState.waiting (st : MoveState) : Finset ℕ := st.todo ∪ st.ready

/-- The registers after the calls so far. -/
def after (c : PhiCtx) (constVal : ℤ → V) (σ₀ : ℕ → V) (st : MoveState) : ℕ → V :=
  c.execCopies constVal st.calls σ₀

/-- The invariant of the loops that emit the copies. -/
structure MoveInv (c : PhiCtx) (constVal : ℤ → V) (D : Finset ℕ) (pred : ℕ → ℕ) (σ₀ : ℕ → V) (st : MoveState) :
    Prop where
  copies : Copies pred (fun s v => v = σ₀ s) (fun d v => v = σ₀ (pred d)) D st.waiting st.loc
    (after c constVal σ₀ st)
  free : ∀ b ∈ st.ready, ∀ d ∈ D, pred d = b → st.loc b ≠ b
  stuck : ∀ b ∈ st.todo, b ∉ st.ready → ∃ d ∈ D, pred d = b ∧ st.loc b = b
  src : ∀ d ∈ D, StandsFor c st.src (st.loc (pred d))
  src_zero : st.src 0 = 0
  frame : ∀ x ∉ D, x ≠ 0 → after c constVal σ₀ st x = σ₀ x

/-- One round of the inner loop. -/
def emitOne (c : PhiCtx) (pred : ℕ → ℕ) (dst : ℕ → ℤ) (st : MoveState) (b : ℕ) : MoveState where
  loc := Function.update st.loc (pred b) b
  src := Function.update st.src b (dst b)
  todo := st.todo.erase b
  ready := if pred b = st.loc (pred b) ∧ pred (pred b) ≠ 0 then insert (pred b) (st.ready.erase b)
    else st.ready.erase b
  calls := st.calls ++ [⟨c.type (dst b), st.src (st.loc (pred b)), dst b⟩]

theorem MoveInv.waiting_emitOne (L : Linked c D pred dst) (I : MoveInv c constVal D pred σ₀ st) {b : ℕ}
    (hb : b ∈ st.ready) : (emitOne c pred dst st b).waiting = st.waiting.erase b := by
  have hbT : b ∈ st.waiting := Finset.mem_union_right _ hb
  have hbD := I.copies.sub hbT
  unfold MoveState.waiting emitOne
  dsimp only
  rw [Finset.erase_union_distrib]
  split_ifs with h
  · have hwait : pred b ∈ st.waiting :=
      I.copies.waits L.pred_ne hbD h.1.symm (L.isDst b hbD h.2)
    have hne := L.pred_ne b hbD
    ext x
    simp only [Finset.mem_union, Finset.mem_erase, Finset.mem_insert, MoveState.waiting] at hwait ⊢
    constructor
    · rintro (h1 | rfl | h1)
      · exact Or.inl h1
      · exact hwait.imp (fun h1 => ⟨hne, h1⟩) (fun h1 => ⟨hne, h1⟩)
      · exact Or.inr h1
    · rintro (h1 | h1)
      · exact Or.inl h1
      · exact Or.inr (Or.inr h1)
  · rfl

theorem MoveInv.after_emitOne (L : Linked c D pred dst) (I : MoveInv c constVal D pred σ₀ st) {b : ℕ}
    (hb : b ∈ D) : after c constVal σ₀ (emitOne c pred dst st b) =
      Function.update (after c constVal σ₀ st) b (after c constVal σ₀ st (st.loc (pred b))) := by
  obtain ⟨h0, hv, -⟩ := L.dst b hb
  unfold after emitOne
  dsimp only
  rw [execCopies_snoc]
  unfold execCopy
  dsimp only
  rw [(I.src b hb).value, place, if_neg h0, hv]

/-- **One copy of the inner loop.** -/
theorem MoveInv.emit (L : Linked c D pred dst) (I : MoveInv c constVal D pred σ₀ st) {b : ℕ}
    (hb : b ∈ st.ready) : MoveInv c constVal D pred σ₀ (emitOne c pred dst st b) := by
  have hbT : b ∈ st.waiting := Finset.mem_union_right _ hb
  have hbD := I.copies.sub hbT
  have hvalue : after c constVal σ₀ st (st.loc (pred b)) = σ₀ (pred b) := I.copies.need b hbT
  have hafter := I.after_emitOne L hbD
  have hmem : ∀ x, x ∈ (emitOne c pred dst st b).ready →
      (x = pred b ∧ pred b = st.loc (pred b)) ∨ (x ≠ b ∧ x ∈ st.ready) := by
    intro x hx
    unfold emitOne at hx
    dsimp only at hx
    split_ifs at hx with h
    · rcases Finset.mem_insert.mp hx with rfl | hx
      · exact Or.inl ⟨rfl, h.1⟩
      · exact Or.inr (Finset.mem_erase.mp hx)
    · exact Or.inr (Finset.mem_erase.mp hx)
  refine ⟨?_, ?_, ?_, ?_, ?_, ?_⟩
  · rw [I.waiting_emitOne L hb, hafter]
    exact I.copies.step hbT (fun d hd hp => I.free b hb d hd hp) hvalue hvalue
  · intro x hx d hd hp
    change Function.update st.loc (pred b) b x ≠ x
    by_cases hxa : x = pred b
    · rw [hxa, Function.update_self]
      exact (L.pred_ne b hbD).symm
    · rw [Function.update_of_ne hxa]
      rcases hmem x hx with ⟨h, -⟩ | ⟨-, h⟩
      · exact absurd h hxa
      · exact I.free x h d hd hp
  · intro x hx hn
    obtain ⟨hxb, hxtodo⟩ := Finset.mem_erase.mp hx
    have hxready : x ∉ st.ready := by
      intro h
      refine hn ?_
      change x ∈ ite _ _ _
      split_ifs
      · exact Finset.mem_insert_of_mem (Finset.mem_erase.mpr ⟨hxb, h⟩)
      · exact Finset.mem_erase.mpr ⟨hxb, h⟩
    obtain ⟨d, hd, hp, hloc⟩ := I.stuck x hxtodo hxready
    refine ⟨d, hd, hp, ?_⟩
    change Function.update st.loc (pred b) b x = x
    by_cases hxa : x = pred b
    · -- the source that has just been freed is ready
      refine absurd ?_ hn
      have hxD : x ∈ D := I.copies.sub (Finset.mem_union_left _ hxtodo)
      change x ∈ ite _ _ _
      rw [if_pos ⟨by rw [← hxa, hloc], by rw [← hxa]; exact L.pred_pos x hxD⟩, hxa]
      exact Finset.mem_insert_self _ _
    · rw [Function.update_of_ne hxa, hloc]
  · intro d hd
    change StandsFor c (Function.update st.src b (dst b)) (Function.update st.loc (pred b) b (pred d))
    obtain ⟨h0, hv, hc⟩ := L.dst b hbD
    have hself : StandsFor c (Function.update st.src b (dst b)) b := by
      refine standsFor_of_vreg ?_ ?_ ?_
      · rwa [Function.update_self]
      · rwa [Function.update_self]
      · rwa [Function.update_self]
    by_cases hp : pred d = pred b
    · rw [hp, Function.update_self]
      exact hself
    · rw [Function.update_of_ne hp]
      by_cases hl : st.loc (pred d) = b
      · rw [hl]
        exact hself
      · unfold StandsFor
        rw [Function.update_of_ne hl]
        exact I.src d hd
  · have hbpos := (L.range b hbD).1
    change Function.update st.src b (dst b) 0 = 0
    rw [Function.update_of_ne (by omega), I.src_zero]
  · intro x hx h0
    have hne : x ≠ b := by
      rintro rfl
      exact hx hbD
    rw [hafter, Function.update_of_ne hne]
    exact I.frame x hx h0

/-- **The inner loop** ends with nobody ready. -/
theorem emitReady_spec (L : Linked c D pred dst) (fuel : ℕ) : ∀ st : MoveState, MoveInv c constVal D pred σ₀ st →
    st.waiting.card < fuel → ∃ st', c.emitReady pred dst fuel st = some st' ∧ MoveInv c constVal D pred σ₀ st' ∧
      st'.ready = ∅ ∧ st'.waiting ⊆ st.waiting ∧ ∀ b ∈ st.ready, b ∉ st'.waiting := by
  induction fuel with
  | zero =>
    intro st _ h
    omega
  | succ fuel ih =>
    intro st I hfuel
    rw [emitReady]
    split
    · rename_i hnone
      have hready := firstBit_eq_none.mp hnone
      refine ⟨st, rfl, I, hready, Finset.Subset.refl _, ?_⟩
      rw [hready]
      simp
    · rename_i b hsome
      have hb := firstBit_mem hsome
      have hbT : b ∈ st.waiting := Finset.mem_union_right _ hb
      have hwait := I.waiting_emitOne L hb
      have hcard : (emitOne c pred dst st b).waiting.card < fuel := by
        have := Finset.card_erase_lt_of_mem hbT
        rw [hwait]
        omega
      obtain ⟨st', hst', I', hempty, hsub, hdone⟩ := ih (emitOne c pred dst st b) (I.emit L hb) hcard
      refine ⟨st', hst', I', hempty, ?_, ?_⟩
      · rw [hwait] at hsub
        exact hsub.trans (Finset.erase_subset _ _)
      · intro x hx hw
        by_cases hxb : x = b
        · subst hxb
          have := hsub hw
          rw [hwait] at this
          exact Finset.notMem_erase x _ this
        · refine hdone x ?_ hw
          change x ∈ ite _ _ _
          split_ifs
          · exact Finset.mem_insert_of_mem (Finset.mem_erase.mpr ⟨hxb, hx⟩)
          · exact Finset.mem_erase.mpr ⟨hxb, hx⟩

/-- The first register that waits is put into the temporary. -/
def putAside (c : PhiCtx) (st : MoveState) (b : ℕ) : MoveState where
  loc := Function.update st.loc b 0
  src := st.src
  todo := st.todo.erase b
  ready := insert b st.ready
  calls := st.calls ++ [⟨c.type (st.src b), st.src b, 0⟩]

theorem waiting_putAside {b : ℕ} (hb : b ∈ st.todo) : (putAside c st b).waiting = st.waiting := by
  unfold MoveState.waiting putAside
  ext x
  by_cases hx : x = b
  · subst hx
    simp [hb]
  · simp [hx]

/-- **Breaking a cycle**: nobody is ready, so the temporary is not read any more. -/
theorem MoveInv.aside (L : Linked c D pred dst) (I : MoveInv c constVal D pred σ₀ st) (hready : st.ready = ∅)
    {b : ℕ} (hb : b ∈ st.todo) : MoveInv c constVal D pred σ₀ (putAside c st b) := by
  have hwaiting : st.waiting = st.todo := by rw [MoveState.waiting, hready, Finset.union_empty]
  have hstuck : ∀ x ∈ st.todo, ∃ d ∈ D, pred d = x ∧ st.loc x = x :=
    fun x hx => I.stuck x hx (by simp [hready])
  have hreader : ∀ x ∈ st.todo, ∃ d ∈ st.todo, pred d = x := by
    intro x hx
    obtain ⟨d, hd, rfl, hloc⟩ := hstuck x hx
    rcases I.copies.loc d hd with ⟨-, -, h⟩ | ⟨-, h, -⟩ | h
    · exact ⟨d, hwaiting ▸ h d hd rfl, rfl⟩
    · rw [hloc, hwaiting] at h
      exact absurd hx h
    · rw [hloc] at h
      exact absurd (I.copies.sub (hwaiting ▸ hx)) h
  have hpred := Copies.pred_mem_of_stuck hreader
  have hbD : b ∈ D := I.copies.sub (hwaiting ▸ hb)
  have hbpos := (L.range b hbD).1
  obtain ⟨db, hdb, hdbp, hbloc⟩ := hstuck b hb
  have hsrc : StandsFor c st.src b := by
    have := I.src db hdb
    rwa [hdbp, hbloc] at this
  have hafter : after c constVal σ₀ (putAside c st b) =
      Function.update (after c constVal σ₀ st) 0 (after c constVal σ₀ st b) := by
    unfold after putAside
    dsimp only
    rw [execCopies_snoc]
    unfold execCopy
    dsimp only
    rw [hsrc.value, place, if_pos rfl]
  refine ⟨?_, ?_, ?_, ?_, I.src_zero, ?_⟩
  · rw [waiting_putAside hb, hafter]
    refine I.copies.save L.zero_notMem ?_ ?_ (fun _ _ _ _ h => h) (fun _ _ _ _ h => h)
    · intro d hd h0
      rw [hwaiting] at hd
      have hpT := hpred d hd
      obtain ⟨-, -, -, hloc⟩ := hstuck _ hpT
      have hpos := (L.range _ (I.copies.sub (hwaiting ▸ hpT))).1
      omega
    · intro d hd hp
      have hneed := I.copies.need d hd
      rwa [hp, hbloc] at hneed
  · intro x hx d hd hp
    have hxb : x = b := by
      rw [putAside, hready] at hx
      simpa using hx
    change Function.update st.loc b 0 x ≠ x
    rw [hxb, Function.update_self]
    omega
  · intro x hx hn
    obtain ⟨hxb, hxt⟩ := Finset.mem_erase.mp hx
    obtain ⟨d, hd, hp, hloc⟩ := hstuck x hxt
    refine ⟨d, hd, hp, ?_⟩
    change Function.update st.loc b 0 x = x
    rw [Function.update_of_ne hxb, hloc]
  · intro d hd
    change StandsFor c st.src (Function.update st.loc b 0 (pred d))
    by_cases hp : pred d = b
    · rw [hp, Function.update_self]
      exact ⟨by rw [I.src_zero, place, if_pos rfl], fun h => absurd I.src_zero h⟩
    · rw [Function.update_of_ne hp]
      exact I.src d hd
  · intro x hx h0
    rw [hafter, Function.update_of_ne h0]
    exact I.frame x hx h0

/-- **The outer loop**: nobody waits at its end. -/
theorem emitMoves_spec (L : Linked c D pred dst) (fuel : ℕ) : ∀ st : MoveState, MoveInv c constVal D pred σ₀ st →
    (st.waiting \ st.ready).card < fuel → ∃ st', c.emitMoves pred dst fuel st = some st' ∧
      MoveInv c constVal D pred σ₀ st' ∧ st'.waiting = ∅ := by
  induction fuel with
  | zero =>
    intro st _ h
    omega
  | succ fuel ih =>
    intro st I hfuel
    have hinner : st.waiting.card < c.vregsCount + 1 := by
      have := Finset.card_le_card I.copies.sub
      have := L.card_le
      omega
    obtain ⟨st₁, h₁, I₁, hempty, hsub, hdone⟩ := emitReady_spec L (c.vregsCount + 1) st I hinner
    have hwaiting : st₁.waiting = st₁.todo := by rw [MoveState.waiting, hempty, Finset.union_empty]
    rw [emitMoves, h₁]
    dsimp only [Option.bind_eq_bind, Option.bind_some]
    split
    · rename_i hnone
      exact ⟨st₁, rfl, I₁, by rw [hwaiting, firstBit_eq_none.mp hnone]⟩
    · rename_i b hsome
      have hb := firstBit_mem hsome
      refine ih (putAside c st₁ b) (I₁.aside L hempty hb) ?_
      rw [waiting_putAside hb, hwaiting]
      have hready : (putAside c st₁ b).ready = {b} := by
        unfold putAside
        dsimp only
        rw [hempty]
        rfl
      have hle : st₁.todo.card ≤ (st.waiting \ st.ready).card := by
        refine Finset.card_le_card fun x hx => ?_
        rw [← hwaiting] at hx
        exact Finset.mem_sdiff.mpr ⟨hsub hx, fun h => hdone x h hx⟩
      have hlt : (st₁.todo \ {b}).card < st₁.todo.card := by
        rw [Finset.sdiff_singleton_eq_erase]
        exact Finset.card_erase_lt_of_mem hb
      rw [hready]
      omega

/-- The tables after the two loops over the uses. -/
theorem linkCopies_spec (P : PhisOk c k uses) (t : Tables) (constVal : ℤ → V) (σ₀ : ℕ → V) :
    let t₁ := (c.collectCopies k uses t).1
    let todo := (c.collectCopies k uses t).2
    let t₂ := c.linkCopies k todo { t₁ with src := Function.update t₁.src 0 0, dst := Function.update t₁.dst 0 0 }
    Linked c todo t₂.pred t₂.dst ∧
      (∀ ref ∈ uses, c.isRegisterMove k ref = true → t₂.pred (c.vregs ref) = c.vregs (c.op ref k)) ∧
      MoveInv c constVal todo t₂.pred σ₀ ⟨t₂.loc, t₂.src, todo, todo.filter (fun i => t₂.loc i = 0), []⟩ := by
  intro t₁ todo t₂
  have H : Collected c k uses t₁ todo := collectCopies_spec P t
  obtain ⟨hsrc, hdst, hpred, hloc⟩ := linkCopy_foldl (c := c) (k := k) (todo.sort (· ≤ ·))
    { t₁ with src := Function.update t₁.src 0 0, dst := Function.update t₁.dst 0 0 }
  change t₂.src = Function.update t₁.src 0 0 at hsrc
  change t₂.dst = Function.update t₁.dst 0 0 at hdst
  change ∀ x, t₂.pred x = _ at hpred
  change ∀ x, t₂.loc x = _ at hloc
  simp only [Finset.mem_sort] at hpred hloc
  -- a destination comes from a PHI
  have hmove : ∀ d ∈ todo, ∃ ref ∈ uses, c.isRegisterMove k ref = true ∧ c.vregs ref = d := fun d hd => (H.todo d).mp hd
  have hpos : ∀ ref ∈ uses, c.isRegisterMove k ref = true → c.vregs ref ≠ 0 := by
    intro ref hr hm
    have := (P.vreg ref hr (isRegisterMove_iff.mp hm).1).1
    omega
  have hdst' : ∀ ref ∈ uses, c.isRegisterMove k ref = true → Function.update t₁.dst 0 0 (c.vregs ref) = ref := by
    intro ref hr hm
    rw [Function.update_of_ne (hpos ref hr hm), H.dst ref hr hm]
  have hpred' : ∀ ref ∈ uses, c.isRegisterMove k ref = true → t₂.pred (c.vregs ref) = c.vregs (c.op ref k) := by
    intro ref hr hm
    rw [hpred, if_pos ((H.todo _).mpr ⟨ref, hr, hm, rfl⟩), hdst' ref hr hm]
  have hsource : ∀ ref ∈ uses, c.isRegisterMove k ref = true → c.vregs (c.op ref k) ≠ 0 :=
    fun ref _ hm => (constOrAddress_eq_false.mp (isRegisterMove_iff.mp hm).2.1).2
  have L : Linked c todo t₂.pred t₂.dst := by
    refine ⟨?_, ?_, ?_, ?_, ?_⟩
    all_goals
      intro d hd
      obtain ⟨ref, hr, hm, rfl⟩ := hmove d hd
      obtain ⟨hphi, hc, hne⟩ := isRegisterMove_iff.mp hm
    · exact P.vreg ref hr hphi
    · rw [hpred' ref hr hm]
      exact hsource ref hr hm
    · rw [hpred' ref hr hm]
      exact hne
    · rw [hpred' ref hr hm]
      intro h
      by_contra hn
      rw [hpred, if_neg hn] at h
      exact h (H.pred ref hr hm)
    · rw [hdst, hdst' ref hr hm]
      have href := P.ref_pos ref hr hphi
      exact ⟨by omega, rfl, constOrAddress_eq_false.mpr ⟨by omega, hpos ref hr hm⟩⟩
  have hlocsrc : ∀ d ∈ todo, t₂.loc (t₂.pred d) = t₂.pred d := by
    intro d hd
    rw [hloc, if_pos]
    refine ⟨d, hd, ?_⟩
    rw [hpred, if_pos hd]
  refine ⟨L, hpred', ?_⟩
  have hwaiting : (MoveState.mk t₂.loc t₂.src todo (todo.filter (fun i => t₂.loc i = 0)) []).waiting = todo :=
    Finset.union_eq_left.mpr (Finset.filter_subset _ _)
  refine ⟨?_, ?_, ?_, ?_, ?_, fun _ _ _ => rfl⟩
  · rw [hwaiting]
    exact Copies.start (fun d _ => rfl) hlocsrc
  · intro b hb d hd hp
    obtain ⟨hbt, hb0⟩ := Finset.mem_filter.mp hb
    have := (L.range b hbt).1
    dsimp only at hb0 ⊢
    omega
  · intro b hb hn
    have hb0 : t₂.loc b ≠ 0 := fun h => hn (Finset.mem_filter.mpr ⟨hb, h⟩)
    obtain ⟨ref, hr, hm, rfl⟩ := hmove b hb
    rw [hloc] at hb0
    split_ifs at hb0 with h
    · obtain ⟨d, hd, hp⟩ := h
      have hpd : t₂.pred d = c.vregs ref := by rw [hpred, if_pos hd, hp]
      refine ⟨d, hd, hpd, ?_⟩
      have := hlocsrc d hd
      rwa [hpd] at this
    · exact absurd (H.loc ref hr hm) hb0
  · intro d hd
    obtain ⟨ref, hr, hm, rfl⟩ := hmove d hd
    dsimp only
    rw [hlocsrc _ hd, hpred' ref hr hm]
    obtain ⟨h1, h2, h3⟩ := H.src ref hr hm
    have hs := hsource ref hr hm
    have heq : t₂.src (c.vregs (c.op ref k)) = t₁.src (c.vregs (c.op ref k)) := by
      rw [hsrc]
      exact Function.update_of_ne hs 0 t₁.src
    refine standsFor_of_vreg ?_ ?_ ?_
    · exact heq ▸ h1
    · exact heq ▸ h2
    · exact heq ▸ h3
  · change t₂.src 0 = 0
    rw [hsrc]
    exact Function.update_self 0 0 t₁.src

/-- **The copies between registers** happen at once, and touch nothing else. -/
theorem registerMoves_spec (P : PhisOk c k uses) (t : Tables) (constVal : ℤ → V) (σ₀ : ℕ → V) :
    ∃ moves, c.registerMoves k uses t = some moves ∧
      (∀ ref ∈ uses, c.isRegisterMove k ref = true →
        c.execCopies constVal moves σ₀ (c.vregs ref) = σ₀ (c.vregs (c.op ref k))) ∧
      ∀ x ≠ 0, (∀ ref ∈ uses, c.isRegisterMove k ref = true → c.vregs ref ≠ x) →
        c.execCopies constVal moves σ₀ x = σ₀ x := by
  have H := collectCopies_spec P t
  obtain ⟨L, hpred, I⟩ := linkCopies_spec P t constVal σ₀
  unfold registerMoves
  dsimp only
  by_cases hempty : (c.collectCopies k uses t).2 = ∅
  · rw [if_pos hempty]
    refine ⟨[], rfl, ?_, fun _ _ _ => rfl⟩
    intro ref hr hm
    have := (H.todo _).mpr ⟨ref, hr, hm, rfl⟩
    rw [hempty] at this
    exact absurd this (Finset.notMem_empty _)
  · rw [if_neg hempty]
    have hcard := L.card_le
    obtain ⟨st', h, I', hnone⟩ := emitMoves_spec L (c.vregsCount + 1) _ I
      (lt_of_le_of_lt (Finset.card_le_card (Finset.sdiff_subset.trans I.copies.sub)) (by omega))
    rw [h]
    refine ⟨st'.calls, rfl, ?_, ?_⟩
    · intro ref hr hm
      rw [← hpred ref hr hm]
      exact I'.copies.done _ ((H.todo _).mpr ⟨ref, hr, hm, rfl⟩) (by simp [hnone])
    · intro x h0 hx
      refine I'.frame x (fun hD => ?_) h0
      obtain ⟨ref, hr, hm, rfl⟩ := (H.todo _).mp hD
      exact hx ref hr hm rfl

/-- The last loop puts the constants and the addresses into their registers. -/
theorem execCopies_consts (constVal : ℤ → V) (l : List ℤ) (hconst : ∀ ref ∈ l, c.op ref k ≠ 0 ∧
      c.constOrAddress (c.op ref k) = true ∧ ref ≠ 0)
    (hinj : ∀ ref ∈ l, ∀ ref' ∈ l, c.vregs ref = c.vregs ref' → ref = ref') (σ : ℕ → V) :
    (∀ ref ∈ l, c.execCopies constVal (l.map fun ref => ⟨c.type ref, c.op ref k, ref⟩) σ (c.vregs ref) =
      constVal (c.op ref k)) ∧
    ∀ x, (∀ ref ∈ l, c.vregs ref ≠ x) →
      c.execCopies constVal (l.map fun ref => ⟨c.type ref, c.op ref k, ref⟩) σ x = σ x := by
  induction l using List.reverseRecOn with
  | nil => exact ⟨by simp, fun _ _ => rfl⟩
  | append_singleton l a ih =>
    obtain ⟨ih₁, ih₂⟩ := ih (fun ref hr => hconst ref (by simp [hr]))
      (fun ref hr ref' hr' => hinj ref (by simp [hr]) ref' (by simp [hr']))
    obtain ⟨hop, hca, ha⟩ := hconst a (by simp)
    have hstep : ∀ σ' : ℕ → V, c.execCopy constVal σ' ⟨c.type a, c.op a k, a⟩ =
        Function.update σ' (c.vregs a) (constVal (c.op a k)) := by
      intro σ'
      unfold execCopy value
      dsimp only
      rw [if_pos ⟨hop, hca⟩, place, if_neg ha]
    rw [List.map_append, List.map_singleton, execCopies_snoc, hstep]
    refine ⟨fun ref hr => ?_, fun x hx => ?_⟩
    · by_cases hv : c.vregs ref = c.vregs a
      · rw [hv, Function.update_self, hinj ref hr a (by simp) hv]
      · rw [Function.update_of_ne hv]
        rcases List.mem_append.mp hr with hr | hr
        · exact ih₁ ref hr
        · exact absurd (congrArg c.vregs (List.mem_singleton.mp hr)) hv
    · rw [Function.update_of_ne (Ne.symm (hx a (by simp)))]
      exact ih₂ x (fun ref hr => hx ref (by simp [hr]))

end

/-! ### Which blocks get moves -/

/-- A property that every step keeps and one step brings about holds at the end. -/
theorem foldl_of_mem {α β : Type} {Q : β → Prop} {f : β → α → β} (hkeep : ∀ s a, Q s → Q (f s a)) {x : α}
    (hit : ∀ s, Q (f s x)) (l : List α) (hx : x ∈ l) : ∀ s, Q (l.foldl f s) := by
  have hrun : ∀ (l : List α) (s : β), Q s → Q (l.foldl f s) := by
    intro l
    induction l with
    | nil => exact fun s h => h
    | cons a l ih => exact fun s h => ih (f s a) (hkeep s a h)
  induction l with
  | nil => exact absurd hx (by simp)
  | cons a l ih =>
    intro s
    rcases List.mem_cons.mp hx with rfl | hx
    · exact hrun l _ (hit s)
    · exact ih hx (f s a)

theorem foldl_keep {α β : Type} {Q : β → Prop} {f : β → α → β} (hkeep : ∀ s a, Q s → Q (f s a)) (l : List α) :
    ∀ s, Q s → Q (l.foldl f s) := by
  induction l with
  | nil => exact fun s h => h
  | cons a l ih => exact fun s h => ih (f s a) (hkeep s a h)

theorem markMoves_keep {b pred : ℕ} (type : IrType) {flags : ℕ → MoveFlags} (h : (flags b).dessaMoves = true) :
    (markMoves flags pred type b).dessaMoves = true := by
  unfold markMoves
  by_cases hb : b = pred
  · rw [hb, Function.update_self]
  · rwa [Function.update_of_ne hb]

theorem markInputs_keep {b succ : ℕ} (use : ℤ) {flags : ℕ → MoveFlags} (h : (flags b).dessaMoves = true) :
    (c.markInputs succ flags use b).dessaMoves = true := by
  unfold markInputs
  refine foldl_keep (Q := fun flags : ℕ → MoveFlags => (flags b).dessaMoves = true) ?_ _ flags h
  intro s j hs
  split_ifs
  · exact markMoves_keep _ hs
  · exact hs

theorem markBlock_keep {b succ : ℕ} {flags : ℕ → MoveFlags} (h : (flags b).dessaMoves = true) :
    (c.markBlock flags succ b).dessaMoves = true := by
  unfold markBlock
  split_ifs
  · refine foldl_keep (Q := fun flags : ℕ → MoveFlags => (flags b).dessaMoves = true) ?_ _ flags h
    intro s use hs
    split_ifs
    · exact markInputs_keep use hs
    · exact hs
  · exact h

/-- The edge of a block with one successor to a block with PHIs. -/
structure PhiEdge (c : PhiCtx) (b : ℕ) : Prop where
  succ_range : 1 ≤ c.successor b ∧ c.successor b ≤ c.blocksCount
  mem : b ∈ c.predecessors (c.successor b)
  preds : 1 < (c.predecessors (c.successor b)).length
  /-- besides the PHIs there is the next control instruction -/
  uses : 1 < (c.uses (c.successor b)).length
  phis : PhisOk c (c.phiInputNumber (c.successor b) b) (c.uses (c.successor b))

/-- A block with a PHI input in another place gets moves. -/
theorem computeDessaMoves_spec {b : ℕ} (E : PhiEdge c b) (flags : ℕ → MoveFlags) {ref : ℤ}
    (hr : ref ∈ c.uses (c.successor b)) (hphi : c.isPhi ref = true)
    (hneed : c.op ref (c.phiInputNumber (c.successor b) b) < 0 ∨
      c.vregs (c.op ref (c.phiInputNumber (c.successor b) b)) ≠ c.vregs ref) :
    (c.computeDessaMoves flags b).dessaMoves = true := by
  have hidx : (c.predecessors (c.successor b)).idxOf b < (c.predecessors (c.successor b)).length :=
    List.idxOf_lt_length_iff.mpr E.mem
  unfold computeDessaMoves
  refine foldl_of_mem (Q := fun flags : ℕ → MoveFlags => (flags b).dessaMoves = true) (x := c.successor b)
    (fun s succ hs => markBlock_keep hs) (fun s => ?_) _ ?_ flags
  · unfold markBlock
    rw [if_pos ⟨E.preds, E.uses⟩]
    refine foldl_of_mem (Q := fun flags : ℕ → MoveFlags => (flags b).dessaMoves = true) (x := ref)
      (fun s use hs => ?_) (fun s => ?_) _ hr s
    · split_ifs
      · exact markInputs_keep use hs
      · exact hs
    · rw [if_pos hphi]
      unfold markInputs
      refine foldl_of_mem (Q := fun flags : ℕ → MoveFlags => (flags b).dessaMoves = true)
        (x := c.phiInputNumber (c.successor b) b) (fun s j hs => ?_) (fun s => ?_) _ ?_ s
      · split_ifs
        · exact markMoves_keep _ hs
        · exact hs
      · rw [if_pos hneed]
        unfold markMoves phiInputNumber
        rw [Nat.add_sub_cancel, List.getD_eq_getElem _ _ hidx, List.getElem_idxOf, Function.update_self]
      · rw [List.mem_range'_1]
        unfold phiInputNumber
        omega
  · rw [List.mem_range'_1]
    have := E.succ_range
    omega

/-- **The moves of a block are a parallel assignment**: whatever the tables and the flags hold at first,
every PHI of the successor gets the value that its input had before the first copy. -/
theorem genDessaMoves_parallel {V : Type} {b : ℕ} (E : PhiEdge c b) (flags : ℕ → MoveFlags) (t : Tables)
    (constVal : ℤ → V) (σ₀ : ℕ → V) :
    ∃ copies, c.genDessaMoves (c.computeDessaMoves flags) t b = some copies ∧
      ∀ ref ∈ c.uses (c.successor b), c.isPhi ref = true →
        c.execCopies constVal copies σ₀ (c.vregs ref) =
          c.value constVal σ₀ (c.op ref (c.phiInputNumber (c.successor b) b)) := by
  have P := E.phis
  unfold genDessaMoves
  split_ifs with hflag
  · set k := c.phiInputNumber (c.successor b) b
    set uses := c.uses (c.successor b)
    obtain ⟨moves, hmoves, hreg, hframe⟩ := registerMoves_spec P t constVal σ₀
    dsimp only
    rw [hmoves]
    refine ⟨moves ++ c.constMoves k uses, rfl, ?_⟩
    intro ref hr hphi
    have hmem : ∀ r, r ∈ uses.filter (fun ref => c.isPhi ref && c.constOrAddress (c.op ref k)) ↔
        r ∈ uses ∧ c.isPhi r = true ∧ c.constOrAddress (c.op r k) = true := by
      intro r
      rw [List.mem_filter, Bool.and_eq_true]
    have hpos := P.ref_pos ref hr hphi
    have hinput := P.input ref hr hphi
    obtain ⟨hconst, hrest⟩ := execCopies_consts (c := c) (k := k) constVal
      (uses.filter (fun ref => c.isPhi ref && c.constOrAddress (c.op ref k)))
      (by
        intro r hr'
        obtain ⟨h1, h2, h3⟩ := (hmem r).mp hr'
        have := P.ref_pos r h1 h2
        exact ⟨P.input r h1 h2, h3, by omega⟩)
      (by
        intro r hr' r' hr'' hv
        obtain ⟨h1, h2, -⟩ := (hmem r).mp hr'
        obtain ⟨h1', h2', -⟩ := (hmem r').mp hr''
        exact P.distinct r h1 r' h1' h2 h2' hv)
      (c.execCopies constVal moves σ₀)
    have hsplit : c.execCopies constVal (moves ++ c.constMoves k uses) σ₀ =
        c.execCopies constVal (c.constMoves k uses) (c.execCopies constVal moves σ₀) := List.foldl_append
    rw [hsplit]
    by_cases hca : c.constOrAddress (c.op ref k) = true
    · rw [value, if_pos ⟨hinput, hca⟩]
      exact hconst ref ((hmem ref).mpr ⟨hr, hphi, hca⟩)
    · have hca' : c.constOrAddress (c.op ref k) = false := by simpa using hca
      have hother : ∀ r ∈ uses.filter (fun ref => c.isPhi ref && c.constOrAddress (c.op ref k)),
          c.vregs r ≠ c.vregs ref := by
        intro r hr' hv
        obtain ⟨h1, h2, h3⟩ := (hmem r).mp hr'
        rw [P.distinct r h1 ref hr h2 hphi hv] at h3
        exact hca h3
      have hvalue : c.value constVal σ₀ (c.op ref k) = σ₀ (c.vregs (c.op ref k)) := by
        rw [value, if_neg (fun h => hca h.2), place, if_neg hinput]
      rw [show c.execCopies constVal (c.constMoves k uses) (c.execCopies constVal moves σ₀) (c.vregs ref) =
        c.execCopies constVal moves σ₀ (c.vregs ref) from hrest _ hother, hvalue]
      by_cases hsame : c.vregs (c.op ref k) = c.vregs ref
      · rw [hsame]
        have := (P.vreg ref hr hphi).1
        refine hframe _ (by omega) ?_
        intro r hr' hm hv
        obtain ⟨hphi', -, hne⟩ := isRegisterMove_iff.mp hm
        rw [P.distinct r hr' ref hr hphi' hphi hv] at hne
        exact hne hsame
      · exact hreg ref hr (isRegisterMove_iff.mpr ⟨hphi, hca', hsame⟩)
  · refine ⟨[], rfl, ?_⟩
    intro ref hr hphi
    have hnone : ¬ (c.op ref (c.phiInputNumber (c.successor b) b) < 0 ∨
        c.vregs (c.op ref (c.phiInputNumber (c.successor b) b)) ≠ c.vregs ref) :=
      fun h => hflag (computeDessaMoves_spec E flags hr hphi h)
    rw [not_or, not_lt, not_not] at hnone
    obtain ⟨hge, hsame⟩ := hnone
    have hinput := P.input ref hr hphi
    have hvreg := (P.vreg ref hr hphi).1
    rw [value, if_neg, place, if_neg hinput, hsame]
    · rfl
    · rintro ⟨-, h⟩
      rw [constOrAddress_eq_false.mpr ⟨hge, by omega⟩] at h
      exact absurd h (by simp)

/-- Two registers change places along the edge from block 2 to block 3, a third one gets a constant. -/
def swapCtx : PhiCtx where
  blocksCount := 3
  predecessors b := if b = 3 then [1, 2] else []
  successor _ := 3
  uses b := if b = 3 then [10, 11, 12, 13] else []
  isPhi ref := decide (10 ≤ ref ∧ ref ≤ 12)
  type _ := .i64
  op ref _ := if ref = 10 then 11 else if ref = 11 then 10 else -5
  vregs ref := (ref - 9).toNat
  vregsCount := 3

theorem swapCtx_edge : PhiEdge swapCtx 2 := by
  refine ⟨by decide, by decide, by decide, by decide, ?_⟩
  constructor
  all_goals simp [swapCtx]

theorem swapCtx_parallel : ∃ copies,
    swapCtx.genDessaMoves (swapCtx.computeDessaMoves fun _ => ⟨true, false, false, false⟩)
      ⟨fun _ => 9, fun _ => 9, fun _ => 9, fun _ => 9⟩ 2 = some copies ∧
      swapCtx.execCopies (fun _ => 7) copies (fun x => 10 * x) 1 = 20 ∧
      swapCtx.execCopies (fun _ => 7) copies (fun x => 10 * x) 2 = 10 ∧
      swapCtx.execCopies (fun _ => 7) copies (fun x => 10 * x) 3 = 7 := by
  obtain ⟨copies, h, hvalue⟩ := genDessaMoves_parallel swapCtx_edge (fun _ => ⟨true, false, false, false⟩)
    ⟨fun _ => 9, fun _ => 9, fun _ => 9, fun _ => 9⟩ (fun _ => 7) (fun x => 10 * x)
  exact ⟨copies, h, hvalue 10 (by decide) (by decide), hvalue 11 (by decide) (by decide),
    hvalue 12 (by decide) (by decide)⟩

end IrJit.Dessa.PhiCtx
