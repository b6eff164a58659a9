import IrJit.Sccp.Sound

/-!
# Sccp.Check — hypotheses that can be computed

`Wf` speaks of all paths and `RunOk` of all rounds.  Both follow from finite checks.
-/

namespace IrJit.Sccp

variable {G : Graph} {F : Folding} {I : Interp} {st : State} {doms pins : ℕ → List ℕ} {rank : ℕ → ℕ}

/-! ### Graphs -/

/-- The control nodes from which control comes to `c`. -/
def Graph.preds (G : Graph) (c : ℕ) : List ℤ := if G.isMerge c then (G.insn c).ops else [G.operand c 1]

/-- A finite graph whose instructions pass the checks. -/
structure Checked (G : Graph) (doms pins : ℕ → List ℕ) (rank : ℕ → ℕ) : Prop where
  zero : G.insn 0 = ⟨.nop, .void, [0, 0, 0]⟩
  rest : ∀ x, G.insnsCount ≤ x → G.insn x = ⟨.nop, .void, [0, 0, 0]⟩ ∧ G.useLists x = []
  start : ∀ x < G.insnsCount, G.opOf x = .start ↔ x = 1
  count : 1 < G.insnsCount
  used : ∀ x < G.insnsCount, ∀ j ∈ G.useLists x, G.opOf j ≠ .nop ∧ (x : ℤ) ∈ G.inputs j
  inputs : ∀ x < G.insnsCount, ∀ a ∈ G.inputs x, 0 < a → G.opOf a.toNat ≠ .nop ∧ x ∈ G.useLists a.toNat
  opsLen : ∀ x < G.insnsCount, (G.opOf x).hasVarInputs = false → 3 ≤ (G.insn x).ops.length
  controlIn : ∀ x < G.insnsCount, (G.opOf x).isControl = true → x ≠ 1 → G.inputs x ≠ []
  mergeOps : ∀ x < G.insnsCount, G.isMerge x = true → ∀ a ∈ (G.insn x).ops, 0 < a ∧
    (G.opOf a.toNat).isControl = true ∧ (G.opOf a.toNat).isBbStart = false
  phi : ∀ x < G.insnsCount, G.isPhi x = true → G.isMerge (G.operand x 1).toNat = true ∧
    (G.insn x).ops.length = (G.insn (G.operand x 1).toNat).ops.length + 1 ∧
    ∀ e ∈ G.phiEdges x, pins e.2.toNat ⊆ doms e.1.toNat
  data : ∀ x < G.insnsCount, ∀ a ∈ G.dataIns x, (0 < a → (G.opOf a.toNat).isData = true ∨
    (G.opOf a.toNat).isMem = true) ∧ ((G.opOf x).isData = true → a ≠ 0) ∧ ((G.opOf x).isBbStart = true → a < 0)
  pinned : ∀ x < G.insnsCount, (G.opOf x).cls = .pinned → 0 < G.operand x 1
  branch : ∀ x < G.insnsCount, G.opOf x = .ifOp → G.operand x 2 ≠ 0 ∧ (G.useLists x).length = 2 ∧
    (((G.useLists x).map G.opOf) = [.ifTrue, .ifFalse] ∨ ((G.useLists x).map G.opOf) = [.ifFalse, .ifTrue])
  noSwitch : ∀ x < G.insnsCount, G.opOf x ≠ .switch
  float : ∀ x < G.insnsCount, G.isFloating x = true → ∀ a ∈ G.dataIns x, pins a.toNat ⊆ pins x ∧
    (G.isFloating a.toNat = true → rank a.toNat < rank x)
  tied : ∀ x < G.insnsCount, (G.opOf x).hasControlInput = true → G.pin x ∈ pins x
  domStart : doms 1 ⊆ [1]
  dom : ∀ x < G.insnsCount, (G.opOf x).isControl = true → x ≠ 1 → ∀ a ∈ G.preds x, doms x ⊆ x :: doms a.toNat
  domUse : ∀ x < G.insnsCount, (G.opOf x).isControl = true → x ≠ 1 → G.isMerge x = false →
    ∀ a ∈ G.dataIns x, pins a.toNat ⊆ doms (G.operand x 1).toNat

namespace Checked

variable (C : Checked G doms pins rank)

include C

theorem lt {x : ℕ} (h : G.opOf x ≠ .nop) : x < G.insnsCount := by
  by_contra hx
  refine h ?_
  unfold Graph.opOf
  rw [(C.rest x (by omega)).1]

theorem pos {x : ℕ} (h : G.opOf x ≠ .nop) : 0 < x := by
  refine Nat.pos_of_ne_zero fun h0 => h ?_
  unfold Graph.opOf
  rw [h0, C.zero]

theorem rest_inputs {x : ℕ} (h : ¬ x < G.insnsCount) : G.inputs x = [] := by
  unfold Graph.inputs Graph.opOf
  rw [(C.rest x (by omega)).1]
  rfl

theorem rest_dataIns {x : ℕ} (h : ¬ x < G.insnsCount) : G.dataIns x = [] :=
  List.eq_nil_of_subset_nil (C.rest_inputs h ▸ Graph.dataIns_subset x)

theorem dataIns_spec {x : ℕ} {a : ℤ} (ha : a ∈ G.dataIns x) : (0 < a → (G.opOf a.toNat).isData = true ∨
    (G.opOf a.toNat).isMem = true) ∧ ((G.opOf x).isData = true → a ≠ 0) ∧ ((G.opOf x).isBbStart = true → a < 0) := by
  by_cases hx : x < G.insnsCount
  · exact C.data x hx a ha
  · rw [C.rest_dataIns hx] at ha
    simp at ha

omit C in
theorem ne_nop {x : ℕ} {p : IrOp → Bool} (h : p (G.opOf x) = true) (hp : p .nop = false) : G.opOf x ≠ .nop := by
  intro hnop
  rw [hnop, hp] at h
  cases h

theorem doms_subset {c : ℕ} {π : List ℕ} (h : G.Path (c :: π)) : doms c ⊆ c :: π := by
  generalize hl : c :: π = l at h
  induction h generalizing c π with
  | start =>
    obtain ⟨rfl, rfl⟩ := List.cons.inj hl
    exact C.domStart
  | @step p k c' π' _ he ih =>
    obtain ⟨rfl, rfl⟩ := List.cons.inj hl
    have hmem : (p : ℤ) ∈ G.preds c ∧ (G.opOf c).isControl = true ∧ c ≠ 1 := by
      unfold Graph.preds
      rcases he with ⟨hm, hk⟩ | ⟨hc, hm, h1, hop, -⟩
      · have hbb : (G.opOf c).isBbStart = true := IrOp.isBbStart_of_isMerge (by simpa [Graph.isMerge] using hm)
        refine ⟨?_, IrOp.isControl_of_isBbStart hbb, ?_⟩
        · rw [if_pos hm]
          exact List.mem_of_getElem? hk
        · rintro rfl
          simp [Graph.isMerge, IrOp.isMerge, (C.start 1 C.count).mpr rfl] at hm
      · refine ⟨?_, hc, h1⟩
        rw [if_neg (by simp [hm]), hop]
        exact List.mem_singleton.mpr rfl
    have hsub := C.dom c (C.lt (ne_nop hmem.2.1 rfl)) hmem.2.1 hmem.2.2 p hmem.1
    exact List.Subset.trans hsub (List.cons_subset_cons _ (ih rfl))

/-- Data that is tied to dominators can be computed. -/
theorem has {c x : ℕ} {π : List ℕ} (h : G.Path (c :: π)) (hx : pins x ⊆ doms c) : G.Has (c :: π) x := by
  rintro y ⟨hxy, hctl⟩
  refine C.doms_subset h (hx ?_)
  clear hx
  induction hxy using Relation.ReflTransGen.head_induction_on with
  | refl => exact C.tied y (C.lt (ne_nop hctl rfl)) hctl
  | head hab _ ih => exact (C.float _ (C.lt (Graph.floating_real hab.1)) hab.1 _ hab.2).1 ih

/-- **The checks are enough.** -/
theorem wf : Wf G where
  start := (C.start 1 C.count).mpr rfl
  start_unique x h := (C.start x (C.lt (by rw [h]; exact fun h => by cases h))).mp h
  range x h := ⟨C.pos h, C.lt h⟩
  uses x j hx := by
    constructor
    · intro hj
      by_cases hlt : x < G.insnsCount
      · exact C.used x hlt j hj
      · rw [(C.rest x (by omega)).2] at hj
        simp at hj
    · rintro ⟨hreal, hj⟩
      exact Int.toNat_natCast x ▸ (C.inputs j (C.lt hreal) x hj (by omega)).2
  inputs_range x a ha h0 := by
    by_cases hx : x < G.insnsCount
    · exact (C.inputs x hx a ha h0).1
    · rw [C.rest_inputs hx] at ha
      simp at ha
  ops_len x hv := by
    by_cases hx : x < G.insnsCount
    · exact C.opsLen x hx hv
    · rw [(C.rest x (by omega)).1]
      rfl
  control_in x hc h1 := C.controlIn x (C.lt (ne_nop hc rfl)) hc h1
  merge_ops m hm := C.mergeOps m (C.lt (Graph.merge_real hm)) hm
  phi_merge p hp := by
    have hop : G.opOf p = .phi := by simpa [Graph.isPhi] using hp
    have hlt := C.lt (x := p) (by rw [hop]; exact fun h => by cases h)
    obtain ⟨hm, hlen, -⟩ := C.phi p hlt hp
    exact ⟨C.pinned p hlt (by rw [hop]; rfl), hm, hlen⟩
  data_ops x a ha := (C.dataIns_spec ha).1
  data_zero x hd a ha := (C.dataIns_spec ha).2.1 hd
  start_ops x hbb a ha := (C.dataIns_spec ha).2.2 hbb
  pinned_in x hc := C.pinned x (C.lt fun h => by rw [h] at hc; cases hc) hc
  if_uses i h := by
    obtain ⟨-, hlen, hmap⟩ := C.branch i (C.lt (by rw [h]; exact fun h => by cases h)) h
    obtain ⟨t, f, hl⟩ := List.length_eq_two.mp hlen
    rw [hl] at hmap ⊢
    simp only [List.map_cons, List.map_nil, List.cons.injEq, and_true] at hmap
    rcases hmap with ⟨h1, h2⟩ | ⟨h1, h2⟩
    · exact ⟨t, f, Or.inl rfl, h1, h2⟩
    · exact ⟨f, t, Or.inr rfl, h2, h1⟩
  cond i h := by
    rcases h with h | h
    · exact (C.branch i (C.lt (by rw [h]; exact fun h => by cases h)) h).1
    · exact absurd h (C.noSwitch i (C.lt (by rw [h]; exact fun h => by cases h)))
  switch_cond i h := absurd h (C.noSwitch i (C.lt (by rw [h]; exact fun h => by cases h)))
  switch_cases i h := absurd h (C.noSwitch i (C.lt (by rw [h]; exact fun h => by cases h)))
  switch_uses i h := absurd h (C.noSwitch i (C.lt (by rw [h]; exact fun h => by cases h)))
  rank := ⟨rank, fun x y h hy => (C.float x (C.lt (Graph.floating_real h.1)) h.1 y h.2).2 hy⟩
  dom_use p π c x hπ he hm hx := by
    rcases he with ⟨hm', -⟩ | ⟨hc, -, h1, hop, -⟩
    · rw [hm] at hm'
      cases hm'
    · have hsub := C.domUse c (C.lt (ne_nop hc rfl)) hc h1 hm x hx
      rw [hop] at hsub
      exact C.has hπ hsub
  dom_phi p π m k φ x hπ he hm hφ hx := by
    obtain ⟨hphi, rfl⟩ := hφ
    have hreal : G.opOf φ ≠ .nop := ne_nop (p := fun o => decide (o = .phi)) hphi rfl
    have hmem : ((p : ℤ), (x : ℤ)) ∈ G.phiEdges φ := by
      refine List.mem_iff_getElem?.mpr ⟨k, ?_⟩
      unfold Graph.phiEdges
      rw [List.getElem?_zip_eq_some]
      exact ⟨Graph.edge_merge hm he, by rw [List.getElem?_drop, Nat.add_comm]; exact hx⟩
    exact C.has hπ ((C.phi φ (C.lt hreal) hphi).2.2 _ hmem)

end Checked

/-! ### Rounds -/

/-- `DirectReads`, computed. -/
def directCheck (F : Folding) (V : ℕ → Lat) (D : List ℤ) : ℕ → Opt → ℤ → ℤ → ℤ → Bool
  | 0, _, _, _, _ => true
  | fuel + 1, opt, a, b, c =>
    ((opt.refs a b c).all fun r => constOf V r = none || decide (r ∈ D)) &&
      match F (query (constOf V) opt a b c) with
      | .restart opt' a' b' c' => directCheck F V D fuel opt' a' b' c'
      | .copy r =>
        match V r.toNat with
        | .const k => r ≤ 0 || decide (r ∈ D) && k.isPlain
        | _ => true
      | _ => true

theorem directReads_of_check {V : ℕ → Lat} {D : List ℤ} : ∀ {fuel : ℕ} {opt : Opt} {a b c : ℤ},
    directCheck F V D fuel opt a b c = true → DirectReads F V D fuel opt a b c
  | 0, _, _, _, _, _ => trivial
  | fuel + 1, opt, a, b, c, h => by
    simp only [directCheck, Bool.and_eq_true, List.all_eq_true, Bool.or_eq_true, decide_eq_true_eq] at h
    obtain ⟨hrefs, hans⟩ := h
    refine ⟨fun r hr hne => (hrefs r hr).resolve_left hne, ?_⟩
    cases hF : F (query (constOf V) opt a b c) with
    | restart opt' a' b' c' =>
      rw [hF] at hans
      exact directReads_of_check hans
    | copy r =>
      rw [hF] at hans
      intro h0 k hk
      simp only [hk, Bool.or_eq_true, Bool.and_eq_true, decide_eq_true_eq] at hans
      exact hans.resolve_left (by omega)
    | emit => trivial
    | const k => trivial

variable (anchored : ℕ → Bool)

/-- `RoundOk`, computed; `anchored` is a table of nodes that are anchored. -/
def roundCheck (G : Graph) (F : Folding) (fuel : ℕ) (st : State) (i : ℕ) : Bool :=
  (!(G.isFoldable i && !st.hasTop G i && st.mayBenefit G i) ||
    directCheck F st.values (foldRefs G st.values i) fuel (G.insn i).opt (identityRef G st.values (G.operand i 1))
      (identityRef G st.values (G.operand i 2)) (identityRef G st.values (G.operand i 3))) &&
  match st.round G F fuel i with
  | none => true
  | some st' => (List.range G.insnsCount).all fun p =>
      !(G.isPhi p && st.values p ≠ .bottom && st'.values p = .bottom) ||
        (G.phiEdges p).all fun e => e.2 ≤ 0 || st'.values e.2.toNat ≠ .top || st'.visited e.2.toNat || anchored e.2.toNat

/-- `RunOk`, computed. -/
def runCheck (G : Graph) (F : Folding) (fuel : ℕ) : ℕ → State → Bool
  | 0, _ => true
  | rounds + 1, st =>
    match st.pop G with
    | none => true
    | some i => roundCheck anchored G F fuel st i &&
        match st.round G F fuel i with
        | none => true
        | some st' => runCheck G F fuel rounds st'

variable {anchored} (hanch : ∀ x, anchored x = true → G.Anchored x)

include hanch

theorem roundOk_of_check (W : Wf G) {fuel i : ℕ} (h : roundCheck anchored G F fuel st i = true) :
    RoundOk G F fuel st i := by
  simp only [roundCheck, Bool.and_eq_true, Bool.or_eq_true, Bool.not_eq_true'] at h
  obtain ⟨hdir, hphi⟩ := h
  refine ⟨fun hf _ ht hm => directReads_of_check (hdir.resolve_left fun hn => ?_), fun st' hr p hp hu hb hb' e he ht => ?_⟩
  · simp [hf, ht, hm] at hn
  · rw [hr] at hphi
    have hreal : G.opOf p ≠ .nop := Checked.ne_nop (p := fun o => decide (o = .phi)) hp rfl
    have hall := List.all_eq_true.mp hphi p (List.mem_range.mpr (W.range p hreal).2)
    simp only [hp, hb, hb', ne_eq, not_false_eq_true, decide_true, Bool.and_true, Bool.not_true, Bool.false_or,
      List.all_eq_true, Bool.or_eq_true, decide_eq_true_eq] at hall
    rcases hall e he with ((h | h) | h) | h
    · have := ht.1
      omega
    · exact absurd ht.2 h
    · exact Or.inl h
    · exact Or.inr (hanch _ h)

theorem runOk_of_check (W : Wf G) {fuel : ℕ} : ∀ {rounds : ℕ} {st : State},
    runCheck anchored G F fuel rounds st = true → RunOk G F fuel rounds st
  | 0, _, _ => trivial
  | rounds + 1, st, h => by
    intro i hpop
    simp only [runCheck, hpop, Bool.and_eq_true] at h
    refine ⟨roundOk_of_check hanch W h.1, fun st' hr => ?_⟩
    have hrest := h.2
    rw [hr] at hrest
    exact runOk_of_check W hrest

omit hanch

/-! ### A loop -/

section Example

/-- The constant `n`. -/
def num (n : ℕ) : Const := ⟨.cI64, .i64, BitVec.ofNat 64 n⟩

def countInsns : List Insn :=
  [⟨.nop, .void, [0, 0, 0]⟩, ⟨.start, .void, [0, 0, 0]⟩, ⟨.param, .i64, [1, 1, 1]⟩, ⟨.endOp, .void, [1, 0, 0]⟩,
    ⟨.loopBegin, .void, [3, 13]⟩, ⟨.phi, .i64, [4, -4, 12]⟩, ⟨.add, .i64, [5, 2, 0]⟩, ⟨.copy, .i64, [2, 0, 0]⟩,
    ⟨.sub, .i64, [6, 7, 0]⟩, ⟨.lt, .bool, [5, 2, 0]⟩, ⟨.ifOp, .void, [4, 9, 0]⟩, ⟨.ifTrue, .void, [10, 0, 0]⟩,
    ⟨.add, .i64, [5, -5, 0]⟩, ⟨.loopEnd, .void, [11, 0, 0]⟩, ⟨.ifFalse, .void, [10, 0, 0]⟩, ⟨.ret, .void, [14, 8, 0]⟩]

def countUses : List (List ℕ) :=
  [[], [2, 3], [6, 7, 9], [4], [5, 10], [6, 9, 12], [8], [8], [15], [10], [11, 14], [13], [5], [4], [15], []]

/-- `c = PARAM; a = 5; while (a < c) a = a + 1; return (a + c) - COPY(c)`. -/
def countLoop : Graph where
  insnsCount := 16
  insn := fun x => countInsns.getD x ⟨.nop, .void, [0, 0, 0]⟩
  useLists := fun x => countUses.getD x []
  const := fun a => if a = -4 then num 5 else num 1
  mem2ssaVars := false

def countDoms (c : ℕ) : List ℕ :=
  [[], [1], [], [1, 3], [1, 3, 4], [], [], [], [], [], [1, 3, 4, 10], [1, 3, 4, 10, 11], [],
    [1, 3, 4, 10, 11, 13], [1, 3, 4, 10, 14], [1, 3, 4, 10, 14, 15]].getD c []

def countPins (x : ℕ) : List ℕ :=
  [[], [1], [1], [3], [4], [4], [4, 1], [1], [4, 1], [4, 1], [10], [11], [4], [13], [14], [15]].getD x []

def countRank (x : ℕ) : ℕ := if x = 8 then 2 else if x = 2 then 0 else 1

theorem countLoop_checked : Checked countLoop countDoms countPins countRank := by
  refine ⟨rfl, fun x hx => ⟨?_, ?_⟩, ?_, ?_, ?_, ?_, ?_, ?_, ?_, ?_, ?_, ?_, ?_, ?_, ?_, ?_, ?_, ?_, ?_⟩
  · exact List.getD_eq_default _ _ hx
  · exact List.getD_eq_default _ _ hx
  all_goals decide

/-- Arithmetic of 64 bits; the parameter is 6. -/
def countInterp : Interp where
  sym _ := ⟨.addr, 1⟩
  sym_true _ := by decide
  op opt vs :=
    match opt.op, vs with
    | .add, [a, b] => ⟨a.type, a.bits + b.bits⟩
    | .sub, [a, b] => ⟨a.type, a.bits - b.bits⟩
    | .lt, [a, b] => ⟨.bool, if a.bits.slt b.bits then 1 else 0⟩
    | .copy, [a] => a
    | _, _ => ⟨.void, 0⟩
  leaf _ _ := ⟨.i64, 6⟩

/-- Rules of `ir_fold.h`: COPY, the sum of two constants and, with `deep`, `(x + y) - y => x`. -/
def countFold (deep : Bool) : Folding := fun q =>
  match q.opt.op with
  | .copy => .copy q.op1
  | .add =>
    match q.c1 with
    | some c =>
      if q.op2 < 0 ∧ c.op.isConstOp = true then .const ⟨c.op, c.type, c.val + (countLoop.const q.op2).val⟩ else .emit
    | none => .emit
  | .sub =>
    if deep = true ∧ 0 < q.op1 ∧ q.c1 = none ∧ countLoop.opOf q.op1.toNat = .add ∧
        countLoop.operand q.op1.toNat 2 = q.op2 then .copy (countLoop.operand q.op1.toNat 1)
    else .emit
  | _ => .emit

/-! The run of the loop with parameter 6: `a` is 5, then 6. -/

/-- The environment with the value `n` of the PHI. -/
def countEnv (n : ℕ) : ℕ → Val := fun x => if x = 5 then ⟨.i64, BitVec.ofNat 64 n⟩ else ⟨.i64, 0⟩

end Example

end IrJit.Sccp
