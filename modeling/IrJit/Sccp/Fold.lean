import IrJit.Sccp.Lower

/-!
# Sccp.Fold — the equation of a foldable node

`ir_sccp_fold` puts the constants of the lattice in the place of the operands, and asks again about
the operands that a restart names.  The uses of a node are queued when its value changes, so a
node is processed again when an operand of its own changes; the nodes below are no operands.
-/

namespace IrJit.Sccp

variable {G : Graph} {F : Folding} {st st' : State}

/-- The loop of `ir_sccp_fold` takes the constants of the references in `D` only, and an answer
that names a node of the lattice with a constant names one of `D`.  That constant is no
`IR_FUNC_ADDR`, which `ir_sccp_fold` does not take as one. -/
def DirectReads (F : Folding) (V : ℕ → Lat) (D : List ℤ) : ℕ → Opt → ℤ → ℤ → ℤ → Prop
  | 0, _, _, _, _ => True
  | fuel + 1, opt, a, b, c =>
    (∀ r ∈ opt.refs a b c, constOf V r ≠ none → r ∈ D) ∧
      match F (query (constOf V) opt a b c) with
      | .restart opt' a' b' c' => DirectReads F V D fuel opt' a' b' c'
      | .copy r => 0 < r → ∀ k, V r.toNat = .const k → r ∈ D ∧ k.isPlain = true
      | _ => True

/-- The view that is left when all reads are direct. -/
def viewOf (V : ℕ → Lat) (D : List ℤ) (r : ℤ) : Option Const := if r ∈ D then constOf V r else none

theorem query_asks {V : ℕ → Lat} {D : List ℤ} {opt : Opt} {a b c : ℤ}
    (h : ∀ r ∈ opt.refs a b c, constOf V r ≠ none → r ∈ D) :
    (query (constOf V) opt a b c).Asks opt (opt.refs a b c) (viewOf V D) := by
  refine ⟨rfl, rfl, ?_⟩
  have hmap : (query (constOf V) opt a b c).consts = (opt.refs a b c).map (constOf V) := by
    simp [Query.consts, query, Opt.refs, List.map_take]
  rw [hmap]
  refine List.map_congr_left fun r hr => ?_
  unfold viewOf
  split
  · rfl
  · rename_i hD
    by_contra hne
    exact hD (h r hr hne)

theorem foldRun_of_loop {V : ℕ → Lat} {D : List ℤ} {ans : FoldAns} : ∀ {fuel : ℕ} {opt : Opt} {a b c : ℤ},
    foldLoop F (constOf V) fuel opt a b c = some ans → DirectReads F V D fuel opt a b c →
    FoldRun F (viewOf V D) opt (opt.refs a b c) ans ∧
      ∀ r, ans = .copy r → 0 < r → ∀ k, V r.toNat = .const k → r ∈ D ∧ k.isPlain = true
  | 0, _, _, _, _, h, _ => by simp [foldLoop] at h
  | fuel + 1, opt, a, b, c, h, hd => by
    obtain ⟨hrefs, hd⟩ := hd
    have hasks := query_asks hrefs
    rw [foldLoop] at h
    cases hF : F (query (constOf V) opt a b c) with
    | restart opt' a' b' c' =>
      rw [hF] at h hd
      obtain ⟨hrun, hcopy⟩ := foldRun_of_loop h hd
      exact ⟨FoldRun.again hasks hF hrun, hcopy⟩
    | emit =>
      rw [hF] at h
      simp only [Option.some.injEq] at h
      subst h
      exact ⟨FoldRun.done hasks hF, fun r hr => by cases hr⟩
    | const k =>
      rw [hF] at h
      simp only [Option.some.injEq] at h
      subst h
      exact ⟨FoldRun.done hasks hF, fun r hr => by cases hr⟩
    | copy r =>
      rw [hF] at h hd
      simp only [Option.some.injEq] at h
      subst h
      refine ⟨FoldRun.done hasks hF, fun r' hr => ?_⟩
      injection hr with hr
      exact hr ▸ hd

/-! ### Parts of the operands -/

/-- `r` is a constant or below one of the references of `D`. -/
def PartOf (G : Graph) (D : List ℤ) (r : ℤ) : Prop :=
  r < 0 ∨ r ∈ D ∨ ∃ d ∈ D, 0 < d ∧ 0 < r ∧ Relation.ReflTransGen G.FoldOperand d.toNat r.toNat

theorem PartOf.of_part {D : List ℤ} {q : Query} {r : ℤ} (hq : ∀ r ∈ q.refs, PartOf G D r) (h : q.Part G r) :
    PartOf G D r := by
  rcases h with h | ⟨p, hp, rfl | ⟨-, h0, hr, hbelow⟩⟩
  · exact Or.inl h
  · exact hq _ (List.of_mem_zip hp).1
  · rcases hq _ (List.of_mem_zip hp).1 with hneg | hD | ⟨d, hd, hd0, -, hdp⟩
    · omega
    · exact Or.inr (Or.inr ⟨p.1, hD, h0, hr, hbelow⟩)
    · exact Or.inr (Or.inr ⟨d, hd, hd0, hr, hdp.trans hbelow⟩)

theorem FoldRun.partOf {I : Interp} (hF : FoldSound G I F) {view : ℤ → Option Const} {D : List ℤ} {opt : Opt}
    {refs : List ℤ} {ans : FoldAns} (h : FoldRun F view opt refs ans) (hrefs : ∀ r ∈ refs, PartOf G D r) :
    ∀ r, ans = .copy r → PartOf G D r := by
  induction h with
  | done hq h =>
    rintro r rfl
    exact PartOf.of_part (hq.2.1 ▸ hrefs) (hF.copy _ r h).1
  | again hq h _ ih =>
    exact ih fun r hr => PartOf.of_part (hq.2.1 ▸ hrefs) ((hF.restart _ _ _ _ _ h).1 r hr)

/-- A processed node that has a value is a constant or can be copied. -/
theorem Kinds.dataVal {V : ℕ → Lat} (K : Kinds G V) {x : ℕ}
    (hop : (G.opOf x).isData = true ∨ (G.opOf x).isMem = true) (ht : V x ≠ .top) :
    (∃ c, V x = .const c) ∨ V x = .bottom ∨ ∃ z, V x = .copy z := by
  cases hv : V x with
  | top => exact absurd hv ht
  | const c => exact Or.inl ⟨c, rfl⟩
  | bottom => exact Or.inr (Or.inl rfl)
  | copy z => exact Or.inr (Or.inr ⟨z, rfl⟩)
  | out u =>
    rcases (K.out x u hv).1 with h | h <;> rw [h] at hop <;> rcases hop with hop | hop <;> cases hop
  | merge n =>
    have hm : G.opOf x = .merge ∨ G.opOf x = .loopBegin := by
      simpa [Graph.isMerge, IrOp.isMerge] using K.merge x n hv
    rcases hm with h | h <;> rw [h] at hop <;> rcases hop with hop | hop <;> cases hop

section

variable (W : Wf G) {V : ℕ → Lat} (H : Forest G V) (K : Kinds G V) {i : ℕ}
  (hin : ∀ a ∈ G.dataIns i, 0 < a → V a.toNat ≠ .top)

include W H K hin

theorem foldRefs_val {r : ℤ} (hr : r ∈ foldRefs G V i) (h0 : 0 < r) :
    (∃ c, V r.toNat = .const c) ∨ V r.toNat = .bottom ∨ ∃ z, V r.toNat = .copy z := by
  obtain ⟨a, ha, rfl⟩ := List.mem_map.mp hr
  unfold identityRef at h0 ⊢
  split at h0
  · rename_i ha0
    rw [if_pos ha0, Int.toNat_natCast]
    rcases K.dataVal (W.data_ops i a ha ha0) (hin a ha ha0) with ⟨c, hc⟩ | hc
    · rw [identity_eq_self fun y hy => by rw [hc] at hy; cases hy]
      exact Or.inl ⟨c, hc⟩
    · exact Or.inr (Or.inl (H.identity_bottom W.range _ hc))
  · omega

/-- What is below the operands was processed. -/
theorem partOf_val {r : ℤ} (hr : PartOf G (foldRefs G V i) r) (h0 : 0 < r) :
    (∃ c, V r.toNat = .const c) ∨ V r.toNat = .bottom ∨ ∃ z, V r.toNat = .copy z := by
  rcases hr with hr | hr | ⟨d, hd, hd0, -, hbelow⟩
  · omega
  · exact foldRefs_val W H K hin hr h0
  · have hval := foldRefs_val W H K hin hd hd0
    generalize r.toNat = x at hbelow
    induction hbelow with
    | refl => exact hval
    | @tail b c _ hbc ih =>
      have hb : V b ≠ .top := by
        rcases ih with ⟨k, h⟩ | h | ⟨z, h⟩ <;> rw [h] <;> exact fun h => by cases h
      have hc0 := W.data_zero b (isData_of_isFoldable hbc.1) c hbc.2
      refine K.dataVal ?_ ?_
      · exact Int.toNat_natCast c ▸ W.data_ops b c hbc.2 (by omega)
      · exact Int.toNat_natCast c ▸ K.folded b hbc.1 hb c hbc.2 (by omega)

end

/-! ### `ir_sccp_fold` -/

theorem Wf.not_self (W : Wf G) {i : ℕ} (h : G.isFloating i = true) {a : ℤ} (ha : a ∈ G.dataIns i) (h0 : 0 < a) :
    a.toNat ≠ i := by
  rintro rfl
  obtain ⟨r, hr⟩ := W.rank
  have hop : G.Operand a.toNat a.toNat := ⟨h, by rw [Int.toNat_of_nonneg (le_of_lt h0)]; exact ha⟩
  have hlt := hr _ _ hop h
  omega

theorem isFloating_of_isFoldable {x : ℕ} (h : G.isFoldable x = true) : G.isFloating x = true := by
  simp only [Graph.isFoldable, Graph.isFloating, Bool.and_eq_true] at h ⊢
  exact ⟨h.1.2, h.2⟩

theorem dataIns_foldable (W : Wf G) {i : ℕ} (h : G.isFoldable i = true) :
    G.dataIns i = (G.insn i).opt.refs (G.operand i 1) (G.operand i 2) (G.operand i 3) := by
  have hd := isData_of_isFoldable h
  simp only [Graph.isFoldable, Bool.and_eq_true, Bool.not_eq_true'] at h
  have hphi : G.opOf i ≠ .phi := by simpa [Graph.isPhi] using h.2
  have hnc : (G.opOf i).hasControlInput = false := by
    revert hd hphi h
    cases G.opOf i <;> simp [IrOp.isData, IrOp.hasControlInput, IrOp.cls, IrOp.isFoldable, IrOp.ctorIdx]
  have hnv : (G.opOf i).hasVarInputs = false := by
    revert hd hphi h
    cases G.opOf i <;> simp [IrOp.isData, IrOp.hasVarInputs, IrOp.cls]
  have hnm : (G.opOf i).isMerge = false := by
    revert hd
    cases G.opOf i <;> simp [IrOp.isData, IrOp.isMerge, IrOp.cls]
  have hlen := W.ops_len i hnv
  unfold Graph.dataIns Graph.inputs Opt.refs
  rw [hnc, hnv, hnm]
  simp only [Bool.false_eq_true, if_false]
  change ((G.insn i).ops.take (G.opOf i).inputEdges).take (dataCount (G.opOf i)) =
    [G.operand i 1, G.operand i 2, G.operand i 3].take (dataCount (G.opOf i))
  have hle : dataCount (G.opOf i) ≤ (G.opOf i).inputEdges := by
    unfold dataCount
    split
    · omega
    · exact le_refl _
  have h3 : (G.opOf i).inputEdges ≤ 3 := by
    cases G.opOf i <;> decide
  rw [List.take_take, min_eq_left hle]
  rcases hops : (G.insn i).ops with _ | ⟨a, _ | ⟨b, _ | ⟨c, l⟩⟩⟩
  · rw [hops] at hlen; simp at hlen
  · rw [hops] at hlen; simp at hlen
  · rw [hops] at hlen; simp at hlen
  · simp only [Graph.operand, hops]
    obtain hk | hk | hk | hk : dataCount (G.opOf i) = 0 ∨ dataCount (G.opOf i) = 1 ∨
        dataCount (G.opOf i) = 2 ∨ dataCount (G.opOf i) = 3 := by omega
    all_goals rw [hk]; rfl

/-- The references of `ir_sccp_fold` for `i`. -/
theorem foldRefs_eq (W : Wf G) (V : ℕ → Lat) {i : ℕ} (h : G.isFoldable i = true) :
    (G.insn i).opt.refs (identityRef G V (G.operand i 1)) (identityRef G V (G.operand i 2))
      (identityRef G V (G.operand i 3)) = foldRefs G V i := by
  unfold foldRefs
  rw [dataIns_foldable W h]
  simp [Opt.refs, List.map_take]

/-- `ir_sccp_fold` for `i` reads the constants of operands of `i` only. -/
def FoldDirect (G : Graph) (F : Folding) (fuel : ℕ) (V : ℕ → Lat) (i : ℕ) : Prop :=
  DirectReads F V (foldRefs G V i) fuel (G.insn i).opt (identityRef G V (G.operand i 1))
    (identityRef G V (G.operand i 2)) (identityRef G V (G.operand i 3))

theorem sameData_update {V : ℕ → Lat} (W : Wf G) {i : ℕ} {v : Lat} (hf : G.isFoldable i = true)
    (hid : ∀ x, x ≠ i → identity G (Function.update V i v) x = identity G V x) :
    SameData G V (Function.update V i v) i := fun _ ha h0 =>
  have hne := W.not_self (isFloating_of_isFoldable hf) ha h0
  ⟨Function.update_of_ne hne _ _, hid _ hne⟩

theorem foldRefs_ne_zero (W : Wf G) {V : ℕ → Lat} (H : Forest G V) {i : ℕ} (hf : G.isFoldable i = true)
    {r : ℤ} (hr : r ∈ foldRefs G V i) : r ≠ 0 := by
  obtain ⟨a, ha, rfl⟩ := List.mem_map.mp hr
  have hne := W.data_zero i (isData_of_isFoldable hf) a ha
  unfold identityRef
  split
  · rename_i h0
    intro hz
    by_cases hc : ∃ y, V a.toNat = .copy y
    · have hb := H.identity_bottom W.range _ (Or.inr hc)
      have hreal : G.opOf (identity G V a.toNat) ≠ .nop := fun h => by
        rw [H.nop _ h] at hb
        cases hb
      have := (W.range _ hreal).1
      omega
    · rw [identity_eq_self fun y hy => hc ⟨y, hy⟩] at hz
      omega
  · exact hne

/-- The node kept its value, or was lowered; its equation holds. -/
def FoldResult (G : Graph) (F : Folding) (i : ℕ) (st : State) (r : State × Bool) : Prop :=
  (r = (st, false) ∧ FoldOk G F st.values i) ∨
    (r.2 = true ∧ Lower G i st r.1 ∧ Base G r.1 ∧
      r.1.values i ≠ .top ∧ (r.1.values i ≠ .bottom → FoldOk G F r.1.values i))

section

variable (W : Wf G) {i : ℕ} (hf : G.isFoldable i = true) (hreal : G.opOf i ≠ .nop) (h : Base G st)
  (hb : st.values i ≠ .bottom) (hq : st.queue i = false)
  (hin : ∀ a ∈ G.dataIns i, 0 < a → st.values a.toNat ≠ .top) {ans : FoldAns}
  (hrun : FoldRun F (directView G st.values i) (G.insn i).opt (foldRefs G st.values i) ans)

include W hf hreal h hb hq hin

omit hb in
theorem foldResult_bottom : FoldResult G F i st (st.makeBottomEx G i, true) := by
  obtain ⟨h1, h2, h3⟩ := makeBottomEx_spec W h hreal (isData_of_isFoldable hf) (fun _ => hin) hq
  exact Or.inr ⟨rfl, h1, h2, h3 ▸ (fun h => by cases h), fun hne => absurd h3 hne⟩

include hrun

theorem foldResult_const {c : Const}
    (hok : ∀ V', SameData G st.values V' i → V' i = .const c → AnsOk G V' i ans) :
    FoldResult G F i st (st.meetConst G i c) := by
  rcases meetConst_spec W h hreal (isData_of_isFoldable hf) (fun _ => hin) hq (hasValue_of_isFoldable hf) hb c with
    ⟨heq, hc⟩ | ⟨st', heq, hlow, hbase, ⟨ht, hval⟩ | hbot⟩
  · exact Or.inl ⟨heq, ans, hrun, hok _ (fun a _ _ => ⟨rfl, rfl⟩) hc⟩
  · rw [heq]
    have hi : st'.values i = .const c := hval ▸ Function.update_self ..
    refine Or.inr ⟨rfl, hlow, hbase, hi ▸ (fun h => by cases h), fun _ => ?_⟩
    have hsame : SameData G st.values st'.values i := by
      rw [hval]
      refine sameData_update W hf fun x _ => identity_update ?_ ?_ x
      · exact fun y hy => by rw [ht] at hy; cases hy
      · exact fun y hy => by cases hy
    refine ⟨ans, ?_, hok _ hsame hi⟩
    rw [hsame.directView h.forest hbase.forest W, hsame.foldRefs]
    exact hrun
  · rw [heq]
    exact Or.inr ⟨rfl, hlow, hbase, hbot ▸ (fun h => by cases h), fun hne => absurd hbot hne⟩

theorem foldResult_copy {ref : ℤ} (hans : ans = .copy ref) (h0 : 0 < ref)
    (hval : st.values ref.toNat = .bottom ∨ ∃ z, st.values ref.toNat = .copy z) :
    FoldResult G F i st (st.meetCopy G i ref.toNat) := by
  subst hans
  rcases meetCopy_spec W h hreal (isData_of_isFoldable hf) (fun _ => hin) hq (hasValue_of_isFoldable hf) hb hval with
    ⟨heq, hc, hid⟩ | ⟨st', heq, hlow, hbase, hbot | ⟨hnc, hup⟩⟩
  · exact Or.inl ⟨heq, _, hrun, Or.inr ⟨h0, Or.inr ⟨hval, hc, hid⟩⟩⟩
  · rw [heq]
    exact Or.inr ⟨rfl, hlow, hbase, hbot ▸ (fun h => by cases h), fun hne => absurd hbot hne⟩
  · rw [heq]
    have hi : st'.values i = .copy ref.toNat := hup ▸ Function.update_self ..
    have hmove : ∀ x, x ≠ i → identity G (Function.update st.values i (.copy ref.toNat)) x =
        identity G st.values x := fun x hx => identity_update_copy W.range h.forest hreal hb hnc hval hx
    have hne : ref.toNat ≠ i := by
      intro heq
      rw [heq] at hval
      rcases hval with hv | ⟨z, hv⟩
      · exact hb hv
      · exact hnc z hv
    refine Or.inr ⟨rfl, hlow, hbase, hi ▸ (fun h => by cases h), fun _ => ⟨.copy ref, ?_, ?_⟩⟩
    · have hsame : SameData G st.values st'.values i := hup ▸ sameData_update W hf hmove
      rw [hsame.directView h.forest hbase.forest W, hsame.foldRefs]
      exact hrun
    · refine Or.inr ⟨h0, Or.inr ⟨?_, ⟨_, hi⟩, hbase.forest.identity_copy W.range hi⟩⟩
      rw [hup, Function.update_of_ne hne]
      exact hval

end

/-- **`ir_sccp_fold`**: when it reads the constants of operands only, the node has afterwards the
value that its operands give. -/
theorem fold_spec (W : Wf G) {I : Interp} (hF : FoldSound G I F) {i fuel : ℕ} (hf : G.isFoldable i = true)
    (hreal : G.opOf i ≠ .nop) (h : Base G st) (hb : st.values i ≠ .bottom) (hq : st.queue i = false)
    (hin : ∀ a ∈ G.dataIns i, 0 < a → st.values a.toNat ≠ .top) (hdir : FoldDirect G F fuel st.values i)
    {r : State × Bool} (hr : st.fold G F fuel i = some r) : FoldResult G F i st r := by
  unfold State.fold at hr
  obtain ⟨ans, hloop, rfl⟩ := Option.map_eq_some_iff.mp hr
  obtain ⟨hrun, hconst⟩ := foldRun_of_loop hloop hdir
  rw [foldRefs_eq W st.values hf] at hrun
  have hpart := hrun.partOf hF (D := foldRefs G st.values i) fun r hr => Or.inr (Or.inl hr)
  change FoldRun F (directView G st.values i) _ _ _ at hrun
  cases ans with
  | emit => exact foldResult_bottom W hf hreal h hq hin
  | restart => exact foldResult_bottom W hf hreal h hq hin
  | const c => exact foldResult_const W hf hreal h hb hq hin hrun fun V' _ hc => hc
  | copy ref =>
    simp only [State.meetAns]
    by_cases hneg : ref < 0
    · rw [if_pos hneg]
      exact foldResult_const W hf hreal h hb hq hin hrun fun V' _ hc => Or.inl ⟨hneg, hc⟩
    rw [if_neg hneg]
    have h0 : 0 < ref := by
      rcases hpart ref rfl with hr | hr | ⟨-, -, -, hr, -⟩
      · omega
      · have := foldRefs_ne_zero W h.forest hf hr
        omega
      · exact hr
    rcases partOf_val W h.forest h.kinds hin (hpart ref rfl) h0 with ⟨c, hc⟩ | hcopy
    · obtain ⟨hmem, hplain⟩ := hconst ref rfl h0 c hc
      simp only [hc, hplain, if_true]
      exact foldResult_const W hf hreal h hb hq hin hrun fun V' hsame hi =>
        Or.inr ⟨h0, Or.inl ⟨hsame.foldRefs ▸ hmem, c, hsame.const_eq W h.forest hmem h0 hc, hi⟩⟩
    · have hres := foldResult_copy W hf hreal h hb hq hin hrun rfl h0 hcopy
      rcases hcopy with hc | ⟨z, hc⟩ <;> simp only [hc] <;> exact hres

end IrJit.Sccp
