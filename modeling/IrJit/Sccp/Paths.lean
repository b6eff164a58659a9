import IrJit.Sccp.Run

/-!
# Sccp.Paths — the lattice along feasible paths

A feasible path follows the edges that the lattice leaves open.  Two facts hold on each of them when
all equations do.
-/

namespace IrJit.Sccp

variable {G : Graph} {F : Folding} {st : State} {V : ℕ → Lat}

/-! ### Paths -/

/-- Control paths that the lattice leaves open, the last node first. -/
inductive FPath (G : Graph) (V : ℕ → Lat) : List ℕ → Prop
  | start : FPath G V [1]
  | step {p k c : ℕ} {π : List ℕ} (h : FPath G V (p :: π)) (hedge : G.Edge p k c) (hf : FeasibleEdge V p c) :
      FPath G V (c :: p :: π)

namespace FPath

variable {π : List ℕ}

theorem path (h : FPath G V π) : G.Path π := by
  induction h with
  | start => exact .start
  | step _ hedge _ ih => exact .step ih hedge

/-- The first time that control comes to `c`. -/
theorem first (h : FPath G V π) {c : ℕ} (hc : c ∈ π) (h1 : c ≠ 1) : ∃ p k π₂, FPath G V (p :: π₂) ∧
    G.Edge p k c ∧ FeasibleEdge V p c ∧ c ∉ p :: π₂ ∧ (c :: p :: π₂) <:+ π := by
  induction h with
  | start => exact absurd (List.mem_singleton.mp hc) h1
  | @step p k c' π h hedge hf ih =>
    by_cases hin : c ∈ p :: π
    · obtain ⟨p', k', π₂, h1, h2, h3, h4, h5⟩ := ih hin
      exact ⟨p', k', π₂, h1, h2, h3, h4, h5.trans (List.suffix_cons c' _)⟩
    · obtain rfl : c = c' := by
        rcases List.mem_cons.mp hc with h | h
        · exact h
        · exact absurd h hin
      exact ⟨p, k, π, h, hedge, hf, hin, List.suffix_refl _⟩

end FPath

namespace Graph

theorem Has.mono {π π' : List ℕ} {x : ℕ} (hsub : π ⊆ π') (h : G.Has π x) : G.Has π' x :=
  fun y hy => hsub (h y hy)

theorem Has.operand {π : List ℕ} {x y : ℕ} (h : G.Has π x) (hop : G.Operand x y) : G.Has π y :=
  fun z hz => h z ⟨.head hop hz.1, hz.2⟩

theorem Has.below {π : List ℕ} {x y : ℕ} (h : G.Has π x) (hop : Relation.ReflTransGen G.Operand x y) :
    G.Has π y :=
  fun z hz => h z ⟨hop.trans hz.1, hz.2⟩

theorem FoldOperand.operand {x y : ℕ} (h : G.FoldOperand x y) : G.Operand x y :=
  ⟨isFloating_of_isFoldable h.1, h.2⟩

theorem below_of_fold {x y : ℕ} (h : Relation.ReflTransGen G.FoldOperand x y) :
    Relation.ReflTransGen G.Operand x y :=
  h.lift id fun _ _ => FoldOperand.operand

theorem floating_real {x : ℕ} (h : G.isFloating x = true) : G.opOf x ≠ .nop := by
  intro hnop
  have hd := isData_of_isFloating h
  rw [hnop] at hd
  cases hd

theorem height_below {h : ℕ → ℕ} (hh : ∀ x y, G.Operand x y → h y < h x) {x y : ℕ}
    (hop : Relation.ReflTransGen G.Operand x y) : h y ≤ h x := by
  induction hop with
  | refl => exact le_refl _
  | tail _ hop ih => exact le_trans (le_of_lt (hh _ _ hop)) ih

theorem edge_merge {p k m : ℕ} (hm : G.isMerge m = true) (h : G.Edge p k m) :
    (G.insn m).ops[k]? = some (p : ℤ) := by
  rcases h with ⟨-, h⟩ | ⟨-, hn, -⟩
  · exact h
  · rw [hm] at hn
    cases hn

theorem merge_real {m : ℕ} (hm : G.isMerge m = true) : G.opOf m ≠ .nop := by
  intro h
  simp [Graph.isMerge, IrOp.isMerge, h] at hm

/-- A PHI is its own root. -/
theorem phi_root {x : ℕ} (h : G.isPhi x = true) : G.Root x x ∧ G.pin x = (G.operand x 1).toNat := by
  have hop : G.opOf x = .phi := by simpa [Graph.isPhi] using h
  refine ⟨⟨.refl, by rw [hop]; rfl⟩, ?_⟩
  unfold Graph.pin
  rw [if_pos (isData_of_isPhi h)]

theorem mem_root {x : ℕ} (h : (G.opOf x).isMem = true) : G.Root x x ∧ G.pin x = x := by
  have hc := IrOp.isControl_of_isMem h
  refine ⟨⟨.refl, IrOp.hasControlInput_of_isControl hc⟩, ?_⟩
  unfold Graph.pin
  rw [if_neg (by simp [IrOp.not_data hc])]

/-- Only the node itself is below a node that does not float. -/
theorem eq_of_below {x y : ℕ} (h : G.isFloating x = false) (hxy : Relation.ReflTransGen G.Operand x y) : y = x := by
  rcases hxy.cases_head with rfl | ⟨z, hz, -⟩
  · rfl
  · rw [hz.1] at h
    cases h

/-- Data that something uses. -/
structure Usable (G : Graph) (x : ℕ) : Prop where
  real : G.opOf x ≠ .nop
  kind : (G.opOf x).isData = true ∨ (G.opOf x).isMem = true
  used : G.useLists x ≠ []

end Graph

namespace Wf

variable (W : Wf G)

include W

theorem usable_of_mem {x : ℕ} {a : ℤ} (hreal : G.opOf x ≠ .nop) (ha : a ∈ G.dataIns x) (h0 : 0 < a) :
    G.Usable a.toNat where
  real := W.inputs_range x a (Graph.dataIns_subset x ha) h0
  kind := W.data_ops x a ha h0
  used hnil := by
    have hmem := (W.uses a.toNat x (by omega)).mpr ⟨hreal, by
      rw [Int.toNat_of_nonneg (le_of_lt h0)]
      exact Graph.dataIns_subset x ha⟩
    rw [hnil] at hmem
    simp at hmem

theorem operand_pos {x y : ℕ} (h : G.Operand x y) : 0 < y := by
  have := W.data_zero x (isData_of_isFloating h.1) y h.2
  omega

theorem usable_operand {x y : ℕ} (h : G.Operand x y) : G.Usable y :=
  Int.toNat_natCast y ▸ W.usable_of_mem (Graph.floating_real h.1) h.2 (by have := W.operand_pos h; omega)

/-- A measure of floating nodes that operands make smaller. -/
theorem height : ∃ h : ℕ → ℕ, (∀ x y, G.Operand x y → h y < h x) ∧ ∀ x, G.isFloating x = false → h x = 0 := by
  obtain ⟨r, hr⟩ := W.rank
  refine ⟨fun x => if G.isFloating x then r x + 1 else 0, fun x y hop => ?_, fun x hx => by simp [hx]⟩
  simp only [hop.1, if_true]
  split
  · rename_i hy
    have := hr x y hop hy
    omega
  · omega

theorem merge_ne_one {m : ℕ} (hm : G.isMerge m = true) : m ≠ 1 := by
  rintro rfl
  simp [Graph.isMerge, IrOp.isMerge, W.start] at hm

end Wf

/-! ### Nothing on a feasible path is TOP -/

/-- Data that can be computed on the path and was asked for is not TOP. -/
def NonTop (G : Graph) (st : State) (π : List ℕ) : Prop :=
  ∀ x, G.Usable x → G.Has π x → st.visited x = true ∨ G.Anchored x → st.values x ≠ .top

namespace Settled

variable (W : Wf G) (S : Settled G F st)

include W S

/-- The operand of PHI `x` for an open edge to its merge. -/
theorem phi_operand {x p k : ℕ} {π : List ℕ} (hphi : G.isPhi x = true) (hreal : G.opOf x ≠ .nop)
    (hu : G.useLists x ≠ []) (hb : st.values x ≠ .bottom) (hπ : G.Path (p :: π))
    (hedge : G.Edge p k (G.operand x 1).toNat) (hp : st.values p ≠ .top) (hnt : NonTop G st (p :: π)) :
    ∃ a, (G.insn x).ops[k + 1]? = some a ∧ (a = x ∨ Agrees G st.values x a) := by
  obtain ⟨-, hm, hlen⟩ := W.phi_merge x hphi
  have hk := Graph.edge_merge hm hedge
  obtain ⟨hkl, hkv⟩ := List.getElem?_eq_some_iff.mp hk
  obtain ⟨a, ha⟩ : ∃ a, (G.insn x).ops[k + 1]? = some a := ⟨_, List.getElem?_eq_getElem (by omega)⟩
  refine ⟨a, ha, ?_⟩
  have hmem : ((p : ℤ), a) ∈ G.phiEdges x := by
    refine List.mem_iff_getElem?.mpr ⟨k, ?_⟩
    unfold Graph.phiEdges
    rw [List.getElem?_zip_eq_some]
    exact ⟨hk, by rw [List.getElem?_drop, Nat.add_comm]; exact ha⟩
  have hfeas : a ∈ feasibleIns G st.values x := mem_feasibleIns.mpr ⟨p, hmem, by simpa using hp⟩
  have hrec : MergeRec G st.values (G.operand x 1).toNat :=
    (S.node _ (Graph.merge_real hm)).merge hm ⟨p, List.mem_of_getElem? hk, by simpa using hp⟩
  rcases (S.node x hreal).phi hphi hu hb hrec a hfeas with h | ⟨ht, hv⟩ | h
  · exact Or.inl h
  · -- the operand was asked for
    have hcast : ((a.toNat : ℕ) : ℤ) = a := Int.toNat_of_nonneg (le_of_lt ht.1)
    have hus : G.Usable a.toNat := by
      refine W.usable_of_mem hreal ?_ ht.1
      rw [W.phi_dataIns hphi]
      exact (List.of_mem_zip hmem).2
    refine absurd ht.2 (hnt _ hus ?_ (Or.inl hv))
    exact W.dom_phi p π _ k x a.toNat hπ hedge hm ⟨hphi, rfl⟩ (hcast ▸ ha)
  · exact Or.inr h

/-- The operand of PHI `x` through which control first comes to its merge. -/
theorem phi_first {x : ℕ} {π : List ℕ} (hphi : G.isPhi x = true) (hx : G.Usable x) (hb : st.values x ≠ .bottom)
    (hπ : FPath G st.values π) (hhas : G.Has π x)
    (ih : ∀ π', FPath G st.values π' → π'.length < π.length → NonTop G st π') :
    ∃ p π₂ a, FPath G st.values (p :: π₂) ∧ (p :: π₂) <:+ π ∧ (p :: π₂).length < π.length ∧
      Agrees G st.values x a ∧ ∀ y : ℕ, a = y → G.Has (p :: π₂) y ∧ (0 < y → G.Usable y) := by
  obtain ⟨hroot, hpin⟩ := Graph.phi_root hphi
  have hm := (W.phi_merge x hphi).2.1
  have hin : (G.operand x 1).toNat ∈ π := hpin ▸ hhas x hroot
  obtain ⟨p, k, π₂, hp, hedge, hfe, hout, hsuf⟩ := hπ.first hin (W.merge_ne_one hm)
  have hlen : (p :: π₂).length < π.length := by
    have := hsuf.length_le
    simp only [List.length_cons] at this ⊢
    omega
  obtain ⟨a, ha, hval⟩ := S.phi_operand W hphi hx.real hx.used hb hp.path hedge hfe.1 (ih _ hp hlen)
  have hdom : ∀ y : ℕ, a = y → G.Has (p :: π₂) y := fun y hy =>
    W.dom_phi p π₂ _ k x y hp.path hedge hm ⟨hphi, rfl⟩ (hy ▸ ha)
  refine ⟨p, π₂, a, hp, (List.suffix_cons _ _).trans hsuf, hlen, hval.resolve_left fun hself => ?_, fun y hy => ⟨hdom y hy, fun h0 => ?_⟩⟩
  · -- the PHI has no value yet
    exact hout (hpin ▸ hdom x hself x hroot)
  · refine Int.toNat_natCast y ▸ W.usable_of_mem hx.real ?_ (by omega)
    rw [W.phi_dataIns hphi, ← hy]
    refine List.mem_of_getElem? (i := k) ?_
    rw [List.getElem?_drop, Nat.add_comm]
    exact ha

theorem nonTop_of_shorter {π : List ℕ} (hπ : FPath G st.values π) (hreach : ∀ c ∈ π, st.values c ≠ .top)
    (ih : ∀ π', FPath G st.values π' → π'.length < π.length → NonTop G st π') : NonTop G st π := by
  obtain ⟨h, hop, -⟩ := W.height
  intro x
  induction hn : h x using Nat.strong_induction_on generalizing x with
  | _ n ihn =>
    subst hn
    intro hx hhas hask htop
    rcases hx.kind with hd | hmem
    swap
    · -- a load or call on the path
      obtain ⟨hroot, hpin⟩ := Graph.mem_root hmem
      exact hreach x (hpin ▸ hhas x hroot) htop
    by_cases hphi : G.isPhi x = true
    · obtain ⟨_, _, a, -, -, -, hagree, -⟩ := S.phi_first W hphi hx (by rw [htop]; exact fun h => by cases h) hπ hhas ih
      rcases hagree with ⟨c, hc, -⟩ | ⟨-, ⟨y, hy⟩, -⟩
      · rw [htop] at hc
        cases hc
      · rw [htop] at hy
        cases hy
    have hfl : G.isFloating x = true := by simp [Graph.isFloating, hd, hphi]
    have hnode := S.node x hx.real
    have hact : Active G st.values st.visited x := by
      rcases hask with hv | ⟨y, hpath, hctl⟩
      · exact Or.inl hv
      rcases hpath.cases_head with rfl | ⟨z, hz, hzy⟩
      · have hcls : (G.opOf x).cls = .pinned := by
          revert hd hctl
          unfold IrOp.isData IrOp.hasControlInput
          cases (G.opOf x).cls <;> simp
        have hpos := W.pinned_in x hcls
        have hpin : G.pin x = (G.operand x 1).toNat := by
          unfold Graph.pin
          rw [if_pos hd]
        refine Or.inr ⟨G.operand x 1, Graph.operand_one ?_, hpos, hpin ▸ hreach _ (hhas x ⟨.refl, hctl⟩)⟩
        intro hnil
        have hvar : (G.opOf x).hasVarInputs = false := by
          have hop : G.opOf x ≠ .phi := by simpa [Graph.isPhi] using hphi
          revert hcls hop
          cases G.opOf x <;> simp [IrOp.cls, IrOp.hasVarInputs]
        have hedges : 0 < (G.opOf x).inputEdges := by
          have hop : G.opOf x ≠ .phi := by simpa [Graph.isPhi] using hphi
          revert hcls hop
          cases G.opOf x <;> simp [IrOp.cls, IrOp.inputEdges]
        have hlen := W.ops_len x hvar
        unfold Graph.inputs at hnil
        rw [hvar] at hnil
        have := congrArg List.length hnil
        simp only [Bool.false_eq_true, if_false, List.length_take, List.length_nil] at this
        omega
      · have hpos := W.operand_pos hz
        refine Or.inr ⟨z, Graph.dataIns_subset x hz.2, by omega, ?_⟩
        rw [Int.toNat_natCast]
        exact ihn (h z) (hop x z hz) z rfl (W.usable_operand hz) (hhas.operand hz) (Or.inr ⟨y, hzy, hctl⟩)
    by_cases hf : G.isFoldable x = true
    · obtain ⟨⟨a, ha, hat⟩, hall⟩ := hnode.foldTop hf hx.used htop hact
      have hz : G.Operand x a.toNat := ⟨hfl, by rw [Int.toNat_of_nonneg (le_of_lt hat.1)]; exact ha⟩
      exact ihn (h a.toNat) (hop _ _ hz) _ rfl (W.usable_operand hz) (hhas.operand hz) (Or.inl (hall a ha hat)) hat.2
    · have hbot := (hnode.leaf hfl (by simpa using hf) hx.used).1 hact
      rw [htop] at hbot
      cases hbot

/-- Control does not come to a node that is TOP. -/
theorem enter_ne_top {p k c : ℕ} {π : List ℕ} (hπ : G.Path (p :: π)) (hedge : G.Edge p k c)
    (hf : FeasibleEdge st.values p c) (hnt : NonTop G st (p :: π)) : st.values c ≠ .top := by
  rcases hedge with ⟨hm, hk⟩ | ⟨hc, hm, hc1, hop, rfl⟩
  · rcases (S.node c (Graph.merge_real hm)).merge hm ⟨p, List.mem_of_getElem? hk, by simpa using hf.1⟩ with
      ⟨-, h⟩ | ⟨-, h⟩ <;> rw [h] <;> exact fun h => by cases h
  have hreal : G.opOf c ≠ .nop := by
    intro hnop
    rw [hnop] at hc
    cases hc
  have hnode := S.node c hreal
  have hpos : 0 < p := by
    rcases Nat.eq_zero_or_pos p with rfl | h
    · refine absurd (S.base.forest.nop 0 ?_) hf.1
      by_contra hne
      exact absurd (W.range 0 hne).1 (by omega)
    · exact h
  by_cases hbb : (G.opOf c).isBbStart = true
  · rw [hnode.bbStart hbb hm p hop hpos hf]
    exact fun h => by cases h
  have hnbb : (G.opOf c).isBbStart = false := by simpa using hbb
  have hctrl := hnode.control hc hnbb (by rw [hop, Int.toNat_natCast]; exact hf.1)
  by_cases hbr : G.opOf c = .ifOp ∨ G.opOf c = .switch
  · obtain ⟨htop, hok⟩ := hctrl.branch hbr
    by_cases ht : IsTop st.values (G.operand c 2)
    · have hmem := W.cond_mem hbr
      have hcast : (((G.operand c 2).toNat : ℕ) : ℤ) = G.operand c 2 := Int.toNat_of_nonneg (le_of_lt ht.1)
      refine absurd ht.2 (hnt _ (W.usable_of_mem hreal hmem ht.1) ?_ (Or.inl (htop ht)))
      exact W.dom_use p π c _ hπ (Or.inr ⟨hc, hm, hc1, hop, rfl⟩) hm (hcast ▸ hmem)
    · rcases hok ht with h | ⟨_, u, -, -, h⟩ <;> rw [h] <;> exact fun h => by cases h
  · push Not at hbr
    rw [(hctrl.other hbr.1 hbr.2).1]
    exact fun h => by cases h

/-- **On a feasible path, neither control nor the data that was asked for is TOP.** -/
theorem nonTop {π : List ℕ} (hπ : FPath G st.values π) : (∀ c ∈ π, st.values c ≠ .top) ∧ NonTop G st π := by
  induction hn : π.length using Nat.strong_induction_on generalizing π with
  | _ n ih =>
    subst hn
    have hshort : ∀ π', FPath G st.values π' → π'.length < π.length → NonTop G st π' := fun π' h hlt =>
      (ih _ hlt h rfl).2
    have hreach : ∀ c ∈ π, st.values c ≠ .top := by
      cases hπ with
      | start =>
        intro c hc
        rw [List.mem_singleton.mp hc, (S.node 1 (by rw [W.start]; exact fun h => by cases h)).start rfl]
        exact fun h => by cases h
      | @step p k c' π h hedge hf =>
        intro c hc
        rcases List.mem_cons.mp hc with rfl | hc
        · exact S.enter_ne_top W h.path hedge hf (hshort _ h (by simp))
        · exact (ih _ (by simp) h rfl).1 c hc
    exact ⟨hreach, S.nonTop_of_shorter W hπ hreach hshort⟩

end Settled

/-! ### Copies come after their originals -/

/-- A part of the operands of `x` is below the identity of one of them. -/
theorem partOf_foldRefs {x : ℕ} {r : ℤ} (h : PartOf G (foldRefs G V x) r) (h0 : 0 < r) : ∃ a : ℕ, 0 < a ∧
    (a : ℤ) ∈ G.dataIns x ∧ Relation.ReflTransGen G.FoldOperand (identity G V a) r.toNat := by
  have hmem : ∀ d ∈ foldRefs G V x, 0 < d → ∃ a : ℕ, 0 < a ∧ (a : ℤ) ∈ G.dataIns x ∧ d.toNat = identity G V a := by
    intro d hd hd0
    obtain ⟨a, ha, rfl⟩ := List.mem_map.mp hd
    unfold identityRef at hd0 ⊢
    split at hd0
    · rename_i ha0
      refine ⟨a.toNat, by omega, ?_, by rw [if_pos ha0, Int.toNat_natCast]⟩
      rw [Int.toNat_of_nonneg (le_of_lt ha0)]
      exact ha
    · omega
  rcases h with h | h | ⟨d, hd, hd0, -, hbelow⟩
  · omega
  · obtain ⟨a, ha0, ha, heq⟩ := hmem r h h0
    exact ⟨a, ha0, ha, heq ▸ .refl⟩
  · obtain ⟨a, ha0, ha, heq⟩ := hmem d hd hd0
    exact ⟨a, ha0, ha, heq ▸ hbelow⟩

/-- A folded copy is a copy of something below its operands. -/
theorem FoldOk.copy_below {I : Interp} (hF : FoldSound G I F) {x y : ℕ} (hok : FoldOk G F V x) (hy : V x = .copy y) :
    ∃ a r : ℕ, 0 < a ∧ (a : ℤ) ∈ G.dataIns x ∧ Relation.ReflTransGen G.FoldOperand (identity G V a) r ∧
      Copyable (V r) ∧ identity G V x = identity G V r := by
  obtain ⟨ans, hrun, hans⟩ := hok
  cases ans with
  | emit => exact absurd hans id
  | restart => exact absurd hans id
  | const c =>
    rw [show V x = .const c from hans] at hy
    cases hy
  | copy r =>
    rcases hans with ⟨-, h⟩ | ⟨h0, ⟨-, c, -, h⟩ | ⟨hval, -, hid⟩⟩
    · rw [h] at hy
      cases hy
    · rw [h] at hy
      cases hy
    · obtain ⟨a, ha0, ha, hbelow⟩ :=
        partOf_foldRefs (hrun.partOf hF (D := foldRefs G V x) (fun r hr => Or.inr (Or.inl hr)) r rfl) h0
      exact ⟨a, r.toNat, ha0, ha, hbelow, hval, hid⟩

/-- What `x` copies is computed on a shorter path, or on `π` lower than `x`. -/
def Earlier (G : Graph) (V : ℕ → Lat) (h : ℕ → ℕ) (π : List ℕ) (x : ℕ) : Prop :=
  (∃ π', FPath G V π' ∧ π' <:+ π ∧ π'.length < π.length ∧ G.Has π' (identity G V x)) ∨
    (G.Has π (identity G V x) ∧ h (identity G V x) < h x)

theorem Earlier.has {h : ℕ → ℕ} {π : List ℕ} {x : ℕ} (he : Earlier G V h π x) : G.Has π (identity G V x) := by
  rcases he with ⟨π', -, hsuf, -, hhas⟩ | ⟨hhas, -⟩
  · exact hhas.mono hsuf.subset
  · exact hhas

namespace Settled

variable (W : Wf G) (S : Settled G F st) {I : Interp} (hF : FoldSound G I F) {h : ℕ → ℕ}
  (hop : ∀ x y, G.Operand x y → h y < h x)

include W S hF hop

/-- **A copy is made after what it copies.** -/
theorem identity_earlier {π : List ℕ} (hπ : FPath G st.values π) {x y : ℕ} (hx : G.Usable x)
    (hhas : G.Has π x) (hy : st.values x = .copy y) : Earlier G st.values h π x := by
  have H := S.base.forest
  induction hn : π.length using Nat.strong_induction_on generalizing π x y with
  | _ n ihπ =>
    subst hn
    induction hm : h x using Nat.strong_induction_on generalizing x y with
    | _ m ihx =>
      subst hm
      have hnode := S.node x hx.real
      have hnb : st.values x ≠ .bottom := by
        rw [hy]
        exact fun h => by cases h
      by_cases hphi : G.isPhi x = true
      · -- the operand of a PHI is computed on the path to its merge
        left
        obtain ⟨p, π₂, a, hp, hsuf, hlen, hagree, hdom⟩ :=
          S.phi_first W hphi hx hnb hπ hhas fun π' h _ => (S.nonTop W h).2
        refine ⟨p :: π₂, hp, hsuf, hlen, ?_⟩
        rcases hagree with ⟨c, hc, -⟩ | ⟨h0, -, hval, hid⟩
        · rw [hy] at hc
          cases hc
        obtain ⟨hhas', hus⟩ := hdom a.toNat (Int.toNat_of_nonneg (le_of_lt h0)).symm
        rw [← hid]
        rcases hval with hb | ⟨z, hz⟩
        · rw [identity_eq_self fun y hy => by rw [hb] at hy; cases hy]
          exact hhas'
        · exact (ihπ _ hlen hp (hus (by omega)) hhas' hz rfl).has
      have hf : G.isFoldable x = true := by
        have := S.base.kinds.copy x y hy
        simpa [Graph.hasValue, hphi] using this
      have hnt : st.values x ≠ .top := by
        rw [hy]
        exact fun h => by cases h
      obtain ⟨a, r, ha0, ha, hbelow, hval, hid⟩ := (hnode.foldVal hf hx.used hnt hnb).copy_below hF hy
      have haop : G.Operand x a := ⟨isFloating_of_isFoldable hf, ha⟩
      have hrop := Graph.below_of_fold hbelow
      -- `r` has a use if it is a copy itself
      have hrus : ∀ z, st.values r = .copy z → G.Usable r := by
        intro z hz
        rcases hbelow.cases_tail with heq | ⟨b, -, hbr⟩
        · exact absurd (heq ▸ hz) (H.identity_not_copy W.range a z)
        · exact W.usable_operand hbr.operand
      unfold Earlier
      rw [hid]
      -- when all of `r` is on a shorter path, so is what it copies
      have hshort : ∀ π', FPath G st.values π' → π' <:+ π → π'.length < π.length → G.Has π' r →
          G.Has π' (identity G st.values r) := by
        intro π' hp _ hlen hr
        rcases hval with hb | ⟨z, hz⟩
        · rw [identity_eq_self fun y hy => by rw [hb] at hy; cases hy]
          exact hr
        · exact (ihπ _ hlen hp (hrus z hz) hr hz rfl).has
      have hlow : G.Has π r → h r < h x → (∃ π', FPath G st.values π' ∧ π' <:+ π ∧ π'.length < π.length ∧
          G.Has π' (identity G st.values r)) ∨
          (G.Has π (identity G st.values r) ∧ h (identity G st.values r) < h x) := by
        intro hr hlt
        rcases hval with hb | ⟨z, hz⟩
        · rw [identity_eq_self fun y hy => by rw [hb] at hy; cases hy]
          exact Or.inr ⟨hr, hlt⟩
        · exact (ihx (h r) hlt (hrus z hz) hr hz rfl).imp_right fun h => ⟨h.1, lt_trans h.2 hlt⟩
      by_cases hac : ∃ z, st.values a = .copy z
      · obtain ⟨z, hz⟩ := hac
        rcases ihx (h a) (hop x a haop) (W.usable_operand haop) (hhas.operand haop) hz rfl with
          ⟨π', hp, hsuf, hlen, hhas'⟩ | ⟨hhas', hlt⟩
        · exact Or.inl ⟨π', hp, hsuf, hlen, hshort π' hp hsuf hlen (hhas'.below hrop)⟩
        · refine hlow (hhas'.below hrop) ?_
          exact lt_of_le_of_lt (Graph.height_below hop hrop) (lt_trans hlt (hop x a haop))
      · rw [identity_eq_self fun z hz => hac ⟨z, hz⟩] at hrop
        exact hlow ((hhas.operand haop).below hrop)
          (lt_of_le_of_lt (Graph.height_below hop hrop) (hop x a haop))

end Settled

end IrJit.Sccp
