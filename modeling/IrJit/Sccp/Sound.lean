import IrJit.Sccp.Paths

/-!
# Sccp.Sound — the analysis describes every execution

The proof follows an execution.  At each control node `c` the lattice is right about the data that
is available at `c` on every feasible path.  A step to `c'` changes the nodes tied to `c'` only:

* data above none of them keeps its value, and so does what it copies;
* a PHI of `c'` takes the value of an operand, for which the lattice was right before the step;
* other data is folded, and its parts come first (`Settled.identity_earlier`).
-/

namespace IrJit.Sccp

variable {G : Graph} {F : Folding} {I : Interp} {st : State} {env env' : ℕ → Val} {V : ℕ → Lat}

/-! ### Evaluation -/

theorem not_pinned {x : ℕ} (h : G.isFloating x = true) : G.isPinned x = false := by
  have hd := isData_of_isFloating h
  simp only [Graph.isFloating, Bool.and_eq_true, Bool.not_eq_true'] at h
  have hm : (G.opOf x).isMem = false := by
    by_contra hne
    have hc := IrOp.isControl_of_isMem (by simpa using hne)
    rw [IrOp.isControl_eq_false hd] at hc
    cases hc
  simp [Graph.isPinned, h.2, hm]

theorem Eval.const_eq {a : ℤ} {v : Val} (h : Eval G I env a v) (ha : a < 0) : v = I.den (G.const a) := by
  cases h with
  | const => rfl
  | pinned => omega
  | float => omega

theorem Eval.pinned_eq {x : ℕ} {v : Val} (h : Eval G I env x v) (hx : G.isPinned x = true) : v = env x := by
  generalize ha : (x : ℤ) = a at h
  cases h with
  | const h => omega
  | pinned h =>
    obtain rfl := Int.ofNat_inj.mp ha
    rfl
  | float h =>
    obtain rfl := Int.ofNat_inj.mp ha
    rw [not_pinned h] at hx
    cases hx

theorem Eval.float_eq {x : ℕ} {v : Val} (h : Eval G I env x v) (hx : G.isFloating x = true) :
    ∃ vs, EvalAll G I env (G.dataIns x) vs ∧ v = meaning G I x vs := by
  generalize ha : (x : ℤ) = a at h
  cases h with
  | const h => omega
  | pinned h =>
    obtain rfl := Int.ofNat_inj.mp ha
    rw [not_pinned hx] at h
    cases h
  | @float x' vs h hlen hvs =>
    obtain rfl := Int.ofNat_inj.mp ha
    exact ⟨vs, ⟨hlen, hvs⟩, rfl⟩

/-- A reference has one value. -/
theorem Eval.unique {a : ℤ} {v v' : Val} (h : Eval G I env a v) (h' : Eval G I env a v') : v = v' := by
  induction h generalizing v' with
  | const ha => exact (h'.const_eq ha).symm
  | pinned hx => exact (h'.pinned_eq hx).symm
  | @float x vs hx hlen hvs ih =>
    obtain ⟨vs', ⟨hlen', hvs'⟩, rfl⟩ := h'.float_eq hx
    congr 1
    refine List.ext_getElem (by rw [hlen, hlen']) fun n hn hn' => ?_
    have hmem : ∀ {ws : List Val} (hw : n < ws.length), ws.length = (G.dataIns x).length →
        ((G.dataIns x)[n]?.getD 0, ws.get ⟨n, hw⟩) ∈ (G.dataIns x).zip ws := by
      intro ws hw hl
      refine List.mem_iff_getElem?.mpr ⟨n, ?_⟩
      rw [List.getElem?_zip_eq_some, List.getElem?_eq_getElem (by omega : n < (G.dataIns x).length)]
      exact ⟨rfl, List.getElem?_eq_getElem hw⟩
    exact ih _ (hmem hn hlen) (hvs' _ (hmem hn' hlen'))

/-- A value depends on the pinned nodes below. -/
theorem Eval.congr {a : ℤ} {v : Val} (h : Eval G I env a v) (hag : ∀ x : ℕ, a = x → ∀ y,
    Relation.ReflTransGen G.Operand x y → G.isPinned y = true → env' y = env y) : Eval G I env' a v := by
  induction h with
  | const h => exact .const h
  | @pinned x h =>
    rw [← hag x rfl x .refl h]
    exact .pinned h
  | @float x vs h hlen hvs ih =>
    refine .float h hlen fun p hp => ih p hp fun z hz y hzy hy => ?_
    refine hag x rfl y (.head ⟨h, ?_⟩ hzy) hy
    rw [← hz]
    exact (List.of_mem_zip hp).1

/-! ### Folding -/

/-- The lattice is right about `x`. -/
structure Right (G : Graph) (I : Interp) (V : ℕ → Lat) (env : ℕ → Val) (x : ℕ) : Prop where
  const : ∀ c, V x = .const c → ∀ v, Eval G I env x v → v = I.den c
  copy : ∀ z, V x = .copy z → ∀ v, Eval G I env x v → Eval G I env (identity G V x) v

theorem Right.identity {x : ℕ} {v : Val} (h : Right G I V env x) (hv : Eval G I env x v) :
    Eval G I env (identity G V x) v := by
  by_cases hc : ∃ z, V x = .copy z
  · obtain ⟨z, hz⟩ := hc
    exact h.copy z hz v hv
  · rw [identity_eq_self fun z hz => hc ⟨z, hz⟩]
    exact hv

theorem Query.Asks.fits {q : Query} {opt : Opt} {refs : List ℤ} {view : ℤ → Option Const}
    (h : q.Asks opt refs view) (hview : ∀ r k, view r = some k → ∀ v, Eval G I env r v → v = I.den k) :
    q.Fits G I env := by
  obtain ⟨-, hrefs, hconsts⟩ := h
  intro p hp c hc
  rw [hrefs, hconsts, List.zip_map_right, List.mem_map] at hp
  obtain ⟨⟨r, r'⟩, hrr, rfl⟩ := hp
  have heq : r = r' := by
    obtain ⟨n, hn⟩ := List.mem_iff_getElem?.mp hrr
    obtain ⟨h1, h2⟩ := List.getElem?_zip_eq_some.mp hn
    rw [h1] at h2
    exact Option.some.inj h2
  subst heq
  exact hview r c hc

/-- Every answer of the restart loop has the value of the first question. -/
theorem FoldRun.eval (hF : FoldSound G I F) {view : ℤ → Option Const} {opt : Opt} {refs : List ℤ} {ans : FoldAns}
    (h : FoldRun F view opt refs ans)
    (hview : ∀ r k, view r = some k → ∀ v, Eval G I env r v → v = I.den k) {vs : List Val}
    (hvs : EvalAll G I env refs vs) : (∀ c, ans = .const c → I.op opt vs = I.den c) ∧
      ∀ r, ans = .copy r → Eval G I env r (I.op opt vs) := by
  induction h generalizing vs with
  | @done q opt refs ans hq h =>
    have hfits := hq.fits hview
    obtain ⟨rfl, rfl, -⟩ := hq
    refine ⟨?_, ?_⟩
    · rintro c rfl
      exact hF.const q c h env vs hfits hvs
    · rintro r rfl
      exact (hF.copy q r h).2 env vs hfits hvs
  | @again q opt opt' refs a b c ans hq h _ ih =>
    have hfits := hq.fits hview
    obtain ⟨rfl, rfl, -⟩ := hq
    obtain ⟨vs', hvs', heq⟩ := (hF.restart q opt' a b c h).2 env vs hfits hvs
    rw [← heq]
    exact ih hvs'

theorem directView_some {x : ℕ} {r : ℤ} {k : Const} (h : directView G V x r = some k) :
    r ∈ foldRefs G V x ∧ 0 < r ∧ V r.toNat = .const k := by
  unfold directView at h
  split at h
  · rename_i hr
    unfold constOf at h
    split at h
    · rename_i h0
      refine ⟨hr, h0, ?_⟩
      split at h
      · rename_i c hc
        split at h
        · rw [hc, Option.some.inj h]
        · cases h
      · cases h
    · cases h
  · cases h

/-- An operand that the lattice gives a constant is its own identity. -/
theorem foldRefs_const (W : Wf G) (H : Forest G V) {x : ℕ} {r : ℤ} {k : Const} (hr : r ∈ foldRefs G V x)
    (h0 : 0 < r) (hk : V r.toNat = .const k) : r ∈ G.dataIns x := by
  obtain ⟨a, ha, rfl⟩ := List.mem_map.mp hr
  unfold identityRef at h0 hk ⊢
  split at h0
  · rename_i ha0
    rw [if_pos ha0, Int.toNat_natCast] at hk
    rw [if_pos ha0]
    have heq : identity G V a.toNat = a.toNat := by
      by_contra hne
      have hc : ∃ z, V a.toNat = .copy z := by
        by_contra hc
        exact hne (identity_eq_self fun z hz => hc ⟨z, hz⟩)
      have hb := H.identity_bottom W.range _ (Or.inr hc)
      rw [hk] at hb
      cases hb
    rw [heq, Int.toNat_of_nonneg (le_of_lt ha0)]
    exact ha
  · omega

/-- The lattice is right about a folded node when it is right about what the node is made of. -/
theorem FoldOk.right (W : Wf G) (H : Forest G V) (hF : FoldSound G I F) {x : ℕ} (hf : G.isFoldable x = true)
    (hok : FoldOk G F V x) (hops : ∀ a, G.Operand x a → Right G I V env a)
    (hparts : ∀ a r z, G.Operand x a → Relation.ReflTransGen G.FoldOperand (identity G V a) r → V r = .copy z →
      Right G I V env r) : Right G I V env x := by
  have hfl := isFloating_of_isFoldable hf
  have hcast : ∀ {a : ℤ}, 0 < a → ((a.toNat : ℕ) : ℤ) = a := fun h => Int.toNat_of_nonneg (le_of_lt h)
  obtain ⟨ans, hrun, hans⟩ := hok
  have hconst : ∀ r k, r ∈ foldRefs G V x → 0 < r → V r.toNat = .const k → ∀ v, Eval G I env r v → v = I.den k := by
    intro r k hr h0 hk v hv
    have hmem := foldRefs_const W H hr h0 hk
    rw [← hcast h0] at hv hmem
    exact (hops _ ⟨hfl, hmem⟩).const k hk v hv
  have hval : ∀ v, Eval G I env x v → (∀ c, ans = .const c → v = I.den c) ∧ ∀ r, ans = .copy r → Eval G I env r v := by
    intro v hv
    obtain ⟨vs, ⟨hlen, hvs⟩, rfl⟩ := hv.float_eq hfl
    have hm : meaning G I x vs = I.op (G.insn x).opt vs := if_pos hf
    rw [hm]
    refine hrun.eval hF (fun r k hk => ?_) ⟨?_, ?_⟩
    · obtain ⟨hr, h0, hk'⟩ := directView_some hk
      exact hconst r k hr h0 hk'
    · rw [hlen, foldRefs, List.length_map]
    · intro p hp
      unfold foldRefs at hp
      rw [List.zip_map_left, List.mem_map] at hp
      obtain ⟨⟨a, w⟩, haw, rfl⟩ := hp
      have hev := hvs _ haw
      change Eval G I env (identityRef G V a) w
      unfold identityRef
      split
      · rename_i h0
        refine (hops a.toNat ⟨hfl, ?_⟩).identity ?_
        · rw [hcast h0]
          exact (List.of_mem_zip haw).1
        · rw [hcast h0]
          exact hev
      · exact hev
  cases ans with
  | emit => exact absurd hans id
  | restart => exact absurd hans id
  | const c =>
    have hc : V x = .const c := hans
    refine ⟨fun c' hc' v hv => ?_, fun z hz => ?_⟩
    · rw [hc] at hc'
      injection hc' with hc'
      rw [← hc']
      exact (hval v hv).1 c rfl
    · rw [hc] at hz
      cases hz
  | copy r =>
    rcases hans with ⟨hneg, hc⟩ | ⟨h0, ⟨hmem, c, hrc, hc⟩ | ⟨hr, ⟨y, hy⟩, hid⟩⟩
    · refine ⟨fun c' hc' v hv => ?_, fun z hz => ?_⟩
      · rw [hc] at hc'
        injection hc' with hc'
        rw [← hc']
        exact ((hval v hv).2 r rfl).const_eq hneg
      · rw [hc] at hz
        cases hz
    · refine ⟨fun c' hc' v hv => ?_, fun z hz => ?_⟩
      · rw [hc] at hc'
        injection hc' with hc'
        rw [← hc']
        exact hconst r c hmem h0 hrc v ((hval v hv).2 r rfl)
      · rw [hc] at hz
        cases hz
    · refine ⟨fun c' hc' => ?_, fun z hz v hv => ?_⟩
      · rw [hy] at hc'
        cases hc'
      have hev := (hval v hv).2 r rfl
      rw [← hcast h0] at hev
      rw [hid]
      rcases hr with hb | ⟨z', hz'⟩
      · rw [identity_eq_self fun y hy => by rw [hb] at hy; cases hy]
        exact hev
      · obtain ⟨a, -, ha, hbelow⟩ :=
          partOf_foldRefs (hrun.partOf hF (D := foldRefs G V x) (fun r hr => Or.inr (Or.inl hr)) r rfl) h0
        exact (hparts a r.toNat z' ⟨hfl, ha⟩ hbelow hz').copy z' hz' v hev

/-! ### One control node -/

/-- `x` can be computed at `c`, whichever way control came there. -/
def Avail (G : Graph) (V : ℕ → Lat) (c x : ℕ) : Prop := ∀ π, FPath G V (c :: π) → G.Has (c :: π) x

theorem Avail.below {c x y : ℕ} (h : Avail G V c x) (hxy : Relation.ReflTransGen G.Operand x y) : Avail G V c y :=
  fun π hπ => (h π hπ).below hxy

namespace Settled

variable (W : Wf G) (S : Settled G F st) (hF : FoldSound G I F) {h : ℕ → ℕ}
  (hop : ∀ x y, G.Operand x y → h y < h x)

include W S hF hop

theorem avail_identity {c x : ℕ} (hx : G.Usable x) (hav : Avail G st.values c x) :
    Avail G st.values c (identity G st.values x) := by
  intro π hπ
  by_cases hc : ∃ z, st.values x = .copy z
  · obtain ⟨z, hz⟩ := hc
    exact (S.identity_earlier W hF hop hπ hx (hav π hπ) hz).has
  · rw [identity_eq_self fun z hz => hc ⟨z, hz⟩]
    exact hav π hπ

/-- At a control node: the lattice is right about all data when it is right about what the step to
the node leaves as it is, and about PHIs. -/
theorem right_all {c : ℕ} {T : ℕ → Prop}
    (hA : ∀ x, G.Usable x → Avail G st.values c x → ¬ T x → Right G I st.values env x)
    (hP : ∀ x, G.isPhi x = true → G.Usable x → Avail G st.values c x → T x → Right G I st.values env x)
    (hR : ∀ a z r, st.values a = .copy z → G.Usable a → Avail G st.values c a →
      Relation.ReflTransGen G.Operand (identity G st.values a) r → T r → h r < h a) :
    ∀ x, G.Usable x → Avail G st.values c x → Right G I st.values env x := by
  intro x
  induction hn : h x using Nat.strong_induction_on generalizing x with
  | _ n ih =>
    subst hn
    intro hx hav
    by_cases ht : T x
    swap
    · exact hA x hx hav ht
    by_cases hphi : G.isPhi x = true
    · exact hP x hphi hx hav ht
    by_cases hf : G.isFoldable x = true
    swap
    · -- no constant and no copy
      have hv : G.hasValue x = false := by simp [Graph.hasValue, hphi, hf]
      refine ⟨fun c hc => ?_, fun z hz => ?_⟩
      · rw [S.base.kinds.const x c hc] at hv
        cases hv
      · rw [S.base.kinds.copy x z hz] at hv
        cases hv
    by_cases hval : st.values x = .top ∨ st.values x = .bottom
    · refine ⟨fun c hc => ?_, fun z hz => ?_⟩
      · rcases hval with h | h <;> rw [h] at hc <;> cases hc
      · rcases hval with h | h <;> rw [h] at hz <;> cases hz
    push Not at hval
    have hok := (S.node x hx.real).foldVal hf hx.used hval.1 hval.2
    refine hok.right W S.base.forest hF hf (fun a ha => ?_) fun a r z ha hbelow hz => ?_
    · exact ih (h a) (hop x a ha) a rfl (W.usable_operand ha) (hav.below (.single ha))
    · have hus := W.usable_operand ha
      have hava := hav.below (.single ha)
      have hrop := Graph.below_of_fold hbelow
      have hravail := (S.avail_identity W hF hop hus hava).below hrop
      have hrus : G.Usable r := by
        rcases hbelow.cases_tail with heq | ⟨b, -, hbr⟩
        · exact absurd (heq ▸ hz) (S.base.forest.identity_not_copy W.range a z)
        · exact W.usable_operand hbr.operand
      by_cases hrt : T r
      swap
      · exact hA r hrus hravail hrt
      have hlt : h r < h x := by
        by_cases hc : ∃ z, st.values a = .copy z
        · obtain ⟨z, hz⟩ := hc
          exact lt_trans (hR a z r hz hus hava hrop hrt) (hop x a ha)
        · rw [identity_eq_self fun z hz => hc ⟨z, hz⟩] at hrop
          exact lt_of_le_of_lt (Graph.height_below hop hrop) (hop x a ha)
      exact ih (h r) hlt r rfl hrus hravail

/-- START. -/
theorem right_start : ∀ x, G.Usable x → Avail G st.values 1 x → Right G I st.values env x := by
  refine S.right_all W hF hop (T := fun _ => True) (fun x _ _ hn => absurd trivial hn) (fun x hphi hx hav _ => ?_) ?_
  · obtain ⟨hroot, hpin⟩ := Graph.phi_root hphi
    have hin := hav [] .start x hroot
    rw [hpin, List.mem_singleton] at hin
    exact absurd hin (W.merge_ne_one (W.phi_merge x hphi).2.1)
  · intro a z r hz hus hav hrop _
    rcases S.identity_earlier W hF hop .start hus (hav [] .start) hz with ⟨π', hp, -, hlen, -⟩ | ⟨-, hlt⟩
    · cases hp <;> simp at hlen
    · exact lt_of_le_of_lt (Graph.height_below hop hrop) hlt

end Settled

/-! ### One step -/

/-- `x` is computed from a node tied to `c`. -/
def Touched (G : Graph) (c x : ℕ) : Prop := ∃ y, G.Root x y ∧ G.pin y = c

theorem Graph.Has.untouched {c x : ℕ} {π : List ℕ} (h : G.Has (c :: π) x) (hx : ¬ Touched G c x) : G.Has π x := by
  intro y hy
  rcases List.mem_cons.mp (h y hy) with heq | hmem
  · exact absurd ⟨y, hy, heq⟩ hx
  · exact hmem

/-- A step to `c` changes nodes that are tied to `c`. -/
theorem EnvStep.untouched {k c x : ℕ} (h : EnvStep G I k c env env') (hx : ¬ Touched G c x) :
    ∀ y, Relation.ReflTransGen G.Operand x y → G.isPinned y = true → env' y = env y := by
  intro y hxy hy
  refine h.2 y (fun hphi => hx ⟨y, ?_⟩) fun hmem => hx ⟨y, ?_⟩
  · obtain ⟨hroot, hpin⟩ := Graph.phi_root hphi.2.1
    exact ⟨⟨hxy, hroot.2⟩, hpin.trans hphi.2.2⟩
  · obtain ⟨rfl, hm⟩ := hmem
    obtain ⟨hroot, hpin⟩ := Graph.mem_root hm
    exact ⟨⟨hxy, hroot.2⟩, hpin⟩

theorem EnvStep.eval_iff {k c x : ℕ} {v : Val} (h : EnvStep G I k c env env') (hx : ¬ Touched G c x) :
    Eval G I env' x v ↔ Eval G I env x v := by
  have hag := h.untouched hx
  constructor
  · intro hv
    refine hv.congr fun z hz y hy hp => ?_
    obtain rfl := Int.ofNat_inj.mp hz
    exact (hag y hy hp).symm
  · intro hv
    refine hv.congr fun z hz y hy hp => ?_
    obtain rfl := Int.ofNat_inj.mp hz
    exact hag y hy hp

namespace Settled

variable (W : Wf G) (S : Settled G F st) (hF : FoldSound G I F) {h : ℕ → ℕ}
  (hop : ∀ x y, G.Operand x y → h y < h x) (h0 : ∀ x, G.isFloating x = false → h x = 0)
  {s s' : Config} {k : ℕ} {π : List ℕ}
  (hstep : Step G I s k s') (hπ : FPath G st.values (s.ctrl :: π)) (hfe : FeasibleEdge st.values s.ctrl s'.ctrl)
  (ih : ∀ x, G.Usable x → Avail G st.values s.ctrl x → Right G I st.values s.env x)

include W S hstep hπ hfe ih

/-- A PHI takes the value of an operand, and what it copies is left as it is. -/
theorem right_phi {x : ℕ} (hphi : G.isPhi x = true) (hx : G.Usable x) (hctrl : (G.operand x 1).toNat = s'.ctrl)
    (hid : ∀ z, st.values x = .copy z → ¬ Touched G s'.ctrl (identity G st.values x)) :
    Right G I st.values s'.env x := by
  have hm := (W.phi_merge x hphi).2.1
  have hedge : G.Edge s.ctrl k (G.operand x 1).toNat := hctrl ▸ hstep.edge
  obtain ⟨a, ha, hev⟩ := hstep.env.1 x ⟨hphi, hctrl⟩ (hctrl ▸ hm) hx.used
  have hself : ∀ v, Eval G I s'.env x v → v = s'.env x := fun v hv =>
    hv.pinned_eq (by simp [Graph.isPinned, hphi])
  have hoperand : ∀ y : ℕ, a = y → 0 < y → Right G I st.values s.env y := by
    rintro y rfl hy
    refine ih y ?_ fun π' hπ' => W.dom_phi s.ctrl π' _ k x y hπ'.path hedge hm ⟨hphi, rfl⟩ ha
    refine Int.toNat_natCast y ▸ W.usable_of_mem hx.real ?_ (by omega)
    rw [W.phi_dataIns hphi]
    refine List.mem_of_getElem? (i := k) ?_
    rw [List.getElem?_drop, Nat.add_comm]
    exact ha
  have hagree : st.values x ≠ .bottom → a = x ∨ Agrees G st.values x a := by
    intro hb
    obtain ⟨a', ha', hval⟩ := S.phi_operand W hphi hx.real hx.used hb hπ.path hedge hfe.1 (S.nonTop W hπ).2
    rw [ha, Option.some.injEq] at ha'
    exact ha' ▸ hval
  have hpos := (W.range x hx.real).1
  refine ⟨fun c hc v hv => ?_, fun z hz v hv => ?_⟩
  · rw [hself v hv]
    rcases hagree (by rw [hc]; exact fun h => by cases h) with rfl | ⟨c', hc', ⟨hneg, heq⟩ | ⟨h0, hac⟩⟩ | ⟨-, ⟨y, hy⟩, -⟩
    · exact (hoperand x rfl hpos).const c hc _ hev
    · rw [hc] at hc'
      injection hc' with hc'
      rw [hev.const_eq hneg, heq, hc']
    · rw [hc] at hc'
      injection hc' with hc'
      have hcast : ((a.toNat : ℕ) : ℤ) = a := Int.toNat_of_nonneg (le_of_lt h0)
      rw [← hcast] at hev
      exact (hoperand a.toNat hcast.symm (by omega)).const c (hc' ▸ hac) _ hev
    · rw [hc] at hy
      cases hy
  · rw [hself v hv, hstep.env.eval_iff (hid z hz)]
    rcases hagree (by rw [hz]; exact fun h => by cases h) with rfl | ⟨c, hc, -⟩ | ⟨h0, -, -, heq⟩
    · exact (hoperand x rfl hpos).copy z hz _ hev
    · rw [hz] at hc
      cases hc
    · have hcast : ((a.toNat : ℕ) : ℤ) = a := Int.toNat_of_nonneg (le_of_lt h0)
      rw [← hcast] at hev
      rw [← heq]
      exact (hoperand a.toNat hcast.symm (by omega)).identity hev

include hF hop h0

/-- **A step keeps the lattice right.** -/
theorem right_step : ∀ x, G.Usable x → Avail G st.values s'.ctrl x → Right G I st.values s'.env x := by
  have hne : s'.ctrl ≠ 1 := by
    rcases hstep.edge with ⟨hm, -⟩ | ⟨-, -, h1, -⟩
    · exact W.merge_ne_one hm
    · exact h1
  -- the first time that control comes to the node
  obtain ⟨p₁, k₁, π₁, hp₁, hedge₁, hfe₁, hout, -⟩ := (hπ.step hstep.edge hfe).first List.mem_cons_self hne
  have hfirst : FPath G st.values (s'.ctrl :: p₁ :: π₁) := hp₁.step hedge₁ hfe₁
  have hnot : ∀ {π' x}, π' ⊆ p₁ :: π₁ → G.Has π' x → ¬ Touched G s'.ctrl x := by
    rintro π' x hsub hhas ⟨y, hy, hpin⟩
    exact hout (hpin ▸ hsub (hhas y hy))
  have hearlier : ∀ {x z}, G.Usable x → st.values x = .copy z → Avail G st.values s'.ctrl x →
      ¬ Touched G s'.ctrl (identity G st.values x) ∨ h (identity G st.values x) < h x := by
    intro x z hx hz hav
    rcases S.identity_earlier W hF hop hfirst hx (hav _ hfirst) hz with ⟨π', -, hsuf, hlen, hhas⟩ | ⟨-, hlt⟩
    · refine Or.inl (hnot ?_ hhas)
      rcases List.suffix_cons_iff.mp hsuf with heq | hsuf
      · rw [heq] at hlen
        omega
      · exact hsuf.subset
    · exact Or.inr hlt
  refine S.right_all W hF hop (T := Touched G s'.ctrl) (fun x hx hav ht => ?_) (fun x hphi hx hav ht => ?_) ?_
  · -- data that the step leaves as it is
    have hav' : Avail G st.values s.ctrl x := fun π' hπ' =>
      (hav _ (hπ'.step hstep.edge hfe)).untouched ht
    have hright := ih x hx hav'
    refine ⟨fun c hc v hv => ?_, fun z hz v hv => ?_⟩
    · exact hright.const c hc v ((hstep.env.eval_iff ht).mp hv)
    · have hhas := (hav _ hfirst).untouched ht
      have hid := (S.identity_earlier W hF hop hp₁ hx hhas hz).has
      exact (hstep.env.eval_iff (hnot (fun _ h => h) hid)).mpr
        (hright.copy z hz v ((hstep.env.eval_iff ht).mp hv))
  · obtain ⟨hroot, hpin⟩ := Graph.phi_root hphi
    have hnf : G.isFloating x = false := by simp [Graph.isFloating, hphi]
    have hctrl : (G.operand x 1).toNat = s'.ctrl := by
      obtain ⟨y, hy, hyp⟩ := ht
      rw [Graph.eq_of_below hnf hy.1, hpin] at hyp
      exact hyp
    refine S.right_phi W hstep hπ hfe ih hphi hx hctrl fun z hz => ?_
    refine (hearlier hx hz hav).resolve_right fun hlt => ?_
    rw [h0 x hnf] at hlt
    omega
  · intro a z r hz hus hav hrop hrt
    refine lt_of_le_of_lt (Graph.height_below hop hrop) ((hearlier hus hz hav).resolve_left fun hn => hn ?_)
    obtain ⟨y, hy, hpin⟩ := hrt
    exact ⟨y, ⟨hrop.trans hy.1, hy.2⟩, hpin⟩

end Settled

/-! ### Branches -/

theorem Interp.isTrue_den (I : Interp) (c : Const) : Const.valIsTrue (I.den c).type (I.den c).bits = c.isTrue := by
  unfold Interp.den Const.isTrue
  split
  · exact I.sym_true c
  · rfl

theorem Wf.edge_use (W : Wf G) {c k c' : ℕ} (hc : 0 < c) (h : G.Edge c k c') : c' ∈ G.useLists c := by
  refine (W.uses c c' hc).mpr ?_
  rcases h with ⟨hm, hk⟩ | ⟨hctl, -, h1, hop, -⟩
  · refine ⟨Graph.merge_real hm, ?_⟩
    rw [Graph.merge_inputs hm]
    exact List.mem_of_getElem? hk
  · refine ⟨fun hnop => ?_, hop ▸ Graph.operand_one (W.control_in c' hctl h1)⟩
    rw [hnop] at hctl
    cases hctl

/-- An IF with a constant condition leaves through `ifOutput`. -/
theorem Wf.ifOutput_eq (W : Wf G) {i u : ℕ} {c : Const} (hop : G.opOf i = .ifOp) (hu : u ∈ G.useLists i)
    (htaken : G.opOf u = if c.isTrue then .ifTrue else .ifFalse) : ifOutput G i c = u := by
  obtain ⟨t, f, hl, ht, hf⟩ := W.if_uses i hop
  have huse : u = if c.isTrue then t else f := by
    have hmem : u = t ∨ u = f := by
      rcases hl with hl | hl <;> rw [hl] at hu <;> simp only [List.mem_cons, List.not_mem_nil, or_false] at hu
      · exact hu
      · exact hu.symm
    cases hc : c.isTrue <;> rw [hc] at htaken <;> rcases hmem with rfl | rfl
    · rw [ht] at htaken
      cases htaken
    · rfl
    · rfl
    · rw [hf] at htaken
      cases htaken
  unfold ifOutput
  rw [huse]
  cases hc : c.isTrue <;> rcases hl with hl | hl <;> simp [hl, ht, hf]

/-- A SWITCH with a constant condition leaves through `switchOutput`. -/
theorem Wf.switchOutput_eq (W : Wf G) {i u u' : ℕ} {c : Const} (hop : G.opOf i = .switch) (hu : u ∈ G.useLists i)
    (htaken : CaseTaken G i u ⟨c.type, c.val⟩) (hout : switchOutput G i c = some u') : u' = u := by
  unfold switchOutput at hout
  split at hout
  · rename_i use hfind
    rw [Option.some.injEq] at hout
    subst hout
    have hin := List.mem_of_find?_eq_some hfind
    rcases htaken with hmatch | ⟨-, hnone⟩
    · exact (W.switch_uses i hop use hin u hu).1 _ _ (List.find?_some hfind) hmatch
    · have hmatch := List.find?_some hfind
      rw [hnone use hin] at hmatch
      cases hmatch
  · rename_i hfind
    have hin := List.mem_reverse.mp (List.mem_of_find?_eq_some hout)
    have hdef : G.opOf u' = .caseDefault := by simpa using List.find?_some hout
    rcases htaken with hmatch | ⟨hdef', -⟩
    · exact absurd hmatch (List.find?_eq_none.mp hfind u hu)
    · exact (W.switch_uses i hop u' hin u hu).2 hdef hdef'

theorem isSymConst_eq_false {op : IrOp} (h : op.isConstOp = true) : op.isSymConst = false := by
  revert h
  cases op <;> decide

/-- A constant condition has its value. -/
theorem condConst_eq {a : ℤ} {c : Const} (hc : condConst G V a = some c) (ha : a ≠ 0)
    (hr : 0 < a → Right G I V env a.toNat) {v : Val} (hv : Eval G I env a v) : v = I.den c := by
  unfold condConst at hc
  split at hc
  · rename_i hneg
    rw [hv.const_eq hneg, Option.some.inj hc]
  · rename_i hneg
    have h0 : 0 < a := by omega
    split at hc
    · rename_i c' hval
      split at hc
      · rw [Option.some.injEq] at hc
        subst hc
        rw [← Int.toNat_of_nonneg (le_of_lt h0)] at hv
        exact (hr h0).const c' hval v hv
      · cases hc
    · cases hc

namespace Settled

variable (W : Wf G) (S : Settled G F st) {s s' : Config} {k : ℕ} {π : List ℕ}

include W S

omit S in
/-- The operands of a control node are available there. -/
theorem avail_operand {V : ℕ → Lat} {c x : ℕ} (hm : G.isMerge c = false) (hc1 : c ≠ 1) (hx : (x : ℤ) ∈ G.dataIns c) :
    Avail G V c x := by
  intro π hπ
  cases hπ with
  | start => exact absurd rfl hc1
  | @step p k _ π hπ hedge _ =>
    have hk : k = 0 := by
      rcases hedge with ⟨h, -⟩ | ⟨-, -, -, -, h⟩
      · rw [hm] at h
        cases h
      · exact h
    subst hk
    exact (W.dom_use p π c x hπ.path hedge hm hx).mono (List.subset_cons_self c _)

/-- **Control follows the edges that the lattice leaves open.** -/
theorem edge_feasible (hstep : Step G I s k s') (hπ : FPath G st.values (s.ctrl :: π))
    (ih : ∀ x, G.Usable x → Avail G st.values s.ctrl x → Right G I st.values s.env x) :
    FeasibleEdge st.values s.ctrl s'.ctrl := by
  have hnt : st.values s.ctrl ≠ .top := (S.nonTop W hπ).1 _ List.mem_cons_self
  refine ⟨hnt, fun u hu => ?_⟩
  obtain ⟨hop, htop, -⟩ := S.base.kinds.out _ u hu
  generalize hc : s.ctrl = c at *
  have hctl : (G.opOf c).isControl = true := by rcases hop with h | h <;> rw [h] <;> rfl
  have hbb : (G.opOf c).isBbStart = false := by rcases hop with h | h <;> rw [h] <;> rfl
  have hreal : G.opOf c ≠ .nop := by rcases hop with h | h <;> rw [h] <;> exact fun h => by cases h
  have hreach := S.base.kinds.reached c hctl hbb hnt
  obtain ⟨cst, hcst, hout⟩ : ∃ cst, condConst G st.values (G.operand c 2) = some cst ∧ outputOf G c cst = some u := by
    rcases (((S.node c hreal).control hctl hbb hreach).branch hop).2 htop with h | ⟨cst, u', h1, h2, h3⟩
    · rw [hu] at h
      cases h
    · rw [hu] at h3
      injection h3 with h3
      exact ⟨cst, h1, h3 ▸ h2⟩
  have hmem := W.cond_mem hop
  have hright : 0 < G.operand c 2 → Right G I st.values s.env (G.operand c 2).toNat := by
    intro h0
    refine ih _ (W.usable_of_mem hreal hmem h0) (avail_operand W (isMerge_eq_false hbb) (ne_start W hbb) ?_)
    rw [Int.toNat_of_nonneg (le_of_lt h0)]
    exact hmem
  have hz := W.cond c hop
  have hedge : G.Edge c k s'.ctrl := hc ▸ hstep.edge
  have huse := W.edge_use (W.range c hreal).1 hedge
  have hleaves : Leaves G I s.env c s'.ctrl := hc ▸ hstep.leaves
  unfold outputOf at hout
  by_cases hif : G.opOf c = .ifOp
  · obtain ⟨v, hv, htaken⟩ := hleaves.1 hif
    rw [condConst_eq hcst hz hright hv, I.isTrue_den] at htaken
    rw [if_pos hif, W.ifOutput_eq hif huse htaken, Option.some.injEq] at hout
    exact hout.symm
  · have hsw := hop.resolve_left hif
    obtain ⟨v, hv, -, htaken⟩ := hleaves.2 hsw
    rw [if_neg hif] at hout
    have hsym : cst.op.isSymConst = false := by
      unfold condConst at hcst
      split at hcst
      · rw [← Option.some.inj hcst]
        exact W.switch_cond c hsw ‹_›
      · split at hcst
        · split at hcst
          · rw [← Option.some.inj hcst]
            exact isSymConst_eq_false ‹_›
          · cases hcst
        · cases hcst
    have hden : I.den cst = ⟨cst.type, cst.val⟩ := by
      unfold Interp.den
      rw [if_neg (by simp [hsym])]
    rw [condConst_eq hcst hz hright hv, hden] at htaken
    exact W.switchOutput_eq hsw huse htaken hout

/-! ### Executions -/

/-- The lattice is right all along an execution. -/
theorem right_of_reach (hF : FoldSound G I F) (hs : Reach G I s) : (∃ π, FPath G st.values (s.ctrl :: π)) ∧
    ∀ x, G.Usable x → Avail G st.values s.ctrl x → Right G I st.values s.env x := by
  obtain ⟨h, hop, h0⟩ := W.height
  induction hs with
  | start env => exact ⟨⟨[], .start⟩, S.right_start W hF hop⟩
  | @step s s' k _ hstep ih =>
    obtain ⟨⟨π, hπ⟩, hright⟩ := ih
    have hfe := S.edge_feasible W hstep hπ hright
    exact ⟨⟨_, hπ.step hstep.edge hfe⟩, S.right_step W hF hop h0 hstep hπ hfe hright⟩

/-- What is evaluated is not TOP. -/
theorem needed_ne_top (hedge : G.Edge s.ctrl k s'.ctrl) (hπ : FPath G st.values (s.ctrl :: π))
    (hfe : FeasibleEdge st.values s.ctrl s'.ctrl) {x : ℕ} (hx0 : 0 < x) (hx : G.UsedBy k s'.ctrl x) :
    G.Usable x ∧ Avail G st.values s.ctrl x ∧ st.values x ≠ .top := by
  generalize s'.ctrl = c' at *
  have hnon := (S.nonTop W hπ).2
  rcases hx with ⟨hm, hdead, hmem⟩ | ⟨hm, p, ⟨hphi, rfl⟩, hu, ha⟩
  · rcases hedge with ⟨hm', -⟩ | ⟨hctl, -, hc1, hop, rfl⟩
    · rw [hm] at hm'
      cases hm'
    have hreal : G.opOf c' ≠ .nop := by
      intro hnop
      rw [hnop] at hctl
      cases hctl
    have hus : G.Usable x := Int.toNat_natCast x ▸ W.usable_of_mem hreal hmem (by omega)
    have hav : Avail G st.values s.ctrl x := fun π' hπ' =>
      W.dom_use _ π' c' x hπ'.path (Or.inr ⟨hctl, hm, hc1, hop, rfl⟩) hm hmem
    refine ⟨hus, hav, fun htop => ?_⟩
    have hbb : (G.opOf c').isBbStart = false := by
      by_contra hne
      have := W.start_ops c' (by simpa using hne) x hmem
      omega
    have hctrl := (S.node c' hreal).control hctl hbb (by rw [hop, Int.toNat_natCast]; exact hfe.1)
    have hist : IsTop st.values (x : ℤ) := ⟨by omega, by rw [Int.toNat_natCast]; exact htop⟩
    refine hnon x hus (hav π hπ) (Or.inl ?_) htop
    by_cases hbr : G.opOf c' = .ifOp ∨ G.opOf c' = .switch
    · have hx2 : G.operand c' 2 = x := by
        rw [W.branch_dataIns hbr, List.mem_singleton] at hmem
        exact hmem.symm
      have := (hctrl.branch hbr).1 (hx2 ▸ hist)
      rw [hx2, Int.toNat_natCast] at this
      exact this
    · push Not at hbr
      exact (hctrl.other hbr.1 hbr.2).2 hdead x hmem hist
  · have hreal : G.opOf p ≠ .nop := by
      intro hnop
      have hd := isData_of_isPhi hphi
      rw [hnop] at hd
      cases hd
    have hmem : (x : ℤ) ∈ (G.insn p).ops.drop 1 := by
      refine List.mem_of_getElem? (i := k) ?_
      rw [List.getElem?_drop, Nat.add_comm]
      exact ha
    have hus : G.Usable x := by
      refine Int.toNat_natCast x ▸ W.usable_of_mem hreal ?_ (by omega)
      rw [W.phi_dataIns hphi]
      exact hmem
    have hav : Avail G st.values s.ctrl x := fun π' hπ' =>
      W.dom_phi _ π' _ k p x hπ'.path hedge hm ⟨hphi, rfl⟩ ha
    refine ⟨hus, hav, fun htop => ?_⟩
    have hist : IsTop st.values (x : ℤ) := ⟨by omega, by rw [Int.toNat_natCast]; exact htop⟩
    by_cases hb : st.values p = .bottom
    · have he : ((s.ctrl : ℤ), (x : ℤ)) ∈ G.phiEdges p := by
        refine List.mem_iff_getElem?.mpr ⟨k, ?_⟩
        unfold Graph.phiEdges
        rw [List.getElem?_zip_eq_some]
        exact ⟨Graph.edge_merge hm hedge, by rw [List.getElem?_drop, Nat.add_comm]; exact ha⟩
      have hcov := S.phis p hphi hu hb _ he hist
      rw [Int.toNat_natCast] at hcov
      exact hnon x hus (hav π hπ) hcov htop
    · obtain ⟨a, ha', hval⟩ := S.phi_operand W hphi hreal hu hb hπ.path hedge hfe.1 hnon
      rw [ha, Option.some.injEq] at ha'
      subst ha'
      rcases hval with heq | ⟨c, -, hc | ⟨-, hc⟩⟩ | ⟨-, -, hc | ⟨z, hc⟩, -⟩
      · obtain rfl := Int.ofNat_inj.mp heq
        exact hnon x hus (hav π hπ) (Or.inr ⟨x, (Graph.phi_root hphi).1⟩) htop
      · omega
      all_goals
        rw [Int.toNat_natCast, htop] at hc
        cases hc

/-- The operands of data that is evaluated are not TOP. -/
theorem operand_ne_top (hπ : FPath G st.values (s.ctrl :: π)) {x y : ℕ} (hx : G.Usable x)
    (hav : Avail G st.values s.ctrl x) (ht : st.values x ≠ .top) (hop : G.Operand x y) : st.values y ≠ .top := by
  have hpos := W.operand_pos hop
  by_cases hf : G.isFoldable x = true
  · have := S.base.kinds.folded x hf ht y hop.2 (by omega)
    rwa [Int.toNat_natCast] at this
  · intro hty
    have hnode := (S.node x hx.real).leaf hop.1 (by simpa using hf) hx.used
    have hbot : st.values x = .bottom := by
      rcases S.base.kinds.dataVal hx.kind ht with ⟨c, hc⟩ | hb | ⟨z, hz⟩
      · have := S.base.kinds.const x c hc
        simp only [Graph.hasValue, hf, Bool.false_or] at this
        simp [Graph.Operand, Graph.isFloating, this] at hop
      · exact hb
      · have := S.base.kinds.copy x z hz
        simp only [Graph.hasValue, hf, Bool.false_or] at this
        simp [Graph.Operand, Graph.isFloating, this] at hop
    have hvis := hnode.2 hbot y hop.2 ⟨by omega, by rw [Int.toNat_natCast]; exact hty⟩
    rw [Int.toNat_natCast] at hvis
    exact (S.nonTop W hπ).2 y (W.usable_operand hop) ((hav π hπ).operand hop) (Or.inl hvis) hty

/-- **A settled state describes every execution.** -/
theorem sound (hF : FoldSound G I F) : Sound G I st.values where
  executed s hs := by
    obtain ⟨⟨π, hπ⟩, -⟩ := S.right_of_reach W hF hs
    exact (S.nonTop W hπ).1 _ List.mem_cons_self
  needed s k s' hs hstep y hy := by
    obtain ⟨⟨π, hπ⟩, hright⟩ := S.right_of_reach W hF hs
    have hfe := S.edge_feasible W hstep hπ hright
    obtain ⟨hy0, x, hx, hxy⟩ := hy
    have hx0 : 0 < x := by
      rcases hxy.cases_head with rfl | ⟨z, hz, -⟩
      · exact hy0
      · exact (W.range x (Graph.floating_real hz.1)).1
    have hall : G.Usable y ∧ Avail G st.values s.ctrl y ∧ st.values y ≠ .top := by
      induction hxy with
      | refl => exact S.needed_ne_top W hstep.edge hπ hfe hx0 hx
      | @tail b c _ hbc ih =>
        obtain ⟨hus, hav, ht⟩ := ih (W.range b (Graph.floating_real hbc.1)).1
        exact ⟨W.usable_operand hbc, hav.below (.single hbc), S.operand_ne_top W hπ hus hav ht hbc⟩
    obtain ⟨hus, hav, ht⟩ := hall
    have hr := hright y hus hav
    exact ⟨ht, hr.const, hr.copy⟩
  phi s k s' hs hstep hm p hp hu := by
    obtain ⟨⟨π, hπ⟩, hright⟩ := S.right_of_reach W hF (hs.step hstep)
    obtain ⟨hroot, hpin⟩ := Graph.phi_root hp.1
    have hus : G.Usable p := by
      refine ⟨fun hnop => ?_, Or.inl (isData_of_isPhi hp.1), hu⟩
      have hd := isData_of_isPhi hp.1
      rw [hnop] at hd
      cases hd
    have hav : Avail G st.values s'.ctrl p := by
      intro π' _ y hy
      rw [Graph.eq_of_below (by simp [Graph.isFloating, hp.1]) hy.1, hpin, hp.2]
      exact List.mem_cons_self
    have hr := hright p hus hav
    exact ⟨(S.nonTop W hπ).2 p hus (hav π hπ) (Or.inr ⟨p, hroot⟩), hr.const, hr.copy⟩
  output s k s' u hs hstep hu := by
    obtain ⟨⟨π, hπ⟩, hright⟩ := S.right_of_reach W hF hs
    exact ((S.edge_feasible W hstep hπ hright).2 u hu).symm
  feasible s k s' hs hstep hm := by
    obtain ⟨⟨π, hπ⟩, hright⟩ := S.right_of_reach W hF hs
    have hfe := S.edge_feasible W hstep hπ hright
    have hk := Graph.edge_merge hm hstep.edge
    refine ⟨hfe.1, ?_⟩
    rcases (S.node _ (Graph.merge_real hm)).merge hm ⟨s.ctrl, List.mem_of_getElem? hk, by simpa using hfe.1⟩ with
      ⟨h1, h2⟩ | ⟨-, h2⟩
    · exact Or.inl ⟨h2, h1⟩
    · exact Or.inr h2

end Settled

end IrJit.Sccp
