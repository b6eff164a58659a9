import IrJit.Dessa.Blades
import IrJit.Lib.Orbit

/-!
# Dessa.Cycle — `ir_dessa_resolve_cycle`

The cycle of `root` is `root, parent root, parent (parent root), …`.  While it is resolved the value
of the root is in the temporary register, or in the slot `[rsp-16]` once a memory to memory move of
the cycle had to free that register (`Held`).  `CycInv` is `Inv` with the root excepted.

`resolveCycle_spec`: the cycle is removed from the pending destinations and `Inv` holds again,
provided its copies have one register class and size, or there are two of them, not both in memory
(`CycleKinds`).
-/

namespace IrJit.Dessa

/-- The copies along a cycle inside `T` have one register class and size, unless the cycle has two
elements one of which is a register. -/
def CycleKinds (e : Env) (T : Finset ℕ) : Prop :=
  ∀ c ∈ T, ∀ c' ∈ T, OnCycle e.pred c → OnCycle e.pred c' → e.pred c' = c →
    (e.types c).kind = (e.types c').kind ∨ (e.pred c = c' ∧ (c < regNum ∨ c' < regNum))

theorem CycleKinds.mono {e : Env} {T T' : Finset ℕ} (h : CycleKinds e T) (hsub : T' ⊆ T) :
    CycleKinds e T' :=
  fun c hc c' hc' => h c (hsub hc) c' (hsub hc')

/-- Where the value of the root of the cycle is: in `t`, or in the temporary slot. -/
def held (σ : State) (spilled : Bool) (t : ℕ) : Word := if spilled then σ.mem .tmpSpill else σ.reg t

/-- The invariant of the loop of `ir_dessa_resolve_cycle`. -/
structure CycInv (e : Env) (D S : Finset ℕ) (σ₀ : State) (root t : ℕ) (spilled : Bool)
    (T : Finset ℕ) (loc : ℕ → ℕ) (σ : State) : Prop where
  sub : T ⊆ D
  done : ∀ d ∈ D, d ∉ T → Agree (e.types d).size (σ.get d) (srcVal e.ctx σ₀ (e.pred d))
  need : ∀ d ∈ T, ∀ s : ℕ, e.pred d = s → s ≠ root →
    Agree (e.types d).size (σ.get (loc s)) (σ₀.get s)
  place : ∀ s ∈ S, s ≠ root → (loc s = s ∧ ∀ d ∈ D, e.pred d = s → d ∈ T) ∨
    (loc s ∈ D ∧ loc s ∉ T ∧ e.pred (loc s) = s)
  kids : ∀ d ∈ D, e.pred d = root → d ∈ T
  root_loc : loc root = t
  val : ∀ d ∈ D, e.pred d = root →
    Agree (e.types d).size (held σ spilled t) (σ₀.get root)

section

variable {e : Env} {D S : Finset ℕ} {σ₀ : State}

/-- What is known of the temporary register that holds the root. -/
structure TmpOk (e : Env) (D S T : Finset ℕ) (type : IrType) (t : ℕ) : Prop where
  tmp : tmpFor type e.tmp e.tmpFp = some t
  lt : t < regNum
  cls : ClassOk type t
  notSrc : t ∉ S
  pending : t ∈ D → t ∈ T

theorem tmpFor_kind {t u : IrType} (h : t.kind = u.kind) (tmp tmpFp : Option ℕ) :
    tmpFor t tmp tmpFp = tmpFor u tmp tmpFp := by
  unfold tmpFor
  rw [IrType.isInt_of_kind h]

/-- A copy inside the cycle, `dst` not being needed any more; `x` may be clobbered. -/
theorem CycInv.step (P : Prob e D S) {root t : ℕ} {spilled spilled' : Bool} {T : Finset ℕ}
    {loc : ℕ → ℕ} {σ σ' : State} {clob : Option ℕ}
    (h : CycInv e D S σ₀ root t spilled T loc σ) {dst src : ℕ} (hT : dst ∈ T)
    (hsrc : e.pred dst = src) (hsr : src ≠ root) (hfree : dst ≠ root → loc dst ≠ dst)
    (hclob : ∀ x, clob = some x → x ∉ S ∧ (x ∈ D → x ∈ T))
    (hm : Moved e.ctx (e.types dst) dst (loc src) clob σ σ')
    (hheld : ∀ d ∈ D, e.pred d = root →
      Agree (e.types d).size (held σ' spilled' t) (σ₀.get root)) :
    CycInv e D S σ₀ root t spilled' (T.erase dst) (Function.update loc src dst) σ' := by
  have hD : dst ∈ D := h.sub hT
  have hkeep : ∀ s ∈ S, s ≠ root → σ'.get (loc s) = σ.get (loc s) := by
    intro s hs hne
    rcases h.place s hs hne with ⟨hl, -⟩ | ⟨hlD, hlT, -⟩
    · refine hm.frame _ (fun he => ?_) fun hx => (hclob _ hx).1 (hl.symm ▸ hs)
      rw [hl] at he
      subst he
      exact hfree hne hl
    · exact hm.frame _ (fun he => hlT (he ▸ hT)) fun hx => hlT ((hclob _ hx).2 hlD)
  have hval : Agree (e.types dst).size (σ'.get dst) (σ₀.get src) := by
    have h1 := hm.val
    rw [srcVal_of_nat] at h1
    exact h1.trans (h.need dst hT src hsrc hsr)
  refine ⟨(Finset.erase_subset _ _).trans h.sub, ?_, ?_, ?_, ?_, ?_, hheld⟩
  · intro d hd hdT
    by_cases hdd : d = dst
    · rw [hdd, hsrc, srcVal_of_nat]
      exact hval
    · have hdT' : d ∉ T := fun hc => hdT (Finset.mem_erase.mpr ⟨hdd, hc⟩)
      rw [hm.frame d hdd fun hx => hdT' ((hclob d hx).2 hd)]
      exact h.done d hd hdT'
  · intro d hd s hs hne
    obtain ⟨hdd, hdT⟩ := Finset.mem_erase.mp hd
    by_cases hss : s = src
    · subst hss
      rw [Function.update_self, IrType.size_of_kind (P.kind_of_src (h.sub hdT) hD hs hsrc)]
      exact hval
    · rw [Function.update_of_ne hss, hkeep s (P.src_mem d (h.sub hdT) s hs) hne]
      exact h.need d hdT s hs hne
  · intro s hs hne
    by_cases hss : s = src
    · subst hss
      rw [Function.update_self]
      exact Or.inr ⟨hD, Finset.notMem_erase _ _, hsrc⟩
    · rw [Function.update_of_ne hss]
      rcases h.place s hs hne with ⟨hl, hch⟩ | ⟨hlD, hlT, hp⟩
      · refine Or.inl ⟨hl, fun d hd hp => Finset.mem_erase.mpr ⟨?_, hch d hd hp⟩⟩
        rintro rfl
        exact hss (by omega)
      · exact Or.inr ⟨hlD, fun hc => hlT (Finset.mem_of_mem_erase hc), hp⟩
  · intro d hd hp
    refine Finset.mem_erase.mpr ⟨?_, h.kids d hd hp⟩
    rintro rfl
    exact hsr (by omega)
  · rw [Function.update_of_ne (Ne.symm hsr)]
    exact h.root_loc

/-- The last copy of the cycle, from the temporary register. -/
theorem CycInv.close (P : Prob e D S) {root t : ℕ} {spilled : Bool} {T : Finset ℕ}
    {loc : ℕ → ℕ} {σ σ' : State} (h : CycInv e D S σ₀ root t spilled T loc σ) {dst : ℕ}
    (hT : dst ∈ T) (hsrc : e.pred dst = root) (hfree : dst ≠ root → loc dst ≠ dst)
    (ht : TmpOk e D S T (e.types dst) t)
    (hval : Agree (e.types dst).size (σ'.get dst) (σ₀.get root))
    (hframe : ∀ l, l ≠ dst → l ≠ t → σ'.get l = σ.get l) :
    Inv e D S σ₀ (T.erase dst) (Function.update loc root dst) σ' := by
  have hD : dst ∈ D := h.sub hT
  have hkeep : ∀ s ∈ S, s ≠ root → σ'.get (loc s) = σ.get (loc s) := by
    intro s hs hne
    rcases h.place s hs hne with ⟨hl, -⟩ | ⟨hlD, hlT, -⟩
    · refine hframe _ (fun he => ?_) fun he => ht.notSrc (he ▸ hl.symm ▸ hs)
      rw [hl] at he
      subst he
      exact hfree hne hl
    · exact hframe _ (fun he => hlT (he ▸ hT)) fun he => hlT (he ▸ ht.pending (he ▸ hlD))
  refine ⟨(Finset.erase_subset _ _).trans h.sub, ?_, ?_, ?_⟩
  · intro d hd hdT
    by_cases hdd : d = dst
    · rw [hdd, hsrc, srcVal_of_nat]
      exact hval
    · have hdT' : d ∉ T := fun hc => hdT (Finset.mem_erase.mpr ⟨hdd, hc⟩)
      rw [hframe d hdd fun he => hdT' (he ▸ ht.pending (he ▸ hd))]
      exact h.done d hd hdT'
  · intro d hd s hs
    obtain ⟨hdd, hdT⟩ := Finset.mem_erase.mp hd
    by_cases hss : s = root
    · subst hss
      rw [Function.update_self, IrType.size_of_kind (P.kind_of_src (h.sub hdT) hD hs hsrc)]
      exact hval
    · rw [Function.update_of_ne hss, hkeep s (P.src_mem d (h.sub hdT) s hs) hss]
      exact h.need d hdT s hs hss
  · intro s hs
    by_cases hss : s = root
    · subst hss
      rw [Function.update_self]
      exact Or.inr ⟨hD, Finset.notMem_erase _ _, hsrc⟩
    · rw [Function.update_of_ne hss]
      rcases h.place s hs hss with ⟨hl, hch⟩ | ⟨hlD, hlT, hp⟩
      · refine Or.inl ⟨hl, fun d hd hp => Finset.mem_erase.mpr ⟨?_, hch d hd hp⟩⟩
        rintro rfl
        exact hss (by omega)
      · exact Or.inr ⟨hlD, fun hc => hlT (Finset.mem_of_mem_erase hc), hp⟩

/-- Saving the temporary register to `[rsp-16]`. -/
theorem CycInv.spill {root t : ℕ} {T : Finset ℕ} {loc : ℕ → ℕ} {σ : State} {v : Word} {n : ℕ}
    (h : CycInv e D S σ₀ root t false T loc σ) (hn : ∀ d ∈ D, e.pred d = root → (e.types d).size = n)
    (hv : Agree n v (σ.reg t)) :
    CycInv e D S σ₀ root t true T loc (σ.setMem .tmpSpill v) where
  sub := h.sub
  done := fun d hd hdT => by simpa using h.done d hd hdT
  need := fun d hd s hs hne => by simpa using h.need d hd s hs hne
  place := h.place
  kids := h.kids
  root_loc := h.root_loc
  val := fun d hd hp => by
    have h1 := h.val d hd hp
    rw [hn d hd hp] at h1 ⊢
    simp only [held, State.mem_setMem_self, if_true, Bool.false_eq_true, if_false] at h1 ⊢
    exact hv.trans h1

/-! ### The loop -/

/-- The cycle that is resolved: `k` its length, `t` the register that holds the root. -/
structure Cyc (e : Env) (D S : Finset ℕ) (root k t : ℕ) : Prop where
  on : OnCycle e.pred root
  pos : 0 < k
  ret : (parent e.pred)^[k] root = root
  min : ∀ i, 0 < i → i < k → (parent e.pred)^[i] root ≠ root
  mem : ∀ i, (parent e.pred)^[i] root ∈ D
  lt : t < regNum
  notSrc : t ∉ S
  /-- the last copy of the cycle and every memory to memory copy use the class of `t` -/
  tmp : tmpFor (e.types ((parent e.pred)^[k - 1] root)) e.tmp e.tmpFp = some t
  cls : ClassOk (e.types ((parent e.pred)^[k - 1] root)) t
  m2m : ∀ i, i + 1 < k → regNum ≤ (parent e.pred)^[i] root → regNum ≤ (parent e.pred)^[i + 1] root →
    (e.types ((parent e.pred)^[i] root)).kind = (e.types ((parent e.pred)^[k - 1] root)).kind

theorem Cyc.pred_iterate {root k t : ℕ} (C : Cyc e D S root k t) (i : ℕ) :
    e.pred ((parent e.pred)^[i] root) = ((parent e.pred)^[i + 1] root : ℕ) := by
  rw [← iterate_parent_succ, cast_parent (C.on.1 i)]

theorem Cyc.iterate_mem_src (P : Prob e D S) {root k t : ℕ} (C : Cyc e D S root k t) (i : ℕ) :
    (parent e.pred)^[i] root ∈ S := by
  obtain ⟨n, hn, hx⟩ := C.on.2
  have h1 : (parent e.pred)^[(i + n - 1) + 1] root = (parent e.pred)^[i] root := by
    rw [Nat.sub_add_cancel (by omega), Function.iterate_add_apply, hx]
  rw [← h1]
  exact P.src_mem _ (C.mem (i + n - 1)) _ (C.pred_iterate (i + n - 1))

theorem Cyc.pred_last {root k t : ℕ} (C : Cyc e D S root k t) :
    e.pred ((parent e.pred)^[k - 1] root) = root := by
  rw [C.pred_iterate, Nat.sub_add_cancel C.pos, C.ret]

theorem Cyc.kind_root (P : Prob e D S) {root k t : ℕ} (C : Cyc e D S root k t) {d : ℕ} (hd : d ∈ D)
    (hp : e.pred d = root) : (e.types d).kind = (e.types ((parent e.pred)^[k - 1] root)).kind :=
  P.kind_of_src hd (C.mem _) hp C.pred_last

theorem clobberOf_none (ctx : Ctx) (t : IrType) (dst : ℕ) (src : ℤ) :
    clobberOf ctx t dst src none none = none := by
  unfold clobberOf tmpFor
  split_ifs <;> rfl

/-- A move that needs no temporary register. -/
theorem emitDessaMove_direct (ctx : Ctx) {t : IrType} {dst src : ℕ} (hd : ClassOk t dst)
    (hs : ClassOk t src) (hreg : dst < regNum ∨ src < regNum) (σ : State) :
    ∃ c, emitDessaMove ctx t dst src none none = some c ∧
      ∃ σ', exec ctx c σ = some σ' ∧ Moved ctx t dst src none σ σ' := by
  have hno : needsTmp ctx t dst src = false := by
    unfold needsTmp
    rcases hreg with h | h <;> simp [h, natCast_not_neg]
  obtain ⟨c, hc, hex⟩ := emitDessaMove_spec ctx t dst src none none hd (fun _ => by simpa using hs)
    (fun hla => absurd hla.1 (natCast_not_neg src)) (fun h => absurd h (by simp [hno]))
  obtain ⟨σ', h1, h2⟩ := hex σ
  rw [clobberOf_none] at h2
  exact ⟨c, hc, σ', h1, h2⟩

/-- A memory to memory move, through the register `t`. -/
theorem emitDessaMove_m2m (ctx : Ctx) {type : IrType} {dst src t : ℕ} {tmp tmpFp : Option ℕ}
    (hd : regNum ≤ dst) (hs : regNum ≤ src) (ht : tmpFor type tmp tmpFp = some t) (hlt : t < regNum)
    (hcls : ClassOk type t) (σ : State) :
    ∃ c, emitDessaMove ctx type dst src tmp tmpFp = some c ∧
      ∃ σ', exec ctx c σ = some σ' ∧ Moved ctx type dst src (some t) σ σ' := by
  have hmem : ∀ {l : ℕ}, regNum ≤ l → ClassOk type l := fun h hl => absurd hl (not_lt.mpr h)
  obtain ⟨c, hc, hex⟩ := emitDessaMove_spec ctx type dst src tmp tmpFp (hmem hd)
    (fun _ => hmem (by simpa using hs)) (fun hla => absurd hla.1 (natCast_not_neg src))
    (fun _ => ⟨t, ht, hlt, hcls⟩)
  obtain ⟨σ', h1, h2⟩ := hex σ
  have hyes : needsTmp ctx type dst src = true := by
    simp [needsTmp, natCast_not_neg, not_lt.mpr hd, not_lt.mpr hs]
  rw [clobberOf, if_pos hyes, ht] at h2
  exact ⟨c, hc, σ', h1, h2⟩

/-- The end of the loop: the value of the root goes to the last destination. -/
theorem resolveCycleLoop_last (P : Prob e D S) {root k t : ℕ} (C : Cyc e D S root k t) (fuel : ℕ) {i : ℕ}
    (hi : i + 1 = k) {spilled : Bool} {st : PcState} {σ : State}
    (hex : exec e.ctx st.code σ₀ = some σ)
    (h : CycInv e D S σ₀ root t spilled st.todo st.loc σ)
    (hT : (parent e.pred)^[i] root ∈ st.todo)
    (hfree : (parent e.pred)^[i] root ≠ root → st.loc ((parent e.pred)^[i] root) ≠ (parent e.pred)^[i] root)
    (hpend : t ∈ D → t ∈ st.todo) :
    ∃ st', resolveCycleLoop e root (fuel + 1) ((parent e.pred)^[i] root) spilled st = some st' ∧
      Reached e D S σ₀ st' ∧ st'.todo = st.todo.erase ((parent e.pred)^[i] root) ∧
      st'.loc = Function.update st.loc root ((parent e.pred)^[i] root) := by
  have hlast : k - 1 = i := by omega
  have htmp := C.tmp
  have hcls := C.cls
  have hpl := C.pred_last
  rw [hlast] at htmp hcls hpl
  set dst := (parent e.pred)^[i] root with hdst
  have hD : dst ∈ D := h.sub hT
  have hsrc : (e.pred dst).toNat = root := by omega
  -- the reload of the temporary register
  obtain ⟨reload, hrl, σ₁, hex₁, hval₁, hfr₁⟩ : ∃ reload,
      reloadTmp e (e.types dst) spilled = some reload ∧
      ∃ σ₁, exec e.ctx reload σ = some σ₁ ∧
        Agree (e.types dst).size (σ₁.get t) (σ₀.get root) ∧ ∀ l, l ≠ t → σ₁.get l = σ.get l := by
    have hv := h.val dst hD hpl
    cases spilled with
    | false => exact ⟨[], rfl, σ, rfl, by rwa [σ.get_reg C.lt], fun _ _ => rfl⟩
    | true =>
      obtain ⟨w, hex', hw⟩ := exec_emitLoadMem e.ctx σ .tmpSpill hcls C.lt
      refine ⟨_, by simp [reloadTmp, htmp], _, exec_one hex', ?_, ?_⟩
      · rw [State.get_setReg_self σ w C.lt]
        exact hw.trans hv
      · exact fun l hl => State.get_setReg_of_ne σ w hl
  obtain ⟨c, hc, σ', hex', hm⟩ := emitDessaMove_direct e.ctx (P.dst_class dst hD) hcls
    (Or.inr C.lt) σ₁
  have hval : Agree (e.types dst).size (σ'.get dst) (σ₀.get root) := by
    have h1 := hm.val
    rw [srcVal_of_nat] at h1
    exact h1.trans hval₁
  have hframe : ∀ l, l ≠ dst → l ≠ t → σ'.get l = σ.get l := fun l hl hlt => by
    rw [hm.frame l hl (by simp), hfr₁ l hlt]
  refine ⟨⟨st.todo.erase dst, Function.update st.loc root dst, st.code ++ reload ++ c⟩, ?_,
    ⟨σ', ?_, h.close P hT hpl hfree ⟨htmp, C.lt, hcls, C.notSrc, hpend⟩ hval hframe⟩, rfl, rfl⟩
  · unfold resolveCycleLoop
    simp only [hsrc, if_true, h.root_loc, hrl, hc]
    rfl
  · rw [exec_append, exec_append, hex, Option.bind_some, hex₁, Option.bind_some, hex']

/-- One copy inside the loop. -/
theorem resolveCycleLoop_step (P : Prob e D S) {root k t : ℕ} (C : Cyc e D S root k t) (fuel : ℕ) {i : ℕ}
    (hi : i + 1 < k) {spilled : Bool} {st : PcState} {σ : State}
    (hex : exec e.ctx st.code σ₀ = some σ)
    (h : CycInv e D S σ₀ root t spilled st.todo st.loc σ)
    (hT : (parent e.pred)^[i] root ∈ st.todo)
    (hfree : (parent e.pred)^[i] root ≠ root → st.loc ((parent e.pred)^[i] root) ≠ (parent e.pred)^[i] root)
    (hnext : st.loc ((parent e.pred)^[i + 1] root) = (parent e.pred)^[i + 1] root)
    (hpend : t ∈ D → t ∈ st.todo) :
    ∃ spilled' code' σ',
      resolveCycleLoop e root (fuel + 1) ((parent e.pred)^[i] root) spilled st =
        resolveCycleLoop e root fuel ((parent e.pred)^[i + 1] root) spilled'
          ⟨st.todo.erase ((parent e.pred)^[i] root),
            Function.update st.loc ((parent e.pred)^[i + 1] root) ((parent e.pred)^[i] root), code'⟩ ∧
      exec e.ctx code' σ₀ = some σ' ∧
      CycInv e D S σ₀ root t spilled' (st.todo.erase ((parent e.pred)^[i] root))
        (Function.update st.loc ((parent e.pred)^[i + 1] root) ((parent e.pred)^[i] root)) σ' := by
  have hpred := C.pred_iterate i
  have hne := C.min (i + 1) (by omega) hi
  have hm2m := C.m2m i hi
  have hmemS := C.iterate_mem_src P i
  set dst := (parent e.pred)^[i] root
  set src := (parent e.pred)^[i + 1] root
  have hD : dst ∈ D := h.sub hT
  have hsrc : (e.pred dst).toNat = src := by omega
  have htd : t ≠ dst := fun he => C.notSrc (he ▸ hmemS)
  have hsize : ∀ d ∈ D, e.pred d = root →
      (e.types d).size = (e.types ((parent e.pred)^[k - 1] root)).size :=
    fun d hd hp => IrType.size_of_kind (C.kind_root P hd hp)
  by_cases hmm : regNum ≤ dst ∧ regNum ≤ src
  · -- memory to memory: the temporary register is freed first
    have hkind := hm2m hmm.1 hmm.2
    have htmp : tmpFor (e.types dst) e.tmp e.tmpFp = some t := tmpFor_kind hkind _ _ ▸ C.tmp
    have hcls : ClassOk (e.types dst) t := C.cls.of_kind hkind.symm
    obtain ⟨save, hsv, σ₁, hex₁, hinv₁⟩ : ∃ save,
        saveTmp e (e.types dst) spilled = some save ∧
        ∃ σ₁, exec e.ctx save σ = some σ₁ ∧ CycInv e D S σ₀ root t true st.todo st.loc σ₁ := by
      cases spilled with
      | true => exact ⟨[], rfl, σ, rfl, h⟩
      | false =>
        obtain ⟨v, hex', hv⟩ := exec_emitStoreMem e.ctx σ .tmpSpill hcls C.lt
        refine ⟨_, by simp [saveTmp, htmp], _,
          exec_one hex', h.spill (n := (e.types dst).size) (fun d hd hp => ?_) hv⟩
        rw [hsize d hd hp, IrType.size_of_kind hkind]
    obtain ⟨c, hc, σ', hex', hm⟩ := emitDessaMove_m2m e.ctx hmm.1 hmm.2 htmp C.lt hcls σ₁
    refine ⟨true, st.code ++ save ++ c, σ', ?_, ?_, ?_⟩
    · conv_lhs => unfold resolveCycleLoop
      simp only [hsrc, hne, if_false, hnext, hmm, and_self, if_true, hsv, hc]
      rfl
    · rw [exec_append, exec_append, hex, Option.bind_some, hex₁, Option.bind_some, hex']
    · refine hinv₁.step P hT hpred hne hfree (fun x hx => ?_) (by rw [hnext]; exact hm) ?_
      · obtain rfl : t = x := by simpa using hx
        exact ⟨C.notSrc, hpend⟩
      · intro d hd hp
        have h1 := hinv₁.val d hd hp
        simp only [held, if_true] at h1 ⊢
        rwa [hm.spill]
  · have hreg : dst < regNum ∨ src < regNum := by omega
    obtain ⟨c, hc, σ', hex', hm⟩ := emitDessaMove_direct e.ctx (P.dst_class dst hD)
      (P.src_class dst hD src hpred) hreg σ
    refine ⟨spilled, st.code ++ c, σ', ?_, ?_, ?_⟩
    · conv_lhs => unfold resolveCycleLoop
      simp only [hsrc, hne, if_false, hnext, hmm, hc]
      rfl
    · rw [exec_append, hex, Option.bind_some, hex']
    · have hm' : Moved e.ctx (e.types dst) dst (st.loc src) none σ σ' := by rwa [hnext]
      refine h.step P hT hpred hne hfree (fun x hx => absurd hx (by simp)) hm' ?_
      intro d hd hp
      have h1 := h.val d hd hp
      unfold held at h1 ⊢
      rw [hm.spill, ← σ'.get_reg C.lt, hm.frame t htd (by simp), σ.get_reg C.lt]
      exact h1

/-- **The loop**, from the `i`-th element of the cycle on. -/
theorem resolveCycleLoop_spec (P : Prob e D S) {root k t : ℕ} (C : Cyc e D S root k t) :
    ∀ (fuel i : ℕ) (spilled : Bool) (st : PcState) (σ : State), i < k → k - i ≤ fuel →
      exec e.ctx st.code σ₀ = some σ → CycInv e D S σ₀ root t spilled st.todo st.loc σ →
      (∀ j, i ≤ j → j < k → (parent e.pred)^[j] root ∈ st.todo) →
      (∀ j, i < j → j < k → st.loc ((parent e.pred)^[j] root) = (parent e.pred)^[j] root) →
      ((parent e.pred)^[i] root ≠ root → st.loc ((parent e.pred)^[i] root) ≠ (parent e.pred)^[i] root) →
      (t ∈ D → t ∈ st.todo) →
      ∃ st', resolveCycleLoop e root fuel ((parent e.pred)^[i] root) spilled st = some st' ∧
        Reached e D S σ₀ st' ∧
        (∀ x, x ∈ st'.todo ↔ x ∈ st.todo ∧ ∀ j, i ≤ j → j < k → (parent e.pred)^[j] root ≠ x) ∧
        (∀ s, (∀ j, j < k → (parent e.pred)^[j] root ≠ s) → st'.loc s = st.loc s) := by
  intro fuel
  induction fuel with
  | zero => exact fun i _ _ _ hi hf => absurd hf (by omega)
  | succ fuel ih =>
    intro i spilled st σ hi hf hex h hT hloc hfree hpend
    by_cases hlast : i + 1 = k
    · obtain ⟨st', h1, h2, h3, h4⟩ := resolveCycleLoop_last P C fuel hlast hex h
        (hT i le_rfl hi) hfree hpend
      refine ⟨st', h1, h2, fun x => ?_, fun s hs => ?_⟩
      · rw [h3, Finset.mem_erase, and_comm]
        refine and_congr_right fun _ => ⟨fun hx j hj hjk he => hx ?_, fun hx he => hx i le_rfl hi he.symm⟩
        rw [← he, show j = i by omega]
      · rw [h4]
        exact Function.update_of_ne (fun he => hs 0 C.pos he.symm) _ _
    · have hi' : i + 1 < k := by omega
      obtain ⟨sp, code', σ', h1, h2, h3⟩ := resolveCycleLoop_step P C fuel hi' hex h
        (hT i le_rfl hi) hfree (hloc (i + 1) (by omega) hi') hpend
      have hdist : ∀ j, i + 1 < j → j < k →
          (parent e.pred)^[j] root ≠ (parent e.pred)^[i + 1] root := fun j hj hjk =>
        (iterate_ne_of_lt C.ret C.min hj hjk).symm
      have hne0 : ∀ j, i < j → j < k → (parent e.pred)^[j] root ≠ (parent e.pred)^[i] root :=
        fun j hj hjk => (iterate_ne_of_lt C.ret C.min hj hjk).symm
      have hT' : ∀ j, i + 1 ≤ j → j < k →
          (parent e.pred)^[j] root ∈ st.todo.erase ((parent e.pred)^[i] root) := fun j hj hjk =>
        Finset.mem_erase.mpr ⟨hne0 j (by omega) hjk, hT j (by omega) hjk⟩
      have hpend' : t ∈ D → t ∈ st.todo.erase ((parent e.pred)^[i] root) := fun hD =>
        Finset.mem_erase.mpr ⟨fun he => C.notSrc (he ▸ C.iterate_mem_src P i), hpend hD⟩
      have hloc' : ∀ j, i + 1 < j → j < k →
          Function.update st.loc ((parent e.pred)^[i + 1] root) ((parent e.pred)^[i] root)
            ((parent e.pred)^[j] root) = (parent e.pred)^[j] root := fun j hj hjk => by
        rw [Function.update_of_ne (hdist j hj hjk)]
        exact hloc j (by omega) hjk
      have hfree' : (parent e.pred)^[i + 1] root ≠ root →
          Function.update st.loc ((parent e.pred)^[i + 1] root) ((parent e.pred)^[i] root)
            ((parent e.pred)^[i + 1] root) ≠ (parent e.pred)^[i + 1] root := fun _ => by
        rw [Function.update_self]
        exact (hne0 (i + 1) (by omega) hi').symm
      obtain ⟨st', h4, h5, h6, h7⟩ := ih (i + 1) sp ⟨_, _, code'⟩ σ' hi' (by omega) h2 h3 hT' hloc'
        hfree' hpend'
      refine ⟨st', h1.trans h4, h5, fun x => ?_, fun s hs => ?_⟩
      · rw [h6 x]
        show x ∈ st.todo.erase _ ∧ _ ↔ _
        rw [Finset.mem_erase, and_comm (a := x ≠ _), and_assoc]
        refine and_congr_right fun _ => ⟨fun ⟨hx, hrest⟩ j hj hjk => ?_, fun hx => ⟨?_, ?_⟩⟩
        · by_cases hji : j = i
          · exact hji ▸ Ne.symm hx
          · exact hrest j (by omega) hjk
        · exact (hx i le_rfl hi).symm
        · exact fun j hj hjk => hx j (by omega) hjk
      · rw [h7 s hs]
        exact Function.update_of_ne (hs (i + 1) hi').symm _ _

/-! ### The whole cycle -/

/-- The first step: the root is saved in the temporary register. -/
theorem CycInv.start (P : Prob e D S) {root k t : ℕ} (C : Cyc e D S root k t) {T : Finset ℕ}
    {loc : ℕ → ℕ} {σ : State} {v : Word} (h : Inv e D S σ₀ T loc σ) (hroot : loc root = root)
    (hpend : t ∈ D → t ∈ T)
    (hv : Agree (e.types ((parent e.pred)^[k - 1] root)).size v (σ.get root)) :
    CycInv e D S σ₀ root t false T (Function.update loc root t) (σ.setReg t v) := by
  have hrS := C.iterate_mem_src P 0
  have hkeep : ∀ l, l ≠ t → (σ.setReg t v).get l = σ.get l := fun l hl =>
    State.get_setReg_of_ne σ v hl
  have hkids : ∀ d ∈ D, e.pred d = root → d ∈ T := by
    rcases h.loc root hrS with ⟨-, hk⟩ | ⟨hlD, -, hp⟩
    · exact hk
    · rw [hroot] at hlD hp
      exact absurd hp (P.pred_ne root hlD)
  refine ⟨h.sub, ?_, ?_, ?_, hkids, Function.update_self .., ?_⟩
  · intro d hd hdT
    rw [hkeep d fun he => hdT (he ▸ hpend (he ▸ hd))]
    exact h.done d hd hdT
  · intro d hd s hs hne
    rw [Function.update_of_ne hne, hkeep]
    · exact h.need d hd s hs
    · rcases h.loc s (P.src_mem d (h.sub hd) s hs) with ⟨hl, -⟩ | ⟨hlD, hlT, -⟩
      · exact fun he => C.notSrc (he ▸ hl.symm ▸ P.src_mem d (h.sub hd) s hs)
      · exact fun he => hlT (he ▸ hpend (he ▸ hlD))
  · intro s hs hne
    rw [Function.update_of_ne hne]
    exact h.loc s hs
  · intro d hd hp
    have h1 := h.need d (hkids d hd hp) root hp
    rw [hroot] at h1
    rw [IrType.size_of_kind (C.kind_root P hd hp)] at h1 ⊢
    show Agree _ ((σ.setReg t v).reg t) _
    rw [← State.get_reg _ C.lt, State.get_setReg_self σ v C.lt]
    exact hv.trans h1

/-- The exchange of two registers. -/
theorem Inv.swap (P : Prob e D S) {T : Finset ℕ} {loc : ℕ → ℕ} {σ : State} {a b : ℕ}
    (h : Inv e D S σ₀ T loc σ) (ha : a ∈ T) (hb : b ∈ T) (hab : e.pred a = b) (hba : e.pred b = a)
    (hla : loc a = a) (hlb : loc b = b) (hal : a < regNum) (hbl : b < regNum)
    {n : ℕ} (hna : (e.types a).size ≤ n) (hnb : (e.types b).size ≤ n) :
    Inv e D S σ₀ ((T.erase b).erase a) (Function.update (Function.update loc a b) b a)
      ((σ.setReg a (writeGp n (σ.reg a) (σ.reg b))).setReg b (writeGp n (σ.reg b) (σ.reg a))) := by
  have hne : a ≠ b := fun he => P.pred_ne a (h.sub ha) (by rw [hab, ← he])
  have haD := h.sub ha
  have hbD := h.sub hb
  set σ' := (σ.setReg a (writeGp n (σ.reg a) (σ.reg b))).setReg b (writeGp n (σ.reg b) (σ.reg a))
  have hga : Agree n (σ'.get a) (σ.get b) := by
    rw [State.get_setReg_of_ne _ _ hne, State.get_setReg_self _ _ hal, σ.get_reg hbl]
    exact agree_writeGp n _ _
  have hgb : Agree n (σ'.get b) (σ.get a) := by
    rw [State.get_setReg_self _ _ hbl, σ.get_reg hal]
    exact agree_writeGp n _ _
  have hfr : ∀ l, l ≠ a → l ≠ b → σ'.get l = σ.get l := fun l h1 h2 => by
    rw [State.get_setReg_of_ne _ _ h2, State.get_setReg_of_ne _ _ h1]
  have hva : Agree (e.types a).size (σ'.get a) (σ₀.get b) := by
    have h1 := h.need a ha b hab
    rw [hlb] at h1
    exact (hga.mono hna).trans h1
  have hvb : Agree (e.types b).size (σ'.get b) (σ₀.get a) := by
    have h1 := h.need b hb a hba
    rw [hla] at h1
    exact (hgb.mono hnb).trans h1
  have hlocb : Function.update (Function.update loc a b) b a b = a := Function.update_self ..
  have hloca : Function.update (Function.update loc a b) b a a = b := by
    rw [Function.update_of_ne hne, Function.update_self]
  have hloc : ∀ s, s ≠ a → s ≠ b → Function.update (Function.update loc a b) b a s = loc s :=
    fun s h1 h2 => by rw [Function.update_of_ne h2, Function.update_of_ne h1]
  refine ⟨((Finset.erase_subset _ _).trans (Finset.erase_subset _ _)).trans h.sub, ?_, ?_, ?_⟩
  · intro d hd hdT
    by_cases hda : d = a
    · rw [hda, hab, srcVal_of_nat]
      exact hva
    by_cases hdb : d = b
    · rw [hdb, hba, srcVal_of_nat]
      exact hvb
    rw [hfr d hda hdb]
    refine h.done d hd fun hc => hdT ?_
    exact Finset.mem_erase.mpr ⟨hda, Finset.mem_erase.mpr ⟨hdb, hc⟩⟩
  · intro d hd s hs
    have hdT : d ∈ T := Finset.mem_of_mem_erase (Finset.mem_of_mem_erase hd)
    have hdD := h.sub hdT
    by_cases hsa : s = a
    · subst hsa
      rw [hloca, IrType.size_of_kind (P.kind_of_src hdD hbD hs hba)]
      exact hvb
    by_cases hsb : s = b
    · subst hsb
      rw [hlocb, IrType.size_of_kind (P.kind_of_src hdD haD hs hab)]
      exact hva
    rw [hloc s hsa hsb, hfr]
    · exact h.need d hdT s hs
    all_goals
      rcases h.loc s (P.src_mem d hdD s hs) with ⟨hl, -⟩ | ⟨-, hlT, -⟩
      · rwa [hl]
      · exact fun he => hlT (by rwa [he])
  · intro s hs
    by_cases hsa : s = a
    · subst hsa
      rw [hloca]
      exact Or.inr ⟨hbD, fun hc => absurd (Finset.mem_of_mem_erase hc) (Finset.notMem_erase _ _), hba⟩
    by_cases hsb : s = b
    · subst hsb
      rw [hlocb]
      exact Or.inr ⟨haD, Finset.notMem_erase _ _, hab⟩
    rw [hloc s hsa hsb]
    rcases h.loc s hs with ⟨hl, hch⟩ | ⟨hlD, hlT, hp⟩
    · refine Or.inl ⟨hl, fun d hd hp => Finset.mem_erase.mpr ⟨?_, Finset.mem_erase.mpr ⟨?_, hch d hd hp⟩⟩⟩
      · rintro rfl
        exact hsb (by omega)
      · rintro rfl
        exact hsa (by omega)
    · exact Or.inr ⟨hlD, fun hc => hlT (Finset.mem_of_mem_erase (Finset.mem_of_mem_erase hc)), hp⟩

/-- On a cycle of at least three elements all kinds agree. -/
theorem CycleKinds.eq_iterate {T : Finset ℕ} (hK : CycleKinds e T) {root k : ℕ}
    (hon : OnCycle e.pred root) (hT : ∀ i, (parent e.pred)^[i] root ∈ T)
    (hmin : ∀ i, 0 < i → i < k → (parent e.pred)^[i] root ≠ root) (hk : 2 < k) (i : ℕ) :
    (e.types ((parent e.pred)^[i] root)).kind = (e.types root).kind := by
  induction i with
  | zero => rfl
  | succ i ih =>
    rw [← ih]
    have hpred : e.pred ((parent e.pred)^[i] root) = ((parent e.pred)^[i + 1] root : ℕ) := by
      rw [← iterate_parent_succ, cast_parent (hon.1 i)]
    rcases hK _ (hT (i + 1)) _ (hT i) (hon.iterate (i + 1)) (hon.iterate i) hpred with h | ⟨h2, -⟩
    · exact h
    · -- two steps lead back: the cycle would have length two
      exfalso
      have hback : (parent e.pred)^[i + 2] root = (parent e.pred)^[i] root := by
        rw [← iterate_parent_succ, parent_eq h2]
      have hx : (parent e.pred)^[2] ((parent e.pred)^[i] root) = (parent e.pred)^[i] root := by
        rw [← Function.iterate_add_apply, Nat.add_comm]
        exact hback
      obtain ⟨m, hm⟩ := hon.back i
      refine hmin 2 (by omega) hk ?_
      calc (parent e.pred)^[2] root
          = (parent e.pred)^[2] ((parent e.pred)^[m] ((parent e.pred)^[i] root)) := by rw [hm]
        _ = (parent e.pred)^[m] ((parent e.pred)^[2] ((parent e.pred)^[i] root)) := by
          rw [← Function.iterate_add_apply, Nat.add_comm, Function.iterate_add_apply]
        _ = root := by rw [hx, hm]

/-- **`ir_dessa_resolve_cycle`.**  All elements of the cycle are pending and at their own place. -/
theorem resolveCycle_spec (P : Prob e D S) {root : ℕ} {st : PcState} (hK : CycleKinds e st.todo)
    (hR : Reached e D S σ₀ st) (hon : OnCycle e.pred root)
    (hT : ∀ i, (parent e.pred)^[i] root ∈ st.todo)
    (hloc : ∀ i, st.loc ((parent e.pred)^[i] root) = (parent e.pred)^[i] root)
    (hpend : ∀ t, e.tmp = some t ∨ e.tmpFp = some t → t ∈ D → t ∈ st.todo) :
    ∃ st', resolveCycle e root st = some st' ∧ Reached e D S σ₀ st' ∧
      (∀ x, x ∈ st'.todo ↔ x ∈ st.todo ∧ ∀ j, (parent e.pred)^[j] root ≠ x) ∧
      (∀ s, (∀ j, (parent e.pred)^[j] root ≠ s) → st'.loc s = st.loc s) := by
  obtain ⟨k, hk, hret, hmin⟩ := hon.period
  obtain ⟨σ, hex, hinv⟩ := hR.inv
  have hD : ∀ i, (parent e.pred)^[i] root ∈ D := fun i => hinv.sub (hT i)
  have hpred : ∀ i, e.pred ((parent e.pred)^[i] root) = ((parent e.pred)^[i + 1] root : ℕ) := fun i => by
    rw [← iterate_parent_succ, cast_parent (hon.1 i)]
  have hk1 : k ≠ 1 := by
    rintro rfl
    refine P.pred_ne root (hD 0) ?_
    have h0 := hpred 0
    rwa [hret] at h0
  have hsrc : (e.pred root).toNat = (parent e.pred)^[1] root := rfl
  unfold resolveCycle
  simp only [hsrc]
  by_cases hswap : ((e.types ((parent e.pred)^[1] root)).isInt &&
      decide (e.pred ((parent e.pred)^[1] root) = root) && decide (root < regNum) &&
      decide ((parent e.pred)^[1] root < regNum)) = true
  · -- two registers are exchanged
    rw [if_pos hswap]
    simp only [Bool.and_eq_true, decide_eq_true_eq] at hswap
    obtain ⟨⟨⟨hint, hback⟩, hrl⟩, hsl⟩ := hswap
    have hk2 : k = 2 := by
      by_contra hne
      refine hmin 2 (by omega) (by omega) ?_
      rw [← iterate_parent_succ, parent_eq hback]
    subst hk2
    set b := (parent e.pred)^[1] root
    have hab : e.pred root = b := hpred 0
    have hgpb : isGpReg b = true := (P.dst_class b (hD 1)).gp hsl hint
    have hgpr : isGpReg root = true := (P.src_class b (hD 1) root hback).gp hrl hint
    set n := (if (e.types b).size < (e.types root).size then e.types root else e.types b).size with hn
    have hna : (e.types root).size ≤ n := by rw [hn]; split_ifs <;> omega
    have hnb : (e.types b).size ≤ n := by rw [hn]; split_ifs <;> omega
    refine ⟨_, rfl, ⟨_, ?_, hinv.swap P (hT 0) (hT 1) hab hback (hloc 0) (hloc 1) hrl hsl hna hnb⟩,
      fun x => ?_, fun s hs => ?_⟩
    · rw [exec_append, hex, Option.bind_some]
      refine exec_one ?_
      simp only [Instr.exec, hgpb, hgpr, Bool.and_self, if_true]
      rfl
    · simp only [Finset.mem_erase]
      constructor
      · rintro ⟨hx1, hx2, hx⟩
        refine ⟨hx, fun j => ?_⟩
        rw [iterate_mod hret j]
        have h2 : j % 2 = 0 ∨ j % 2 = 1 := by omega
        rcases h2 with h | h <;> rw [h]
        · exact Ne.symm hx1
        · exact Ne.symm hx2
      · rintro ⟨hx, hj⟩
        exact ⟨(hj 0).symm, (hj 1).symm, hx⟩
    · have h1 : s ≠ b := (hs 1).symm
      have h0 : s ≠ root := (hs 0).symm
      simp only
      rw [Function.update_of_ne h1, Function.update_of_ne h0]
  · -- the root goes through the temporary register
    rw [if_neg hswap]
    obtain ⟨t, htmp, hlt, hcls, hnotS⟩ := P.tmp _ (hD 1)
    have hkind : (e.types ((parent e.pred)^[1] root)).kind =
        (e.types ((parent e.pred)^[k - 1] root)).kind := by
      by_cases hk2 : k = 2
      · subst hk2
        rfl
      · rw [hK.eq_iterate hon hT hmin (by omega), hK.eq_iterate hon hT hmin (by omega)]
    have hm2m : ∀ i, i + 1 < k → regNum ≤ (parent e.pred)^[i] root →
        regNum ≤ (parent e.pred)^[i + 1] root →
        (e.types ((parent e.pred)^[i] root)).kind = (e.types ((parent e.pred)^[k - 1] root)).kind := by
      intro i hi h1 h2
      by_cases hk2 : k = 2
      · subst hk2
        obtain rfl : i = 0 := by omega
        have h3 := hpred 1
        rw [show 1 + 1 = 2 from rfl, hret] at h3
        rcases hK _ (hT 0) _ (hT 1) hon (hon.iterate 1) h3 with h | ⟨-, h⟩
        · exact h
        · simp only [Function.iterate_zero, id_eq] at h1 h
          rw [show 0 + 1 = 1 from rfl] at h2
          omega
      · rw [hK.eq_iterate hon hT hmin (by omega), hK.eq_iterate hon hT hmin (by omega)]
    have C : Cyc e D S root k t :=
      { on := hon, pos := hk, ret := hret, min := hmin, mem := hD, lt := hlt, notSrc := hnotS,
        tmp := tmpFor_kind hkind _ _ ▸ htmp, cls := hcls.of_kind hkind, m2m := hm2m }
    have htpend : t ∈ D → t ∈ st.todo := hpend t (by
      unfold tmpFor at htmp
      split_ifs at htmp
      · exact Or.inl htmp
      · exact Or.inr htmp)
    -- the save
    have hrcls : ClassOk (e.types ((parent e.pred)^[1] root)) root :=
      (P.src_class _ (hD (k - 1)) root C.pred_last).of_kind hkind.symm
    obtain ⟨v, hsv, hv⟩ : ∃ v, (if root < regNum then emitMov (e.types ((parent e.pred)^[1] root)) t root
        else emitLoadMem (e.types ((parent e.pred)^[1] root)) t (.slot (root - regNum))).exec e.ctx σ =
          some (σ.setReg t v) ∧
        Agree (e.types ((parent e.pred)^[1] root)).size v (σ.get root) := by
      split_ifs with hr
      · obtain ⟨v, h1, h2⟩ := exec_emitMov e.ctx σ hcls hrcls hlt hr
        exact ⟨v, h1, by rwa [σ.get_reg hr]⟩
      · obtain ⟨v, h1, h2⟩ := exec_emitLoadMem e.ctx σ (.slot (root - regNum)) hcls hlt
        exact ⟨v, h1, by rwa [σ.get_mem hr]⟩
    rw [IrType.size_of_kind hkind] at hv
    have hstart := CycInv.start P C hinv (hloc 0) htpend hv
    have hklen : k ≤ e.len := by
      have hinj : Set.InjOn (fun i => (parent e.pred)^[i] root) (Finset.range k) := by
        intro i hi j hj hij
        rcases Nat.lt_trichotomy i j with h | h | h
        · exact absurd hij (iterate_ne_of_lt hret hmin h (Finset.mem_range.mp hj))
        · exact h
        · exact absurd hij.symm (iterate_ne_of_lt hret hmin h (Finset.mem_range.mp hi))
      have hle := Finset.card_le_card_of_injOn (t := Finset.range e.len) _
        (fun i _ => Finset.mem_range.mpr (P.dst_lt _ (hD i))) hinj
      simpa using hle
    have hne : ∀ j, 0 < j → j < k → (parent e.pred)^[j] root ≠ root := hmin
    obtain ⟨st', h1, h2, h3, h4⟩ := resolveCycleLoop_spec P C e.len 0 false
      ⟨st.todo, Function.update st.loc root t, st.code ++ [_]⟩ _ hk hklen
      (by rw [exec_append, hex, Option.bind_some]; exact exec_one hsv) hstart
      (fun j _ _ => hT j)
      (fun j hj hjk => by
        show Function.update st.loc root t _ = _
        rw [Function.update_of_ne (hne j hj hjk)]
        exact hloc j)
      (fun h => absurd rfl h) htpend
    refine ⟨st', ?_, h2, fun x => ?_, fun s hs => ?_⟩
    · rw [htmp]
      exact h1
    · rw [h3 x]
      refine and_congr_right fun _ => ⟨fun hx j => ?_, fun hx j _ _ => hx j⟩
      rw [iterate_mod hret j]
      exact hx _ (Nat.zero_le _) (Nat.mod_lt _ hk)
    · rw [h4 s fun j _ => hs j]
      exact Function.update_of_ne (hs 0).symm _ _

end

end IrJit.Dessa
