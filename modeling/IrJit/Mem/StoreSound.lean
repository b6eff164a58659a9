import IrJit.Mem.Elim

/-!
# Mem.StoreSound — when a store may be left out

The walk for `STORE` looks at `STORE`, `LOAD`, guards, calls and starts of blocks.  The one for `VSTORE`
looks at `VSTORE`, `VLOAD` and stops at `LOAD` and `STORE`.  Neither looks at volatile accesses or at
`VA_START`, `VA_COPY` and `VA_ARG`, and the first does not look at accesses to local variables, which an
address may point to.
-/

namespace IrJit.Mem

open Memory

/-- The opcodes that access memory and that the walk for `STORE` does not look at. -/
def overlookedByStores : IrOp → Bool
  | .loadV | .storeV | .vload | .vloadV | .vstore | .vstoreV | .vaStart | .vaCopy | .vaArg => true
  | _ => false

/-- The opcodes that access memory and that the walk for `VSTORE` does not look at. -/
def overlookedByVstores : IrOp → Bool
  | .loadV | .storeV | .vloadV | .vstoreV | .vaStart | .vaCopy | .vaArg => true
  | _ => false

namespace Ctx

variable {C : Ctx} {E : Env} {mem : ℕ → Memory}

/-- Is the instruction the start of a block that the walks go through? -/
def isPlainBegin (insn : Insn) : Prop := insn.op = .beginOp ∧ insn.op1 ≠ 0 ∧ insn.op2 = 0

/-- Does the walk for a store to `addr` end at the instruction? -/
def decidesStore (C : Ctx) (addr : ℤ) (type : IrType) (insn : Insn) : Prop :=
  (insn.op = .store ∧
      (insn.op2 = addr ∨ C.checkAliasing addr insn.op2 type (C.base insn.op3).type ≠ .no))
    ∨ (insn.op = .load ∧ (insn.op2 = addr ∨ C.checkAliasing addr insn.op2 type insn.type ≠ .no))
    ∨ insn.op = .call
    ∨ (fromStart insn.op = true ∧ insn.op ≠ .endOp ∧ ¬ isPlainBegin insn)

/-- Does the walk for a store to the variable `var` end at the instruction? -/
def decidesVstore (var : ℤ) (insn : Insn) : Prop :=
  ((insn.op = .vstore ∨ insn.op = .vload) ∧ insn.op2 = var)
    ∨ insn.op = .call ∨ insn.op = .load ∨ insn.op = .store
    ∨ (fromStart insn.op = true ∧ insn.op ≠ .endOp ∧ ¬ isPlainBegin insn)

/-- No guard comes after `ref`. -/
def Unguarded (C : Ctx) (ref : ℕ) : Prop :=
  ∀ m, C.OnChain m → ref < m → (C.base m).op ≠ .guard ∧ (C.base m).op ≠ .guardNot

/-- Where a walk for a store stands. -/
structure WalkAt (C : Ctx) (decides : Insn → Prop) (ref next : ℕ) (guarded : Bool) : Prop where
  onChain : C.OnChain ref
  passed : C.Passed decides ref
  next : C.NextOf ref next
  unguarded : guarded = false → C.Unguarded ref

section Walk

variable {decides : Insn → Prop} {ref next : ℕ} {guarded : Bool}

theorem walkAt_control (ho : C.Ordered) (decides : Insn → Prop) :
    C.WalkAt decides C.control 0 false where
  onChain := onChain_control C
  passed := passed_control ho decides
  next := Or.inl ⟨rfl, rfl⟩
  unguarded _ m hm hlt := by
    have := hm.le_control ho
    omega

/-- The walk goes on to the instruction before. -/
theorem WalkAt.prev (ho : C.Ordered) (h : C.WalkAt decides ref next guarded) (h1 : 1 < ref)
    (hnot : ¬ decides (C.base ref)) {g : Bool}
    (hguard : g = false →
      guarded = false ∧ (C.base ref).op ≠ .guard ∧ (C.base ref).op ≠ .guardNot) :
    C.WalkAt decides (C.prev ref) ref g where
  onChain := h.onChain.prev h1
  passed := h.passed.prev ho h.onChain h1 hnot
  next := Or.inr ⟨h.onChain, h1, rfl⟩
  unguarded hg m hm hlt := by
    obtain ⟨hg, hno⟩ := hguard hg
    rcases Nat.lt_trichotomy m ref with hmr | rfl | hmr
    · have := h.onChain.le_prev ho hm h1 hmr
      omega
    · exact hno
    · exact h.unguarded hg m hm hmr

/-- At the start of a block the walk skips the `END` before it. -/
theorem WalkAt.prev_begin (hb : C.Built) (h : C.WalkAt decides ref next guarded) (h1 : 1 < ref)
    (hbegin : isPlainBegin (C.base ref)) (hnot : ¬ decides (C.base ref))
    (hend : ∀ insn : Insn, insn.op = .endOp → ¬ decides insn) :
    C.WalkAt decides (C.base (C.base ref).op1).op1.toNat (C.base ref).op1.toNat guarded := by
  obtain ⟨hop, hop1, hop2⟩ := hbegin
  have hnonneg := hb.op1_nonneg ref h.onChain
  have hat := h.prev hb.toOrdered h1 hnot (g := guarded) (fun hg => ⟨hg, by simp [hop]⟩)
  have hprev : ((C.prev ref : ℕ) : ℤ) = (C.base ref).op1 := by
    unfold Ctx.prev
    omega
  have hopEnd : (C.base (C.prev ref)).op = .endOp := by
    rw [hprev]
    exact hb.begin_end ref h.onChain hop hop2 hop1
  have hpos := hb.pos _ hat.onChain
  have hne1 : C.prev ref ≠ 1 := by
    intro e
    rw [e] at hopEnd
    exact absurd (hopEnd.symm.trans hb.first) (by decide)
  have := hat.prev hb.toOrdered (by omega) (hend _ hopEnd) (g := guarded)
    (fun hg => ⟨hg, by simp [hopEnd]⟩)
  unfold Ctx.prev at this
  rwa [show (((C.base ref).op1.toNat : ℕ) : ℤ) = (C.base ref).op1 by omega] at this

/-- What the outcome of a walk tells: a dead store finds its value at `s`, a deleted one is at `s`, and the
walk came past all that is after `s`. -/
def WalkEnds (C : Ctx) (decides : Insn → Prop) (limit : ℤ) (same wider : ℕ → Prop) : StoreWalk → Prop
  | .keep => True
  | .dead s => C.OnChain s ∧ limit < s ∧ C.Passed decides s ∧ same s
  | .delete s next => limit < s ∧ C.WalkAt decides s next false ∧ wider s

theorem fromStart_of_guard {op : IrOp} (h : op = .guard ∨ op = .guardNot) : fromStart op = false := by
  rcases h with rfl | rfl <;> rfl

theorem findAliasingStore_ends (hb : C.Built) {addr val limit : ℤ} (hlimit : 1 ≤ limit) {fuel : ℕ}
    (h : C.WalkAt (C.decidesStore addr (C.base val).type) ref next guarded) :
    C.WalkEnds (C.decidesStore addr (C.base val).type) limit
      (fun s => (C.base s).op2 = addr ∧
        ((C.base s).op = .store ∧ (C.base s).op3 = val ∨ (C.base s).op = .load ∧ (s : ℤ) = val))
      (fun s => (C.base s).op2 = addr ∧ (C.base s).op = .store ∧
        (C.base (C.base s).op3).type = (C.base val).type)
      (C.findAliasingStore addr val limit fuel ref next guarded) := by
  induction fuel generalizing ref next guarded with
  | zero => trivial
  | succ fuel ih =>
    rw [findAliasingStore]
    by_cases hlim : (ref : ℤ) ≤ limit
    · rw [if_pos hlim]
      trivial
    rw [if_neg hlim]
    have h1 : 1 < ref := by omega
    simp only
    by_cases hstore : (C.base ref).op = .store
    · rw [if_pos hstore]
      by_cases haddr : (C.base ref).op2 = addr
      · rw [if_pos haddr]
        by_cases htype : (C.base (C.base ref).op3).type = (C.base val).type
        · rw [if_pos htype]
          by_cases hval : (C.base ref).op3 = val
          · rw [if_pos hval]
            exact ⟨h.onChain, by omega, h.passed, haddr, Or.inl ⟨hstore, hval⟩⟩
          · rw [if_neg hval]
            by_cases hg : guarded = true
            · rw [if_pos hg]
              trivial
            · rw [if_neg hg]
              have hg : guarded = false := by simpa using hg
              subst hg
              exact ⟨by omega, h, haddr, hstore, htype⟩
        · rw [if_neg htype]
          trivial
      · rw [if_neg haddr]
        by_cases hno : C.checkAliasing addr (C.base ref).op2 (C.base val).type
            (C.base (C.base ref).op3).type ≠ .no
        · rw [if_pos hno]
          trivial
        · rw [if_neg hno]
          refine ih (h.prev hb.toOrdered h1 ?_ fun hg => ⟨hg, by simp [hstore]⟩)
          simp only [decidesStore, hstore]
          tauto
    rw [if_neg hstore]
    by_cases hload : (C.base ref).op = .load
    · rw [if_pos hload]
      by_cases haddr : (C.base ref).op2 = addr
      · rw [if_pos haddr]
        by_cases hval : (ref : ℤ) = val
        · rw [if_pos hval]
          exact ⟨h.onChain, by omega, h.passed, haddr, Or.inr ⟨hload, hval⟩⟩
        · rw [if_neg hval]
          trivial
      · rw [if_neg haddr]
        by_cases hno : C.checkAliasing addr (C.base ref).op2 (C.base val).type (C.base ref).type ≠ .no
        · rw [if_pos hno]
          trivial
        · rw [if_neg hno]
          refine ih (h.prev hb.toOrdered h1 ?_ fun hg => ⟨hg, by simp [hload]⟩)
          simp only [decidesStore, hload]
          tauto
    rw [if_neg hload]
    by_cases hguard : (C.base ref).op = .guard ∨ (C.base ref).op = .guardNot
    · rw [if_pos hguard]
      refine ih (h.prev hb.toOrdered h1 ?_ fun hg => absurd hg (by decide))
      have hlow := fromStart_of_guard hguard
      rcases hguard with hop | hop <;> rw [hop] at hlow <;> simp [decidesStore, hop, hlow]
    rw [if_neg hguard]
    have hguard : (C.base ref).op ≠ .guard ∧ (C.base ref).op ≠ .guardNot := not_or.mp hguard
    by_cases hstart : fromStart (C.base ref).op = true
    · rw [if_pos hstart]
      by_cases hbegin : (C.base ref).op = .beginOp ∧ (C.base ref).op1 ≠ 0 ∧ (C.base ref).op2 = 0
      · rw [if_pos hbegin]
        refine ih (h.prev_begin hb h1 hbegin ?_ ?_)
        · simp [decidesStore, isPlainBegin, hbegin]
        · intro insn hop
          simp [decidesStore, hop]
      · rw [if_neg hbegin]
        trivial
    rw [if_neg hstart]
    by_cases hcall : (C.base ref).op = .call
    · rw [if_pos hcall]
      trivial
    · rw [if_neg hcall]
      refine ih (h.prev hb.toOrdered h1 ?_ fun hg => ⟨hg, hguard⟩)
      unfold decidesStore
      tauto

theorem findAliasingVstore_ends (hb : C.Built) {var val : ℤ} (hvar : 1 ≤ var) {fuel : ℕ}
    (h : C.WalkAt (decidesVstore var) ref next guarded) :
    C.WalkEnds (decidesVstore var) var
      (fun s => (C.base s).op2 = var ∧
        ((C.base s).op = .vstore ∧ (C.base s).op3 = val ∨ (C.base s).op = .vload ∧ (s : ℤ) = val))
      (fun s => (C.base s).op2 = var ∧ (C.base s).op = .vstore)
      (C.findAliasingVstore var val fuel ref next guarded) := by
  induction fuel generalizing ref next guarded with
  | zero => trivial
  | succ fuel ih =>
    rw [findAliasingVstore]
    by_cases hlim : (ref : ℤ) ≤ var
    · rw [if_pos hlim]
      trivial
    rw [if_neg hlim]
    have h1 : 1 < ref := by omega
    simp only
    by_cases hstore : (C.base ref).op = .vstore
    · rw [if_pos hstore]
      by_cases haddr : (C.base ref).op2 = var
      · rw [if_pos haddr]
        by_cases hval : (C.base ref).op3 = val
        · rw [if_pos hval]
          exact ⟨h.onChain, by omega, h.passed, haddr, Or.inl ⟨hstore, hval⟩⟩
        · rw [if_neg hval]
          by_cases hg : guarded = true
          · rw [if_pos hg]
            trivial
          · rw [if_neg hg]
            have hg : guarded = false := by simpa using hg
            subst hg
            exact ⟨by omega, h, haddr, hstore⟩
      · rw [if_neg haddr]
        refine ih (h.prev hb.toOrdered h1 ?_ fun hg => ⟨hg, by simp [hstore]⟩)
        have hlow : fromStart IrOp.vstore = false := rfl
        simp [decidesVstore, hstore, haddr, hlow]
    rw [if_neg hstore]
    by_cases hload : (C.base ref).op = .vload
    · rw [if_pos hload]
      by_cases haddr : (C.base ref).op2 = var
      · rw [if_pos haddr]
        by_cases hval : (ref : ℤ) = val
        · rw [if_pos hval]
          exact ⟨h.onChain, by omega, h.passed, haddr, Or.inr ⟨hload, hval⟩⟩
        · rw [if_neg hval]
          trivial
      · rw [if_neg haddr]
        refine ih (h.prev hb.toOrdered h1 ?_ fun hg => ⟨hg, by simp [hload]⟩)
        have hlow : fromStart IrOp.vload = false := rfl
        simp [decidesVstore, hload, haddr, hlow]
    rw [if_neg hload]
    by_cases hguard : (C.base ref).op = .guard ∨ (C.base ref).op = .guardNot
    · rw [if_pos hguard]
      refine ih (h.prev hb.toOrdered h1 ?_ fun hg => absurd hg (by decide))
      have hlow := fromStart_of_guard hguard
      rcases hguard with hop | hop <;> rw [hop] at hlow <;> simp [decidesVstore, hop, hlow]
    rw [if_neg hguard]
    have hguard : (C.base ref).op ≠ .guard ∧ (C.base ref).op ≠ .guardNot := not_or.mp hguard
    by_cases hstart : fromStart (C.base ref).op = true
    · rw [if_pos hstart]
      by_cases hbegin : (C.base ref).op = .beginOp ∧ (C.base ref).op1 ≠ 0 ∧ (C.base ref).op2 = 0
      · rw [if_pos hbegin]
        refine ih (h.prev_begin hb h1 hbegin ?_ ?_)
        · simp [decidesVstore, isPlainBegin, hbegin]
        · intro insn hop
          simp [decidesVstore, hop]
      · rw [if_neg hbegin]
        trivial
    rw [if_neg hstart]
    by_cases hstop : (C.base ref).op = .call ∨ (C.base ref).op = .load ∨ (C.base ref).op = .store
    · rw [if_pos hstop]
      trivial
    · rw [if_neg hstop]
      refine ih (h.prev hb.toOrdered h1 ?_ fun hg => ⟨hg, hguard⟩)
      unfold decidesVstore
      tauto

end Walk

section Clear

variable {n : ℕ} {a : BitVec 64} {k : ℕ}

theorem Clear.mono {insn : Insn} {k' : ℕ} (h : C.Clear E a k insn) (hk : k' ≤ k) : C.Clear E a k' insn := by
  rcases h with ⟨he, hapart⟩ | ⟨he, hapart⟩
  · exact Or.inl ⟨he, fun x hx => hapart x (hx.mono hk)⟩
  · exact Or.inr ⟨he, fun x hx => hapart x (hx.mono hk)⟩

/-- The starts and ends of blocks that the walks go through do nothing. -/
theorem effect_of_fromStart {insn : Insn} (h : insn.op = .endOp ∨ isPlainBegin insn) :
    C.effect insn = .nothing := by
  rcases h with h | ⟨h, _, h2⟩
  · unfold effect
    rw [h]
    rfl
  · unfold effect
    rw [h, h2]
    rfl

theorem opEffect_of_stores {op : IrOp} (hlow : fromStart op = false) (hover : overlookedByStores op = false)
    (hstore : op ≠ .store) (hload : op ≠ .load) : opEffect op = .nothing := by
  revert hlow hover hstore hload
  cases op <;> simp [fromStart, overlookedByStores, opEffect] <;> decide

theorem opEffect_of_vstores {op : IrOp} (hlow : fromStart op = false)
    (hover : overlookedByVstores op = false) (hvstore : op ≠ .vstore) (hvload : op ≠ .vload)
    (hstore : op ≠ .store) (hload : op ≠ .load) : opEffect op = .nothing := by
  revert hlow hover hvstore hvload hstore hload
  cases op <;> simp [fromStart, overlookedByVstores, opEffect] <;> decide

/-- What the walk for `STORE` comes past touches none of the bytes. -/
theorem clear_of_not_decidesStore {addr : ℤ} {type : IrType} (halias : C.AliasRight E addr type)
    (hn : C.OnChain n) (hnot : ¬ C.decidesStore addr type (C.base n))
    (hover : overlookedByStores (C.base n).op = false ∨ C.Clear E (E.val addr) type.size (C.base n)) :
    C.effect (C.base n) = .nothing ∨ C.Clear E (E.val addr) type.size (C.base n) := by
  rcases hover with hover | hclear
  swap
  · exact Or.inr hclear
  unfold decidesStore at hnot
  push Not at hnot
  obtain ⟨hstore, hload, hcall, hstart⟩ := hnot
  by_cases hs : (C.base n).op = .store
  · have hloc : loc E (C.base n) = E.val (C.base n).op2 := by
      unfold loc
      rw [hs]
      rfl
    refine Or.inr (Or.inr ⟨by rw [hs]; rfl, ?_⟩)
    rw [hloc]
    exact (halias n hn).1 hs (hstore hs).2
  by_cases hl : (C.base n).op = .load
  · have hloc : loc E (C.base n) = E.val (C.base n).op2 := by
      unfold loc
      rw [hl]
      rfl
    refine Or.inr (Or.inl ⟨by rw [hl]; rfl, ?_⟩)
    rw [hloc]
    exact (halias n hn).2 hl (hload hl).2
  left
  by_cases hlow : fromStart (C.base n).op = true
  · exact effect_of_fromStart (by tauto)
  · have hlow : fromStart (C.base n).op = false := by simpa using hlow
    have hbegin : (C.base n).op ≠ .beginOp := by
      intro e
      rw [e] at hlow
      exact absurd hlow (by decide)
    rw [effect_of_op hcall hbegin]
    exact opEffect_of_stores hlow hover hs hl

/-- What the walk for `VSTORE` comes past touches none of the bytes. -/
theorem clear_of_not_decidesVstore {var : ℤ} (hvars : C.VarsApart E var k) (hn : C.OnChain n)
    (hnot : ¬ decidesVstore var (C.base n))
    (hover : overlookedByVstores (C.base n).op = false ∨ C.Clear E (E.varAddr var) k (C.base n)) :
    C.effect (C.base n) = .nothing ∨ C.Clear E (E.varAddr var) k (C.base n) := by
  rcases hover with hover | hclear
  swap
  · exact Or.inr hclear
  unfold decidesVstore at hnot
  push Not at hnot
  obtain ⟨hvar, hcall, hload, hstore, hstart⟩ := hnot
  by_cases hs : (C.base n).op = .vstore
  · have hloc : loc E (C.base n) = E.varAddr (C.base n).op2 := by
      unfold loc
      rw [hs]
      rfl
    refine Or.inr (Or.inr ⟨by rw [hs]; rfl, ?_⟩)
    rw [hloc]
    exact (hvars n hn (hvar (Or.inl hs))).1 hs
  by_cases hl : (C.base n).op = .vload
  · have hloc : loc E (C.base n) = E.varAddr (C.base n).op2 := by
      unfold loc
      rw [hl]
      rfl
    refine Or.inr (Or.inl ⟨by rw [hl]; rfl, ?_⟩)
    rw [hloc]
    exact (hvars n hn (hvar (Or.inr hl))).2 hl
  left
  by_cases hlow : fromStart (C.base n).op = true
  · exact effect_of_fromStart (by tauto)
  · have hlow : fromStart (C.base n).op = false := by simpa using hlow
    have hbegin : (C.base n).op ≠ .beginOp := by
      intro e
      rw [e] at hlow
      exact absurd hlow (by decide)
    rw [effect_of_op hcall hbegin]
    exact opEffect_of_vstores hlow hover hs hl hstore hload

theorem not_observes_of_clear (hclear : C.effect (C.base n) = .nothing ∨ C.Clear E a k (C.base n))
    (hcall : (C.base n).op ≠ .call) (hguard : (C.base n).op ≠ .guard ∧ (C.base n).op ≠ .guardNot) :
    ¬ C.Observes (C.base n) := by
  rintro (h | h | h | h)
  · exact hcall h
  · exact hguard.1 h
  · exact hguard.2 h
  · rcases hclear with he | ⟨he, _⟩ | ⟨he, _⟩
    · simp [he] at h
    · simp [effect_of_access (Or.inl he), he] at h
    · simp [effect_of_access (Or.inr he), he] at h

end Clear

section Result

variable {addr var val : ℤ}

/-- What makes the elimination at a `VSTORE` right: accesses to other variables are elsewhere, the walk comes
to no access of the bytes that it does not look at, and an earlier store that is deleted was not wider. -/
structure VstoreLooks (C : Ctx) (E : Env) (var val : ℤ) : Prop where
  var_pos : 1 ≤ var
  apart : C.VarsApart E var (C.base val).type.size
  looks : C.Looks E overlookedByVstores (decidesVstore var) (E.varAddr var) (C.base val).type.size var
  sizes : ∀ n, C.OnChain n → var < n → (C.base n).op = .vstore → (C.base n).op2 = var →
    C.storeSize (C.base n) ≤ (C.base val).type.size ∨
    ∃ m, C.OnChain m ∧ n < m ∧
      (decidesVstore var (C.base m) ∨ (C.base m).op = .guard ∨ (C.base m).op = .guardNot)

/-- What makes the elimination at a `STORE` right. -/
structure StoreLooks (C : Ctx) (E : Env) (addr val : ℤ) : Prop where
  vaddr : (C.base addr).op = .vaddr → C.VstoreLooks E (C.base addr).op1 val
  answers : (C.base addr).op ≠ .vaddr → C.AliasRight E addr (C.base val).type
  looks : (C.base addr).op ≠ .vaddr →
    C.Looks E overlookedByStores (C.decidesStore addr (C.base val).type) (E.val addr)
      (C.base val).type.size (if addr > 0 then addr else 1)

/-- The elimination is right when the walk comes past nothing that touches the bytes, memory holds the value
of a dead store where the walk ends, and the new store writes over a deleted one. -/
theorem finishStore_same (hb : C.Built) {op : IrOp} (hop : op = .store ∨ op = .vstore)
    (hval : val < C.insnsCount) {l : ℤ} (hrun : (C.emitStore op l val).Run E mem) {a : BitVec 64}
    (ha : a = if accessesVar op then E.varAddr l else E.val l) {decides : Insn → Prop} {limit : ℤ}
    (hlimit : 1 ≤ limit)
    (hclear : ∀ n, C.OnChain n → limit < n → C.Passed decides n → ¬ decides (C.base n) →
      C.effect (C.base n) = .nothing ∨ C.Clear E a (C.base val).type.size (C.base n))
    (hcall : ∀ insn : Insn, insn.op = .call → decides insn) {same wider : ℕ → Prop}
    (hsame : ∀ s, C.OnChain s → same s → Holds (mem s) a (C.base val).type.size (E.val val))
    (hover : ∀ s, C.OnChain s → limit < s → wider s → C.Passed decides s → C.Unguarded s →
      ((C.base s).op = .store ∨ (C.base s).op = .vstore) ∧ loc E (C.base s) = a ∧
      C.storeSize (C.base s) ≤ (C.base val).type.size)
    {w : StoreWalk} (hends : C.WalkEnds decides limit same wider w) :
    ∃ mem', SameSight (C.emitStore op l val) (C.finishStore op l val w) E mem mem' := by
  have hrunC := (hrun.of_emit hb hop hval).1
  have hafter : ∀ s : ℕ, limit < s → C.Passed decides s → ∀ n, C.OnChain n → s < n →
      ¬ decides (C.base n) ∧
      (C.effect (C.base n) = .nothing ∨ C.Clear E a (C.base val).type.size (C.base n)) := by
    intro s hlim hpassed n hn hlt
    have hnot := hpassed n hn hlt
    exact ⟨hnot, hclear n hn (by omega) (fun m hm hnm => hpassed m hm (by omega)) hnot⟩
  cases w with
  | keep => exact ⟨mem, hrun, fun _ _ _ => rfl, fun _ _ _ _ => rfl, rfl⟩
  | dead s =>
    obtain ⟨hs, hlim, hpassed, hfound⟩ := hends
    refine ⟨mem, sameSight_dead hb hop hval hrun ?_⟩
    rw [← ha]
    exact hrunC.holds_control hb.toOrdered hs (hb.pos s hs) (hsame s hs hfound)
      fun n hn hlt => (hafter s hlim hpassed n hn hlt).2
  | delete s next =>
    obtain ⟨hlim, hat, hfound⟩ := hends
    obtain ⟨hstore, hloc, hsize⟩ := hover s hat.onChain hlim hfound hat.passed (hat.unguarded rfl)
    have hd : C.Deletable s next := ⟨hat.onChain, by omega, hstore, hat.next⟩
    refine sameSight_delete hb hop hval hrun hd (hloc.trans ha) hsize ?_ ?_
    · intro n hn hlt
      rw [hloc]
      exact (hafter s hlim hat.passed n hn hlt).2.imp_right fun h => h.mono hsize
    · intro n hn hlt
      obtain ⟨hnot, hquiet⟩ := hafter s hlim hat.passed n hn hlt
      exact not_observes_of_clear hquiet (fun e => hnot (hcall _ e)) (hat.unguarded rfl n hn hlt)

theorem irVstore_same (hb : C.Built) (hval : val < C.insnsCount) (hlooks : C.VstoreLooks E var val)
    (hrun : (C.emitStore .vstore var val).Run E mem) :
    ∃ mem', SameSight (C.emitStore .vstore var val) (C.irVstore var val) E mem mem' := by
  have hrunC := (hrun.of_emit hb (Or.inr rfl) hval).1
  refine finishStore_same hb (Or.inr rfl) hval hrun rfl hlooks.var_pos ?_ ?_ ?_ ?_
    (findAliasingVstore_ends hb hlooks.var_pos (walkAt_control hb.toOrdered _))
  · intro n hn hlim hpassed hnot
    exact clear_of_not_decidesVstore hlooks.apart hn hnot (hlooks.looks.clear hpassed hn hlim)
  · intro insn hop
    exact Or.inr (Or.inl hop)
  · rintro s hs ⟨rfl, hsame⟩
    have hstep := hrunC.step s hs
    rcases hsame with ⟨hop, rfl⟩ | ⟨hop, rfl⟩
    · rw [hstep.write (by rw [hop]; rfl)]
      have hloc : loc E (C.base s) = E.varAddr (C.base s).op2 := by
        unfold loc
        rw [hop]
        rfl
      rw [hloc]
      exact holds_write (le_refl _)
    · obtain ⟨hmem, hold⟩ := hstep.read (by rw [hop]; rfl)
      have hloc : loc E (C.base s) = E.varAddr (C.base s).op2 := by
        unfold loc
        rw [hop]
        rfl
      rw [hmem, ← hloc]
      exact hold
  · rintro s hs hlim ⟨hvar, hop⟩ hpassed hunguarded
    refine ⟨Or.inr hop, ?_, ?_⟩
    · unfold loc
      rw [hop, hvar]
    · rcases hlooks.sizes s hs hlim hop hvar with hle | ⟨m, hm, hlt, hdec | hg⟩
      · exact hle
      · exact absurd hdec (hpassed m hm hlt)
      · have := hunguarded m hm hlt
        tauto

theorem irStore_same_of_ne_vaddr (hb : C.Built) (hval : val < C.insnsCount)
    (hvaddr : (C.base addr).op ≠ .vaddr) (hlooks : C.StoreLooks E addr val)
    (hrun : (C.emitStore .store addr val).Run E mem) :
    ∃ mem', SameSight (C.emitStore .store addr val) (C.irStore addr val) E mem mem' := by
  have hrunC := (hrun.of_emit hb (Or.inl rfl) hval).1
  have hlimit : 1 ≤ (if addr > 0 then addr else 1) := by split_ifs <;> omega
  unfold irStore
  rw [if_neg hvaddr]
  refine finishStore_same hb (Or.inl rfl) hval hrun rfl hlimit ?_ ?_ ?_ ?_
    (findAliasingStore_ends hb hlimit (walkAt_control hb.toOrdered _))
  · intro n hn hlim hpassed hnot
    exact clear_of_not_decidesStore (hlooks.answers hvaddr) hn hnot
      ((hlooks.looks hvaddr).clear hpassed hn hlim)
  · intro insn hop
    exact Or.inr (Or.inr (Or.inl hop))
  · rintro s hs ⟨rfl, hsame⟩
    have hstep := hrunC.step s hs
    rcases hsame with ⟨hop, rfl⟩ | ⟨hop, rfl⟩
    · rw [hstep.write (by rw [hop]; rfl)]
      have hloc : loc E (C.base s) = E.val (C.base s).op2 := by
        unfold loc
        rw [hop]
        rfl
      rw [hloc]
      exact holds_write (le_refl _)
    · obtain ⟨hmem, hold⟩ := hstep.read (by rw [hop]; rfl)
      have hloc : loc E (C.base s) = E.val (C.base s).op2 := by
        unfold loc
        rw [hop]
        rfl
      rw [hmem, ← hloc]
      exact hold
  · rintro s hs hlim ⟨haddr, hop, htype⟩ _ _
    refine ⟨Or.inl hop, ?_, ?_⟩
    · unfold loc
      rw [hop, haddr]
    · unfold storeSize
      rw [htype]

/-- A `STORE` to the address of a variable is a `VSTORE`. -/
theorem sameSight_vaddr (hb : C.Built) (hval : val < C.insnsCount) (haddr : addr < C.insnsCount)
    (hvaddr : (C.base addr).op = .vaddr) (hrun : (C.emitStore .store addr val).Run E mem) :
    (C.emitStore .vstore (C.base addr).op1 val).Run E mem := by
  obtain ⟨hrunC, hnew⟩ := hrun.of_emit hb (Or.inl rfl) hval
  refine hrunC.emit hb.inBuffer (Or.inr rfl) hval ?_
  rw [hnew]
  show (mem C.control).write (E.val addr) _ _ = (mem C.control).write (E.varAddr _) _ _
  rw [hrunC.vaddr addr haddr hvaddr]

/-- In every execution the program that `_ir_STORE` or `_ir_VSTORE` builds sees the same as the program that
has every store. -/
theorem store_elimination_same (C : Ctx) (hb : C.Built) (E : Env) (mem : ℕ → Memory) (val : ℤ)
    (hval : val < C.insnsCount) :
    (∀ addr < (C.insnsCount : ℤ), C.StoreLooks E addr val → (C.emitStore .store addr val).Run E mem →
      ∃ mem', SameSight (C.emitStore .store addr val) (C.irStore addr val) E mem mem') ∧
    (∀ var, C.VstoreLooks E var val → (C.emitStore .vstore var val).Run E mem →
      ∃ mem', SameSight (C.emitStore .vstore var val) (C.irVstore var val) E mem mem') := by
  refine ⟨fun addr haddr hlooks hrun => ?_, fun var hlooks hrun => irVstore_same hb hval hlooks hrun⟩
  by_cases hvaddr : (C.base addr).op = .vaddr
  · have hrun' := sameSight_vaddr hb hval haddr hvaddr hrun
    obtain ⟨mem', hsame⟩ := irVstore_same hb hval (hlooks.vaddr hvaddr) hrun'
    refine ⟨mem', ?_⟩
    unfold irStore
    rw [if_pos hvaddr]
    refine ⟨hsame.run, hsame.given, fun n hn h1 hsees => ?_, hsame.final⟩
    rw [hsame.seen n hn h1 hsees]
    congr 1
    by_cases hne : n = C.insnsCount
    · rw [hne, emitStore_prev_count, emitStore_prev_count]
    · rw [emitStore_prev_of_ne hne, emitStore_prev_of_ne hne]
  · exact irStore_same_of_ne_vaddr hb hval hvaddr hlooks hrun

end Result

section Unread

/-- `5` is stored to `p`, and an instruction of the kind `op` comes after it. -/
def storeThen (op : IrOp) : Ctx where
  base := fun ref =>
    if ref = 1 then ⟨.start, .void, 0, 0, 0, 0, 0⟩
    else if ref = 2 then ⟨.param, .addr, 1, 0, 0, 0, 0⟩
    else if ref = 3 then ⟨.store, .void, 1, 2, -4, 0, 0⟩
    else if ref = 4 then ⟨op, .u8, 3, 2, 0, 0, 0⟩
    else ⟨.cU8, .u8, 0, 0, 0, 0, 0⟩
  insnsCount := 5
  control := 4
  pureProto := fun _ => false

/-- `p` is `4096`; `6` is stored next. -/
def storeThenEnv : Env where
  val := fun ref => if ref = 2 then 4096 else if ref = -5 then 6 else 5
  varAddr := fun _ => 0

def storeThenMem (ref : ℕ) : Memory :=
  if ref = 1 then fun _ => 0
  else if ref = 5 then write (write (fun _ => 0) 4096 1 5) 4096 1 6
  else write (fun _ => 0) 4096 1 5

theorem onChain_storeThen {op : IrOp} {n : ℕ} (h : (storeThen op).OnChain n) : n = 4 ∨ n = 3 ∨ n = 1 := by
  induction h with
  | refl => exact Or.inl rfl
  | tail hab hbc ih =>
    obtain ⟨h1, rfl⟩ := hbc
    rcases ih with rfl | rfl | rfl
    · exact Or.inr (Or.inl rfl)
    · exact Or.inr (Or.inr rfl)
    · omega

theorem built_storeThen {op : IrOp} (hop : op = .rload ∨ op = .loadV) : (storeThen op).Built where
  prev_lt := by
    intro ref h h1
    rcases onChain_storeThen h with rfl | rfl | rfl
    · show 3 < 4
      omega
    · show 1 < 3
      omega
    · omega
  start := by
    intro ref h hs
    rcases onChain_storeThen h with rfl | rfl | rfl
    · rcases hop with rfl | rfl <;> exact absurd hs (by decide)
    · exact absurd (show IrOp.store = .start from hs) (by decide)
    · rfl
  inBuffer := by
    intro n h
    rcases hop with rfl | rfl <;> rcases onChain_storeThen h with rfl | rfl | rfl <;> decide
  op1_nonneg := by
    intro n h
    rcases hop with rfl | rfl <;> rcases onChain_storeThen h with rfl | rfl | rfl <;> decide
  pos := by
    intro n h
    rcases onChain_storeThen h with rfl | rfl | rfl <;> decide
  first := rfl
  store_void := by
    intro n h hs
    rcases onChain_storeThen h with rfl | rfl | rfl
    · rcases hop with rfl | rfl <;> exact absurd hs (by decide)
    · rfl
    · rfl
  begin_end := by
    intro n h hs
    rcases onChain_storeThen h with rfl | rfl | rfl
    · rcases hop with rfl | rfl <;> exact absurd hs (by decide)
    · exact absurd (show IrOp.store = .beginOp from hs) (by decide)
    · exact absurd (show IrOp.start = .beginOp from hs) (by decide)
  not_vaddr := by
    intro n h hs
    rcases onChain_storeThen h with rfl | rfl | rfl
    · rcases hop with rfl | rfl <;> exact absurd hs (by decide)
    · exact absurd (show IrOp.store = .vaddr from hs) (by decide)
    · exact absurd (show IrOp.start = .vaddr from hs) (by decide)

theorem run_storeThen {op : IrOp} (hop : op = .rload ∨ op = .loadV) :
    ((storeThen op).emitStore .store 2 (-5)).Run storeThenEnv storeThenMem := by
  refine Run.emit (built_storeThen hop).inBuffer (Or.inl rfl) (show (-5 : ℤ) < 5 by omega) ⟨?_, ?_⟩ rfl
  · intro ref h
    rcases onChain_storeThen h with rfl | rfl | rfl
    · rcases hop with rfl | rfl
      · rfl
      · exact ⟨rfl, holds_write (le_refl _)⟩
    · rfl
    · trivial
  · intro a _ ha
    exfalso
    revert ha
    simp only [storeThen]
    rcases hop with rfl | rfl <;> split_ifs <;> simp

theorem aliasRight_storeThen {op : IrOp} (hop : op = .rload ∨ op = .loadV) :
    (storeThen op).AliasRight storeThenEnv 2 ((storeThen op).base (-5)).type := by
  intro n h
  rcases onChain_storeThen h with rfl | rfl | rfl
  · rcases hop with rfl | rfl <;>
      exact ⟨fun hs => absurd hs (by decide), fun hl => absurd hl (by decide)⟩
  · rcases hop with rfl | rfl <;>
      exact ⟨fun _ hno => absurd hno (by decide), fun hl => absurd hl (by decide)⟩
  · exact ⟨fun hs => absurd (show IrOp.start = .store from hs) (by decide),
      fun hl => absurd (show IrOp.start = .load from hl) (by decide)⟩

/-- A store that a second one overwrites is deleted, and nothing changes. -/
theorem overwritten_store_same : (storeThen .rload).irStore 2 (-5) ≠ (storeThen .rload).emitStore .store 2 (-5) ∧
    ∃ mem', SameSight ((storeThen .rload).emitStore .store 2 (-5)) ((storeThen .rload).irStore 2 (-5))
      storeThenEnv storeThenMem mem' := by
  have hop : IrOp.rload = .rload ∨ IrOp.rload = .loadV := Or.inl rfl
  refine ⟨fun h => absurd (congrArg (fun C : Ctx => (C.base 3).op) h) (by decide), ?_⟩
  refine (store_elimination_same (storeThen .rload) (built_storeThen hop) storeThenEnv storeThenMem (-5)
    (by decide)).1 2 (by decide) ⟨fun h => absurd h (by decide), fun _ => aliasRight_storeThen hop, ?_⟩
    (run_storeThen hop)
  intro _ n hn _ hover
  rcases onChain_storeThen hn with rfl | rfl | rfl <;> simp [storeThen, overlookedByStores] at hover

/-- A store that a volatile load reads is deleted all the same. -/
theorem read_store_deleted :
    ∃ (C : Ctx) (E : Env) (mem : ℕ → Memory) (addr val : ℤ), C.Built ∧ addr < C.insnsCount ∧
      val < C.insnsCount ∧ (C.base addr).op ≠ .vaddr ∧ C.AliasRight E addr (C.base val).type ∧
      (C.emitStore .store addr val).Run E mem ∧
      ¬ ∃ mem', SameSight (C.emitStore .store addr val) (C.irStore addr val) E mem mem' := by
  have hop : IrOp.loadV = .rload ∨ IrOp.loadV = .loadV := Or.inr rfl
  refine ⟨storeThen .loadV, storeThenEnv, storeThenMem, 2, -5, built_storeThen hop, by decide, by decide,
    by decide, aliasRight_storeThen hop, run_storeThen hop, ?_⟩
  rintro ⟨mem', hsame⟩
  -- the chain is START, LOAD_v, STORE
  have hcontrol : ((storeThen .loadV).irStore 2 (-5)).control = 5 := by decide
  have hprev5 : ((storeThen .loadV).irStore 2 (-5)).prev 5 = 4 := by decide
  have hprev4 : ((storeThen .loadV).irStore 2 (-5)).prev 4 = 1 := by decide
  have h4 : ((storeThen .loadV).irStore 2 (-5)).OnChain 4 :=
    Relation.ReflTransGen.single ⟨by omega, by rw [hcontrol, hprev5]⟩
  have h1 : ((storeThen .loadV).irStore 2 (-5)).OnChain 1 := h4.tail ⟨by omega, hprev4.symm⟩
  have hstart : mem' 1 = fun _ => 0 := hsame.given 1 h1 (by decide)
  have hbase : ((storeThen .loadV).irStore 2 (-5)).base (4 : ℕ) = ⟨.loadV, .u8, 1, 2, 0, 0, 0⟩ := by rfl
  have hread := ((hsame.run.step 4 h4).read (by rw [hbase]; rfl)).2 4096
  rw [hprev4, hstart, hbase] at hread
  exact absurd (hread (by decide)) (by decide)

end Unread

end Ctx

end IrJit.Mem
