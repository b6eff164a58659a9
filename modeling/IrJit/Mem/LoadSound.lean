import IrJit.Mem.Exec

/-!
# Mem.LoadSound — when a forwarded load is right

The walks for loads treat `STORE`, `VSTORE`, calls and merges as barriers.  They walk past the volatile
stores, `VA_START`, `VA_COPY`, `VA_ARG`, `ASM` and `ENTRY`, which may change memory too.
-/

namespace IrJit.Mem

open Memory

/-- The opcodes that may change memory and that the walks for loads do not look at. -/
def overlookedByLoads : IrOp → Bool
  | .storeV | .vstoreV | .vaStart | .vaCopy | .vaArg | .asm | .entry => true
  | _ => false

namespace Ctx

variable {C : Ctx} {E : Env} {mem : ℕ → Memory} {type : IrType}

/-- Does the walk for a load of `addr` end at the instruction? -/
def decidesLoad (C : Ctx) (type : IrType) (addr : ℤ) (insn : Insn) : Prop :=
  (insn.op = .load ∧ insn.op2 = addr ∧ forwards insn.type type)
    ∨ (insn.op = .store ∧
        (insn.op2 = addr ∨ C.checkAliasing addr insn.op2 type (C.base insn.op3).type ≠ .no))
    ∨ (insn.op = .call ∧ ¬ C.isPureCall insn)
    ∨ insn.op = .merge ∨ insn.op = .loopBegin ∨ insn.op = .vstore ∨ (insn.op = .beginOp ∧ insn.op2 ≠ 0)

/-- Does the walk for a load of the variable `var` end at the instruction? -/
def decidesVload (C : Ctx) (type : IrType) (var : ℤ) (insn : Insn) : Prop :=
  (insn.op = .vload ∧ insn.op2 = var ∧ forwards insn.type type)
    ∨ (insn.op = .vstore ∧ insn.op2 = var)
    ∨ (insn.op = .call ∧ ¬ C.isPureCall insn)
    ∨ insn.op = .merge ∨ insn.op = .loopBegin ∨ insn.op = .store ∨ (insn.op = .beginOp ∧ insn.op2 ≠ 0)

theorem size_le_of_forwards {found : IrType} (h : forwards found type = true) :
    type.size ≤ found.size := by
  simp only [forwards, Bool.or_eq_true, Bool.and_eq_true, decide_eq_true_eq] at h
  rcases h with (rfl | h) | ⟨⟨h, _⟩, _⟩
  · exact le_refl _
  · exact h.ge
  · exact h.le

/-- The conversion keeps the bytes of the load. -/
theorem byte_convert (found type : IrType) (v : BitVec 64) {k : ℕ} (hk : k < type.size) :
    byte (convert found type v) k = byte v k := by
  unfold convert
  split_ifs
  · rfl
  · rfl
  · have hsize := type.size_le
    ext i hi
    simp only [byte, BitVec.getElem_extractLsb', BitVec.getLsbD_and, BitVec.getLsbD_ofNat,
      Nat.testBit_two_pow_sub_one]
    have hlt : 8 * k + i < 8 * type.size := by omega
    have h64 : 8 * k + i < 64 := by omega
    simp [hlt, h64]

/-- An instruction that a walk passes without looking at it, and that is not overlooked, does nothing to
memory, unless it is one of those that the walk tests. -/
theorem effect_of_unseen {insn : Insn} (hover : overlookedByLoads insn.op = false)
    (hcall : insn.op ≠ .call) (hstore : insn.op ≠ .store) (hvstore : insn.op ≠ .vstore)
    (hmerge : insn.op ≠ .merge) (hloop : insn.op ≠ .loopBegin)
    (hlabel : ¬ (insn.op = .beginOp ∧ insn.op2 ≠ 0)) (hstart : insn.op ≠ .start) :
    C.effect insn = .nothing ∨ opEffect insn.op = .read := by
  unfold effect
  rw [if_neg hcall, if_neg hlabel]
  revert hover hcall hstore hvstore hmerge hloop hstart
  cases insn.op <;> simp [overlookedByLoads, opEffect]

/-- Memory is the same before and after an instruction with such an effect. -/
theorem Step.mem_eq {ref : ℕ} {m m' : Memory} (h : C.Step E ref m m')
    (he : C.effect (C.base ref) = .nothing ∨ opEffect (C.base ref).op = .read) : m' = m := by
  rcases he with he | he
  · exact h.nothing he
  · exact (h.read he).1

section Loads

variable (ho : C.Ordered) (hrun : C.Run E mem)
include ho hrun

/-- The walk for a load stops at an access whose value is still in memory. -/
theorem findAliasingLoad_holds {addr limit : ℤ} (halias : C.AliasRight E addr type)
    (hseen : C.Looks E overlookedByLoads (C.decidesLoad type addr) (E.val addr) type.size limit)
    (hlimit : 1 ≤ limit) {fuel ref stop : ℕ} {modified : List ℤ} {r : ℤ} (hchain : C.OnChain ref)
    (hpassed : C.Passed (C.decidesLoad type addr) ref)
    (hfind : C.findAliasingLoad type addr limit fuel ref modified = some (stop, r)) :
    Holds (mem ref) (E.val addr) type.size (E.val r) := by
  induction fuel generalizing ref modified with
  | zero => simp [findAliasingLoad] at hfind
  | succ fuel ih =>
    rw [findAliasingLoad] at hfind
    by_cases hlim : (ref : ℤ) ≤ limit
    · simp [hlim] at hfind
    have href : 1 < ref := by omega
    have hstep := hrun.step ref hchain
    have hover := hseen.clear hpassed hchain (by omega)
    -- the walk goes on: the instruction must not have changed the bytes
    have hpass : ∀ modified,
        C.findAliasingLoad type addr limit fuel (C.prev ref) modified = some (stop, r) →
        ¬ C.decidesLoad type addr (C.base ref) →
        (∀ x, Within (E.val addr) type.size x → mem ref x = mem (C.prev ref) x) →
        Holds (mem ref) (E.val addr) type.size (E.val r) := by
      intro modified hnext hnot hsame
      exact (ih (hchain.prev href) (hpassed.prev ho hchain href hnot) hnext).congr hsame
    simp only [hlim, if_false] at hfind
    by_cases hload : (C.base ref).op = .load
    · have hread := hstep.read (by rw [hload]; rfl)
      rw [if_pos hload] at hfind
      split_ifs at hfind with hfound
      · simp only [Option.some.injEq, Prod.mk.injEq] at hfind
        obtain ⟨rfl, rfl⟩ := hfind
        have hloc : loc E (C.base ref) = E.val addr := by
          unfold loc
          rw [hload, if_neg (by decide), hfound.1]
        rw [hloc] at hread
        rw [hread.1]
        exact hread.2.mono (size_le_of_forwards hfound.2)
      · refine hpass modified hfind ?_ fun x _ => by rw [hread.1]
        simpa [decidesLoad, hload] using hfound
    rw [if_neg hload] at hfind
    by_cases hstore : (C.base ref).op = .store
    · have hwrite := hstep.write (by rw [hstore]; rfl)
      have hloc : loc E (C.base ref) = E.val (C.base ref).op2 := by
        unfold loc
        rw [hstore, if_neg (by decide)]
      rw [hloc] at hwrite
      rw [if_pos hstore] at hfind
      split_ifs at hfind with haddr hmod hfound hno
      · simp only [Option.some.injEq, Prod.mk.injEq] at hfind
        obtain ⟨rfl, rfl⟩ := hfind
        rw [hwrite, haddr]
        exact holds_write (size_le_of_forwards hfound)
      · refine hpass modified hfind ?_ fun x hx => ?_
        · simp [decidesLoad, hstore, haddr, not_ne_iff.mp hno]
        · rw [hwrite]
          exact write_of_not_within ((halias ref hchain).1 hstore (not_ne_iff.mp hno) x hx)
    rw [if_neg hstore] at hfind
    by_cases hrstore : (C.base ref).op = .rstore
    · rw [if_pos hrstore] at hfind
      refine hpass _ hfind ?_ fun x _ => ?_
      · simp [decidesLoad, hrstore]
      · rw [hstep.nothing (by unfold effect; rw [hrstore]; rfl)]
    rw [if_neg hrstore] at hfind
    by_cases hcall : (C.base ref).op = .call
    · rw [if_pos hcall] at hfind
      split_ifs at hfind with hpure
      refine hpass modified hfind ?_ fun x _ => ?_
      · simp [decidesLoad, hcall, hpure]
      · rw [hstep.nothing (by unfold effect; rw [if_pos hcall, if_pos hpure])]
    rw [if_neg hcall] at hfind
    split_ifs at hfind with hbarrier
    refine hpass modified hfind (by simpa [decidesLoad, hload, hstore, hcall] using hbarrier) fun x hx => ?_
    obtain ⟨hmerge, hloop, hvstore, hbegin⟩ := by simpa only [not_or] using hbarrier
    have hstart : (C.base ref).op ≠ .start := fun e => by
      have := ho.start ref hchain e
      omega
    rcases hover with hover | hclear
    · rw [hstep.mem_eq (effect_of_unseen hover hcall hstore hvstore hmerge hloop hbegin hstart)]
    · exact hstep.keeps (Or.inr hclear) x hx

/-- The walk for a load of a variable stops at an access whose value is still in memory. -/
theorem findAliasingVload_holds {var : ℤ} (hvars : C.VarsApart E var type.size)
    (hseen : C.Looks E overlookedByLoads (C.decidesVload type var) (E.varAddr var) type.size var)
    (hvar : 1 ≤ var) {fuel ref stop : ℕ} {r : ℤ} (hchain : C.OnChain ref) (hpassed : C.Passed (C.decidesVload type var) ref)
    (hfind : C.findAliasingVload type var fuel ref = some (stop, r)) :
    Holds (mem ref) (E.varAddr var) type.size (E.val r) := by
  induction fuel generalizing ref with
  | zero => simp [findAliasingVload] at hfind
  | succ fuel ih =>
    rw [findAliasingVload] at hfind
    by_cases hlim : (ref : ℤ) ≤ var
    · simp [hlim] at hfind
    have href : 1 < ref := by omega
    have hstep := hrun.step ref hchain
    have hover := hseen.clear hpassed hchain (by omega)
    have hpass : C.findAliasingVload type var fuel (C.prev ref) = some (stop, r) →
        ¬ C.decidesVload type var (C.base ref) →
        (∀ x, Within (E.varAddr var) type.size x → mem ref x = mem (C.prev ref) x) →
        Holds (mem ref) (E.varAddr var) type.size (E.val r) := by
      intro hnext hnot hsame
      exact (ih (hchain.prev href) (hpassed.prev ho hchain href hnot) hnext).congr hsame
    simp only [hlim, if_false] at hfind
    by_cases hload : (C.base ref).op = .vload
    · have hread := hstep.read (by rw [hload]; rfl)
      rw [if_pos hload] at hfind
      split_ifs at hfind with hfound
      · simp only [Option.some.injEq, Prod.mk.injEq] at hfind
        obtain ⟨rfl, rfl⟩ := hfind
        have hloc : loc E (C.base ref) = E.varAddr var := by
          unfold loc
          rw [hload, if_pos (by decide), hfound.1]
        rw [hloc] at hread
        rw [hread.1]
        exact hread.2.mono (size_le_of_forwards hfound.2)
      · refine hpass hfind ?_ fun x _ => by rw [hread.1]
        simpa [decidesVload, hload] using hfound
    rw [if_neg hload] at hfind
    by_cases hstore : (C.base ref).op = .vstore
    · have hwrite := hstep.write (by rw [hstore]; rfl)
      have hloc : loc E (C.base ref) = E.varAddr (C.base ref).op2 := by
        unfold loc
        rw [hstore, if_pos (by decide)]
      rw [hloc] at hwrite
      rw [if_pos hstore] at hfind
      split_ifs at hfind with haddr hfound
      · simp only [Option.some.injEq, Prod.mk.injEq] at hfind
        obtain ⟨rfl, rfl⟩ := hfind
        rw [hwrite, haddr]
        exact holds_write (size_le_of_forwards hfound)
      · refine hpass hfind ?_ fun x hx => ?_
        · simp [decidesVload, hstore, haddr]
        · rw [hwrite]
          exact write_of_not_within ((hvars ref hchain haddr).1 hstore x hx)
    rw [if_neg hstore] at hfind
    by_cases hcall : (C.base ref).op = .call
    · rw [if_pos hcall] at hfind
      split_ifs at hfind with hpure
      refine hpass hfind ?_ fun x _ => ?_
      · simp [decidesVload, hcall, hpure]
      · rw [hstep.nothing (by unfold effect; rw [if_pos hcall, if_pos hpure])]
    rw [if_neg hcall] at hfind
    split_ifs at hfind with hbarrier
    refine hpass hfind (by simpa [decidesVload, hload, hstore, hcall] using hbarrier) fun x hx => ?_
    obtain ⟨hmerge, hloop, hpstore, hbegin⟩ := by simpa only [not_or] using hbarrier
    have hstart : (C.base ref).op ≠ .start := fun e => by
      have := ho.start ref hchain e
      omega
    rcases hover with hover | hclear
    · rw [hstep.mem_eq (effect_of_unseen hover hcall hpstore hstore hmerge hloop hbegin hstart)]
    · exact hstep.keeps (Or.inr hclear) x hx

theorem irVload_holds {var : ℤ} (hvar : 1 ≤ var) (hvars : C.VarsApart E var type.size)
    (hseen : C.Looks E overlookedByLoads (C.decidesVload type var) (E.varAddr var) type.size var)
    {stop : ℕ} {r : ℤ} (hfound : C.irVload type var = .found stop r) :
    Holds (mem C.control) (E.varAddr var) type.size (convert (C.base r).type type (E.val r)) := by
  unfold irVload at hfound
  split at hfound
  · rename_i stop' ref' hfind
    simp only [Loaded.found.injEq] at hfound
    obtain ⟨rfl, rfl⟩ := hfound
    have := findAliasingVload_holds ho hrun hvars hseen hvar (onChain_control C)
      (passed_control ho _) hfind
    exact this.of_bytes fun k hk => byte_convert _ _ _ hk
  · simp at hfound

theorem irLoad_holds {addr : ℤ} (hvaddr : (C.base addr).op ≠ .vaddr) (halias : C.AliasRight E addr type)
    (hseen : C.Looks E overlookedByLoads (C.decidesLoad type addr) (E.val addr) type.size
      (if addr > 0 then addr else 1)) {stop : ℕ} {r : ℤ}
    (hfound : C.irLoad type addr = .found stop r) :
    Holds (mem C.control) (E.val addr) type.size (convert (C.base r).type type (E.val r)) := by
  unfold irLoad at hfound
  rw [if_neg hvaddr] at hfound
  split at hfound
  · rename_i stop' ref' hfind
    simp only [Loaded.found.injEq] at hfound
    obtain ⟨rfl, rfl⟩ := hfound
    have hlimit : 1 ≤ (if addr > 0 then addr else 1) := by split_ifs <;> omega
    have := findAliasingLoad_holds ho hrun halias hseen hlimit (onChain_control C)
      (passed_control ho _) hfind
    exact this.of_bytes fun k hk => byte_convert _ _ _ hk
  · simp at hfound

end Loads

/-- What makes a forwarded load of a variable right: accesses to other variables are elsewhere, and the
walk ends before it comes to an instruction that it should have looked at, or that one is elsewhere too. -/
structure VloadLooks (C : Ctx) (E : Env) (type : IrType) (var : ℤ) : Prop where
  var_pos : 1 ≤ var
  apart : C.VarsApart E var type.size
  looks : C.Looks E overlookedByLoads (C.decidesVload type var) (E.varAddr var) type.size var

/-- What makes a forwarded load right. -/
structure LoadLooks (C : Ctx) (E : Env) (type : IrType) (addr : ℤ) : Prop where
  vaddr : (C.base addr).op = .vaddr → C.VloadLooks E type (C.base addr).op1
  answers : (C.base addr).op ≠ .vaddr → C.AliasRight E addr type
  looks : (C.base addr).op ≠ .vaddr →
    C.Looks E overlookedByLoads (C.decidesLoad type addr) (E.val addr) type.size
      (if addr > 0 then addr else 1)

section Stale

/-- `p` is loaded, and then written by a store of the kind `op`. -/
def loadThenStore (op : IrOp) : Ctx where
  base := fun ref =>
    if ref = 1 then ⟨.start, .void, 0, 0, 0, 0, 0⟩
    else if ref = 2 then ⟨.param, .addr, 1, 0, 0, 0, 0⟩
    else if ref = 3 then ⟨.load, .u8, 1, 2, 0, 0, 0⟩
    else if ref = 4 then ⟨op, .void, 3, 2, -4, 0, 0⟩
    else ⟨.cU8, .u8, 0, 0, 0, 5, 0⟩
  insnsCount := 5
  control := 4
  pureProto := fun _ => false

/-- `p` is `4096` and points to `0`. -/
def loadThenStoreEnv : Env where
  val := fun ref => if ref = 2 then 4096 else if ref = -4 then 5 else 0
  varAddr := fun _ => 0

/-- Memory is zero before the store. -/
def loadThenStoreMem (ref : ℕ) : Memory := if ref = 4 then write (fun _ => 0) 4096 1 5 else fun _ => 0

end Stale

end Ctx

end IrJit.Mem
