import IrJit.Dessa.ParallelCopy

/-!
# Dessa.MoveSpec — what one `ir_emit_dessa_move` does

`emitDessaMove_spec`: the emitted instructions give the destination the bytes of the source, and
change no other location, the temporary register of the class apart when the move goes through it
(`needsTmp`).
-/

namespace IrJit.Dessa

variable {ctx : Ctx}

/-- A register of the class of the type, or a spill slot. -/
def ClassOk (t : IrType) (l : ℕ) : Prop :=
  l < regNum → (if t.isInt then isGpReg l else isFpReg l) = true

/-- The value denoted by a source: a constant, an address or the contents of a location. -/
def srcVal (ctx : Ctx) (s : State) (src : ℤ) : Word :=
  if src < 0 then
    if -src < ctx.constsCount then ctx.constVal src else ctx.localAddr (-src - ctx.constsCount)
  else s.get src.toNat

/-- `src` encodes the address of a local variable. -/
def isLocalAddr (ctx : Ctx) (src : ℤ) : Prop := src < 0 ∧ ¬ -src < ctx.constsCount

/-- The move goes through the temporary register of its class. -/
def needsTmp (ctx : Ctx) (t : IrType) (dst : ℕ) (src : ℤ) : Bool :=
  !decide (dst < regNum) &&
    if src < 0 then !(decide (-src < ctx.constsCount) && storesImm ctx t src)
    else !decide (src.toNat < regNum)

theorem ClassOk.gp {t : IrType} {l : ℕ} (h : ClassOk t l) (hl : l < regNum) (ht : t.isInt = true) :
    isGpReg l = true := by
  simpa [ht] using h hl

theorem ClassOk.fp {t : IrType} {l : ℕ} (h : ClassOk t l) (hl : l < regNum) (ht : t.isInt = false) :
    isFpReg l = true := by
  simpa [ht] using h hl

theorem ClassOk.of_kind {t u : IrType} {l : ℕ} (h : ClassOk t l) (hk : t.kind = u.kind) :
    ClassOk u l := by
  unfold ClassOk at h ⊢
  rwa [← IrType.isInt_of_kind hk]

theorem srcVal_of_nat (s : State) (l : ℕ) : srcVal ctx s (l : ℤ) = s.get l := by
  simp [srcVal]

/-! ### Single instructions -/

theorem exec_one {i : Instr} {s s' : State} (h : i.exec ctx s = some s') :
    exec ctx [i] s = some s' := by
  simp [exec, h]

theorem exec_two {i j : Instr} {s s' s'' : State} (h : i.exec ctx s = some s')
    (h' : j.exec ctx s' = some s'') : exec ctx [i, j] s = some s'' := by
  simp [exec, h, h']

theorem exec_leaLocal (ctx : Ctx) (s : State) {t : IrType} {d : ℕ} (ref : ℤ) (hd : ClassOk t d)
    (hdl : d < regNum) (ht : t.isInt = true) :
    (Instr.leaLocal d ref).exec ctx s = some (s.setReg d (ctx.localAddr ref)) := by
  exact if_pos (hd.gp hdl ht)

theorem exec_emitMov (ctx : Ctx) (s : State) {t : IrType} {d r : ℕ} (hd : ClassOk t d) (hr : ClassOk t r)
    (hdl : d < regNum) (hrl : r < regNum) :
    ∃ v, (emitMov t d r).exec ctx s = some (s.setReg d v) ∧ Agree t.size v (s.reg r) := by
  unfold emitMov
  cases ht : t.isInt with
  | true =>
    refine ⟨_, ?_, agree_writeGp t.size (s.reg d) (s.reg r)⟩
    exact if_pos (by simp [hd.gp hdl ht, hr.gp hrl ht])
  | false =>
    refine ⟨_, ?_, Agree.refl t.size (s.reg r)⟩
    exact if_pos (by simp [hd.fp hdl ht, hr.fp hrl ht])

theorem exec_emitLoad (ctx : Ctx) (s : State) {t : IrType} {d : ℕ} (ref : ℤ) (hd : ClassOk t d)
    (hdl : d < regNum) :
    ∃ v, (emitLoad t d ref).exec ctx s = some (s.setReg d v) ∧ Agree t.size v (ctx.constVal ref) := by
  unfold emitLoad
  cases ht : t.isInt with
  | true =>
    refine ⟨_, ?_, agree_writeGp t.size (s.reg d) (ctx.constVal ref)⟩
    exact if_pos (hd.gp hdl ht)
  | false =>
    refine ⟨_, ?_, agree_mergeLow t.size 0 (ctx.constVal ref)⟩
    exact if_pos (hd.fp hdl ht)

theorem exec_emitLoadMem (ctx : Ctx) (s : State) {t : IrType} {d : ℕ} (m : Mem) (hd : ClassOk t d)
    (hdl : d < regNum) :
    ∃ v, (emitLoadMem t d m).exec ctx s = some (s.setReg d v) ∧ Agree t.size v (s.mem m) := by
  unfold emitLoadMem
  cases ht : t.isInt with
  | true =>
    refine ⟨_, ?_, agree_writeGp t.size (s.reg d) (s.mem m)⟩
    exact if_pos (hd.gp hdl ht)
  | false =>
    refine ⟨_, ?_, agree_mergeLow t.size 0 (s.mem m)⟩
    exact if_pos (hd.fp hdl ht)

theorem exec_emitStoreMem (ctx : Ctx) (s : State) {t : IrType} {r : ℕ} (m : Mem) (hr : ClassOk t r)
    (hrl : r < regNum) :
    ∃ v, (emitStoreMem t m r).exec ctx s = some (s.setMem m v) ∧ Agree t.size v (s.reg r) := by
  unfold emitStoreMem
  refine ⟨_, ?_, agree_mergeLow t.size (s.mem m) (s.reg r)⟩
  cases ht : t.isInt with
  | true => simp [Instr.exec, hr.gp hrl ht]
  | false => simp [Instr.exec, hr.fp hrl ht]

/-- An immediate of 32 bits, sign extended, gives the constant its bytes. -/
theorem agree_imm {t : IrType} {src : ℤ} (h : storesImm ctx t src = true) :
    Agree t.size (((ctx.constVal src).setWidth 32).signExtend 64) (ctx.constVal src) := by
  simp only [storesImm, Bool.and_eq_true, Bool.or_eq_true, bne_iff_ne, ne_eq] at h
  obtain ⟨-, hsz | h32⟩ := h
  · have h4 : t.size ≤ 4 := by
      revert hsz
      cases t <;> decide
    unfold Agree
    ext i hi
    simp only [BitVec.getElem_setWidth, BitVec.getLsbD_signExtend]
    simp [show i < 64 by omega, show i < 32 by omega]
  · have hval : ((ctx.constVal src).setWidth 32).signExtend 64 = ctx.constVal src := by
      simp only [isSigned32, Bool.and_eq_true, decide_eq_true_eq] at h32
      apply BitVec.eq_of_toInt_eq
      rw [BitVec.toInt_signExtend_of_le (by omega), BitVec.toInt_setWidth]
      rw [BitVec.toInt_eq_toNat_bmod] at h32 ⊢
      simp only [Int.bmod] at h32 ⊢
      omega
    rw [hval]
    exact Agree.refl _ _

/-! ### The whole move -/

/-- The effect of a move on a state: the destination agrees with the source on the bytes of the
type, every location but the destination and `clobber` is unchanged. -/
structure Moved (ctx : Ctx) (t : IrType) (dst : ℕ) (src : ℤ) (clobber : Option ℕ) (s s' : State) :
    Prop where
  val : Agree t.size (s'.get dst) (srcVal ctx s src)
  frame : ∀ l, l ≠ dst → clobber ≠ some l → s'.get l = s.get l
  spill : s'.mem .tmpSpill = s.mem .tmpSpill

theorem Moved.of_setReg {t : IrType} {dst : ℕ} {src : ℤ} {clobber : Option ℕ} {s : State} {v : Word}
    (hd : dst < regNum) (hv : Agree t.size v (srcVal ctx s src)) :
    Moved ctx t dst src clobber s (s.setReg dst v) where
  val := by rwa [State.get_setReg_self s v hd]
  frame := fun _ hl _ => State.get_setReg_of_ne s v hl
  spill := rfl

theorem Moved.of_setMem {t : IrType} {dst : ℕ} {src : ℤ} {clobber : Option ℕ} {s : State} {v : Word}
    (hd : ¬ dst < regNum) (hv : Agree t.size v (srcVal ctx s src)) :
    Moved ctx t dst src clobber s (s.setMem (.slot (dst - regNum)) v) where
  val := by rwa [State.get_setMem_slot s v hd]
  frame := fun _ hl _ => State.get_setMem_slot_of_ne s v hd hl
  spill := by simp

/-- Through the temporary register `r`. -/
theorem Moved.of_tmp {t : IrType} {dst r : ℕ} {src : ℤ} {s : State} {v w : Word}
    (hd : ¬ dst < regNum) (hw : Agree t.size w (srcVal ctx s src))
    (hv : Agree t.size v w) :
    Moved ctx t dst src (some r) s ((s.setReg r w).setMem (.slot (dst - regNum)) v) where
  val := by
    rw [State.get_setMem_slot _ v hd]
    exact hv.trans hw
  frame := fun l hl hr => by
    rw [State.get_setMem_slot_of_ne _ v hd hl, State.get_setReg_of_ne s w (by simpa using Ne.symm (by simpa using hr))]
  spill := by simp

/-- The register through which a move goes, if it goes through one. -/
def clobberOf (ctx : Ctx) (t : IrType) (dst : ℕ) (src : ℤ) (tmp tmpFp : Option ℕ) : Option ℕ :=
  if needsTmp ctx t dst src then tmpFor t tmp tmpFp else none

/-- **One move.** -/
theorem emitDessaMove_spec (ctx : Ctx) (t : IrType) (dst : ℕ) (src : ℤ) (tmp tmpFp : Option ℕ)
    (hd : ClassOk t dst) (hs : 0 ≤ src → ClassOk t src.toNat)
    (hla : isLocalAddr ctx src → t.isInt = true)
    (htmp : needsTmp ctx t dst src = true →
      ∃ r, tmpFor t tmp tmpFp = some r ∧ r < regNum ∧ ClassOk t r) :
    ∃ c, emitDessaMove ctx t dst src tmp tmpFp = some c ∧
      ∀ s, ∃ s', exec ctx c s = some s' ∧
        Moved ctx t dst src (clobberOf ctx t dst src tmp tmpFp) s s' := by
  unfold emitDessaMove clobberOf
  by_cases hdr : dst < regNum
  · rw [if_pos hdr]
    by_cases hneg : src < 0
    · rw [if_pos hneg]
      by_cases hc : -src < ctx.constsCount
      · rw [if_pos hc]
        refine ⟨_, rfl, fun s => ?_⟩
        obtain ⟨v, hex, hv⟩ := exec_emitLoad ctx s src hd hdr
        exact ⟨_, exec_one hex, .of_setReg hdr (by simpa [srcVal, hneg, hc] using hv)⟩
      · rw [if_neg hc]
        refine ⟨_, rfl, fun s => ?_⟩
        have hex := exec_leaLocal ctx s (-src - ctx.constsCount) hd hdr (hla ⟨hneg, hc⟩)
        exact ⟨_, exec_one hex, .of_setReg hdr (by simp [srcVal, hneg, hc, Agree.refl])⟩
    · rw [if_neg hneg]
      have hval : ∀ s, srcVal ctx s src = s.get src.toNat := fun s => by simp [srcVal, hneg]
      by_cases hsr : src.toNat < regNum
      · rw [if_pos hsr]
        refine ⟨_, rfl, fun s => ?_⟩
        obtain ⟨v, hex, hv⟩ := exec_emitMov ctx s hd (hs (by omega)) hdr hsr
        exact ⟨_, exec_one hex, .of_setReg hdr (by rwa [hval, s.get_reg hsr])⟩
      · rw [if_neg hsr]
        refine ⟨_, rfl, fun s => ?_⟩
        obtain ⟨v, hex, hv⟩ := exec_emitLoadMem ctx s (.slot (src.toNat - regNum)) hd hdr
        exact ⟨_, exec_one hex, .of_setReg hdr (by rwa [hval, s.get_mem hsr])⟩
  · rw [if_neg hdr]
    by_cases hneg : src < 0
    · rw [if_pos hneg]
      by_cases hc : -src < ctx.constsCount
      · rw [if_pos hc]
        by_cases himm : storesImm ctx t src = true
        · rw [if_pos himm]
          refine ⟨_, rfl, fun s => ⟨_, rfl, .of_setMem hdr ?_⟩⟩
          have h := (agree_mergeLow t.size (s.mem (.slot (dst - regNum)))
            (((ctx.constVal src).setWidth 32).signExtend 64)).trans (agree_imm himm)
          simpa [srcVal, hneg, hc] using h
        · rw [if_neg himm]
          have hn : needsTmp ctx t dst src = true := by simp [needsTmp, hdr, hneg, hc, himm]
          obtain ⟨r, hr, hrl, hrc⟩ := htmp hn
          rw [if_pos hn, hr]
          refine ⟨_, rfl, fun s => ?_⟩
          obtain ⟨w, hex, hw⟩ := exec_emitLoad ctx s src hrc hrl
          obtain ⟨v, hex', hv⟩ := exec_emitStoreMem ctx (s.setReg r w)
            (.slot (dst - regNum)) hrc hrl
          refine ⟨_, exec_two hex hex', .of_tmp hdr (by simpa [srcVal, hneg, hc] using hw) ?_⟩
          simpa [State.setReg] using hv
      · rw [if_neg hc]
        have hn : needsTmp ctx t dst src = true := by simp [needsTmp, hdr, hneg, hc]
        have hint := hla ⟨hneg, hc⟩
        obtain ⟨r, hr, hrl, hrc⟩ := htmp hn
        rw [if_pos hn, hr]
        have hr' : tmp = some r := by simpa [tmpFor, hint] using hr
        subst hr'
        refine ⟨_, rfl, fun s => ?_⟩
        obtain ⟨v, hex', hv⟩ := exec_emitStoreMem ctx
          (s.setReg r (ctx.localAddr (-src - ctx.constsCount))) (.slot (dst - regNum)) hrc hrl
        refine ⟨_, exec_two (exec_leaLocal ctx s _ hrc hrl hint) hex',
          .of_tmp hdr (by simp [srcVal, hneg, hc, Agree.refl]) ?_⟩
        simpa [State.setReg] using hv
    · rw [if_neg hneg]
      have hval : ∀ s, srcVal ctx s src = s.get src.toNat := fun s => by simp [srcVal, hneg]
      by_cases hsr : src.toNat < regNum
      · rw [if_pos hsr]
        refine ⟨_, rfl, fun s => ?_⟩
        obtain ⟨v, hex, hv⟩ := exec_emitStoreMem ctx s (.slot (dst - regNum))
          (hs (by omega)) hsr
        exact ⟨_, exec_one hex, .of_setMem hdr (by rwa [hval, s.get_reg hsr])⟩
      · rw [if_neg hsr]
        have hn : needsTmp ctx t dst src = true := by simp [needsTmp, hdr, hneg, hsr]
        obtain ⟨r, hr, hrl, hrc⟩ := htmp hn
        rw [if_pos hn, hr]
        refine ⟨_, rfl, fun s => ?_⟩
        obtain ⟨w, hex, hw⟩ := exec_emitLoadMem ctx s (.slot (src.toNat - regNum)) hrc hrl
        obtain ⟨v, hex', hv⟩ := exec_emitStoreMem ctx (s.setReg r w)
          (.slot (dst - regNum)) hrc hrl
        refine ⟨_, exec_two hex hex', .of_tmp hdr (by rwa [hval, s.get_mem hsr]) ?_⟩
        simpa [State.setReg] using hv

end IrJit.Dessa
