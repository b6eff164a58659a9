import IrJit.Fold.Exact
import IrJit.Lib.PowerTwo
import IrJit.X86.Pwr2

/-!
# X86.Pwr2Exact — when the lowering by powers of two is exact

Three inputs go wrong: the signed quotient of the smallest number by itself, the signed remainder by 1
of a negative number of 32 or 64 bits, and the in-memory remainder by `2 ^ 32` or more of a number that
is not smaller than the divisor (`pwr2_exact`).
-/

namespace IrJit.X86

open Dessa (isSigned32)
open PowerTwo (setWidth_twoPow)

variable {s : State} {w k : ℕ} {c : Word} {r : PwrRegs} {type : IrType} {rule : PwrRule} {op : IrOp}

/-- The operand widths. -/
def IsWidth (w : ℕ) : Prop := w = 8 ∨ w = 16 ∨ w = 32 ∨ w = 64

theorem IsWidth.le (h : IsWidth w) : w ≤ 64 := by
  unfold IsWidth at h
  omega

theorem isWidth_of_int (ht : Fold.IsInt type) : IsWidth (8 * type.size) := by
  obtain ⟨h1, h2⟩ := ht
  unfold IsWidth
  cases type <;> simp_all [IrType.size, IrType.isInt]

/-! ### Constants -/

/-- `IR_IS_POWER_OF_TWO`. -/
theorem exists_twoPow (h : Fold.isPowerOfTwo c = true) : ∃ k < 64, c = BitVec.twoPow 64 k := by
  simp only [Fold.isPowerOfTwo, ne_eq, Bool.and_eq_true, decide_eq_true_eq] at h
  exact PowerTwo.exists_twoPow h.1 h.2

theorem log2_twoPow (h : k < 64) : log2 (BitVec.twoPow 64 k) = k := by
  unfold log2 Fold.log2
  rw [BitVec.toNat_twoPow_of_lt h, Nat.log2_two_pow, BitVec.toNat_ofNat]
  exact Nat.mod_eq_of_lt (by omega)

/-- The mask at the width of the operation. -/
theorem setWidth_mask (h : k < w) (hw : w ≤ 64) :
    (BitVec.twoPow 64 k - 1).setWidth w = BitVec.twoPow w k - 1#w := PowerTwo.setWidth_mask h hw

/-- `IR_IS_SIGNED_32BIT`: the value survives the cut to an immediate. -/
theorem signExtend_of_isSigned32 {v : Word} (h : isSigned32 v = true) : (v.setWidth 32).signExtend 64 = v := by
  unfold isSigned32 at h
  simp only [Bool.and_eq_true, decide_eq_true_eq] at h
  apply BitVec.eq_of_toInt_eq
  rw [BitVec.toInt_signExtend_of_le (by omega), BitVec.toInt_setWidth]
  have hbmod : (v.toNat : ℤ).bmod (2 ^ 32) = v.toInt.bmod (2 ^ 32) := by
    rw [BitVec.toInt_eq_toNat_bmod, Int.bmod_bmod_of_dvd]
    exact Nat.pow_dvd_pow 2 (by omega)
  rw [hbmod]
  exact Int.bmod_eq_of_le_mul_two (by push_cast; omega) (by push_cast; omega)

theorem isSigned32_mask (h : k < 64) : isSigned32 (BitVec.twoPow 64 k - 1) = true ↔ k ≤ 31 := by
  unfold isSigned32
  have hint : (BitVec.twoPow 64 k - 1).toInt = 2 ^ k - 1 := PowerTwo.toInt_bias h
  have hpos : (0 : ℤ) < 2 ^ k := by positivity
  simp only [Bool.and_eq_true, decide_eq_true_eq, hint]
  constructor
  · rintro ⟨-, h2⟩
    by_contra hk
    have hpow : (2 ^ 32 : ℤ) ≤ 2 ^ k := pow_le_pow_right₀ (by omega) (by omega)
    omega
  · intro hk
    have hpow : (2 ^ k : ℤ) ≤ 2 ^ 31 := pow_le_pow_right₀ (by omega) hk
    omega

/-- A canonical power of two fits its type: below the sign bit, save for the smallest 64-bit number. -/
theorem canonical_twoPow (ht : Fold.IsInt type) (hk : k < 64) (hc : Fold.Canonical type (BitVec.twoPow 64 k)) :
    k < 8 * type.size ∧ (type.isSigned = true → k + 1 < 8 * type.size ∨ (type.size = 8 ∧ k = 63)) := by
  obtain ⟨hr, hv⟩ := hc
  have hnat := congrArg BitVec.toNat hv
  rw [BitVec.toNat_twoPow_of_lt hk, BitVec.toNat_ofInt] at hnat
  generalize Fold.valueOf type (BitVec.twoPow 64 k) = n at hr hnat
  have hmod : ((2 ^ k : ℕ) : ℤ) = n % 2 ^ 64 := by
    rw [hnat, Int.toNat_of_nonneg]
    · rfl
    · exact Int.emod_nonneg n (by norm_num)
  have hw := isWidth_of_int ht
  have hle : 2 ^ k ≤ 2 ^ 63 := Nat.pow_le_pow_right (by omega) (by omega)
  have hmono : ∀ m, 2 ^ k < 2 ^ m → k < m := fun m h => (Nat.pow_lt_pow_iff_right (by omega)).mp h
  unfold Fold.InRange Fold.bits at hr
  split_ifs at hr with hb hs
  · subst hb
    refine ⟨hmono 8 (by omega), fun h => absurd h (by decide)⟩
  · unfold IsWidth at hw
    rcases hw with hw | hw | hw | hw
    · rw [hw] at hr ⊢
      have := hmono 7 (by omega)
      exact ⟨by omega, fun _ => by omega⟩
    · rw [hw] at hr ⊢
      have := hmono 15 (by omega)
      exact ⟨by omega, fun _ => by omega⟩
    · rw [hw] at hr ⊢
      have := hmono 31 (by omega)
      exact ⟨by omega, fun _ => by omega⟩
    · exact ⟨by omega, fun _ => by omega⟩
  · refine ⟨?_, fun h => absurd h hs⟩
    unfold IsWidth at hw
    rcases hw with hw | hw | hw | hw
    all_goals
      rw [hw] at hr ⊢
      exact hmono _ (by omega)

/-! ### Shared parts -/

/-- An immediate load. -/
theorem emitLoadImmInt_spec (hw : IsWidth w) (reg : ℕ) (val : Word) :
    ((emitLoadImmInt w reg val).exec s).get w reg = val.setWidth w ∧
      (∀ r' ≠ reg, ∀ w', ((emitLoadImmInt w reg val).exec s).get w' r' = s.get w' r') ∧
      ∀ w' m, ((emitLoadImmInt w reg val).exec s).load w' m = s.load w' m := by
  have h64 := hw.le
  unfold emitLoadImmInt
  split_ifs with h0 hw64 h32 hs32
  · subst h0
    refine ⟨?_, fun r' hr w' => ?_, fun w' m => rfl⟩
    · change ((s.put w reg _).flag _).get w reg = _
      rw [State.get_flag, State.get_put h64, AluOp.eval, BitVec.xor_self]
      simp
    · change ((s.put w reg _).flag _).get w' r' = _
      rw [State.get_flag, State.get_put_of_ne hr]
  · subst hw64
    refine ⟨?_, fun r' hr w' => State.get_put_of_ne hr _, fun w' m => rfl⟩
    -- a 32-bit move clears the upper half
    unfold Instr.exec State.get State.put writeReg
    dsimp only
    rw [Function.update_self, if_pos rfl]
    apply BitVec.eq_of_toNat_eq
    simp only [BitVec.toNat_setWidth]
    omega
  · subst hw64
    refine ⟨?_, fun r' hr w' => State.get_put_of_ne hr _, fun w' m => rfl⟩
    change (s.put 64 reg _).get 64 reg = _
    rw [State.get_put (le_refl 64), signExtend_of_isSigned32 hs32, BitVec.setWidth_eq]
  · subst hw64
    refine ⟨?_, fun r' hr w' => State.get_put_of_ne hr _, fun w' m => rfl⟩
    exact State.get_put (le_refl 64) _
  · refine ⟨?_, fun r' hr w' => State.get_put_of_ne hr _, fun w' m => rfl⟩
    exact State.get_put h64 _

theorem operand_none (h : r.op1Reg = none) : (PwrForm.regs r).operand s w = s.load w r.op1Slot := by
  simp [PwrForm.operand, h]

theorem operand_some {x : ℕ} (h : r.op1Reg = some x) : (PwrForm.regs r).operand s w =
    if r.op1Spilled then s.load w r.op1Slot else s.get w x := by
  simp [PwrForm.operand, h]

/-- What the register allocator promises a rule. -/
structure PwrRegs.Ok (r : PwrRegs) (rule : PwrRule) (type : IrType) (c : Word) : Prop where
  op2 : r.op2Reg.isSome = needsOp2 type c
  mod : rule = .mod → ∀ y, r.op2Reg = some y → y ≠ r.defReg
  smod : rule = .smod → r.tmpReg ≠ r.defReg ∧ ∀ y, r.op2Reg = some y → y ≠ r.defReg ∧ y ≠ r.tmpReg
  sdiv : rule = .sdiv → ∃ x, r.op1Reg = some x ∧ x ≠ r.defReg ∧ ∀ y, r.op2Reg = some y → y ≠ x

/-- The operand after the reload. -/
theorem loadOp1_spec (h64 : w ≤ 64) : (∀ x, r.op1Reg = some x →
      (exec (r.loadOp1 w) s).get w x = (PwrForm.regs r).operand s w) ∧
    ∀ m, (exec (r.loadOp1 w) s).load w m = s.load w m := by
  unfold PwrRegs.loadOp1
  rcases hop1 : r.op1Reg with _ | x
  · exact ⟨fun x hx => by simp at hx, fun _ => rfl⟩
  · rw [operand_some hop1]
    dsimp only
    split_ifs with hspill
    · refine ⟨fun x' hx => ?_, fun _ => rfl⟩
      obtain rfl : x = x' := by simpa using hx
      exact State.get_put h64 _
    · refine ⟨fun x' hx => ?_, fun _ => rfl⟩
      obtain rfl : x = x' := by simpa using hx
      rfl

/-- The operand is in the register of the result, and still in its own. -/
theorem moveOp1_spec (h64 : w ≤ 64) :
    (exec (r.loadOp1 w ++ r.moveOp1 w) s).get w r.defReg = (PwrForm.regs r).operand s w ∧
    (∀ x, r.op1Reg = some x → (exec (r.loadOp1 w ++ r.moveOp1 w) s).get w x = (PwrForm.regs r).operand s w) := by
  obtain ⟨hreg, hcell⟩ := loadOp1_spec (s := s) (r := r) h64
  rw [exec_append]
  unfold PwrRegs.moveOp1
  rcases hop1 : r.op1Reg with _ | x
  · refine ⟨?_, fun x hx => by simp at hx⟩
    change ((exec (r.loadOp1 w) s).put w r.defReg _).get w r.defReg = _
    rw [State.get_put h64, hcell, operand_none hop1]
  · have hx := hreg x hop1
    dsimp only
    split_ifs with hne
    · have hmoved : ((exec (r.loadOp1 w) s).put w r.defReg ((exec (r.loadOp1 w) s).get w x)).get w r.defReg =
          (PwrForm.regs r).operand s w := by rw [State.get_put h64, hx]
      refine ⟨hmoved, fun x' hx' => ?_⟩
      obtain rfl : x = x' := by simpa using hx'
      exact (State.get_put_of_ne (Ne.symm hne) _).trans hx
    · rw [not_not] at hne
      refine ⟨hne ▸ hx, fun x' hx' => ?_⟩
      obtain rfl : x = x' := by simpa using hx'
      exact hx

/-- The result goes to its spill slot. -/
theorem storeDef_spec (h64 : w ≤ 64) {y : BitVec w} :
    (PwrForm.regs r).Yields (exec (r.storeDef w) s) w y ↔ s.get w r.defReg = y := by
  unfold PwrForm.Yields PwrRegs.storeDef
  rcases hslot : r.defSlot with _ | m
  · simp [hslot]
  · constructor
    · exact fun h => h.1
    · intro h
      refine ⟨h, fun m' hm => ?_⟩
      rw [hslot] at hm
      obtain rfl : m = m' := by simpa using hm
      exact (State.load_store h64 _).trans h

/-- The mask, from the register that is there when the immediate is too small for it. -/
theorem andMask_spec (hw : IsWidth w) (hwt : w = 8 * type.size) (hop2 : r.op2Reg.isSome = needsOp2 type c)
    (hne : ∀ y, r.op2Reg = some y → y ≠ r.defReg) :
    (exec (r.andMask w (c - 1)) s).get w r.defReg = s.get w r.defReg &&& (c - 1).setWidth w ∧
      ∀ r' ≠ r.defReg, (∀ y, r.op2Reg = some y → r' ≠ y) →
        (exec (r.andMask w (c - 1)) s).get w r' = s.get w r' := by
  have h64 := hw.le
  have himm : (r.op2Reg = none ∨ w ≠ 64) → immAt w ((c - 1).setWidth 32) = (c - 1).setWidth w := by
    intro h
    refine immAt_setWidth _ ?_
    by_cases hw64 : w = 64
    · refine Or.inr (signExtend_of_isSigned32 ?_)
      have hnone := h.resolve_right (by omega)
      have hsize : type.size = 8 := by omega
      rw [hnone, needsOp2, hsize] at hop2
      simpa using hop2
    · unfold IsWidth at hw
      omega
  have hand : (r.op2Reg = none ∨ w ≠ 64) →
      (exec [.aluImm .and w r.defReg ((c - 1).setWidth 32)] s).get w r.defReg =
        s.get w r.defReg &&& (c - 1).setWidth w ∧
      ∀ r' ≠ r.defReg, (exec [.aluImm .and w r.defReg ((c - 1).setWidth 32)] s).get w r' = s.get w r' := by
    intro h
    refine ⟨?_, fun r' hr => ?_⟩
    · change ((s.put w r.defReg _).flag _).get w r.defReg = _
      rw [State.get_flag, State.get_put h64, himm h]
      rfl
    · change ((s.put w r.defReg _).flag _).get w r' = _
      rw [State.get_flag, State.get_put_of_ne hr]
  unfold PwrRegs.andMask
  rcases hop2r : r.op2Reg with _ | y
  · obtain ⟨h1, h2⟩ := hand (Or.inl hop2r)
    exact ⟨h1, fun r' hr _ => h2 r' hr⟩
  · dsimp only
    split_ifs with hw64
    · obtain ⟨hy, hothers, -⟩ := emitLoadImmInt_spec (s := s) hw y (c - 1)
      have hdef := hothers r.defReg (Ne.symm (hne y hop2r)) w
      refine ⟨?_, fun r' hr hr' => ?_⟩
      · change ((State.put _ w r.defReg _).flag _).get w r.defReg = _
        rw [State.get_flag, State.get_put h64, hdef, hy]
        rfl
      · change ((State.put _ w r.defReg _).flag _).get w r' = _
        rw [State.get_flag, State.get_put_of_ne hr]
        exact hothers r' (hr' y rfl) w
    · obtain ⟨h1, h2⟩ := hand (Or.inr hw64)
      exact ⟨h1, fun r' hr _ => h2 r' hr⟩

/-! ### The sequences -/

theorem shiftCount_of_lt (hw : IsWidth w) (hk : k < w) : shiftCount w k = k := by
  unfold shiftCount
  unfold IsWidth at hw
  split_ifs
  · exact Nat.mod_eq_of_lt (by omega)
  · exact Nat.mod_eq_of_lt (by omega)

theorem add_self (x : BitVec w) : x + x = x * BitVec.twoPow w 1 := by
  have htwo : BitVec.twoPow w 1 = 2#w := by
    apply BitVec.eq_of_toNat_eq
    rw [BitVec.toNat_twoPow, BitVec.toNat_ofNat]
  rw [htwo, BitVec.mul_two]

/-- `IR_MUL_PWR2`. -/
theorem emitMul_spec (hw : IsWidth w) (hk : k < w) :
    (PwrForm.regs r).Yields (exec (r.emitMulDivModPwr2 w .mul (BitVec.twoPow 64 k)) s) w
      ((PwrForm.regs r).operand s w * BitVec.twoPow w k) := by
  have h64 := hw.le
  obtain ⟨hdef, -⟩ := moveOp1_spec (s := s) (r := r) h64
  unfold PwrRegs.emitMulDivModPwr2
  dsimp only
  rw [log2_twoPow (by omega), exec_append, exec_append, storeDef_spec h64]
  generalize exec (r.loadOp1 w ++ r.moveOp1 w) s = s₁ at hdef ⊢
  split_ifs with h1
  · change ((s₁.put w r.defReg _).flag _).get w r.defReg = _
    rw [State.get_flag, State.get_put h64, hdef, h1]
    exact add_self _
  · change ((s₁.put w r.defReg _).flag _).get w r.defReg = _
    rw [State.get_flag, State.get_put h64, hdef, ShiftOp.eval, shiftCount_of_lt hw hk, BitVec.shiftLeft_eq_mul_twoPow]

/-- `IR_DIV_PWR2`. -/
theorem emitDiv_spec (hw : IsWidth w) (hk : k < w) :
    (PwrForm.regs r).Yields (exec (r.emitMulDivModPwr2 w .div (BitVec.twoPow 64 k)) s) w
      ((PwrForm.regs r).operand s w / BitVec.twoPow w k) := by
  have h64 := hw.le
  obtain ⟨hdef, -⟩ := moveOp1_spec (s := s) (r := r) h64
  unfold PwrRegs.emitMulDivModPwr2
  dsimp only
  rw [log2_twoPow (by omega), exec_append, exec_append, storeDef_spec h64]
  generalize exec (r.loadOp1 w ++ r.moveOp1 w) s = s₁ at hdef ⊢
  change ((s₁.put w r.defReg _).flag _).get w r.defReg = _
  rw [State.get_flag, State.get_put h64, hdef, ShiftOp.eval, shiftCount_of_lt hw hk, BitVec.udiv_twoPow_eq_of_lt hk]

/-- `IR_MOD_PWR2`. -/
theorem emitMod_spec (hw : IsWidth w) (hwt : w = 8 * type.size) (hk : k < w)
    (hok : r.Ok .mod type (BitVec.twoPow 64 k)) :
    (PwrForm.regs r).Yields (exec (r.emitMulDivModPwr2 w .mod (BitVec.twoPow 64 k)) s) w
      ((PwrForm.regs r).operand s w % BitVec.twoPow w k) := by
  have h64 := hw.le
  obtain ⟨hdef, -⟩ := moveOp1_spec (s := s) (r := r) h64
  unfold PwrRegs.emitMulDivModPwr2
  dsimp only
  rw [exec_append, exec_append, storeDef_spec h64]
  obtain ⟨hand, -⟩ := andMask_spec (s := exec (r.loadOp1 w ++ r.moveOp1 w) s) hw hwt hok.op2 (hok.mod rfl)
  rw [hand, hdef, setWidth_mask hk h64, PowerTwo.umod_twoPow _ hk]

/-- Operand plus offset, by `lea`. -/
theorem leaOffset_spec (hw : IsWidth w) (hwt : w = 8 * type.size) (hop2 : r.op2Reg.isSome = needsOp2 type c)
    {x : ℕ} (hne : x ≠ r.defReg) (hy : ∀ y, r.op2Reg = some y → y ≠ x) :
    (exec (r.leaOffset w x (c - 1)) s).get w r.defReg = s.get w x + (c - 1).setWidth w ∧
      (exec (r.leaOffset w x (c - 1)) s).get w x = s.get w x := by
  unfold PwrRegs.leaOffset
  split_ifs with h64
  · subst h64
    rcases hop2r : r.op2Reg with _ | y
    · have hsize : type.size = 8 := by omega
      rw [hop2r, needsOp2, hsize] at hop2
      have hs : isSigned32 (c - 1) = true := by simpa using hop2
      refine ⟨?_, State.get_put_of_ne hne _⟩
      change (s.put 64 r.defReg _).get 64 r.defReg = _
      rw [State.get_put (le_refl 64), immAt_setWidth _ (Or.inr (signExtend_of_isSigned32 hs))]
    · obtain ⟨hval, hothers, -⟩ := emitLoadImmInt_spec (s := s) hw y (c - 1)
      have hx := hothers x (Ne.symm (hy y hop2r)) 64
      refine ⟨?_, (State.get_put_of_ne hne _).trans hx⟩
      change (State.put _ 64 r.defReg _).get 64 r.defReg = _
      rw [State.get_put (le_refl 64), hx, hval]
  · have hw32 : w ≤ 32 := by
      unfold IsWidth at hw
      omega
    refine ⟨?_, State.get_put_of_ne hne _⟩
    change (s.put 32 r.defReg _).get w r.defReg = _
    rw [State.get_put_of_le hw32 (by omega), BitVec.setWidth_add _ _ hw32, State.get_of_le hw32,
      immAt_setWidth _ (Or.inl (le_refl 32)), BitVec.setWidth_setWidth_of_le _ hw32]

/-- The bias of a division by two, added in a wide register. -/
theorem addSign_spec (hw : IsWidth w) {x : ℕ} (hne : x ≠ r.defReg) :
    (exec [.mov (if w = 64 then 64 else 32) r.defReg x, .shift .shr w r.defReg (w - 1),
        .alu .add (if w = 64 then 64 else 32) r.defReg x] s).get w r.defReg =
      if (s.get w x).msb then s.get w x + (BitVec.twoPow w 1 - 1#w) else s.get w x := by
  have h64 := hw.le
  have h1 : 1 < w := by
    unfold IsWidth at hw
    omega
  have hwide : w ≤ (if w = 64 then 64 else 32) ∧ (if w = 64 then 64 else 32) ≤ 64 := by
    unfold IsWidth at hw
    split_ifs
    · omega
    · omega
  generalize (if w = 64 then 64 else 32) = wide at hwide
  obtain ⟨hle, hle64⟩ := hwide
  set s₂ := s.put wide r.defReg (s.get wide x) with hs₂
  set s₃ := (s₂.put w r.defReg (s₂.get w r.defReg >>> (w - 1))).flag
    (s₂.get w r.defReg >>> (w - 1)).msb with hs₃
  have hx₃ : s₃.get w x = s.get w x := by
    rw [hs₃, State.get_flag, State.get_put_of_ne hne, hs₂, State.get_put_of_ne hne]
  have hdef₃ : s₃.get w r.defReg = s.get w x >>> (w - 1) := by
    rw [hs₃, State.get_flag, State.get_put h64, hs₂, State.get_put_of_le hle hle64, State.get_of_le hle]
  have hexec : exec [.mov wide r.defReg x, .shift .shr w r.defReg (w - 1), .alu .add wide r.defReg x] s =
      (s₃.put wide r.defReg (s₃.get wide r.defReg + s₃.get wide x)).flag
        (s₃.get wide r.defReg + s₃.get wide x).msb := by
    simp only [exec_cons, exec_nil, Instr.exec, ShiftOp.eval, AluOp.eval,
      shiftCount_of_lt hw (show w - 1 < w by omega), hs₃, hs₂]
  rw [hexec, State.get_flag, State.get_put_of_le hle hle64, BitVec.setWidth_add _ _ hle, State.get_of_le hle,
    State.get_of_le hle, hx₃, hdef₃, PowerTwo.bias_two _ h1]
  split_ifs
  · rw [BitVec.add_comm]
  · rw [BitVec.zero_add]

/-- The choice by the sign of the operand. -/
theorem cmovns_spec (hw : IsWidth w) {x : ℕ} :
    (exec [.test w x x, .cmovns (if w = 8 then 16 else w) r.defReg x] s).get w r.defReg =
      if (s.get w x).msb then s.get w r.defReg else s.get w x := by
  have hwide : w ≤ (if w = 8 then 16 else w) ∧ (if w = 8 then 16 else w) ≤ 64 := by
    unfold IsWidth at hw
    split_ifs
    · omega
    · omega
  generalize (if w = 8 then 16 else w) = wide at hwide
  obtain ⟨hle, hle64⟩ := hwide
  have hexec : exec [.test w x x, .cmovns wide r.defReg x] s = (s.flag (s.get w x).msb).put wide r.defReg
      (if (s.get w x).msb then s.get wide r.defReg else s.get wide x) := by
    simp only [exec_cons, exec_nil, Instr.exec, BitVec.and_self, State.sf_flag, State.get_flag]
    rfl
  rw [hexec, State.get_put_of_le hle hle64]
  split_ifs
  · rw [State.get_of_le hle]
  · rw [State.get_of_le hle]

/-- `IR_SDIV_PWR2`: the bias is added to a negative operand. -/
theorem emitSdivPwr2_spec (hw : IsWidth w) (hwt : w = 8 * type.size) (hkw : k < w)
    (hok : r.Ok .sdiv type (BitVec.twoPow 64 k)) :
    (PwrForm.regs r).Yields (exec (r.emitSdivPwr2 w (BitVec.twoPow 64 k)) s) w
      ((if ((PwrForm.regs r).operand s w).msb then
          (PwrForm.regs r).operand s w + (BitVec.twoPow w k - 1#w)
        else (PwrForm.regs r).operand s w).sshiftRight k) := by
  have h64 := hw.le
  obtain ⟨x, hop1, hne, hop2⟩ := hok.sdiv rfl
  obtain ⟨hreg, -⟩ := loadOp1_spec (s := s) (r := r) h64
  have hx := hreg x hop1
  unfold PwrRegs.emitSdivPwr2
  dsimp only
  rw [log2_twoPow (by omega), hop1, Option.getD_some, exec_append, exec_append, exec_append, storeDef_spec h64]
  generalize (PwrForm.regs r).operand s w = v at hx ⊢
  generalize exec (r.loadOp1 w) s = s₁ at hx ⊢
  change ((State.put _ w r.defReg _).flag _).get w r.defReg = _
  rw [State.get_flag, State.get_put h64, ShiftOp.eval, shiftCount_of_lt hw hkw]
  congr 1
  by_cases h1 : k = 1
  · rw [if_pos h1, addSign_spec hw hne, hx, h1]
  · obtain ⟨hdef, hkeep⟩ := leaOffset_spec (s := s₁) hw hwt hok.op2 hne hop2
    rw [if_neg h1, exec_append, cmovns_spec hw, hkeep, hdef, hx, setWidth_mask hkw h64]

/-- `IR_SMOD_PWR2` by 2 or more: the low part of the biased operand, less the bias. -/
theorem emitSmodPwr2_spec (hw : IsWidth w) (hwt : w = 8 * type.size) (hkw : k < w)
    (hok : r.Ok .smod type (BitVec.twoPow 64 k)) (bias : BitVec w)
    (hbias : bias = if k = 1 then (PwrForm.regs r).operand s w >>> (w - 1)
      else (((PwrForm.regs r).operand s w).sshiftRight (w - 1)) >>> shiftCount w (w - k)) :
    (PwrForm.regs r).Yields (exec (r.emitSmodPwr2 w (BitVec.twoPow 64 k)) s) w
      ((((PwrForm.regs r).operand s w + bias) &&& (BitVec.twoPow w k - 1#w)) - bias) := by
  have h64 := hw.le
  have hw0 : 0 < w := by
    unfold IsWidth at hw
    omega
  obtain ⟨hne, hop2⟩ := hok.smod rfl
  obtain ⟨hdef, hop1⟩ := moveOp1_spec (s := s) (r := r) h64
  unfold PwrRegs.emitSmodPwr2
  dsimp only
  rw [log2_twoPow (by omega)]
  simp only [exec_append]
  rw [storeDef_spec h64]
  rw [exec_append] at hdef
  simp only [exec_append] at hop1
  generalize (PwrForm.regs r).operand s w = v at hdef hop1 hbias ⊢
  generalize exec (r.moveOp1 w) (exec (r.loadOp1 w) s) = s₁ at hdef hop1 ⊢
  -- the copy of the operand
  obtain ⟨s₂, hs₂, hdef₂, htmp₂⟩ : ∃ s₂, exec (if r.op1Reg = some r.tmpReg then [] else [.mov w r.tmpReg r.defReg]) s₁ = s₂ ∧
      s₂.get w r.defReg = v ∧ s₂.get w r.tmpReg = v := by
    split_ifs with h
    · exact ⟨s₁, rfl, hdef, hop1 _ h⟩
    · refine ⟨_, rfl, ?_, ?_⟩
      · exact (State.get_put_of_ne (Ne.symm hne) _).trans hdef
      · exact (State.get_put h64 _).trans hdef
  rw [hs₂]
  -- the bias
  obtain ⟨s₃, hs₃, hdef₃, htmp₃⟩ : ∃ s₃, exec (if k = 1 then [.shift .shr w r.tmpReg (w - 1)]
        else [.shift .sar w r.tmpReg (w - 1), .shift .shr w r.tmpReg (w - k)]) s₂ = s₃ ∧
      s₃.get w r.defReg = v ∧ s₃.get w r.tmpReg = bias := by
    have hcount := shiftCount_of_lt hw (show w - 1 < w by omega)
    refine ⟨_, rfl, ?_, ?_⟩
    · split_ifs with h
      · exact (State.get_put_of_ne (Ne.symm hne) _).trans hdef₂
      · exact (State.get_put_of_ne (Ne.symm hne) _).trans ((State.get_put_of_ne (Ne.symm hne) _).trans hdef₂)
    · rw [hbias]
      split_ifs with h
      · simp only [exec_cons, exec_nil, Instr.exec, ShiftOp.eval, State.get_flag, State.get_put h64, hcount, htmp₂]
      · simp only [exec_cons, exec_nil, Instr.exec, ShiftOp.eval, State.get_flag, State.get_put h64, hcount, htmp₂]
  rw [hs₃]
  -- addition, mask, subtraction
  have hdef₄ : (exec [.alu .add w r.defReg r.tmpReg] s₃).get w r.defReg = v + bias := by
    simp only [exec_cons, exec_nil, Instr.exec, AluOp.eval, State.get_flag, State.get_put h64, hdef₃, htmp₃]
  have htmp₄ : (exec [.alu .add w r.defReg r.tmpReg] s₃).get w r.tmpReg = bias := by
    simp only [exec_cons, exec_nil, Instr.exec, State.get_flag, State.get_put_of_ne hne, htmp₃]
  generalize exec [.alu .add w r.defReg r.tmpReg] s₃ = s₄ at hdef₄ htmp₄ ⊢
  obtain ⟨hand, hothers⟩ := andMask_spec (s := s₄) hw hwt hok.op2 (fun y hy => (hop2 y hy).1)
  have htmp₅ := hothers r.tmpReg hne (fun y hy => Ne.symm (hop2 y hy).2)
  simp only [exec_cons, exec_nil, Instr.exec, AluOp.eval, State.get_flag, State.get_put h64, hand, htmp₅, hdef₄, htmp₄,
    setWidth_mask hkw h64]

/-! ### The operations -/

theorem PwrForm.Yields.eq_iff {form : PwrForm} {y y' : BitVec w} (h : form.Yields s w y) :
    form.Yields s w y' ↔ y = y' := by
  constructor
  · intro h'
    cases form with
    | mem m => exact Eq.trans (Eq.symm h) h'
    | regs r => exact Eq.trans (Eq.symm h.1) h'.1
  · rintro rfl
    exact h

theorem shiftCount_width (hw : IsWidth w) : shiftCount w w = if 32 ≤ w then 0 else w := by
  unfold IsWidth at hw
  rcases hw with rfl | rfl | rfl | rfl <;> rfl

/-- The remainder by 1 of a signed number. -/
theorem smod_one (hw : IsWidth w) (x : BitVec w) :
    (((x + (x.sshiftRight (w - 1)) >>> shiftCount w w) &&& (BitVec.twoPow w 0 - 1#w)) -
        (x.sshiftRight (w - 1)) >>> shiftCount w w) = x.srem 1#w ↔ ¬(32 ≤ w ∧ x.msb = true) := by
  have hw0 : 0 < w := by
    unfold IsWidth at hw
    omega
  have hone : (1#w).toInt = 1 ∨ w = 1 := by
    by_cases h : w = 1
    · exact Or.inr h
    · exact Or.inl (BitVec.toInt_one (by omega))
  have hw1 : w ≠ 1 := by
    unfold IsWidth at hw
    omega
  have hsrem : x.srem 1#w = 0#w := by
    apply BitVec.eq_of_toInt_eq
    rw [BitVec.toInt_srem, hone.resolve_right hw1, Int.tmod_one, BitVec.toInt_zero]
  have hmask : BitVec.twoPow w 0 - 1#w = 0#w := by rw [BitVec.twoPow_zero, BitVec.sub_self]
  rw [hmask, BitVec.and_zero, BitVec.zero_sub, hsrem, PowerTwo.sshiftRight_sign x hw0, shiftCount_width hw]
  by_cases h32 : 32 ≤ w
  · rw [if_pos h32, BitVec.ushiftRight_zero]
    by_cases hmsb : x.msb = true
    · rw [if_pos hmsb]
      have hne : -BitVec.allOnes w ≠ 0#w := by
        rw [← BitVec.neg_one_eq_allOnes, BitVec.neg_neg]
        intro h
        have := congrArg BitVec.toNat h
        simp at this
        omega
      simp [hne, h32, hmsb]
    · rw [if_neg hmsb]
      simp [hmsb]
  · rw [if_neg h32]
    have hzero : ((if x.msb = true then BitVec.allOnes w else 0#w) >>> w) = 0#w := by
      apply BitVec.eq_of_toNat_eq
      rw [BitVec.toNat_ushiftRight, BitVec.toNat_ofNat, Nat.shiftRight_eq_div_pow, Nat.zero_mod]
      exact Nat.div_eq_of_lt (BitVec.isLt _)
    rw [hzero]
    simp [h32]

/-- The bias of a signed remainder. -/
theorem smod_bias (hw : IsWidth w) (hk : 0 < k) (hkw : k < w) (x : BitVec w) :
    (if k = 1 then x >>> (w - 1) else (x.sshiftRight (w - 1)) >>> shiftCount w (w - k)) =
      if x.msb then BitVec.twoPow w k - 1#w else 0#w := by
  by_cases h1 : k = 1
  · subst h1
    rw [if_pos rfl, PowerTwo.bias_two x hkw]
  · rw [if_neg h1, shiftCount_of_lt hw (show w - k < w by omega), PowerTwo.bias_of_sign x hkw]

/-- The mask as an immediate of an in-memory `and`. -/
theorem immAt_mask (hw : IsWidth w) (hkw : k < w) :
    immAt w ((BitVec.twoPow 64 k - 1).setWidth 32) =
      if k ≤ 31 then BitVec.twoPow w k - 1#w else BitVec.allOnes w := by
  have h64 := hw.le
  split_ifs with hk
  · rw [immAt_setWidth _ (Or.inr (signExtend_of_isSigned32 ((isSigned32_mask (by omega)).mpr hk))),
      setWidth_mask hkw h64]
  · obtain rfl : w = 64 := by
      unfold IsWidth at hw
      omega
    have hones : (BitVec.twoPow 64 k - 1).setWidth 32 = BitVec.allOnes 32 := by
      apply BitVec.eq_of_toNat_eq
      have hmask := PowerTwo.toNat_bias (show k < 64 by omega)
      rw [BitVec.toNat_setWidth, BitVec.toNat_allOnes]
      refine (congrArg (· % 2 ^ 32) hmask).trans ?_
      have hsplit : 2 ^ k = 2 ^ 32 * 2 ^ (k - 32) := by
        rw [← Nat.pow_add]
        congr 1
        omega
      have hpos := Nat.two_pow_pos (k - 32)
      change (2 ^ k - 1) % 2 ^ 32 = 2 ^ 32 - 1
      omega
    rw [immAt, hones]
    rfl

/-- The inputs that the lowering gets wrong. -/
def PwrFails (rule : PwrRule) (c : Word) (form : PwrForm) (x : BitVec w) : Prop :=
  (rule = .sdiv ∧ c = BitVec.twoPow 64 63 ∧ x = BitVec.twoPow w (w - 1)) ∨
  (rule = .smod ∧ c = 1 ∧ 32 ≤ w ∧ x.msb = true) ∨
  (rule = .mod ∧ (∃ m, form = .mem m) ∧ 2 ^ 32 ≤ c.toNat ∧ c.toNat ≤ x.toNat)

/-- The form suits the rule, and the registers are as the allocator promises. -/
def PwrForm.Ok (rule : PwrRule) (type : IrType) (c : Word) : PwrForm → Prop
  | mem _ => rule.hasMemForm = true
  | regs r => r.Ok rule type c

/-- The in-memory remainder. -/
theorem mod_mem_exact (hw : IsWidth w) (hkw : k < w) (m : ℕ) :
    (PwrForm.mem m).Yields (exec (emitMemMulDivModPwr2 .mod w m (BitVec.twoPow 64 k)) s) w
      (s.load w m % BitVec.twoPow w k) ↔ ¬(32 ≤ k ∧ 2 ^ k ≤ (s.load w m).toNat) := by
  have h64 := hw.le
  have hresult : (PwrForm.mem m).Yields (exec (emitMemMulDivModPwr2 .mod w m (BitVec.twoPow 64 k)) s) w
      (s.load w m &&& immAt w ((BitVec.twoPow 64 k - 1).setWidth 32)) := State.load_store h64 _
  rw [hresult.eq_iff, immAt_mask hw hkw]
  by_cases hk : k ≤ 31
  · rw [if_pos hk, PowerTwo.umod_twoPow _ hkw]
    simp only [true_iff]
    omega
  · rw [if_neg hk, BitVec.and_allOnes, ← BitVec.toNat_inj, BitVec.toNat_umod, BitVec.toNat_twoPow_of_lt hkw]
    have hpos := Nat.two_pow_pos k
    constructor
    · intro h hbad
      have := Nat.mod_lt (s.load w m).toNat hpos
      omega
    · intro h
      exact (Nat.mod_eq_of_lt (by omega)).symm

theorem matchPwr2_cases (h : matchPwr2 op type c = some rule) : Fold.isPowerOfTwo c = true ∧
    ((op = .mul ∧ rule = .mul) ∨ (op = .div ∧ c ≠ 1 ∧ rule = if type.isSigned then .sdiv else .div) ∨
      (op = .mod ∧ rule = if type.isSigned then .smod else .mod)) := by
  unfold matchPwr2 at h
  split at h
  · split_ifs at h with h0 h1 h2 hp
    simp only [Option.some.injEq] at h
    exact ⟨hp, Or.inl ⟨rfl, h.symm⟩⟩
  · split_ifs at h with h0 hp
    all_goals
      simp only [Option.some.injEq] at h
      simp_all
  · split_ifs at h with hp
    all_goals
      simp only [Option.some.injEq] at h
      simp_all
  · simp at h

/-- The quotient of signed numbers. -/
theorem sdiv_exact (ht : Fold.IsInt type) (hs : type.isSigned = true) (hk : k < 64)
    (hc : Fold.Canonical type (BitVec.twoPow 64 k)) (hok : r.Ok .sdiv type (BitVec.twoPow 64 k)) :
    (PwrForm.regs r).Yields (exec (r.emitSdivPwr2 (8 * type.size) (BitVec.twoPow 64 k)) s) (8 * type.size)
        (((PwrForm.regs r).operand s (8 * type.size)).sdiv (BitVec.twoPow _ k)) ↔
      ¬(k = 63 ∧ (PwrForm.regs r).operand s (8 * type.size) = BitVec.twoPow _ (8 * type.size - 1)) := by
  have hw := isWidth_of_int ht
  obtain ⟨hkw, hsign⟩ := canonical_twoPow ht hk hc
  rw [(emitSdivPwr2_spec hw rfl hkw hok).eq_iff]
  rcases hsign hs with hlt | ⟨hsize, h63⟩
  · rw [PowerTwo.sdiv_twoPow _ hlt]
    have h64 := hw.le
    simp only [true_iff]
    omega
  · obtain rfl : k = 8 * type.size - 1 := by omega
    rw [PowerTwo.sdiv_intMin _ (by omega)]
    simp [h63]

/-- The remainder of signed numbers. -/
theorem smod_exact (ht : Fold.IsInt type) (hk : k < 64)
    (hc : Fold.Canonical type (BitVec.twoPow 64 k)) (hok : r.Ok .smod type (BitVec.twoPow 64 k)) :
    (PwrForm.regs r).Yields (exec (r.emitSmodPwr2 (8 * type.size) (BitVec.twoPow 64 k)) s) (8 * type.size)
        (((PwrForm.regs r).operand s (8 * type.size)).srem (BitVec.twoPow _ k)) ↔
      ¬(k = 0 ∧ 32 ≤ 8 * type.size ∧ ((PwrForm.regs r).operand s (8 * type.size)).msb = true) := by
  have hw := isWidth_of_int ht
  obtain ⟨hkw, -⟩ := canonical_twoPow ht hk hc
  rw [(emitSmodPwr2_spec hw rfl hkw hok _ rfl).eq_iff]
  rcases Nat.eq_zero_or_pos k with rfl | hpos
  · rw [if_neg (show (0 : ℕ) ≠ 1 by omega), Nat.sub_zero, BitVec.twoPow_zero, ← BitVec.twoPow_zero]
    have := smod_one hw ((PwrForm.regs r).operand s (8 * type.size))
    rw [← BitVec.twoPow_zero] at this
    rw [this]
    simp
  · rw [smod_bias hw hpos hkw, PowerTwo.srem_twoPow _ hkw]
    simp only [true_iff]
    omega

theorem one_eq_twoPow : (1 : Word) = BitVec.twoPow 64 0 := rfl

theorem twoPow_inj {i j : ℕ} (hi : i < 64) (hj : j < 64) : BitVec.twoPow 64 i = BitVec.twoPow 64 j ↔ i = j := by
  constructor
  · intro h
    have hnat := congrArg BitVec.toNat h
    rw [BitVec.toNat_twoPow_of_lt hi, BitVec.toNat_twoPow_of_lt hj] at hnat
    exact Nat.pow_right_injective (le_refl 2) hnat
  · rintro rfl
    rfl

/-- **Multiplication, division and remainder by a power of two** are exact but for three kinds of
inputs, for every integer type, every constant that the matcher accepts and every operand. -/
theorem pwr2_exact (ht : Fold.IsInt type) (hc : Fold.Canonical type c) (hmatch : matchPwr2 op type c = some rule)
    (form : PwrForm) (hok : form.Ok rule type c) (s : State) :
    form.Yields (exec (emitPwr2 op rule (8 * type.size) c form) s) (8 * type.size)
        (pwrValue op type.isSigned (form.operand s (8 * type.size)) (c.setWidth (8 * type.size))) ↔
      ¬PwrFails rule c form (form.operand s (8 * type.size)) := by
  have hw := isWidth_of_int ht
  have h64 := hw.le
  obtain ⟨hp, hcases⟩ := matchPwr2_cases hmatch
  obtain ⟨k, hk, rfl⟩ := exists_twoPow hp
  obtain ⟨hkw, -⟩ := canonical_twoPow ht hk hc
  rw [setWidth_twoPow hkw h64]
  unfold PwrFails
  rw [one_eq_twoPow, twoPow_inj hk (show 63 < 64 by omega), twoPow_inj hk (show 0 < 64 by omega),
    BitVec.toNat_twoPow_of_lt hk]
  have h32 : 2 ^ 32 ≤ 2 ^ k ↔ 32 ≤ k := Nat.pow_le_pow_iff_right (by omega)
  rcases hcases with ⟨rfl, rfl⟩ | ⟨rfl, hc1, rfl⟩ | ⟨rfl, rfl⟩
  · have hfine : form.Yields (exec (emitPwr2 .mul .mul (8 * type.size) (BitVec.twoPow 64 k) form) s) (8 * type.size)
        (form.operand s (8 * type.size) * BitVec.twoPow _ k) := by
      cases form with
      | regs r => exact emitMul_spec hw hkw
      | mem m =>
        refine (State.load_store h64 _).trans ?_
        rw [log2_twoPow hk, ShiftOp.eval, shiftCount_of_lt hw hkw, BitVec.shiftLeft_eq_mul_twoPow]
        rfl
    refine (iff_true_intro hfine).trans (iff_true_intro ?_).symm
    simp
  · by_cases hs : type.isSigned = true
    · rw [if_pos hs] at hok ⊢
      cases form with
      | mem m => exact absurd hok (by simp [PwrForm.Ok, PwrRule.hasMemForm])
      | regs r =>
        refine (Eq.to_iff ?_).trans ((sdiv_exact (s := s) ht hs hk hc hok).trans ?_)
        · rw [hs]
          rfl
        · simp
    · rw [if_neg hs] at hok ⊢
      have hfine : form.Yields (exec (emitPwr2 .div .div (8 * type.size) (BitVec.twoPow 64 k) form) s)
          (8 * type.size) (form.operand s (8 * type.size) / BitVec.twoPow _ k) := by
        cases form with
        | regs r => exact emitDiv_spec hw hkw
        | mem m =>
          refine (State.load_store h64 _).trans ?_
          rw [log2_twoPow hk, ShiftOp.eval, shiftCount_of_lt hw hkw, ← BitVec.udiv_twoPow_eq_of_lt hkw]
          rfl
      have hs' : type.isSigned = false := by simpa using hs
      refine (iff_true_intro ?_).trans (iff_true_intro ?_).symm
      · rw [hs']
        exact hfine
      · simp
  · by_cases hs : type.isSigned = true
    · rw [if_pos hs] at hok ⊢
      cases form with
      | mem m => exact absurd hok (by simp [PwrForm.Ok, PwrRule.hasMemForm])
      | regs r =>
        refine (Eq.to_iff ?_).trans ((smod_exact (s := s) ht hk hc hok).trans ?_)
        · rw [hs]
          rfl
        · simp
    · rw [if_neg hs] at hok ⊢
      cases form with
      | regs r =>
        have hfine := emitMod_spec (s := s) hw rfl hkw hok
        have hs' : type.isSigned = false := by simpa using hs
        refine (iff_true_intro ?_).trans (iff_true_intro ?_).symm
        · rw [hs']
          exact hfine
        · simp
      | mem m =>
        have hs' : type.isSigned = false := by simpa using hs
        refine (Eq.to_iff ?_).trans ((mod_mem_exact (s := s) hw hkw m).trans ?_)
        · rw [hs']
          rfl
        · simp [PwrForm.operand, show 4294967296 ≤ 2 ^ k ↔ 32 ≤ k from h32]

/-- Registers for `IR_SDIV_PWR2`. -/
def twoRegs : PwrRegs where
  defReg := 0
  defSlot := none
  op1Reg := some 1
  op1Spilled := false
  op1Slot := 0
  op2Reg := none
  tmpReg := 2

theorem twoRegs_ok : twoRegs.Ok .sdiv .i32 8 := by
  refine ⟨rfl, by simp, by simp, fun _ => ⟨1, rfl, by decide, ?_⟩⟩
  simp [twoRegs]

/-- `-20 / 8` on 32 bits. -/
theorem sdiv_eight : (PwrForm.regs twoRegs).Yields
    (exec (emitPwr2 .div .sdiv 32 8 (.regs twoRegs)) ⟨fun _ => 0xffffffec, fun _ => 0, false⟩) 32
    (pwrValue .div true (0xffffffec#32) (8#32)) := by
  have hc : Fold.Canonical .i32 8 := by
    unfold Fold.Canonical Fold.InRange
    decide
  have hmatch : matchPwr2 .div .i32 8 = some .sdiv := rfl
  refine (pwr2_exact ⟨rfl, by simp⟩ hc hmatch (.regs twoRegs) twoRegs_ok
    ⟨fun _ => 0xffffffec, fun _ => 0, false⟩).mpr ?_
  rintro (⟨-, h, -⟩ | ⟨h, -⟩ | ⟨h, -⟩)
  all_goals exact absurd h (by decide)

/-- The in-memory remainder of `2 ^ 32 + 5` by `2 ^ 32`: the mask is cut to an immediate, and extended to
all ones. -/
theorem mod_mem_wrong : matchPwr2 .mod .u64 0x100000000 = some .mod ∧ PwrRule.mod.hasMemForm = true ∧
    ¬(PwrForm.mem 0).Yields
      (exec (emitPwr2 .mod .mod 64 0x100000000 (.mem 0)) ⟨fun _ => 0, fun _ => 0x100000005, false⟩) 64
      (pwrValue .mod false (0x100000005#64) (0x100000000#64)) := by
  refine ⟨by decide, rfl, ?_⟩
  unfold PwrForm.Yields
  decide

end IrJit.X86
