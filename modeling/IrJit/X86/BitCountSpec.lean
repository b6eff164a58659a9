import IrJit.Lib.BitFold
import IrJit.X86.BitCount
import Mathlib.Data.List.Find

/-!
# X86.BitCountSpec — the bit counts are exact

A byte is counted at 32 bits, the number of the highest bit is turned into the number of zeros above it by
`xor`, and the software count is the fold of `Lib.BitFold`.  No code is emitted for a fused load of one byte,
and for any fused load that is counted in software.
-/

namespace IrJit.X86

open BitFold

/-! ## Counts at two widths -/

section Counts

variable {w : ℕ} {x : BitVec w}

theorem popcount_eq : popcount x = bitCount w x.toNat := rfl

theorem exists_bit (h : x ≠ 0) : ∃ i < w, x.getLsbD i = true := by
  by_contra hnone
  push Not at hnone
  refine h ?_
  ext i hi
  have := hnone i hi
  rw [ne_eq, Bool.not_eq_true] at this
  simpa [BitVec.getLsbD_eq_getElem hi] using this

theorem leadingZeros_lt (h : x ≠ 0) : leadingZeros x < w := by
  obtain ⟨i, hi, hbit⟩ := exists_bit h
  unfold leadingZeros
  cases hf : (List.range w).find? fun i => x.getMsbD i with
  | some j =>
    have := List.mem_of_find?_eq_some hf
    rw [List.mem_range] at this
    exact this
  | none =>
    rw [List.find?_eq_none] at hf
    refine absurd ?_ (hf (w - 1 - i) (List.mem_range.mpr (by omega)))
    rw [BitVec.getMsbD_eq_getLsbD, show w - 1 - (w - 1 - i) = i by omega, hbit]
    simpa using by omega

theorem trailingZeros_lt (h : x ≠ 0) : trailingZeros x < w := by
  obtain ⟨i, hi, hbit⟩ := exists_bit h
  unfold trailingZeros
  cases hf : (List.range w).find? fun i => x.getLsbD i with
  | some j =>
    have := List.mem_of_find?_eq_some hf
    rw [List.mem_range] at this
    exact this
  | none =>
    rw [List.find?_eq_none] at hf
    exact absurd hbit (hf i (List.mem_range.mpr hi))

theorem find?_map_add (p : ℕ → Bool) (k n : ℕ) :
    ((List.range n).map (k + ·)).find? p = ((List.range n).find? fun i => p (k + i)).map (k + ·) := by
  rw [List.find?_map]
  rfl

/-- The zeros above a number in a wider word. -/
theorem leadingZeros_setWidth (k : ℕ) : leadingZeros (x.setWidth (k + w)) = k + leadingZeros x := by
  unfold leadingZeros
  have hlow : (List.range k).find? (fun i => (x.setWidth (k + w)).getMsbD i) = none := by
    rw [List.find?_eq_none]
    intro i hi
    rw [List.mem_range] at hi
    rw [BitVec.getMsbD_eq_getLsbD, BitVec.getLsbD_setWidth]
    rw [BitVec.getLsbD_of_ge x _ (by omega)]
    simp
  have hhigh : ∀ i, (x.setWidth (k + w)).getMsbD (k + i) = x.getMsbD i := by
    intro i
    rw [BitVec.getMsbD_eq_getLsbD, BitVec.getMsbD_eq_getLsbD, BitVec.getLsbD_setWidth,
      show k + w - 1 - (k + i) = w - 1 - i by omega]
    by_cases hi : i < w
    · simp [hi, show w - 1 - i < k + w by omega]
    · simp [hi]
  rw [List.range_add, List.find?_append, hlow, find?_map_add]
  simp only [hhigh, Option.none_or]
  cases (List.range w).find? fun i => x.getMsbD i <;> rfl

/-- A number that is not zero has its zeros below in any wider word. -/
theorem trailingZeros_setWidth (h : x ≠ 0) (k : ℕ) : trailingZeros (x.setWidth (w + k)) = trailingZeros x := by
  obtain ⟨i, hi, hbit⟩ := exists_bit h
  unfold trailingZeros
  have hcongr : (List.range w).find? (fun i => (x.setWidth (w + k)).getLsbD i)
      = (List.range w).find? fun i => x.getLsbD i := by
    refine List.find?_congr fun i hi => ?_
    rw [List.mem_range] at hi
    rw [BitVec.getLsbD_setWidth]
    simp [show i < w + k by omega]
  rw [List.range_add, List.find?_append, hcongr]
  cases hf : (List.range w).find? fun i => x.getLsbD i with
  | some j => rfl
  | none =>
    rw [List.find?_eq_none] at hf
    exact absurd hbit (hf i (List.mem_range.mpr hi))

theorem popcount_setWidth (k : ℕ) : popcount (x.setWidth (w + k)) = popcount x := by
  unfold popcount
  have hzero : (List.map (w + ·) (List.range k)).countP (fun i => (x.setWidth (w + k)).getLsbD i) = 0 := by
    rw [List.countP_eq_zero]
    intro i hi
    obtain ⟨j, _, rfl⟩ := List.mem_map.mp hi
    rw [BitVec.getLsbD_setWidth, BitVec.getLsbD_of_ge x _ (by omega)]
    simp
  rw [List.range_add, List.countP_append, hzero, Nat.add_zero]
  refine List.countP_congr fun i hi => ?_
  rw [List.mem_range] at hi
  rw [BitVec.getLsbD_setWidth]
  simp [show i < w + k by omega]

end Counts

/-! ## The fold of a word -/

/-- What the three folds leave in `def_reg`. -/
def foldWord {w : ℕ} (m1 m2 m3 x : BitVec w) : BitVec w :=
  let t := x - (x >>> 1 &&& m1)
  let q := (t >>> 2 &&& m2) + (t &&& m2)
  q >>> 4 + q &&& m3

theorem toNat_foldWord {w n : ℕ} {m1 m2 m3 x : BitVec w} (hw : 256 ^ n ≤ 2 ^ w)
    (h1 : m1.toNat = mask 0x55 n) (h2 : m2.toNat = mask 0x33 n) (h3 : m3.toNat = mask 0x0f n) :
    (foldWord m1 m2 m3 x).toNat = fold n x.toNat := by
  have hpairs : (x - (x >>> 1 &&& m1)).toNat = pairs n x.toNat := by
    have hle : (x >>> 1 &&& m1).toNat ≤ x.toNat := by
      rw [BitVec.toNat_and, BitVec.toNat_ushiftRight]
      exact le_trans Nat.and_le_left (Nat.shiftRight_le _ _)
    rw [BitVec.toNat_sub_of_le (BitVec.le_def.mpr hle), BitVec.toNat_and, BitVec.toNat_ushiftRight, h1]
    rfl
  have hquads : ∀ t : BitVec w, ((t >>> 2 &&& m2) + (t &&& m2)).toNat = quads n t.toNat := by
    intro t
    have hsum : (t >>> 2 &&& m2).toNat + (t &&& m2).toNat = quads n t.toNat := by
      rw [BitVec.toNat_and, BitVec.toNat_and, BitVec.toNat_ushiftRight, h2, Nat.add_comm, Nat.shiftRight_eq_div_pow]
      rfl
    have hlt := @quads_lt n t.toNat
    rw [BitVec.toNat_add, hsum, Nat.mod_eq_of_lt (by omega)]
  have hlt := @quads_add_lt n (pairs n x.toNat)
  unfold foldWord fold bytes
  dsimp only
  rw [BitVec.toNat_and, BitVec.toNat_add, BitVec.toNat_ushiftRight, hquads, hpairs, h3, Nat.shiftRight_eq_div_pow,
    show 2 ^ 4 = 16 from rfl, Nat.mod_eq_of_lt (by omega), Nat.add_comm]

/-! ## Running the code -/

theorem immAt_self (imm : BitVec 32) : immAt 32 imm = imm := by
  unfold immAt
  ext i hi
  have hi64 : i < 64 := by omega
  rw [BitVec.getElem_setWidth, BitVec.getLsbD_signExtend]
  simp [hi, hi64]

theorem State.reg_put {s : State} {w x : ℕ} (v : BitVec w) : (s.put w x v).reg x = writeReg w (s.reg x) v :=
  Function.update_self _ _ _

namespace BitRegs

variable {r : BitRegs} {s : State} {w : ℕ} {op : IrOp} {type : IrType} {bmi1 : Bool} {place : Place}

/-! ### The software count -/

theorem exec_foldBits (h : r.defReg ≠ r.tmpReg) (m1 m2 m3 : BitVec 32) :
    (exec (r.foldBits m1 m2 m3) s).get 32 r.defReg = foldWord m1 m2 m3 (s.get 32 r.defReg) := by
  simp -implicitDefEqProofs [foldBits, Instr.exec, State.get_put, State.get_put_of_ne h,
    State.get_put_of_ne h.symm, AluOp.eval, ShiftOp.eval, shiftCount, immAt_self, foldWord]

theorem exec_foldBits64 (h : r.defReg ≠ r.tmpReg) (hd : r.constReg ≠ r.defReg) (ht : r.constReg ≠ r.tmpReg) :
    (exec r.foldBits64 s).get 64 r.defReg
      = (foldWord 0x5555555555555555 0x3333333333333333 0x0f0f0f0f0f0f0f0f (s.get 64 r.defReg)
        * (0x0101010101010101 : BitVec 64)) >>> 56 := by
  simp -implicitDefEqProofs [foldBits64, Instr.exec.eq_def, State.get_put, State.get_put_of_ne h,
    State.get_put_of_ne h.symm, State.get_put_of_ne hd, State.get_put_of_ne hd.symm, State.get_put_of_ne ht,
    State.get_put_of_ne ht.symm, AluOp.eval, ShiftOp.eval, shiftCount, foldWord]

theorem exec_addBytes (h : r.defReg ≠ r.tmpReg) :
    (exec [.mov 32 r.tmpReg r.defReg, .shift .shr 32 r.tmpReg 8, .aluImm .and 32 r.defReg 0x0f,
      .alu .add 32 r.defReg r.tmpReg] s).get 32 r.defReg
      = (s.get 32 r.defReg &&& (0x0f : BitVec 32)) + s.get 32 r.defReg >>> 8 := by
  simp -implicitDefEqProofs [Instr.exec.eq_def, State.get_put, State.get_put_of_ne h,
    State.get_put_of_ne h.symm, AluOp.eval, ShiftOp.eval, shiftCount, immAt_self]

theorem exec_mulBytes :
    (exec [.aluImm .imul 32 r.defReg 0x01010101, .shift .shr 32 r.defReg 24] s).get 32 r.defReg
      = (s.get 32 r.defReg * (0x01010101 : BitVec 32)) >>> 24 := by
  simp -implicitDefEqProofs [Instr.exec.eq_def, State.get_put, AluOp.eval, ShiftOp.eval, shiftCount, immAt_self]

/-- A count fits the narrower register. -/
theorem get_eq_ofNat {W n : ℕ} {x : ℕ} (hw : w ≤ W) (h : (s.get W x).toNat = n) : s.get w x = BitVec.ofNat w n := by
  rw [← State.get_of_le hw]
  apply BitVec.eq_of_toNat_eq
  rw [BitVec.toNat_setWidth, h, BitVec.toNat_ofNat]

/-- The registers of the software count are different ones. -/
structure Distinct (r : BitRegs) : Prop where
  def_tmp : r.defReg ≠ r.tmpReg
  const_def : r.constReg ≠ r.defReg
  const_tmp : r.constReg ≠ r.tmpReg

variable {code : List Instr}

theorem sumBits_byte (D : r.Distinct) {v : BitVec 8} (hv : s.get 32 r.defReg = v.setWidth 32) :
    (exec (r.foldBits 0x55 0x33 0x0f) s).get 8 r.defReg = BitVec.ofNat 8 (popcount v) := by
  refine get_eq_ofNat (W := 32) (by omega) ?_
  have hlt := v.isLt
  rw [exec_foldBits D.def_tmp, toNat_foldWord (n := 1) (by omega) rfl rfl rfl, hv, BitVec.toNat_setWidth,
    Nat.mod_eq_of_lt (by omega), fold_byte (by omega)]
  rfl

theorem sumBits_word (D : r.Distinct) {v : BitVec 16} (hv : s.get 32 r.defReg = v.setWidth 32) :
    (exec (r.foldBits 0x5555 0x3333 0x0f0f ++ [.mov 32 r.tmpReg r.defReg, .shift .shr 32 r.tmpReg 8,
      .aluImm .and 32 r.defReg 0x0f, .alu .add 32 r.defReg r.tmpReg]) s).get 16 r.defReg
      = BitVec.ofNat 16 (popcount v) := by
  refine get_eq_ofNat (W := 32) (by omega) ?_
  have hlt := v.isLt
  have hfold := @toNat_foldWord 32 2 0x5555 0x3333 0x0f0f (v.setWidth 32) (by omega) rfl rfl rfl
  rw [BitVec.toNat_setWidth, Nat.mod_eq_of_lt (show v.toNat < 2 ^ 32 by omega)] at hfold
  have hsum := @fold_two v.toNat
  have hle := bitCount_le 16 v.toNat
  rw [exec_append, exec_addBytes D.def_tmp, exec_foldBits D.def_tmp, hv, BitVec.toNat_add, BitVec.toNat_and,
    BitVec.toNat_ushiftRight, hfold, popcount_eq, Nat.shiftRight_eq_div_pow]
  rw [show (0x0f : BitVec 32).toNat = 2 ^ 4 - 1 from rfl, Nat.and_two_pow_sub_one_eq_mod]
  omega

theorem sumBits_dword (D : r.Distinct) :
    (exec (r.foldBits 0x55555555 0x33333333 0x0f0f0f0f
      ++ [.aluImm .imul 32 r.defReg 0x01010101, .shift .shr 32 r.defReg 24]) s).get 32 r.defReg
      = BitVec.ofNat 32 (popcount (s.get 32 r.defReg)) := by
  refine get_eq_ofNat (W := 32) (Nat.le_refl 32) ?_
  rw [exec_append, exec_mulBytes, exec_foldBits D.def_tmp, BitVec.toNat_ushiftRight, BitVec.toNat_mul,
    toNat_foldWord (n := 4) (by omega) rfl rfl rfl, Nat.shiftRight_eq_div_pow]
  exact fold_four

theorem sumBits_qword (D : r.Distinct) :
    (exec r.foldBits64 s).get 64 r.defReg = BitVec.ofNat 64 (popcount (s.get 64 r.defReg)) := by
  refine get_eq_ofNat (W := 64) (Nat.le_refl 64) ?_
  rw [exec_foldBits64 D.def_tmp D.const_def D.const_tmp, BitVec.toNat_ushiftRight, BitVec.toNat_mul,
    toNat_foldWord (n := 8) (by omega) rfl rfl rfl, Nat.shiftRight_eq_div_pow]
  exact fold_eight

/-- What an instruction counts. -/
def count {w : ℕ} (op : IrOp) (v : BitVec w) : ℕ :=
  match op with
  | .ctlz => leadingZeros v
  | .cttz => trailingZeros v
  | _ => X86.popcount v

/-! ### The instructions for counting -/

/-- `bsr` gives the number of the highest bit, `xor` turns it. -/
theorem xor_last {k j : ℕ} (hj : j = 3 ∨ j = 4 ∨ j = 5 ∨ j = 6) (hk : k < 2 ^ j) :
    (2 ^ j - 1 - k) ^^^ (2 ^ j - 1) = k := by
  have h3 : ∀ k < 8, (7 - k) ^^^ 7 = k := by decide
  have h4 : ∀ k < 16, (15 - k) ^^^ 15 = k := by decide
  have h5 : ∀ k < 32, (31 - k) ^^^ 31 = k := by decide
  have h6 : ∀ k < 64, (63 - k) ^^^ 63 = k := by decide
  rcases hj with rfl | rfl | rfl | rfl
  · exact h3 k hk
  · exact h4 k hk
  · exact h5 k hk
  · exact h6 k hk

/-- A 16-bit operation on a small number keeps it small. -/
theorem get_put_narrow (hw : w = 16 ∨ w = 32 ∨ w = 64) {x k : ℕ} (hk : k < 2 ^ 16) (v : BitVec 16) :
    ((s.put w x (BitVec.ofNat w k)).put 16 x v).get w x = v.setWidth w := by
  rcases hw with rfl | hw
  · rw [State.get_put (by omega), BitVec.setWidth_eq]
  · have hreg : (s.put w x (BitVec.ofNat w k)).reg x = BitVec.ofNat 64 k := by
      rw [State.reg_put]
      rcases hw with rfl | rfl
      · unfold writeReg
        rw [if_pos rfl]
        apply BitVec.eq_of_toNat_eq
        rw [BitVec.toNat_setWidth, BitVec.toNat_ofNat, BitVec.toNat_ofNat]
        omega
      · rw [← BitVec.setWidth_eq (writeReg 64 _ _), setWidth_writeReg (Nat.le_refl 64)]
    have hput : ((s.put w x (BitVec.ofNat w k)).put 16 x v).reg x = v.setWidth 64 := by
      rw [State.reg_put, hreg]
      unfold writeReg
      rw [if_neg (by omega)]
      have hzero : (BitVec.ofNat 64 k) >>> 16 = 0 := by
        apply BitVec.eq_of_toNat_eq
        rw [BitVec.toNat_ushiftRight, BitVec.toNat_ofNat, Nat.mod_eq_of_lt (by omega), Nat.shiftRight_eq_div_pow]
        exact Nat.div_eq_of_lt hk
      rw [hzero]
      simp
    unfold State.get
    rw [hput]
    exact BitVec.setWidth_setWidth_of_le v (by omega)

/-- The highest bit of a small operand, turned. -/
theorem exec_turn {x n j : ℕ} {last : BitVec 32} (hw : w = 16 ∨ w = 32 ∨ w = 64)
    (hj : j = 3 ∨ j = 4 ∨ j = 5 ∨ j = 6) (hlast : (immAt 16 last).toNat = 2 ^ j - 1) (hn : n < 2 ^ j)
    (hs : ∃ s0 : State, s = s0.put w x (BitVec.ofNat w (2 ^ j - 1 - n))) :
    (exec [.aluImm .xor 16 x last] s).get w x = BitVec.ofNat w n := by
  obtain ⟨s0, rfl⟩ := hs
  have hpow : 2 ^ j ≤ 64 := by rcases hj with rfl | rfl | rfl | rfl <;> omega
  have hw64 : 16 ≤ w ∧ w ≤ 64 := by omega
  have hv : (s0.put w x (BitVec.ofNat w (2 ^ j - 1 - n))).get 16 x = BitVec.ofNat 16 (2 ^ j - 1 - n) := by
    rw [State.get_put_of_le hw64.1 hw64.2]
    apply BitVec.eq_of_toNat_eq
    rw [BitVec.toNat_setWidth, BitVec.toNat_ofNat, BitVec.toNat_ofNat]
    have : 2 ^ 16 ≤ 2 ^ w := Nat.pow_le_pow_right (by omega) hw64.1
    rw [Nat.mod_eq_of_lt (show 2 ^ j - 1 - n < 2 ^ w by omega)]
  show ((s0.put w x _).put 16 x (AluOp.eval _ _ .xor)).get w x = _
  rw [get_put_narrow hw (by omega), hv]
  apply BitVec.eq_of_toNat_eq
  rw [BitVec.toNat_setWidth]
  show (_ ^^^ _ : BitVec 16).toNat % 2 ^ w = _
  rw [BitVec.toNat_xor, hlast, BitVec.toNat_ofNat, Nat.mod_eq_of_lt (show 2 ^ j - 1 - n < 2 ^ 16 by omega),
    xor_last hj hn, BitVec.toNat_ofNat]

/-- The cases of 2, 4 and 8 bytes count at their own width. -/
theorem exec_countBits {last : BitVec 32} {src : Operand} {j : ℕ} (hop : op = .ctlz ∨ op = .cttz ∨ op = .ctpop)
    (hw : w = 16 ∧ j = 4 ∨ w = 32 ∧ j = 5 ∨ w = 64 ∧ j = 6) (hlast : (immAt 16 last).toNat = 2 ^ j - 1)
    (hnz : op ≠ .ctpop → src.read s w ≠ 0) :
    (exec (r.countBits w op bmi1 last src) s).get w r.defReg = BitVec.ofNat w (count op (src.read s w)) := by
  have hw64 : w ≤ 64 := by omega
  have hwj : w = 2 ^ j := by
    rcases hw with ⟨rfl, rfl⟩ | ⟨rfl, rfl⟩ | ⟨rfl, rfl⟩ <;> rfl
  rcases hop with rfl | rfl | rfl
  · have hz := hnz (by decide)
    cases bmi1 with
    | true => exact State.get_put hw64 _
    | false =>
      have hlt := leadingZeros_lt hz
      have hbsr : BitOp.eval (s.get w r.defReg) (src.read s w) .bsr
          = BitVec.ofNat w (2 ^ j - 1 - leadingZeros (src.read s w)) := by
        rw [← hwj]
        exact if_neg hz
      refine exec_turn (s := Instr.exec s (.bits .bsr w r.defReg src)) (n := leadingZeros (src.read s w))
        (by omega) (by omega) hlast (by omega) ⟨s, ?_⟩
      rw [← hbsr]
      rfl
  · have hz := hnz (by decide)
    cases bmi1 with
    | true => exact State.get_put hw64 _
    | false =>
      have hbsf : BitOp.eval (s.get w r.defReg) (src.read s w) .bsf
          = BitVec.ofNat w (trailingZeros (src.read s w)) := if_neg hz
      show (s.put w r.defReg (BitOp.eval (s.get w r.defReg) (src.read s w) .bsf)).get w r.defReg = _
      rw [State.get_put hw64, hbsf]
      rfl
  · exact State.get_put hw64 _

/-- The case of one byte counts the zero-extended operand. -/
theorem exec_countByte {x : ℕ} (hop : op = .ctlz ∨ op = .cttz ∨ op = .ctpop)
    (hnz : op ≠ .ctpop → s.get 8 x ≠ 0) :
    (exec (r.countByte op bmi1 x) s).get 8 r.defReg = BitVec.ofNat 8 (count op (s.get 8 x)) := by
  have hx : (Instr.exec s (.movzx 8 x x)).get 32 x = (s.get 8 x).setWidth 32 := State.get_put (by omega) _
  have hread : (Operand.reg x).read (Instr.exec s (.movzx 8 x x)) 32 = (s.get 8 x).setWidth 32 := hx
  have hnarrow : ∀ {s : State} {n : ℕ}, s.get 32 r.defReg = BitVec.ofNat 32 n → n < 2 ^ 32 →
      s.get 8 r.defReg = BitVec.ofNat 8 n := by
    intro s n h hn
    refine get_eq_ofNat (W := 32) (by omega) ?_
    rw [h, BitVec.toNat_ofNat, Nat.mod_eq_of_lt hn]
  have hzero : s.get 8 x ≠ 0 → (s.get 8 x).setWidth 32 ≠ 0 := by
    intro hz h
    refine hz (BitVec.eq_of_toNat_eq ?_)
    have := congrArg BitVec.toNat h
    rw [BitVec.toNat_setWidth_of_le (by omega)] at this
    exact this
  rcases hop with rfl | rfl | rfl
  · have hz := hnz (by decide)
    have hlt := leadingZeros_lt hz
    have hlz : leadingZeros ((s.get 8 x).setWidth 32) = 24 + leadingZeros (s.get 8 x) := leadingZeros_setWidth 24
    cases bmi1 with
    | true =>
      refine hnarrow ?_ (show leadingZeros (s.get 8 x) < 2 ^ 32 by omega)
      show (Instr.exec (Instr.exec (Instr.exec s (.movzx 8 x x)) (.bits .lzcnt 32 r.defReg (.reg x)))
        (.aluImm .sub 32 r.defReg 24)).get 32 r.defReg = _
      have hdef : (Instr.exec (Instr.exec s (.movzx 8 x x)) (.bits .lzcnt 32 r.defReg (.reg x))).get 32 r.defReg
          = BitVec.ofNat 32 (24 + leadingZeros (s.get 8 x)) := by
        rw [← hlz, ← hread]
        exact State.get_put (by omega) _
      have hsub : ∀ s : State, (Instr.exec s (.aluImm .sub 32 r.defReg 24)).get 32 r.defReg
          = s.get 32 r.defReg - immAt 32 24 := fun s => State.get_put (by omega) _
      rw [hsub, hdef, immAt_self]
      have hcount : count .ctlz (s.get 8 x) = leadingZeros (s.get 8 x) := rfl
      apply BitVec.eq_of_toNat_eq
      rw [BitVec.toNat_sub, BitVec.toNat_ofNat, BitVec.toNat_ofNat, hcount]
      simp
      omega
    | false =>
      have hbsr : BitOp.eval ((Instr.exec s (.movzx 8 x x)).get 32 r.defReg)
          ((Operand.reg x).read (Instr.exec s (.movzx 8 x x)) 32) .bsr
          = BitVec.ofNat 32 (2 ^ 3 - 1 - leadingZeros (s.get 8 x)) := by
        rw [hread]
        show (if _ then _ else _) = _
        rw [if_neg (hzero hz), hlz]
        congr 1
        omega
      refine hnarrow ?_ (show leadingZeros (s.get 8 x) < 2 ^ 32 by omega)
      refine exec_turn (s := Instr.exec (Instr.exec s (.movzx 8 x x)) (.bits .bsr 32 r.defReg (.reg x)))
        (n := leadingZeros (s.get 8 x)) (by omega) (by omega) (show (immAt 16 (7 : BitVec 32)).toNat = 2 ^ 3 - 1 from rfl) hlt
        ⟨Instr.exec s (.movzx 8 x x), ?_⟩
      rw [← hbsr]
      rfl
  · have hz := hnz (by decide)
    have htz : count .cttz ((s.get 8 x).setWidth 32) = count .cttz (s.get 8 x) := trailingZeros_setWidth hz 24
    have hlt := trailingZeros_lt hz
    refine hnarrow ?_ (show trailingZeros (s.get 8 x) < 2 ^ 32 by omega)
    have hcount := @exec_countBits r (Instr.exec s (.movzx 8 x x)) 32 .cttz bmi1 31 (.reg x) 5 (by simp) (by omega) rfl
      (fun _ => by rw [hread]; exact hzero hz)
    rw [hread] at hcount
    rw [← htz]
    exact hcount
  · have hpop : count .ctpop ((s.get 8 x).setWidth 32) = count .ctpop (s.get 8 x) := popcount_setWidth 24
    have hlt : X86.popcount (s.get 8 x) ≤ 8 := bitCount_le 8 _
    refine hnarrow ?_ (show X86.popcount (s.get 8 x) < 2 ^ 32 by omega)
    have hcount := @exec_countBits r (Instr.exec s (.movzx 8 x x)) 32 .ctpop bmi1 31 (.reg x) 5 (by simp) (by omega) rfl
      (fun h => absurd rfl h)
    rw [hread] at hcount
    rw [← hpop]
    exact hcount

/-! ### Operands and results -/

/-- The result is in its register, and in its spill slot when there is one. -/
def Counts (r : BitRegs) (op : IrOp) (w : ℕ) (place : Place) (s : State) (code : List Instr) : Prop :=
  (exec code s).get w r.defReg = BitVec.ofNat w (count op (place.value s w)) ∧
    ∀ m, r.defSlot = some m → (exec code s).load w m = BitVec.ofNat w (count op (place.value s w))

theorem counts_storeDef (hw : w ≤ 64)
    (h : (exec code s).get w r.defReg = BitVec.ofNat w (count op (place.value s w))) :
    r.Counts op w place s (code ++ r.storeDef w) := by
  unfold Counts storeDef
  rw [exec_append]
  cases hslot : r.defSlot with
  | none => exact ⟨h, fun m hm => by cases hm⟩
  | some m =>
    refine ⟨h, fun m' hm => ?_⟩
    rw [← Option.some.inj hm]
    show ((exec code s).store w m ((exec code s).get w r.defReg)).load w m = _
    rw [State.load_store hw, h]

theorem exec_countReg (hop : op = .ctlz ∨ op = .cttz ∨ op = .ctpop) {x : ℕ}
    (hsize : type.size = 1 ∨ type.size = 2 ∨ type.size = 4 ∨ type.size = 8)
    (hnz : op ≠ .ctpop → s.get (8 * type.size) x ≠ 0) :
    ∃ code, r.countReg op type bmi1 x = some code ∧
      (exec code s).get (8 * type.size) r.defReg
        = BitVec.ofNat (8 * type.size) (count op (s.get (8 * type.size) x)) := by
  unfold countReg
  rcases hsize with h | h | h | h
  all_goals rw [h] at hnz ⊢
  · exact ⟨_, rfl, exec_countByte hop hnz⟩
  · exact ⟨_, rfl, exec_countBits hop (by omega) (show _ = 2 ^ 4 - 1 from rfl) hnz⟩
  · exact ⟨_, rfl, exec_countBits hop (by omega) (show _ = 2 ^ 5 - 1 from rfl) hnz⟩
  · exact ⟨_, rfl, exec_countBits hop (by omega) (show _ = 2 ^ 6 - 1 from rfl) hnz⟩

theorem exec_countMem (hop : op = .ctlz ∨ op = .cttz ∨ op = .ctpop) {m : ℕ}
    (hsize : type.size = 2 ∨ type.size = 4 ∨ type.size = 8)
    (hnz : op ≠ .ctpop → s.load (8 * type.size) m ≠ 0) :
    ∃ code, r.countMem op type bmi1 m = some code ∧
      (exec code s).get (8 * type.size) r.defReg
        = BitVec.ofNat (8 * type.size) (count op (s.load (8 * type.size) m)) := by
  unfold countMem
  rcases hsize with h | h | h
  all_goals rw [h] at hnz ⊢
  · exact ⟨_, rfl, exec_countBits hop (by omega) (show _ = 2 ^ 4 - 1 from rfl) hnz⟩
  · exact ⟨_, rfl, exec_countBits hop (by omega) (show _ = 2 ^ 5 - 1 from rfl) hnz⟩
  · exact ⟨_, rfl, exec_countBits hop (by omega) (show _ = 2 ^ 6 - 1 from rfl) hnz⟩

/-- `IR_BIT_COUNT` counts exactly where there is a case for its size. -/
theorem emitBitCount_counts (hop : op = .ctlz ∨ op = .cttz ∨ op = .ctpop)
    (hsize : type.size = 1 ∨ type.size = 2 ∨ type.size = 4 ∨ type.size = 8)
    (hslot : ∀ m, place = .slot m → type.size ≠ 1) (hfused : ∀ m, place = .fused m → type.size ≠ 1)
    (hnz : op ≠ .ctpop → place.value s (8 * type.size) ≠ 0) :
    ∃ code, r.emitBitCount op type bmi1 place = some code ∧ r.Counts op (8 * type.size) place s code := by
  have hw : 8 * type.size ≤ 64 := by omega
  unfold emitBitCount
  cases place with
  | reg x =>
    obtain ⟨code, hcode, hget⟩ : ∃ code, r.countReg op type bmi1 x = some code ∧
        (exec code s).get (8 * type.size) r.defReg
          = BitVec.ofNat (8 * type.size) (count op (s.get (8 * type.size) x)) := exec_countReg hop hsize hnz
    exact ⟨_, by simp [hcode], counts_storeDef hw hget⟩
  | reload x m =>
    have hload : (Instr.exec s (.load (8 * type.size) x m)).get (8 * type.size) x = s.load (8 * type.size) m :=
      State.get_put hw _
    obtain ⟨code, hcode, hget⟩ : ∃ code, r.countReg op type bmi1 x = some code ∧
        (exec code (Instr.exec s (.load (8 * type.size) x m))).get (8 * type.size) r.defReg
          = BitVec.ofNat (8 * type.size)
            (count op ((Instr.exec s (.load (8 * type.size) x m)).get (8 * type.size) x)) :=
      exec_countReg hop hsize (by rw [hload]; exact hnz)
    rw [hload] at hget
    exact ⟨.load (8 * type.size) x m :: code ++ r.storeDef (8 * type.size), by simp [hcode],
      counts_storeDef hw hget⟩
  | slot m =>
    have := hslot m rfl
    obtain ⟨code, hcode, hget⟩ : ∃ code, r.countMem op type bmi1 m = some code ∧
        (exec code s).get (8 * type.size) r.defReg
          = BitVec.ofNat (8 * type.size) (count op (s.load (8 * type.size) m)) := exec_countMem hop (by omega) hnz
    exact ⟨_, by simp [hcode], counts_storeDef hw hget⟩
  | fused m =>
    have := hfused m rfl
    obtain ⟨code, hcode, hget⟩ : ∃ code, r.countMem op type bmi1 m = some code ∧
        (exec code s).get (8 * type.size) r.defReg
          = BitVec.ofNat (8 * type.size) (count op (s.load (8 * type.size) m)) := exec_countMem hop (by omega) hnz
    exact ⟨_, by simp [hcode], counts_storeDef hw hget⟩

theorem exec_sumBits (D : r.Distinct)
    (hsize : type.size = 1 ∨ type.size = 2 ∨ type.size = 4 ∨ type.size = 8) {v : BitVec (8 * type.size)}
    (hv : s.get (max 32 (8 * type.size)) r.defReg = v.setWidth (max 32 (8 * type.size))) :
    ∃ code, r.sumBits type = some code ∧
      (exec code s).get (8 * type.size) r.defReg = BitVec.ofNat (8 * type.size) (X86.popcount v) := by
  unfold sumBits
  revert hv v
  generalize type.size = n at hsize ⊢
  rcases hsize with rfl | rfl | rfl | rfl
  · intro v hv
    exact ⟨_, rfl, sumBits_byte D hv⟩
  · intro v hv
    exact ⟨_, rfl, sumBits_word D hv⟩
  · intro v hv
    have hv32 : s.get 32 r.defReg = v := hv.trans (BitVec.setWidth_eq v)
    rw [← hv32]
    exact ⟨_, rfl, sumBits_dword D⟩
  · intro v hv
    have hv64 : s.get 64 r.defReg = v := hv.trans (BitVec.setWidth_eq v)
    rw [← hv64]
    exact ⟨_, rfl, sumBits_qword D⟩

theorem exec_moveZx {x : ℕ} (hsize : type.size = 1 ∨ type.size = 2 ∨ type.size = 4 ∨ type.size = 8) :
    ∃ code, r.moveZx type x = some code ∧
      (exec code s).get (max 32 (8 * type.size)) r.defReg
        = (s.get (8 * type.size) x).setWidth (max 32 (8 * type.size)) := by
  unfold moveZx
  generalize type.size = n at hsize ⊢
  rcases hsize with rfl | rfl | rfl | rfl
  · exact ⟨_, rfl, State.get_put (by omega) _⟩
  · exact ⟨_, rfl, State.get_put (by omega) _⟩
  · exact ⟨_, rfl, (State.get_put (w := 32) (by omega) _).trans (BitVec.setWidth_eq _).symm⟩
  · exact ⟨_, rfl, (State.get_put (w := 64) (by omega) _).trans (BitVec.setWidth_eq _).symm⟩

/-- The operand loaded from its spill slot, zero-extended. -/
theorem exec_loadZx {m : ℕ} (hsize : type.size = 1 ∨ type.size = 2 ∨ type.size = 4 ∨ type.size = 8) :
    (exec (.load (8 * type.size) r.defReg m ::
        (if type.size = 1 then [.movzx 8 r.defReg r.defReg]
        else if type.size = 2 then [.movzx 16 r.defReg r.defReg] else [])) s).get
          (max 32 (8 * type.size)) r.defReg
      = (s.load (8 * type.size) m).setWidth (max 32 (8 * type.size)) := by
  have hload : ∀ w ≤ 64, (Instr.exec s (.load w r.defReg m)).get w r.defReg = s.load w m :=
    fun w hw => State.get_put hw _
  generalize type.size = n at hsize ⊢
  rcases hsize with rfl | rfl | rfl | rfl
  · rw [← hload 8 (by omega)]
    exact State.get_put (w := 32) (by omega) _
  · rw [← hload 16 (by omega)]
    exact State.get_put (w := 32) (by omega) _
  · exact (hload 32 (by omega)).trans (BitVec.setWidth_eq _).symm
  · exact (hload 64 (by omega)).trans (BitVec.setWidth_eq _).symm

/-- `IR_CTPOP` counts exactly when the operand is no fused load. -/
theorem emitCtpop_counts (D : r.Distinct)
    (hsize : type.size = 1 ∨ type.size = 2 ∨ type.size = 4 ∨ type.size = 8)
    (hfused : ∀ m, place ≠ .fused m) :
    ∃ code, r.emitCtpop type place = some code ∧ r.Counts .ctpop (8 * type.size) place s code := by
  have hw : 8 * type.size ≤ 64 := by omega
  unfold emitCtpop
  cases place with
  | reg x =>
    obtain ⟨operand, hoperand, hv⟩ := exec_moveZx (r := r) (s := s) (x := x) hsize
    obtain ⟨sum, hsum, hget⟩ := exec_sumBits D hsize hv
    refine ⟨operand ++ sum ++ r.storeDef (8 * type.size), by simp [hoperand, hsum], counts_storeDef hw ?_⟩
    rw [exec_append]
    exact hget
  | reload x m =>
    have hload : (Instr.exec s (.load (8 * type.size) x m)).get (8 * type.size) x = s.load (8 * type.size) m :=
      State.get_put hw _
    obtain ⟨operand, hoperand, hv⟩ := exec_moveZx (r := r) (s := Instr.exec s (.load (8 * type.size) x m))
      (x := x) hsize
    rw [hload] at hv
    obtain ⟨sum, hsum, hget⟩ := exec_sumBits D hsize hv
    refine ⟨.load (8 * type.size) x m :: operand ++ sum ++ r.storeDef (8 * type.size),
      by simp [hoperand, hsum], counts_storeDef hw ?_⟩
    rw [exec_append]
    exact hget
  | slot m =>
    obtain ⟨sum, hsum, hget⟩ := exec_sumBits D hsize (exec_loadZx (r := r) (s := s) (m := m) hsize)
    have hemit : ∀ load : List Instr, (do
        let sum ← r.sumBits type
        some (load ++ sum ++ r.storeDef (8 * type.size))) = some (load ++ sum ++ r.storeDef (8 * type.size)) := by
      intro load
      simp [hsum]
    refine ⟨_, hemit _, counts_storeDef hw ?_⟩
    rw [exec_append]
    exact hget
  | fused m => exact absurd rfl (hfused m)

/-- The instructions that count bits are lowered exactly, for every operand place the allocator can choose, but for
fused loads of one byte and fused loads counted in software: there an assertion fails. -/
theorem emit_exact (r : BitRegs) (op : IrOp) (type : IrType) (bmi1 : Bool) (place : Place) (s : State)
    (hop : op = .ctlz ∨ op = .cttz ∨ op = .ctpop) (hint : type.isInt = true) (hvoid : type ≠ .void)
    (D : r.Distinct)
    (hplace : ∀ m rule, place = .slot m → matchBitCount op bmi1 = some rule → rule.op1MustBeInReg type = false)
    (hnz : op ≠ .ctpop → place.value s (8 * type.size) ≠ 0) :
    (∃ code, r.emit op type bmi1 place = some code ∧ r.Counts op (8 * type.size) place s code) ↔
      ¬ ((∃ m, place = .fused m) ∧ (type.size = 1 ∨ matchBitCount op bmi1 = some .ctpop)) := by
  have hsize : type.size = 1 ∨ type.size = 2 ∨ type.size = 4 ∨ type.size = 8 := by
    revert hint hvoid
    cases type <;> simp [IrType.size, IrType.isInt]
  unfold emit
  obtain hm | ⟨hm, rfl⟩ :
      matchBitCount op bmi1 = some .bitCount ∨ matchBitCount op bmi1 = some .ctpop ∧ op = .ctpop := by
    rcases hop with rfl | rfl | rfl
    · exact Or.inl rfl
    · exact Or.inl rfl
    · cases bmi1
      · exact Or.inr ⟨rfl, rfl⟩
      · exact Or.inl rfl
  · rw [hm]
    constructor
    · rintro ⟨code, hcode, _⟩ ⟨⟨m, rfl⟩, hcase⟩
      rcases hcase with h1 | h1
      · have hcode : r.emitBitCount op type bmi1 (.fused m) = some code := hcode
        simp [emitBitCount, countMem, h1] at hcode
      · cases h1
    · intro hok
      refine emitBitCount_counts hop hsize (fun m hslot h1 => ?_) (fun m hfused h1 => ?_) hnz
      · have := hplace m _ hslot hm
        simp [BitRule.op1MustBeInReg, h1] at this
      · exact hok ⟨⟨m, hfused⟩, Or.inl h1⟩
  · rw [hm]
    constructor
    · rintro ⟨code, hcode, _⟩ ⟨⟨m, rfl⟩, _⟩
      cases hcode
    · intro hok
      exact emitCtpop_counts D hsize fun m hfused => hok ⟨⟨m, hfused⟩, Or.inr rfl⟩

/-- Leading zeros of a byte in a register, without `lzcnt`. -/
theorem ctlz_byte_reg :
    (∃ code, (⟨0, none, 1, 2⟩ : BitRegs).emit .ctlz .u8 false (.reg 3) = some code ∧
      (⟨0, none, 1, 2⟩ : BitRegs).Counts .ctlz 8 (.reg 3) ⟨fun _ => 5, fun _ => 0, false⟩ code) ↔
      ¬ ((∃ m, Place.reg 3 = .fused m) ∧ (IrType.u8.size = 1 ∨ matchBitCount .ctlz false = some .ctpop)) :=
  emit_exact ⟨0, none, 1, 2⟩ .ctlz .u8 false (.reg 3) ⟨fun _ => 5, fun _ => 0, false⟩ (by simp) rfl (by simp)
    ⟨by decide, by decide, by decide⟩ (fun _ _ h => by cases h) (fun _ => by decide)

/-- No code for the leading zeros of a byte that is loaded from memory, none for a software count of a word that
is loaded. -/
theorem fused_loads_not_counted :
    (¬ ∃ code, (⟨0, none, 1, 2⟩ : BitRegs).emit .ctlz .u8 true (.fused 0) = some code ∧
      (⟨0, none, 1, 2⟩ : BitRegs).Counts .ctlz 8 (.fused 0) ⟨fun _ => 0, fun _ => 5, false⟩ code) ∧
    ¬ ∃ code, (⟨0, none, 1, 2⟩ : BitRegs).emit .ctpop .u32 false (.fused 0) = some code ∧
      (⟨0, none, 1, 2⟩ : BitRegs).Counts .ctpop 32 (.fused 0) ⟨fun _ => 0, fun _ => 5, false⟩ code := by
  refine ⟨?_, ?_⟩
  · rintro ⟨code, hcode, _⟩
    cases hcode
  · rintro ⟨code, hcode, _⟩
    cases hcode

end BitRegs

end IrJit.X86
