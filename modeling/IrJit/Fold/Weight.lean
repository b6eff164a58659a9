import IrJit.Fold.Rules
import Mathlib.Tactic.Linarith
import Mathlib.Logic.Function.Basic
import Mathlib.Data.List.GetD

/-!
# Fold.Weight — a measure on the questions of the folding engine

Constants weigh one, an instruction weighs more than twice its operands.  Most rules ask about lighter
operands.  `SHL`, and the opcodes that may get their first operand twice when the second is a floating
point constant, count double; the opcodes that are rewritten in place have a rank, and two
operands in the wrong order count one.
-/

namespace IrJit.Fold

/-- An instruction of the data flow with operands, other than `PHI`. -/
def isDataOp (o : IrOp) : Bool := o.cls = .data && decide (1 ≤ o.inputEdges)

/-- The opcodes of constants. -/
def isConstant (o : IrOp) : Bool := o.isConstOp || o.isSymConst || o = .funcAddr

/-- A reference to a constant or an instruction of the context, or none. -/
def Ctx.valid (c : Ctx) (r : ℤ) : Prop := -c.consts.length ≤ r ∧ r < c.insns.length

instance (c : Ctx) (r : ℤ) : Decidable (c.valid r) := inferInstanceAs (Decidable (_ ∧ _))

/-- The operands of an instruction that are edges. -/
def Insn.operands (i : Insn) : List ℤ := [i.op1, i.op2, i.op3].take i.op.inputEdges

/-- A context: `IR_UNUSED` is a `NOP`, the table of constants starts with `NULL`, `FALSE` and `TRUE`,
and no instruction of the data flow depends on itself, unless through a `PHI`. -/
structure Ctx.WellFormed (c : Ctx) : Prop where
  nonempty : 0 < c.insns.length
  nop : (c.insn 0).op = .nop
  consts : ∀ i ∈ c.consts, isConstant i.op
  insns : ∀ i ∈ c.insns, isConstant i.op = false
  builtin : (c.insn irNull).op = .cAddr ∧ (c.insn irFalse).op = .cBool ∧
    (c.insn irTrue).op = .cBool
  acyclic : ∃ rank : ℤ → ℕ, ∀ r, isDataOp (c.insn r).op → ∀ o ∈ (c.insn r).operands,
    c.valid o ∧ (0 < o → rank o < rank r)

/-- A weight for every reference. -/
structure Weighed (c : Ctx) (W : ℤ → ℕ) : Prop where
  nonempty : 0 < c.insns.length
  nop : (c.insn 0).op = .nop
  consts : ∀ i ∈ c.consts, isDataOp i.op = false
  insns : ∀ i ∈ c.insns, isF i.op = false
  builtin : (c.insn irNull).op = .cAddr ∧ (c.insn irFalse).op = .cBool ∧
    (c.insn irTrue).op = .cBool
  zero : W 0 = 0
  const : ∀ r, r < 0 → W r = 1
  pos : ∀ r, 0 < r → 1 ≤ W r
  one : ∀ r, isDataOp (c.insn r).op →
    c.valid (c.insn r).op1 ∧ 2 * W (c.insn r).op1 + 3 ≤ W r
  two : ∀ r, isDataOp (c.insn r).op → 2 ≤ (c.insn r).op.inputEdges →
    c.valid (c.insn r).op2 ∧ 2 * (W (c.insn r).op1 + W (c.insn r).op2) + 4 ≤ W r

/-- The operands of the question are references of the context. -/
def Question.valid (c : Ctx) (q : Question) : Prop :=
  c.valid q.op1 ∧ c.valid q.op2 ∧ c.valid q.op3

instance (c : Ctx) (q : Question) : Decidable (q.valid c) := inferInstanceAs (Decidable (_ ∧ _))

/-! ## Contexts -/

variable {c : Ctx} {W : ℤ → ℕ}

theorem isDataOp_of_isConstant {o : IrOp} (h : isConstant o = true) : isDataOp o = false := by
  cases o <;> first | rfl | exact absurd h (by decide)

theorem isF_of_isConstant {o : IrOp} (h : isConstant o = false) : isF o = false := by
  cases o <;> first | rfl | exact absurd h (by decide)

theorem insn_of_neg {r : ℤ} (h : r < 0) : c.insn r = c.consts.getD (-r - 1).toNat default :=
  if_pos h

theorem insn_of_nonneg {r : ℤ} (h : 0 ≤ r) : c.insn r = c.insns.getD r.toNat default :=
  if_neg (by omega)

theorem getD_cases {α : Type} (l : List α) (n : ℕ) (d : α) : l.getD n d ∈ l ∨ l.getD n d = d := by
  by_cases h : n < l.length
  · rw [List.getD_eq_getElem l d h]
    exact Or.inl (List.getElem_mem h)
  · rw [List.getD_eq_default l d (by omega)]
    exact Or.inr rfl

/-- An instruction of the data flow has a positive reference. -/
theorem pos_of_isDataOp (hnop : (c.insn 0).op = .nop)
    (hconsts : ∀ i ∈ c.consts, isDataOp i.op = false)
    {r : ℤ} (h : isDataOp (c.insn r).op) : 0 < r ∧ r < c.insns.length := by
  rcases lt_trichotomy r 0 with hr | hr | hr
  · rw [insn_of_neg hr] at h
    rcases getD_cases c.consts (-r - 1).toNat default with hm | hm
    · rw [hconsts _ hm] at h
      cases h
    · rw [hm] at h
      cases h
  · rw [hr, hnop] at h
    cases h
  · refine ⟨hr, ?_⟩
    by_contra hlen
    rw [insn_of_nonneg hr.le, List.getD_eq_default _ _ (by omega)] at h
    cases h

theorem ne_zero_of_op (h : Weighed c W) {r : ℤ} (hop : (c.insn r).op ≠ .nop) : r ≠ 0 := by
  rintro rfl
  exact hop h.nop

/-- A floating point constant weighs one. -/
theorem Weighed.weight_of_isF (h : Weighed c W) {r : ℤ} (hr : isF (c.insn r).op = true) :
    W r = 1 := by
  apply h.const
  by_contra h0
  rw [insn_of_nonneg (by omega)] at hr
  rcases getD_cases c.insns r.toNat default with hm | hm
  · rw [h.insns _ hm] at hr
    cases hr
  · rw [hm] at hr
    cases hr

theorem Weighed.one_le (h : Weighed c W) {r : ℤ} (hr : r ≠ 0) : 1 ≤ W r := by
  rcases lt_or_gt_of_ne hr with hr | hr
  · rw [h.const r hr]
  · exact h.pos r hr

/-! ## Every well-formed context can be weighed -/

theorem exists_weighed (h : c.WellFormed) : ∃ W, Weighed c W := by
  obtain ⟨rank, hrank⟩ := h.acyclic
  have hconsts : ∀ i ∈ c.consts, isDataOp i.op = false := fun i hi =>
    isDataOp_of_isConstant (h.consts i hi)
  -- an instruction of rank `n` weighs `8 ^ (n + 1)`
  let W : ℤ → ℕ := fun r => if r < 0 then 1 else if r = 0 then 0 else 8 ^ (rank r + 1)
  have hle : ∀ r o, (0 < o → rank o < rank r) → W o ≤ 8 ^ rank r := by
    intro r o ho
    show (if o < 0 then 1 else if o = 0 then 0 else 8 ^ (rank o + 1)) ≤ 8 ^ rank r
    split_ifs with h0 h1
    · exact Nat.one_le_pow _ _ (by norm_num)
    · exact Nat.zero_le _
    · exact Nat.pow_le_pow_right (by norm_num) (ho (by omega))
  have hW : ∀ r, isDataOp (c.insn r).op → W r = 8 * 8 ^ rank r := by
    intro r hr
    have hpos := (pos_of_isDataOp h.nop hconsts hr).1
    show (if r < 0 then 1 else if r = 0 then 0 else 8 ^ (rank r + 1)) = _
    rw [if_neg (by omega), if_neg (by omega), pow_succ']
  have hedges : ∀ r, isDataOp (c.insn r).op → 1 ≤ (c.insn r).op.inputEdges := by
    intro r hr
    have hr' : (c.insn r).op.cls = .data ∧ 1 ≤ (c.insn r).op.inputEdges := by
      simpa [isDataOp] using hr
    exact hr'.2
  have hop1 : ∀ r, isDataOp (c.insn r).op → (c.insn r).op1 ∈ (c.insn r).operands := by
    intro r hr
    obtain ⟨n, hn⟩ := Nat.exists_eq_add_of_le (hedges r hr)
    rw [Insn.operands, hn, Nat.add_comm]
    simp
  have hop2 : ∀ r, 2 ≤ (c.insn r).op.inputEdges → (c.insn r).op2 ∈ (c.insn r).operands := by
    intro r hr
    obtain ⟨n, hn⟩ := Nat.exists_eq_add_of_le hr
    rw [Insn.operands, hn, Nat.add_comm]
    simp
  refine ⟨W, h.nonempty, h.nop, hconsts, fun i hi => isF_of_isConstant (h.insns i hi), h.builtin,
    rfl, fun r hr => if_pos hr, ?_, ?_, ?_⟩
  · intro r hr
    show 1 ≤ if r < 0 then 1 else if r = 0 then 0 else 8 ^ (rank r + 1)
    rw [if_neg (by omega), if_neg (by omega)]
    exact Nat.one_le_pow _ _ (by norm_num)
  · intro r hr
    obtain ⟨hv, ho⟩ := hrank r hr _ (hop1 r hr)
    have h1 := hle r _ ho
    have h8 : 1 ≤ 8 ^ rank r := Nat.one_le_pow _ _ (by norm_num)
    rw [hW r hr]
    exact ⟨hv, by omega⟩
  · intro r hr h2
    obtain ⟨-, ho1⟩ := hrank r hr _ (hop1 r hr)
    obtain ⟨hv, ho2⟩ := hrank r hr _ (hop2 r h2)
    have h1 := hle r _ ho1
    have h2 := hle r _ ho2
    have h8 : 1 ≤ 8 ^ rank r := Nat.one_le_pow _ _ (by norm_num)
    rw [hW r hr]
    exact ⟨hv, by omega⟩

/-! ## Making constants -/

/-- The four ways to find a constant. -/
theorem const_cases (c : Ctx) (v : Val) (t : IrType) :
    (t = .bool ∧ (c.const v t = (c, irTrue) ∨ c.const v t = (c, irFalse))) ∨
      (t = .addr ∧ c.const v t = (c, irNull)) ∨
      (∃ k, ∃ h : k < c.consts.length, (c.consts[k]).op = constOp t ∧
        c.const v t = (c, -((k : ℤ) + 1))) ∨
      (t ≠ .bool ∧ c.const v t =
        ({ c with consts := c.consts ++ [{ op := constOp t, type := t, val := v }] },
          -((c.consts.length : ℤ) + 1))) := by
  unfold Ctx.const
  by_cases hb : t = .bool
  · rw [if_pos hb]
    refine Or.inl ⟨hb, ?_⟩
    by_cases hv : v ≠ 0
    · exact Or.inl (by rw [if_pos hv])
    · exact Or.inr (by rw [if_neg hv])
  rw [if_neg hb]
  by_cases ha : t = .addr ∧ v = 0
  · rw [if_pos ha]
    exact Or.inr (Or.inl ⟨ha.1, rfl⟩)
  rw [if_neg ha]
  refine Or.inr (Or.inr ?_)
  cases hk : c.consts.findIdx? fun i => i.op = constOp t && i.type = t && i.val = v with
  | none => exact Or.inr ⟨hb, rfl⟩
  | some k =>
    obtain ⟨hlt, hkey, -⟩ := List.findIdx?_eq_some_iff_getElem.1 hk
    simp only [Bool.and_eq_true, decide_eq_true_eq] at hkey
    exact Or.inl ⟨k, hlt, hkey.1.1, rfl⟩

theorem const_insns (c : Ctx) (v : Val) (t : IrType) :
    (c.const v t).1.insns = c.insns ∧ (c.const v t).1.useLists = c.useLists := by
  rcases const_cases c v t with ⟨-, h | h⟩ | ⟨-, h⟩ | ⟨k, -, -, h⟩ | ⟨-, h⟩ <;> rw [h] <;> exact ⟨rfl, rfl⟩

theorem const_neg (c : Ctx) (v : Val) (t : IrType) : (c.const v t).2 < 0 := by
  rcases const_cases c v t with ⟨-, h | h⟩ | ⟨-, h⟩ | ⟨k, -, -, h⟩ | ⟨-, h⟩ <;> rw [h] <;>
    simp only [irTrue, irFalse, irNull] <;> omega

/-- The references of the old context mean the same in the new one. -/
theorem const_insn (v : Val) (t : IrType) {r : ℤ} (hr : c.valid r) :
    (c.const v t).1.insn r = c.insn r := by
  rcases const_cases c v t with ⟨-, h | h⟩ | ⟨-, h⟩ | ⟨k, -, -, h⟩ | ⟨-, h⟩ <;> rw [h]
  by_cases h0 : r < 0
  · have hlt : (-r - 1).toNat < c.consts.length := by
      have := hr.1
      omega
    rw [insn_of_neg h0, insn_of_neg h0]
    exact List.getD_append _ _ _ _ hlt
  · rw [insn_of_nonneg (by omega), insn_of_nonneg (by omega)]

theorem valid_const (v : Val) (t : IrType) {r : ℤ} (hr : c.valid r) : (c.const v t).1.valid r := by
  obtain ⟨h1, h2⟩ := hr
  rcases const_cases c v t with ⟨-, h | h⟩ | ⟨-, h⟩ | ⟨k, -, -, h⟩ | ⟨-, h⟩ <;> rw [h] <;>
    refine ⟨?_, h2⟩ <;> try exact h1
  rw [List.length_append]
  push_cast
  omega

theorem Weighed.three_le (h : Weighed c W) : 3 ≤ c.consts.length := by
  by_contra hlt
  have ht := h.builtin.2.2
  rw [insn_of_neg (by decide), List.getD_eq_default _ _ (by simp only [irTrue]; omega)] at ht
  cases ht

theorem const_valid (h : Weighed c W) (v : Val) (t : IrType) :
    (c.const v t).1.valid (c.const v t).2 := by
  have h3 := h.three_le
  refine ⟨?_, by have := const_neg c v t; omega⟩
  rcases const_cases c v t with ⟨-, h | h⟩ | ⟨-, h⟩ | ⟨k, hk, -, h⟩ | ⟨-, h⟩ <;> rw [h] <;>
    simp only [irTrue, irFalse, irNull, List.length_append, List.length_cons, List.length_nil] <;>
    omega

/-- The opcode of the constant. -/
theorem const_op (h : Weighed c W) (v : Val) (t : IrType) :
    ((c.const v t).1.insn (c.const v t).2).op = constOp t := by
  rcases const_cases c v t with ⟨ht, h' | h'⟩ | ⟨ht, h'⟩ | ⟨k, hk, hop, h'⟩ | ⟨-, h'⟩ <;> rw [h']
  · rw [ht]
    exact h.builtin.2.2
  · rw [ht]
    exact h.builtin.2.1
  · rw [ht]
    exact h.builtin.1
  · rw [insn_of_neg (by dsimp only; omega)]
    have hidx : (-(-((k : ℤ) + 1)) - 1).toNat = k := by omega
    rw [hidx, List.getD_eq_getElem _ _ hk, hop]
  · rw [insn_of_neg (by dsimp only; omega)]
    have hidx : (-(-((c.consts.length : ℤ) + 1)) - 1).toNat = c.consts.length := by omega
    rw [hidx, List.getD_append_right _ _ _ _ le_rfl]
    simp

theorem isDataOp_constOp (t : IrType) : isDataOp (constOp t) = false := by
  cases t <;> rfl

theorem const_consts (hc : ∀ i ∈ c.consts, isDataOp i.op = false) (v : Val) (t : IrType) :
    ∀ i ∈ (c.const v t).1.consts, isDataOp i.op = false := by
  rcases const_cases c v t with ⟨-, h | h⟩ | ⟨-, h⟩ | ⟨k, -, -, h⟩ | ⟨-, h⟩ <;> rw [h] <;>
    try exact hc
  intro i hi
  rcases List.mem_append.1 hi with hi | hi
  · exact hc i hi
  · rw [List.mem_singleton.1 hi]
    exact isDataOp_constOp t

theorem const_insn_nonneg (v : Val) (t : IrType) {r : ℤ} (hr : 0 ≤ r) :
    (c.const v t).1.insn r = c.insn r := by
  rw [insn_of_nonneg hr, insn_of_nonneg hr, (const_insns c v t).1]

theorem Weighed.valid_of_neg (h : Weighed c W) {r : ℤ} (h0 : r < 0) (h3 : -3 ≤ r) : c.valid r := by
  have := h.three_le
  exact ⟨by omega, by omega⟩

theorem Weighed.valid_zero (h : Weighed c W) : c.valid 0 := by
  have := h.nonempty
  exact ⟨by omega, by omega⟩

/-- A new constant changes no weight. -/
theorem Weighed.const_weighed (h : Weighed c W) (v : Val) (t : IrType) :
    Weighed (c.const v t).1 W := by
  have hnop : ((c.const v t).1.insn 0).op = .nop := by
    rw [const_insn_nonneg v t le_rfl]
    exact h.nop
  have hconsts := const_consts h.consts v t
  have hsame : ∀ r, isDataOp ((c.const v t).1.insn r).op → (c.const v t).1.insn r = c.insn r :=
    fun r hr => const_insn_nonneg v t (pos_of_isDataOp hnop hconsts hr).1.le
  refine ⟨by rw [(const_insns c v t).1]; exact h.nonempty, hnop, hconsts,
    by rw [(const_insns c v t).1]; exact h.insns, ?_, h.zero, h.const, h.pos, ?_, ?_⟩
  · rw [const_insn v t (h.valid_of_neg (by decide) (by decide)),
      const_insn v t (h.valid_of_neg (by decide) (by decide)),
      const_insn v t (h.valid_of_neg (by decide) (by decide))]
    exact h.builtin
  · intro r hr
    have heq := hsame r hr
    rw [heq] at hr ⊢
    exact ⟨valid_const v t (h.one r hr).1, (h.one r hr).2⟩
  · intro r hr h2
    have heq := hsame r hr
    rw [heq] at hr h2 ⊢
    exact ⟨valid_const v t (h.two r hr h2).1, (h.two r hr h2).2⟩

/-! ## Making casts -/

theorem emit1_insn {op : IrOp} {t : IrType} {r s : ℤ} (hs : c.valid s) :
    (c.emit1 op t r).1.insn s = c.insn s := by
  by_cases h0 : s < 0
  · rw [insn_of_neg h0, insn_of_neg h0]
    rfl
  · have hlt : s.toNat < c.insns.length := by
      have := hs.2
      omega
    rw [insn_of_nonneg (by omega), insn_of_nonneg (by omega)]
    exact List.getD_append _ _ _ _ hlt

theorem emit1_new (c : Ctx) (op : IrOp) (t : IrType) (r : ℤ) :
    (c.emit1 op t r).1.insn c.insns.length = { op := op, type := t, op1 := r } := by
  rw [insn_of_nonneg (by omega)]
  show (c.insns ++ [_]).getD _ _ = _
  rw [Int.toNat_natCast, List.getD_append_right _ _ _ _ le_rfl]
  simp

theorem emit1_valid {op : IrOp} {t : IrType} {r s : ℤ} (hs : c.valid s) :
    (c.emit1 op t r).1.valid s := by
  obtain ⟨h1, h2⟩ := hs
  refine ⟨h1, ?_⟩
  show s < ((c.insns ++ [_]).length : ℕ)
  rw [List.length_append]
  push_cast
  omega

/-- A cast weighs little more than twice its operand. -/
theorem Weighed.emit1_weighed (h : Weighed c W) {t : IrType} {r : ℤ} (hr : c.valid r) :
    Weighed (c.emit1 .bitcast t r).1 (Function.update W c.insns.length (2 * W r + 3)) := by
  have hold : ∀ s, c.valid s → Function.update W c.insns.length (2 * W r + 3) s = W s :=
    fun s hs => Function.update_of_ne (by have := hs.2; omega) _ _
  have h0 := h.valid_zero
  -- an instruction of the data flow is the new one or an old one
  have hcases : ∀ s, isDataOp ((c.emit1 .bitcast t r).1.insn s).op →
      s = c.insns.length ∨ (c.valid s ∧ (c.emit1 .bitcast t r).1.insn s = c.insn s) := by
    intro s hs
    have hnop : ((c.emit1 .bitcast t r).1.insn 0).op = .nop := by
      rw [emit1_insn h0]
      exact h.nop
    obtain ⟨hpos, hlt⟩ := pos_of_isDataOp hnop h.consts hs
    have hlt' : s < (c.insns.length : ℤ) + 1 := by
      have hl : (c.emit1 .bitcast t r).1.insns.length = c.insns.length + 1 := by
        simp [Ctx.emit1]
      rw [hl] at hlt
      exact_mod_cast hlt
    by_cases hs' : s = c.insns.length
    · exact Or.inl hs'
    · have hv : c.valid s := ⟨by omega, by omega⟩
      exact Or.inr ⟨hv, emit1_insn hv⟩
  refine ⟨by simp [Ctx.emit1], ?_, h.consts, ?_, ?_, ?_, ?_, ?_, ?_, ?_⟩
  · rw [emit1_insn h0]
    exact h.nop
  · intro i hi
    rcases List.mem_append.1 hi with hi | hi
    · exact h.insns i hi
    · rw [List.mem_singleton.1 hi]
      rfl
  · rw [emit1_insn (h.valid_of_neg (by decide) (by decide)),
      emit1_insn (h.valid_of_neg (by decide) (by decide)),
      emit1_insn (h.valid_of_neg (by decide) (by decide))]
    exact h.builtin
  · rw [hold 0 h0]
    exact h.zero
  · intro s hs
    rw [Function.update_of_ne (by omega)]
    exact h.const s hs
  · intro s hs
    by_cases hs' : s = c.insns.length
    · rw [hs', Function.update_self]
      omega
    · rw [Function.update_of_ne hs']
      exact h.pos s hs
  · intro s hs
    rcases hcases s hs with rfl | ⟨hv, heq⟩
    · rw [emit1_new, Function.update_self, hold r hr]
      exact ⟨emit1_valid hr, le_rfl⟩
    · rw [heq] at hs ⊢
      obtain ⟨hv1, hw⟩ := h.one s hs
      rw [hold s hv, hold _ hv1]
      exact ⟨emit1_valid hv1, hw⟩
  · intro s hs h2
    rcases hcases s hs with rfl | ⟨hv, heq⟩
    · rw [emit1_new] at h2
      exact absurd h2 (show ¬2 ≤ IrOp.bitcast.inputEdges by decide)
    · rw [heq] at hs h2 ⊢
      obtain ⟨hv2, hw⟩ := h.two s hs h2
      rw [hold s hv, hold _ hv2, hold _ (h.one s hs).1]
      exact ⟨emit1_valid hv2, hw⟩

/-- The context after a cast: old references keep their meaning and weight. -/
structure Extends (c : Ctx) (W : ℤ → ℕ) (c' : Ctx) (W' : ℤ → ℕ) : Prop where
  weighed : Weighed c' W'
  useLists : c'.useLists = c.useLists
  valid : ∀ r, c.valid r → c'.valid r
  weight : ∀ r, c.valid r → W' r = W r

theorem Extends.refl (h : Weighed c W) : Extends c W c W :=
  ⟨h, rfl, fun _ => id, fun _ _ => rfl⟩

theorem Extends.trans {c₁ c₂ : Ctx} {W₁ W₂ : ℤ → ℕ} (h : Extends c W c₁ W₁)
    (k : Extends c₁ W₁ c₂ W₂) : Extends c W c₂ W₂ where
  weighed := k.weighed
  useLists := k.useLists.trans h.useLists
  valid r hr := k.valid r (h.valid r hr)
  weight r hr := (k.weight r (h.valid r hr)).trans (h.weight r hr)

theorem Weighed.extends_const (h : Weighed c W) (v : Val) (t : IrType) :
    Extends c W (c.const v t).1 W where
  weighed := h.const_weighed v t
  useLists := (const_insns c v t).2
  valid _ hr := valid_const v t hr
  weight _ _ := rfl

theorem Weighed.extends_cast (h : Weighed c W) {r : ℤ} (hr : c.valid r) (t : IrType) :
    ∃ W', Extends c W (c.cast r t).1 W' ∧ (c.cast r t).1.valid (c.cast r t).2 ∧
      W' (c.cast r t).2 ≤ 2 * W r + 3 := by
  unfold Ctx.cast
  by_cases ht : (c.insn r).type = t
  · rw [if_pos ht]
    exact ⟨W, Extends.refl h, hr, by dsimp only; omega⟩
  rw [if_neg ht]
  by_cases hc : r < 0 ∧ ¬(c.insn r).op.isSymConst
  · rw [if_pos hc]
    refine ⟨W, h.extends_const _ t, const_valid h _ t, ?_⟩
    rw [h.const _ (const_neg c _ t)]
    omega
  · rw [if_neg hc]
    refine ⟨_, ⟨h.emit1_weighed hr, rfl, fun s hs => emit1_valid hs, fun s hs => ?_⟩, ?_, ?_⟩
    · exact Function.update_of_ne (by have := hs.2; omega) _ _
    · refine ⟨?_, ?_⟩
      · show -(c.consts.length : ℤ) ≤ c.insns.length
        omega
      · show (c.insns.length : ℤ) < ((c.insns ++ [_]).length : ℕ)
        rw [List.length_append]
        push_cast
        simp
    · show Function.update W c.insns.length (2 * W r + 3) c.insns.length ≤ _
      rw [Function.update_self]

/-! ## The measure -/

/-- The weight of the operands; the third one counts for `COND` only. -/
def load (W : ℤ → ℕ) (q : Question) : ℕ :=
  W q.op1 + W q.op2 + if q.op = .cond then W q.op3 else 0

/-- The first operand may be taken twice. -/
def doubles (c : Ctx) (q : Question) : Bool :=
  q.op = .shl || ((q.op = .mul || q.op = .ordered || q.op = .unordered) &&
    (isF (c.insn q.op1).op || isF (c.insn q.op2).op))

/-- `ADD` of two missing operands counts one, for `a + a => a * 2`. -/
def mass (c : Ctx) (W : ℤ → ℕ) (q : Question) : ℕ :=
  if q.op = .add then max 1 (load W q)
  else if doubles c q then 2 * load W q
  else load W q

/-- The opcodes that are rewritten with the operands they have. -/
def isRewritten (c : Ctx) (q : Question) : Bool :=
  q.op = .add || q.op = .ult || q.op = .uge || q.op = .ule || q.op = .ugt || q.op = .div ||
    q.op = .mod || q.op = .sext ||
    ((q.op = .ordered || q.op = .unordered) && (c.insn q.op1).op ≠ (c.insn q.op2).op)

def measure (c : Ctx) (W : ℤ → ℕ) (q : Question) : ℕ :=
  4 * mass c W q + 2 * (if isRewritten c q then 1 else 0) + if q.op1 < q.op2 then 1 else 0

variable {c' : Ctx} {W' : ℤ → ℕ} {q q' : Question}

theorem measure_lt (h : mass c' W' q' < mass c W q) : measure c' W' q' < measure c W q := by
  unfold measure
  split_ifs <;> omega

/-- A rewriting in place. -/
theorem measure_lt_of_rewritten (h : mass c' W' q' ≤ mass c W q) (hq : isRewritten c q = true)
    (hq' : isRewritten c' q' = false) : measure c' W' q' < measure c W q := by
  unfold measure
  rw [if_pos hq, if_neg (by rw [hq']; exact Bool.false_ne_true)]
  split_ifs <;> omega

/-- A swap of the operands. -/
theorem measure_lt_of_swap (h : mass c' W' q' ≤ mass c W q)
    (hrw : isRewritten c' q' = true → isRewritten c q = true) (hlt : q.op1 < q.op2)
    (hge : ¬q'.op1 < q'.op2) : measure c' W' q' < measure c W q := by
  unfold measure
  rw [if_pos hlt, if_neg hge]
  split_ifs with h1 h2
  · omega
  · exact absurd (hrw h1) h2
  · omega
  · omega

theorem load_le_mass (c : Ctx) (W : ℤ → ℕ) (q : Question) : load W q ≤ mass c W q := by
  unfold mass
  split_ifs <;> omega

theorem mass_le (c : Ctx) (W : ℤ → ℕ) (q : Question) : mass c W q ≤ max 1 (2 * load W q) := by
  unfold mass
  split_ifs <;> omega

/-- The opcodes that never count double. -/
def isPlain (o : IrOp) : Bool := o ≠ .shl && o ≠ .mul && o ≠ .ordered && o ≠ .unordered

theorem mass_of_isPlain (h : isPlain q.op = true) : mass c W q ≤ max 1 (load W q) := by
  have hd : doubles c q = false := by
    simp only [isPlain, Bool.and_eq_true, decide_eq_true_eq, ne_eq] at h
    simp [doubles, h]
  unfold mass
  rw [hd]
  by_cases ha : q.op = .add
  · rw [if_pos ha]
  · rw [if_neg ha]
    exact le_max_right _ _

theorem mass_eq (h : isPlain q.op = true) (ha : q.op ≠ .add) : mass c W q = load W q := by
  have hd : doubles c q = false := by
    simp only [isPlain, Bool.and_eq_true, decide_eq_true_eq, ne_eq] at h
    simp [doubles, h]
  unfold mass
  rw [if_neg ha, hd]
  rfl

/-- Much lighter operands, under any opcode. -/
theorem measure_lt_of_double (h : 2 * load W' q' + 2 ≤ load W q) :
    measure c' W' q' < measure c W q := by
  apply measure_lt
  have h1 := mass_le c' W' q'
  have h2 := load_le_mass c W q
  omega

/-- Lighter operands, under an opcode that does not count double. -/
theorem measure_lt_of_plain (hp : isPlain q'.op = true) (h : load W' q' + 2 ≤ load W q) :
    measure c' W' q' < measure c W q := by
  apply measure_lt
  have h1 := mass_of_isPlain (c := c') (W := W') hp
  have h2 := load_le_mass c W q
  omega

/-- The same by one, for an opcode other than `ADD`. -/
theorem measure_lt_of_light (hp : isPlain q'.op = true) (ha : q'.op ≠ .add)
    (h : load W' q' < load W q) : measure c' W' q' < measure c W q := by
  apply measure_lt
  have h2 := load_le_mass c W q
  rw [mass_eq hp ha]
  omega

end IrJit.Fold
