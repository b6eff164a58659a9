import IrJit.Fold.Strength

/-!
# Fold.Overflow — operations with an overflow flag (`ir_fold.h`, 809–906, 1952–1968, 3627–3666)

`OVERFLOW` asks about the reference that the engine returned for `ADD_OV`, `SUB_OV` or `MUL_OV`.  That
may be a constant or an operand; an operand that is itself such an operation has a flag of its own.
-/

namespace IrJit.Fold

/-! ## Operations with a flag -/

def isOv (o : IrOp) : Bool := o = .addOv || o = .subOv || o = .mulOv

theorem isOv_cases {o : IrOp} (h : isOv o = true) : o = .addOv ∨ o = .subOv ∨ o = .mulOv := by
  simpa [isOv, or_assoc] using h

/-- The result that is not wrapped. -/
def exactOv (o : IrOp) (x y : ℤ) : ℤ :=
  match o with
  | .addOv => x + y
  | .subOv => x - y
  | .mulOv => x * y
  | _ => 0

/-- The result is representable in the type. -/
def OvFits (o : IrOp) (t : IrType) (x y : ℤ) : Prop :=
  wrap t (exactOv o (wrap t x) (wrap t y)) = exactOv o (wrap t x) (wrap t y)

instance (o : IrOp) (t : IrType) (x y : ℤ) : Decidable (OvFits o t x y) := by
  unfold OvFits
  infer_instance

/-- The flag of an instruction. -/
def Overflowed (ρ : ℤ → ℤ) (i : Insn) : Prop :=
  isOv i.op = true ∧ ¬OvFits i.op i.type (ρ i.op1) (ρ i.op2)

/-! ## Their rules -/

section Keys

variable {F : FloatOps} {c : Ctx} {q : Question} {o k k1 k2 : IrOp}

/-- The keys under which a question with a flag finds a rule. -/
theorem pattern_ov (ho : isOv o = true) : ∀ r ∈ rules, r.pattern o k1 k2 = true →
    (k1 = k2 ∧ isUI k1 = true) ∨ k1 = .nop ∧ (k2 = .nop ∨ isUIA k2 = true ∧ o ≠ .mulOv) := by
  unfold rules answering restarting
  rcases isOv_cases ho with rfl | rfl | rfl
  all_goals
    simp only [List.forall_mem_append, List.forall_mem_cons, List.not_mem_nil, false_imp_iff,
      implies_true, and_true]
    and_intros
    all_goals intro hp
    all_goals first
      | exact absurd hp Bool.false_ne_true
      | simp only [addOvU, addOvI, subOvU, subOvI, mulOvU, mulOvI, Bool.and_eq_true,
          decide_eq_true_eq] at hp
        exact Or.inl ⟨hp.2, by unfold isUI; simp [hp.1.2]⟩
      | simp only [addZero, Bool.and_eq_true, decide_eq_true_eq] at hp
        exact Or.inr ⟨hp.1.2, Or.inr ⟨hp.2, IrOp.noConfusion⟩⟩
      | simp only [swapOv, subOvAny, Bool.and_eq_true, decide_eq_true_eq] at hp
        exact Or.inr ⟨hp.1.2, Or.inl hp.2⟩
      | simp [floatConvert, cmpExt, cmpExtExt] at hp

theorem isUI_cases (h : isUI k = true) : k = .cU8 ∨ k = .cU16 ∨ k = .cU32 ∨ k = .cU64 ∨ k = .cI8 ∨
    k = .cI16 ∨ k = .cI32 ∨ k = .cI64 := by
  simpa [isUI, isU, isI, or_assoc] using h

/-- The rule for two constants. -/
def ovConstRule (o k : IrOp) : Rule :=
  match o with
  | .addOv => if isU k then addOvU else addOvI
  | .subOv => if isU k then subOvU else subOvI
  | _ => if isU k then mulOvU else mulOvI

/-- The rule for any operands. -/
def ovLastRule (o : IrOp) : Rule := if o = .subOv then subOvAny else swapOv

theorem findRule_ovConst (ho : isOv o = true) (hk : isUI k = true) :
    findRule o k k = some (ovConstRule o k) := by
  rcases isOv_cases ho with rfl | rfl | rfl <;>
    rcases isUI_cases hk with rfl | rfl | rfl | rfl | rfl | rfl | rfl | rfl <;> rfl

theorem findRule_ovLast (ho : isOv o = true) : findRule o .nop .nop = some (ovLastRule o) := by
  rcases isOv_cases ho with rfl | rfl | rfl <;> rfl

theorem findRule_ovZero (ho : o = .addOv ∨ o = .subOv) (hk : isUIA k = true) :
    findRule o .nop k = some addZero := by
  have hk' : k = .cAddr ∨ isUI k = true := by
    unfold isUIA at hk
    unfold isUI
    simpa [or_comm] using hk
  rcases ho with rfl | rfl <;> rcases hk' with rfl | hk' <;>
    first | rfl | rcases isUI_cases hk' with rfl | rfl | rfl | rfl | rfl | rfl | rfl | rfl <;> rfl

theorem findRule_ov_none (ho : isOv o = true)
    (h : ¬((k1 = k2 ∧ isUI k1 = true) ∨ k1 = .nop ∧ (k2 = .nop ∨ isUIA k2 = true ∧ o ≠ .mulOv))) :
    findRule o k1 k2 = none := by
  unfold findRule
  rw [List.find?_eq_none]
  exact fun r hr hp => h (pattern_ov ho r hr hp)

/-- The question has two constants of one type. -/
def samePair (c : Ctx) (q : Question) : Bool :=
  (c.insn q.op1).op = (c.insn q.op2).op && isUI (c.insn q.op1).op

/-- The attempt with both operands. -/
def ovConst (F : FloatOps) (c : Ctx) (q : Question) : Reply :=
  if samePair c q then (ovConstRule q.op (c.insn q.op1).op).reply F c q else .next

/-- The attempt with the second operand. -/
def ovZero (F : FloatOps) (c : Ctx) (q : Question) : Reply :=
  if q.op ≠ .mulOv ∧ isUIA (c.insn q.op2).op then addZero.reply F c q else .next

theorem orElse_self (a b : Reply) : a.orElse (a.orElse b) = a.orElse b := by
  cases a <;> rfl

theorem next_orElse (a : Reply) : Reply.next.orElse a = a := rfl

theorem attempt_of_findRule {r : Rule} (h : findRule q.op k1 k2 = some r) :
    attempt F c q k1 k2 = r.reply F c q := by
  unfold attempt
  rw [h]
  rfl

theorem attempt_of_none (h : findRule q.op k1 k2 = none) : attempt F c q k1 k2 = .next := by
  unfold attempt
  rw [h]

/-- The answer to a question with a flag: the three rules in their order. -/
theorem dispatch_ov (ho : isOv q.op = true) : dispatch F c q =
    (ovConst F c q).orElse ((ovZero F c q).orElse ((ovLastRule q.op).reply F c q)) := by
  have hlast : attempt F c q .nop .nop = (ovLastRule q.op).reply F c q :=
    attempt_of_findRule (findRule_ovLast ho)
  have hzero : (attempt F c q .nop (c.insn q.op2).op).orElse (attempt F c q .nop .nop) =
      (ovZero F c q).orElse ((ovLastRule q.op).reply F c q) := by
    unfold ovZero
    rw [hlast]
    by_cases hn : (c.insn q.op2).op = .nop
    · rw [hn, hlast, if_neg fun h => by cases h.2]
      cases (ovLastRule q.op).reply F c q <;> rfl
    by_cases hz : q.op ≠ .mulOv ∧ isUIA (c.insn q.op2).op = true
    · have hop : q.op = .addOv ∨ q.op = .subOv := by
        rcases isOv_cases ho with h | h | h
        · exact Or.inl h
        · exact Or.inr h
        · exact absurd h hz.1
      rw [if_pos hz, attempt_of_findRule (findRule_ovZero hop hz.2)]
    · rw [if_neg hz, attempt_of_none (findRule_ov_none ho ?_)]
      rintro (⟨h, hui⟩ | ⟨-, h | h⟩)
      · cases hui
      · exact hn h
      · exact hz ⟨h.2, h.1⟩
  have hthird : ∀ a : Reply, (c.insn q.op1).op ≠ .nop →
      (attempt F c q (c.insn q.op1).op .nop).orElse a = a := by
    intro a hn
    rw [attempt_of_none (findRule_ov_none ho ?_), next_orElse]
    rintro (⟨h, hui⟩ | ⟨h, -⟩)
    · exact hn h
    · exact hn h
  unfold dispatch
  dsimp only
  by_cases hn : (c.insn q.op1).op = .nop
  · have hsame : samePair c q = false := by
      unfold samePair
      rw [hn]
      simp [isUI, isU, isI]
    have hconst : ovConst F c q = .next := by
      unfold ovConst
      rw [hsame]
      rfl
    have hdup : (attempt F c q .nop .nop).orElse (attempt F c q .nop .nop) = attempt F c q .nop .nop := by
      cases attempt F c q .nop .nop <;> rfl
    rw [hn, hconst, next_orElse, orElse_self, hdup, hzero]
  · rw [hthird _ hn, hzero]
    congr 1
    unfold ovConst
    split_ifs with hs
    · unfold samePair at hs
      simp only [Bool.and_eq_true, decide_eq_true_eq] at hs
      rw [← hs.1, attempt_of_findRule (findRule_ovConst ho hs.2)]
    · refine attempt_of_none (findRule_ov_none ho ?_)
      rintro (⟨h, hui⟩ | ⟨h, -⟩)
      · exact hs (by unfold samePair; rw [← h]; simpa using hui)
      · exact hn h

end Keys

/-! ## Casts that are folded away -/

/-- Folding the cast of a reference to a type returns a reference that exists. -/
inductive Reveals (c : Ctx) (t : IrType) : ℤ → ℤ → Prop
  | same {x : ℤ} : (c.insn x).type = t → Reveals c t x x
  | inner {x : ℤ} : (c.insn x).type ≠ t → (c.insn x).op = .bitcast →
      (c.insn (c.insn x).op1).type = t → Reveals c t x (c.insn x).op1
  | deeper {x s : ℤ} : (c.insn x).type ≠ t → (c.insn x).op = .bitcast →
      (c.insn (c.insn x).op1).type ≠ t → (c.insn (c.insn x).op1).type.isInt = true →
      Reveals c t (c.insn x).op1 s → Reveals c t x s

/-- The value that an answer stands for. -/
def Reply.answer (c : Ctx) (ρ : ℤ → ℤ) (q : Question) : Reply → Option ℤ
  | .const v => some (constValue q.type v)
  | .copy r => some (ρ r)
  | .emit _ | .next => some (q.value c ρ)
  | _ => none

/-- The instruction that it refers to: the question itself, once the CSE has found or emitted it. -/
def Reply.insn (c : Ctx) (q : Question) : Reply → Insn
  | .const v => { op := constOp q.type, type := q.type, val := v }
  | .copy r => c.insn r
  | _ => { op := q.op, type := q.type, op1 := q.op1, op2 := q.op2, op3 := q.op3 }

theorem isConstant_constOp (ht : IsInt t) : isConstant (constOp t) = true ∧ isOv (constOp t) = false := by
  cases t <;> first | exact ⟨rfl, rfl⟩ | exact absurd ht.1 (by decide) | exact absurd rfl ht.2

section Bitcast

variable {F : FloatOps} {c : Ctx} {ρ : ℤ → ℤ} {t : IrType} {x z s : ℤ} {k1 k2 : IrOp} {q : Question}

theorem Full.isInt (ht : Full t) : IsInt t ∧ bits t = 64 ∧ t ≠ .bool := by
  rcases ht with rfl | rfl | rfl <;> exact ⟨⟨rfl, by decide⟩, rfl, by decide⟩

theorem full_of_size (hs : t.size = 8) (hi : t.isInt = true) : Full t := by
  cases t <;> first | exact absurd hs (by decide) | exact absurd hi (by decide) | simp [Full]

/-- The rules for a `BITCAST`. -/
theorem pattern_bitcast : ∀ r ∈ rules, r.pattern .bitcast k1 k2 = true →
    (k1 = .cBool ∨ k1 = .cChar ∨ isUIA k1 = true) ∨ isF k1 = true ∨ r = bitcastSame ∨
      r = bitcastTwice ∧ k1 = .bitcast := by
  unfold rules answering restarting
  simp only [List.forall_mem_append, List.forall_mem_cons, List.not_mem_nil, false_imp_iff,
    implies_true, and_true]
  and_intros
  all_goals intro hp
  all_goals first
    | exact absurd hp Bool.false_ne_true
    | exact Or.inr (Or.inr (Or.inl trivial))
    | simp only [bitcastTwice, Bool.and_eq_true, decide_eq_true_eq] at hp
      exact Or.inr (Or.inr (Or.inr ⟨trivial, hp.1.2⟩))
    | simp [constants, hasIntRule, or_assoc] at hp
      exact Or.inl hp.2
    | simp [floatConvert] at hp
      exact Or.inr (Or.inl hp.2)
    | simp [cmpExt, cmpExtExt] at hp

/-- A constant is cast at once. -/
theorem dispatch_bitcast_const (hn : (c.insn 0).op = .nop)
    (hx : (c.insn x).op = .cAddr ∨ (c.insn x).op = .cU64 ∨ (c.insn x).op = .cI64) :
    dispatch F c ⟨.bitcast, t, x, 0, z⟩ = constants.reply F c ⟨.bitcast, t, x, 0, z⟩ ∨
      constants.reply F c ⟨.bitcast, t, x, 0, z⟩ = .next := by
  have hfind : findRule .bitcast (c.insn x).op (c.insn 0).op = some constants := by
    rw [hn]
    rcases hx with h | h | h <;> rw [h] <;> rfl
  unfold dispatch
  dsimp only
  rw [attempt_of_findRule hfind]
  cases constants.reply F c ⟨.bitcast, t, x, 0, z⟩ <;> first | exact Or.inl rfl | exact Or.inr rfl

/-- A cast of a cast. -/
theorem dispatch_bitcast_bitcast (hn : (c.insn 0).op = .nop) (hx : (c.insn x).op = .bitcast)
    (hne : (c.insn x).type ≠ t) : dispatch F c ⟨.bitcast, t, x, 0, z⟩ =
      bitcastTwice.reply F c ⟨.bitcast, t, x, 0, z⟩ := by
  have hfind : findRule .bitcast (c.insn x).op (c.insn 0).op = some bitcastTwice := by
    rw [hn, hx]
    rfl
  have hsame : attempt F c ⟨.bitcast, t, x, 0, z⟩ .nop .nop = .next := by
    have hf : findRule .bitcast .nop .nop = some bitcastSame := rfl
    rw [attempt_of_findRule hf]
    simp only [Rule.reply, bitcastSame]
    exact if_neg fun h => hne h.symm
  have hagain : attempt F c ⟨.bitcast, t, x, 0, z⟩ (c.insn x).op .nop =
      bitcastTwice.reply F c ⟨.bitcast, t, x, 0, z⟩ := by
    rw [hn] at hfind
    exact attempt_of_findRule hfind
  unfold dispatch
  dsimp only
  rw [attempt_of_findRule hfind, hn, hsame, next_orElse, hagain]
  cases bitcastTwice.reply F c ⟨.bitcast, t, x, 0, z⟩ <;> rfl

/-- Any other cast stays. -/
theorem dispatch_bitcast_other (hw : c.WellFormed) (hc : c.Typed) (ht : IsInt (c.insn x).type)
    (hx : (c.insn x).op ≠ .bitcast) (hne : (c.insn x).type ≠ t)
    (hk : isUIA (c.insn x).op = false ∧ (c.insn x).op ≠ .cBool ∧ (c.insn x).op ≠ .cChar) :
    dispatch F c ⟨.bitcast, t, x, 0, z⟩ = .next := by
  rcases dispatch_cases F c ⟨.bitcast, t, x, 0, z⟩ with h | ⟨r, hr, ⟨k1, k2, hk1, -, hp⟩, h⟩
  · exact h
  rcases pattern_bitcast r hr hp with hcon | hf | rfl | ⟨rfl, hb⟩
  · exfalso
    have hop : (c.insn x).op = k1 := hk1.eq (by rintro rfl; rcases hcon with h | h | h <;> cases h)
    rcases hcon with h | h | h
    · exact hk.2.1 (hop.trans h)
    · exact hk.2.2 (hop.trans h)
    · rw [← hop, hk.1] at h
      cases h
  · exfalso
    have hop : (c.insn x).op = k1 := hk1.eq (by rintro rfl; cases hf)
    rw [← hop] at hf
    have hconst : (c.insn x).op.isConstOp = true := by
      generalize (c.insn x).op = o at hf
      cases o <;> first | rfl | exact absurd hf (by decide)
    rw [hc.consts _ (mem_consts hw hconst).2 hconst] at hf
    generalize (c.insn x).type = u at hf ht
    cases u <;> first | exact absurd hf (by decide) | exact absurd ht.1 (by decide)
  · rw [h]
    simp only [Rule.reply, bitcastSame]
    exact if_neg fun h => hne h.symm
  · exact absurd (hk1.eq (by rw [hb]; decide)) (by rw [hb]; exact hx)

end Bitcast

section BitcastRun

variable {F : FloatOps} {c : Ctx} {ρ : ℤ → ℤ} {t : IrType} {x z s : ℤ}

theorem value_bitcast (hb : t ≠ .bool) :
    Question.value c ρ ⟨.bitcast, t, x, 0, z⟩ = wrap t (ρ x) := by
  have heq : Question.value c ρ ⟨.bitcast, t, x, 0, z⟩ =
      if t = .bool then (if decide (toU 8 (ρ x) ≠ 0) then 1 else 0) else wrap t (ρ x) := rfl
  rw [heq, if_neg hb]

/-- What is known of the answer to a cast. -/
structure CastAnswer (c : Ctx) (ρ : ℤ → ℤ) (t : IrType) (x : ℤ) (q : Question) (r : Reply) : Prop where
  question : q.op = .bitcast ∧ q.type = t ∧ Full (c.insn q.op1).type ∧ ∀ c₁ q₁, r ≠ .restart c₁ q₁
  defined : r ≠ .undefined
  value : ∀ v, r.answer c ρ q = some v → Agree t v (ρ x)
  revealed : (∃ s, r = .copy s ∧ Reveals c t x s) ∨
    (∀ s, Reveals c t x s → isOv (c.insn s).op = false) ∧ isOv (r.insn c q).op = false
  const : (c.insn x).op.isConstOp = true → isConstant (r.insn c q).op = true

/-- The cast of a number. -/
theorem constants_bitcast (ht : Full t) (hx : Full (c.insn x).type) :
    ∃ v, constants.reply F c ⟨.bitcast, t, x, 0, z⟩ = .const v ∧
      constValue t v = wrap t (c.insn x).val.toNat := by
  obtain ⟨hint, -, hb⟩ := ht.isInt
  have hreply : constants.reply F c ⟨.bitcast, t, x, 0, z⟩ =
      .ofOutcome (foldConst .bitcast t (c.insn x).type (c.insn 0).type (c.insn x).val (c.insn 0).val) := by
    have hi : (t.isInt : Bool) = true := hint.1
    simp [Rule.reply, constants, hi]
  have hv : (c.insn x).val = BitVec.ofInt 64 ((c.insn x).val.toNat : ℤ) := by
    rw [BitVec.ofInt_natCast, BitVec.ofNat_toNat, BitVec.setWidth_eq]
  have hyields : Yields t (spec .bitcast t (c.insn x).type (c.insn 0).type ((c.insn x).val.toNat : ℤ) 0)
      (foldConst .bitcast t (c.insn x).type (c.insn 0).type (BitVec.ofInt 64 ((c.insn x).val.toNat : ℤ))
        (c.insn 0).val) := exact_bitcast ((c.insn x).val.toNat : ℤ) (c.insn 0).val
  rw [← hv] at hyields
  have hspec : spec .bitcast t (c.insn x).type (c.insn 0).type ((c.insn x).val.toNat : ℤ) 0 =
      wrap t (c.insn x).val.toNat := if_neg hb
  rw [hspec] at hyields
  have hsome : ∃ v, foldConst .bitcast t (c.insn x).type (c.insn 0).type (c.insn x).val (c.insn 0).val =
      .const v := by
    have hxi := hx.isInt.1
    have hif : ((c.insn x).type.isInt && decide ((c.insn x).type ≠ .void)) = true := by
      simp [hxi.1, hxi.2]
    have hfold : foldConst .bitcast t (c.insn x).type (c.insn 0).type (c.insn x).val (c.insn 0).val =
        (foldBitcast t (c.insn x).type (c.insn x).val).intern t := rfl
    rw [hfold]
    unfold foldBitcast
    rw [if_pos hif]
    rcases ht with rfl | rfl | rfl <;> exact ⟨_, rfl⟩
  obtain ⟨v, hv⟩ := hsome
  refine ⟨v, by rw [hreply, hv]; rfl, ?_⟩
  unfold constValue
  rw [if_neg hb]
  exact (hyields.2 v hv).1

theorem not_reveals_of_const (hne : (c.insn x).type ≠ t) (hx : (c.insn x).op ≠ .bitcast) :
    ¬Reveals c t x s := by
  intro h
  cases h with
  | same h => exact hne h
  | inner _ h _ => exact hx h
  | deeper _ h _ _ _ => exact hx h

/-- The engine folds a cast of 64 bits. -/
theorem bitcast_run (hw : c.WellFormed) (hc : c.Typed) (hρ : c.Models ρ) (hu : c.useLists = none)
    (ht : Full t) (n : ℕ) : ∀ x, Full (c.insn x).type → (c.insn x).type ≠ t → ∀ c' q' r,
      folding F n c ⟨.bitcast, t, x, 0, z⟩ = some (c', q', r) → c' = c ∧ CastAnswer c ρ t x q' r := by
  obtain ⟨hint, hbits, hb⟩ := ht.isInt
  induction n with
  | zero => exact fun _ _ _ _ _ _ h => nomatch h
  | succ n ih =>
    intro x hx hne c' q' r hrun
    obtain ⟨hxint, hxbits, hxb⟩ := hx.isInt
    -- an answer that is no question ends the run
    have hend : ∀ r', dispatch F c ⟨.bitcast, t, x, 0, z⟩ = r' → (∀ c'' q'', r' ≠ .restart c'' q'') →
        c' = c ∧ q' = ⟨.bitcast, t, x, 0, z⟩ ∧ r = r' := by
      intro r' hd hr'
      rw [folding_succ_of_answer (by rw [hd]; exact hr'), hd] at hrun
      cases hrun
      exact ⟨rfl, rfl, rfl⟩
    by_cases hconst : (c.insn x).op = .cAddr ∨ (c.insn x).op = .cU64 ∨ (c.insn x).op = .cI64
    · obtain ⟨v, hv, hval⟩ := constants_bitcast (F := F) (z := z) ht hx
      have hd : dispatch F c ⟨.bitcast, t, x, 0, z⟩ = .const v := by
        rcases dispatch_bitcast_const (F := F) (t := t) (z := z) hw.nop hconst with h | h
        · rw [h, hv]
        · rw [hv] at h
          cases h
      obtain ⟨rfl, rfl, rfl⟩ := hend _ hd fun _ _ => Reply.noConfusion
      have huia : isUIA (c'.insn x).op = true := by rcases hconst with h | h | h <;> rw [h] <;> rfl
      obtain ⟨hneg, hnum, -, -⟩ := number_of_isUIA hw hc huia
      have hval' := hρ.number x hneg (by simpa [Ctx.isNumber, hneg] using hnum) hxint
      have hnb : (c'.insn x).op ≠ .bitcast := by rcases hconst with h | h | h <;> rw [h] <;> decide
      refine ⟨rfl, ⟨rfl, rfl, hx, fun _ _ => Reply.noConfusion⟩, Reply.noConfusion, ?_, Or.inr ⟨?_, (isConstant_constOp hint).2⟩,
        fun _ => (isConstant_constOp hint).1⟩
      · rintro _ ⟨⟩
        rw [agree_iff_wrap, hval, hval', wrap_wrap rfl]
        exact (wrap_wrap (by rw [hxbits, hbits]) _).symm
      · exact fun s hs => absurd hs (not_reveals_of_const hne hnb)
    have hliteral : (c.insn x).op.isConstOp = false := by
      cases h : (c.insn x).op.isConstOp
      · rfl
      · refine absurd ?_ hconst
        rw [hc.consts _ (mem_consts hw h).2 h]
        rcases hx with h | h | h <;> rw [h]
        · exact Or.inr (Or.inl rfl)
        · exact Or.inl rfl
        · exact Or.inr (Or.inr rfl)
    have hvalue : ∀ v, Reply.next.answer c ρ ⟨.bitcast, t, x, 0, z⟩ = some v → Agree t v (ρ x) := by
      rintro _ ⟨⟩
      rw [agree_iff_wrap, value_bitcast hb, wrap_wrap rfl]
    by_cases hcast : (c.insn x).op = .bitcast
    · have hcomp : computes (c.insn x).op = true := by rw [hcast]; rfl
      have hsize : (c.insn x).type.size = (c.insn (c.insn x).op1).type.size := by
        have hacc := hc.insns x hcomp
        rw [hcast] at hacc
        exact hacc
      have hsize8 : (c.insn (c.insn x).op1).type.size = 8 := by
        rw [← hsize]
        rcases hx with h | h | h <;> rw [h] <;> rfl
      have hnode : IsInt (c.insn (c.insn x).op1).type → ρ x = wrap (c.insn x).type (ρ (c.insn x).op1) := by
        intro hi
        rw [hρ.node x hcomp hxint ⟨hi, fun h2 => by rw [hcast] at h2; exact absurd h2 (by decide)⟩, hcast]
        exact if_neg hxb
      have hagree : IsInt (c.insn (c.insn x).op1).type → Agree t (ρ (c.insn x).op1) (ρ x) := by
        intro hi
        rw [agree_iff_wrap, hnode hi, wrap_wrap (by rw [hxbits, hbits])]
      have hd := dispatch_bitcast_bitcast (F := F) (z := z) hw.nop hcast hne
      simp only [Rule.reply, bitcastTwice] at hd
      by_cases hsrc : (c.insn (c.insn x).op1).type = t
      · rw [if_pos hsrc] at hd
        obtain ⟨rfl, rfl, rfl⟩ := hend _ hd fun _ _ => Reply.noConfusion
        refine ⟨rfl, ⟨rfl, rfl, hx, fun _ _ => Reply.noConfusion⟩, Reply.noConfusion, ?_, Or.inl ⟨_, rfl, .inner hne hcast hsrc⟩,
          fun h => by rw [hliteral] at h; cases h⟩
        rintro _ ⟨⟩
        exact hagree (by rw [hsrc]; exact hint)
      rw [if_neg hsrc] at hd
      by_cases hi : (c.insn (c.insn x).op1).type.isInt = t.isInt
      · rw [if_pos hi] at hd
        have hi' : (c.insn (c.insn x).op1).type.isInt = true := hi.trans hint.1
        have hfull := full_of_size hsize8 hi'
        rw [folding_succ_of_restart hd hu] at hrun
        obtain ⟨rfl, hans⟩ := ih (c.insn x).op1 hfull hsrc c' q' r hrun
        refine ⟨rfl, hans.question, hans.defined, fun v hv => (hans.value v hv).trans (hagree hfull.isInt.1), ?_,
          fun h => by rw [hliteral] at h; cases h⟩
        rcases hans.revealed with ⟨s, hs, hrev⟩ | ⟨hrev, hov⟩
        · exact Or.inl ⟨s, hs, .deeper hne hcast hsrc hi' hrev⟩
        · refine Or.inr ⟨fun s hs => ?_, hov⟩
          cases hs with
          | same h => exact absurd h hne
          | inner _ _ h => exact absurd h hsrc
          | deeper _ _ _ _ h => exact hrev s h
      · rw [if_neg hi] at hd
        obtain ⟨rfl, rfl, rfl⟩ := hend _ hd fun _ _ => Reply.noConfusion
        refine ⟨rfl, ⟨rfl, rfl, hx, fun _ _ => Reply.noConfusion⟩, Reply.noConfusion, hvalue, Or.inr ⟨fun s hs => ?_, rfl⟩,
          fun h => by rw [hliteral] at h; cases h⟩
        cases hs with
        | same h => exact absurd h hne
        | inner _ _ h => exact absurd h hsrc
        | deeper _ _ _ h _ => exact absurd (h.trans hint.1.symm) hi
    · have hd := dispatch_bitcast_other (F := F) (z := z) hw hc hxint hcast hne ?_
      · obtain ⟨rfl, rfl, rfl⟩ := hend _ hd fun _ _ => Reply.noConfusion
        exact ⟨rfl, ⟨rfl, rfl, hx, fun _ _ => Reply.noConfusion⟩, Reply.noConfusion, hvalue, Or.inr ⟨fun s hs => absurd hs (not_reveals_of_const hne hcast), rfl⟩,
          fun h => by rw [hliteral] at h; cases h⟩
      · generalize (c.insn x).op = o at hliteral
        cases o <;> first | exact ⟨rfl, by decide, by decide⟩ | exact absurd hliteral (by decide)

/-- What remains of an operand is one reference. -/
theorem Reveals.unique {s' : ℤ} (h : Reveals c t x s) (h' : Reveals c t x s') : s = s' := by
  induction h with
  | same ht =>
    cases h' with
    | same _ => rfl
    | inner hne _ _ => exact absurd ht hne
    | deeper hne _ _ _ _ => exact absurd ht hne
  | inner hne _ ht =>
    cases h' with
    | same h => exact absurd h hne
    | inner _ _ _ => rfl
    | deeper _ _ hne' _ _ => exact absurd ht hne'
  | deeper hne _ hne' _ _ ih =>
    cases h' with
    | same h => exact absurd h hne
    | inner _ _ h => exact absurd h hne'
    | deeper _ _ _ _ h => exact ih h

end BitcastRun

end IrJit.Fold
