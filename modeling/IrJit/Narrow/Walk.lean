import IrJit.Narrow.Invariant

/-!
# Narrow.Walk — the walk of `ir_promote_i2i` over the expression

By induction on the number of steps that the test took: the walk ends after as many, and has left every
instruction that it entered with the narrow type.
-/

namespace IrJit.Narrow

open Fold (Val u8)
open IfConv (Insn isConstRef)

variable {base ctx ctx' ctx'' : Ctx} {type : IrType} {root i use ref ref' n o o' a w y z : ℤ} {os os' : List ℤ}
  {D D' D'' : ℤ → Prop} {V V' V'' : ℤ → List ℤ} {fuel : ℕ}

/-! ## Replaced operands -/

theorem subst_self (o : ℤ) : subst o o = id := by
  funext a
  unfold subst
  split_ifs with h
  · exact h.symm
  · rfl

/-- A list keeps its references to instructions when none of its operands is replaced by another one. -/
theorem count_map_subst (l : List ℤ) (hw : 0 < w) (h : o ∉ l ∨ o' = o ∨ (o < 0 ∧ o' < 0)) :
    (l.map (subst o o')).count w = l.count w := by
  rcases h with h | rfl | ⟨ho, ho'⟩
  · have hid : l.map (subst o o') = l := by
      refine (List.map_congr_left fun a ha => ?_).trans (List.map_id l)
      exact if_neg fun heq : a = o => h (heq ▸ ha)
    rw [hid]
  · rw [subst_self, List.map_id]
  · induction l with
    | nil => rfl
    | cons a l ih =>
      rw [List.map_cons, List.count_cons, List.count_cons, ih]
      congr 1
      unfold subst
      split_ifs <;> simp_all <;> omega

theorem count_map_subst_eq (l : List ℤ) (hne : o ≠ o') : (l.map (subst o o')).count w =
    if w = o then 0 else if w = o' then l.count o' + l.count o else l.count w := by
  induction l with
  | nil => simp
  | cons a l ih =>
    rw [List.map_cons, List.count_cons, ih, List.count_cons, List.count_cons, List.count_cons]
    unfold subst
    by_cases ha : a = o
    · subst ha
      by_cases hw : w = a
      · subst hw
        simp [hne.symm]
      · by_cases hw' : w = o'
        · subst hw'
          simp [hne, hw]
          omega
        · simp [hw, hw', Ne.symm hw, Ne.symm hw']
    · by_cases hw : w = o
      · subst hw
        simp [ha]
      · by_cases hw' : w = o'
        · subst hw'
          simp [ha, hw]
          omega
        · simp [ha, hw, hw']

theorem Ctx.Image.cases (h : base.Image type ctx o o') :
    (o < 0 ∧ o' < 0) ∨ (0 ≤ o ∧ base.Bypassed type o ∧ o' = (base.insn o).op1) ∨
      (0 ≤ o ∧ ¬base.Bypassed type o ∧ o' = o) := by
  unfold Ctx.Image at h
  split_ifs at h with ho
  · exact .inl ⟨ho, h.1⟩
  · rcases h with h | h
    · exact .inr (.inl ⟨not_lt.1 ho, h⟩)
    · exact .inr (.inr ⟨not_lt.1 ho, h⟩)

/-- No extension takes the place of an operand. -/
theorem Ctx.Image.not_bypassed (C : base.Checked) (h : base.Image type ctx o o') : ¬base.Bypassed type o' := by
  intro hby
  rcases h.cases with ⟨-, hneg⟩ | ⟨-, ⟨-, -, hty⟩, rfl⟩ | ⟨-, hnot, rfl⟩
  · exact absurd hby.1 (by omega)
  · have hsize := (C.ext _ hby.2.1).2.2
    rw [hby.2.2, hty] at hsize
    split_ifs at hsize <;> exact lt_irrefl _ hsize
  · exact hnot hby

theorem Ctx.Image.self (h0 : 0 ≤ o) (h : ¬base.Bypassed type o) : base.Image type ctx o o := by
  unfold Ctx.Image
  rw [if_neg (not_lt.2 h0)]
  exact .inr ⟨h, rfl⟩

/-! ## Coming to an operand -/

/-- An instruction that is to be entered is as it was. -/
theorem Ready.insn_eq (R : Ready base type i root use ref D V ctx) (hpos : 0 < ref) :
    ctx.insn ref = base.insn ref ∧ V ref = (base.insn ref).operands := by
  rcases R.inv.outside ref hpos R.fresh with h | ⟨-, -, -, -, huses⟩
  · exact h
  · have h := R.inv.exact ref use hpos
    rw [huses, List.count_nil, eq_comm, List.count_eq_zero] at h
    exact absurd R.slot h

/-- An operand that is entered is narrowed with the instruction, which has it once. -/
theorem Inv.operand_entered (S : Start base type i root) (I : Inv base type i root D V ctx) (hz : z ≠ i)
    (hy : y ∈ (base.insn z).operands) (hne : z ≠ y) (hD : D y) (hi : y ≠ i) :
    D z ∧ y ∈ base.narrowOps z ∧ (base.insn z).operands.count y = 1 := by
  have hpos := I.pos y hD
  obtain ⟨-, honce, rfl | ⟨p, hp, hpy, hop⟩⟩ := (I.entered y hD).resolve_left hi
  · -- the operand of the TRUNC has no other use
    have hroot : y ∈ (base.insn i).operands := by
      rw [S.operands]
      exact List.mem_singleton_self _
    exact absurd (honce.unique S.checked hpos hroot (Ne.symm hi) hy hne).1.symm hz
  · obtain ⟨rfl, hcount⟩ := honce.unique S.checked hpos (mem_operands_of_narrowOps S.checked hop) hpy hy hne
    exact ⟨hp, hop, hcount⟩

/-- The operands of an instruction that is not entered are not entered. -/
theorem Inv.operand_outside (S : Start base type i root) (I : Inv base type i root D V ctx) (hz : ¬D z)
    (hy : y ∈ (base.insn z).operands) (hD : D y) : y = i := by
  by_contra hi
  have hne : z ≠ y := fun h => hz (h ▸ hD)
  have hzi : z ≠ i := fun h => hz (h ▸ I.start.1)
  exact hz (I.operand_entered S hzi hy hne hD hi).1

/-- The operands of an instruction that is not entered are as they were. -/
theorem Inv.operand_eq (S : Start base type i root) (I : Inv base type i root D V ctx) (hz : ¬D z)
    (hV : V z = (base.insn z).operands) (hy : y ∈ (base.insn z).operands) : ctx.insn y = base.insn y := by
  rcases lt_or_ge 0 y with hpos | hneg
  · by_cases hD : D y
    · rw [I.operand_outside S hz hy hD]
      exact I.start.2
    · rcases I.outside y hpos hD with h | ⟨-, -, -, -, huses⟩
      · exact h.1
      · have h := I.exact y z hpos
        rw [huses, List.count_nil, eq_comm, List.count_eq_zero, hV] at h
        exact absurd hy h
  · exact (I.consts y hneg (S.checked.range z y hy)).1

/-- An operand of the instruction `ref`, which is being narrowed, has not been entered unless it is one of `os` or
the TRUNC. -/
theorem Frame.operand_fresh (S : Start base type i root) (I : Inv base type i root D V ctx) (hD : ¬D ref)
    (F : Frame base type i root ref os (fun m => D m ∨ m = ref) V ctx D' V' ctx') (ho : o ∈ base.narrowOps ref)
    (hos : 0 < o → o ∉ os) (hne : ref ≠ o) : D' o → o = i := by
  have C := S.checked
  intro hD'
  by_contra hoi
  have hpos := F.inv.pos o hD'
  have hop := mem_operands_of_narrowOps C ho
  have honce := ((F.inv.entered o hD').resolve_left hoi).2.1
  by_cases h1 : D o ∨ o = ref
  · rcases ((I.entered o (h1.resolve_right (Ne.symm hne))).resolve_left hoi).2.2 with rfl | ⟨p, hp, hpo, hpop⟩
    · have hi : o ∈ (base.insn i).operands := by
        rw [S.operands]
        exact List.mem_singleton_self _
      have := (honce.unique C hpos hi (Ne.symm hoi) hop hne).1
      exact hD (this ▸ I.start.1)
    · have := (honce.unique C hpos (mem_operands_of_narrowOps C hpop) hpo hop hne).1
      exact hD (this ▸ hp)
  · rcases F.fresh o hD' h1 with h | ⟨p, -, hp, hpo, hpop⟩
    · exact hos hpos h
    · have := (honce.unique C hpos (mem_operands_of_narrowOps C hpop) hpo hop hne).1
      exact hp (.inr this)

/-! ## Rewriting an instruction that is entered -/

/-- The instruction `use` is rewritten, and the use lists account for its operands. -/
theorem Frame.rewrite (F : Frame base type i root use os D V ctx D' V' ctx') (hD : D use) (hi : use ≠ i)
    {new : Insn} (hinsn : ctx''.insn = Function.update ctx'.insn use new) (hval : ctx''.val = ctx'.val)
    (hcount : ctx''.constsCount = ctx'.constsCount)
    (huses : ∀ w n, 0 < w → (ctx''.uses w).count n = if n = use then new.operands.count w else (ctx'.uses w).count n)
    (hnil : ∀ w, ctx'.uses w = [] → ctx''.uses w = []) :
    Frame base type i root use os D V ctx D' (Function.update V' use new.operands) ctx'' := by
  have I := F.inv
  have hother : ∀ m, m ≠ use → ctx''.insn m = ctx'.insn m := by
    intro m hm
    rw [hinsn, Function.update_of_ne hm]
  have hpos := I.pos use (F.mono use hD)
  refine ⟨⟨?_, ?_, ?_, I.pos, I.entered, ?_, ?_, ?_, ?_⟩, F.mono, F.reach, F.fresh, ?_, ?_, ?_, ?_⟩
  · intro w n hw
    rw [huses w n hw]
    split_ifs with h
    · rw [h, Function.update_self]
    · rw [Function.update_of_ne h, I.exact w n hw]
  · intro n hn hnot
    have hne : n ≠ use := by
      rintro rfl
      exact hnot (F.mono n hD)
    rw [hother n hne, Function.update_of_ne hne]
    exact (I.outside n hn hnot).imp id fun ⟨h1, h2, h3, h4, h5⟩ => ⟨h1, h2, h3, h4, hnil n h5⟩
  · intro n hn
    rw [Function.update_of_ne (by omega)]
    exact I.none n hn
  · exact ⟨I.start.1, by rw [hother i hi.symm, I.start.2]⟩
  · intro n hn hr
    rw [hother n (by omega), hval]
    exact I.consts n hn hr
  · rw [hcount]
    exact I.constsCount
  · intro n hn
    rw [hother n (by omega)]
    exact I.constOps n hn
  · intro m hm hne
    rw [hother m hne, Function.update_of_ne hne]
    exact F.keep m hm hne
  · intro m hm hnot
    obtain ⟨h1, h2, h3, h4, h5, h6⟩ := F.done m hm hnot
    have hne : m ≠ use := by
      rintro rfl
      exact hnot hD
    refine ⟨h1, h2, h3, h4.mono (hother m hne) (fun n hn _ => ⟨hother n (by omega), by rw [hval]⟩) hcount.ge, ?_, h6⟩
    rw [hother m hne, Function.update_of_ne hne, h5]
  · intro n hn hr
    rw [hother n (by omega), hval]
    exact F.consts n hn hr
  · rw [hcount]
    exact F.constsCount

/-- `Frame.rewrite` when the use lists stay. -/
theorem Frame.modify (F : Frame base type i root use os D V ctx D' V' ctx') (hD : D use) (hi : use ≠ i) (f : Insn → Insn)
    (hV : ∀ w, 0 < w → (f (ctx'.insn use)).operands.count w = (V' use).count w) :
    Frame base type i root use os D V ctx D' (Function.update V' use (f (ctx'.insn use)).operands)
      (ctx'.modify use f) := by
  refine F.rewrite hD hi rfl rfl rfl (fun w n hw => ?_) fun _ h => h
  show (ctx'.uses w).count n = _
  split_ifs with h
  · rw [h, hV w hw]
    exact F.inv.exact w use hw
  · rfl

/-- The instruction `ref` is entered. -/
theorem Ready.enter (R : Ready base type i root use ref D V ctx) (hpos : 0 < ref) (hby : ¬base.Bypassed type ref)
    (honce : base.Once ref) : Inv base type i root (fun m => D m ∨ m = ref) V ctx where
  exact := R.inv.exact
  outside n hn hnot := R.inv.outside n hn fun h => hnot (.inl h)
  none := R.inv.none
  pos n hn := hn.elim (R.inv.pos n) fun h => h ▸ hpos
  entered n hn := by
    rcases hn with hn | rfl
    · exact (R.inv.entered n hn).imp id fun ⟨h1, h2, h3⟩ =>
        ⟨h1, h2, h3.imp id fun ⟨p, hp, h⟩ => ⟨p, .inl hp, h⟩⟩
    · exact .inr ⟨hby, honce, R.operand.imp (·.2) fun h => ⟨use, .inl R.entered, R.ne, h⟩⟩
  start := ⟨.inl R.inv.start.1, R.inv.start.2⟩
  consts := R.inv.consts
  constsCount := R.inv.constsCount
  constOps := R.inv.constOps

/-- The instruction `ref` is left. -/
theorem Ready.leave (R : Ready base type i root use ref D V ctx) (hpos : 0 < ref) (hby : ¬base.Bypassed type ref)
    (hos : ∀ o ∈ os, o ∈ base.narrowOps ref ∧ ref ≠ o) (hall : ∀ o ∈ base.narrowOps ref, o ∈ os)
    (F : Frame base type i root ref os (fun m => D m ∨ m = ref) V ctx D' V' ctx')
    (hnar : base.Narrowed type ctx' ref) (hV : V' ref = (ctx'.insn ref).operands) :
    Walked base type i root use ref D V ctx ref D' V' ctx' where
  inv := F.inv
  mono m hm := F.mono m (.inl hm)
  reach o ho _ _ := F.mono o (.inr (List.mem_singleton.1 ho))
  fresh m hm hnot := by
    by_cases hmr : m = ref
    · exact .inl (hmr ▸ List.mem_singleton_self _)
    · rcases F.fresh m hm (not_or.2 ⟨hnot, hmr⟩) with h | ⟨p, hp, hnp, h⟩
      · exact .inr ⟨ref, F.mono ref (.inr rfl), R.fresh, (hos m h).2, (hos m h).1⟩
      · exact .inr ⟨p, hp, fun h => hnp (.inl h), h⟩
  keep m hm _ := F.keep m (.inl hm) fun h => R.fresh (h ▸ hm)
  done m hm hnot := by
    by_cases hmr : m = ref
    · subst hmr
      exact ⟨hpos, R.visited, hby, hnar, hV, fun o ho => F.reach o (hall o ho)⟩
    · exact F.done m hm (not_or.2 ⟨hnot, hmr⟩)
  consts := F.consts
  constsCount := F.constsCount
  slots := by
    rw [subst_self, List.map_id]
    exact (F.keep use (.inl R.entered) R.ne).1
  kept := (F.keep use (.inl R.entered) R.ne).2
  image := Ctx.Image.self hpos.le hby

/-! ## Constants -/

/-- What `ir_const` does: the constant is there, and all others still are. -/
structure Interned (ctx : Ctx) (val : Val) (type : IrType) (ref : ℤ) (ctx' : Ctx) : Prop where
  uses : ctx'.uses = ctx.uses
  neg : ref < 0
  range : -(ctx'.constsCount : ℤ) < ref
  op : (ctx'.insn ref).op = constOp type
  type_eq : (ctx'.insn ref).type = type
  val : ctx'.val ref = val
  insn : ∀ n, -(ctx.constsCount : ℤ) < n → ctx'.insn n = ctx.insn n ∧ ctx'.val n = ctx.val n
  consts : ∀ n, (ctx'.insn n).op = (ctx.insn n).op ∨ (ctx'.insn n).op = constOp type
  constsCount : ctx.constsCount ≤ ctx'.constsCount

theorem isConst_constOp (type : IrType) : isConst (constOp type) = true := by
  cases type <;> rfl

theorem Inv.interned (S : Start base type i root) (I : Inv base type i root D V ctx) (v : Val) :
    Interned ctx (narrowVal type v) type (ctx.const (narrowVal type v) type).1
      (ctx.const (narrowVal type v) type).2 := by
  have C := S.checked
  have hkept := I.constsCount
  have hthree := C.constsCount
  have htypes := S.types
  have hsize := IrType.size_le (base.insn root).type
  unfold Ctx.const
  by_cases hb : type = .bool
  · -- the two constants of `BOOL` are there from the start
    rw [if_pos hb]
    have hf := I.consts Consts.irFalse (by decide) (by simp only [Consts.irFalse]; omega)
    have ht := I.consts Consts.irTrue (by decide) (by simp only [Consts.irTrue]; omega)
    subst hb
    have hval : narrowVal .bool v = if u8 v ≠ 0 then 1 else 0 := rfl
    by_cases h : u8 v ≠ 0
    · rw [hval, if_pos h, if_pos (by decide : (1 : Val) ≠ 0)]
      exact ⟨rfl, by simp [Consts.irTrue], by simp [Consts.irTrue]; omega, by simp [ht.1, C.true_.1, constOp],
        by simp [ht.1, C.true_.2.1], by simp [ht.2, C.true_.2.2], fun _ _ => ⟨rfl, rfl⟩, fun _ => .inl rfl, le_rfl⟩
    · rw [hval, if_neg h, if_neg (not_not.2 rfl)]
      exact ⟨rfl, by simp [Consts.irFalse], by simp [Consts.irFalse]; omega, by simp [hf.1, C.false_.1, constOp],
        by simp [hf.1, C.false_.2.1], by simp [hf.2, C.false_.2.2], fun _ _ => ⟨rfl, rfl⟩, fun _ => .inl rfl, le_rfl⟩
  · rw [if_neg hb, if_neg]
    swap
    · rintro ⟨rfl, -⟩
      have : IrType.addr.size = 8 := rfl
      omega
    dsimp only
    split
    · -- the search finds it
      rename_i n hn
      have hp := List.find?_some hn
      have hmem := List.mem_of_find?_eq_some hn
      simp only [Bool.and_eq_true, decide_eq_true_eq] at hp
      rw [List.mem_range] at hmem
      have h0 : n ≠ 0 := by
        rintro rfl
        have hzero := (I.consts 0 le_rfl (by omega)).1
        have hp := hp.1.1
        rw [Nat.cast_zero, neg_zero, hzero, C.zero] at hp
        obtain ⟨⟨hint, hvoid⟩, -⟩ := htypes
        cases type <;> simp [constOp] at hp
        exact hvoid rfl
      exact ⟨rfl, by dsimp only; omega, by dsimp only; omega, hp.1.1, hp.1.2, hp.2, fun _ _ => ⟨rfl, rfl⟩, fun _ => .inl rfl, le_rfl⟩
    · refine ⟨rfl, by omega, by push_cast; omega, by simp [constInsn], by simp [constInsn], by simp, fun n hn => ?_,
        fun n => ?_, Nat.le_succ _⟩
      · exact ⟨Function.update_of_ne (by omega) _ _, Function.update_of_ne (by omega) _ _⟩
      · by_cases h : n = -(ctx.constsCount : ℤ)
        · right
          simp [h, constInsn]
        · left
          simp only [Function.update_of_ne h]

theorem Ready.const_walked (S : Start base type i root) (R : Ready base type i root use ref D V ctx) (hneg : ref < 0) :
    Walked base type i root use ref D V ctx (ctx.const (narrowVal type (ctx.val ref)) type).1 D
      (Function.update V use ((V use).map (subst ref (ctx.const (narrowVal type (ctx.val ref)) type).1)))
      (ctx.const (narrowVal type (ctx.val ref)) type).2 := by
  have C := S.checked
  have I := R.inv
  have N := I.interned S (ctx.val ref)
  have hrange : -(base.constsCount : ℤ) < ref := by
    rcases R.operand with ⟨-, rfl⟩ | h
    · refine C.range i _ ?_
      rw [operands_ext C (by rw [S.op]; rfl), S.root_eq]
      exact List.mem_singleton_self _
    · exact C.range use _ (mem_operands_of_narrowOps C h)
  have hval := (I.consts ref hneg.le hrange).2
  have hcount := I.constsCount
  have hinsn : ∀ n, 0 ≤ n → (ctx.const (narrowVal type (ctx.val ref)) type).2.insn n = ctx.insn n := by
    intro n hn
    have := C.constsCount
    exact (N.insn n (by omega)).1
  have hsame : ∀ w n, 0 < w → (Function.update V use ((V use).map
      (subst ref (ctx.const (narrowVal type (ctx.val ref)) type).1)) n).count w = (V n).count w := by
    intro w n hw
    by_cases h : n = use
    · rw [h, Function.update_self]
      exact count_map_subst _ hw (.inr (.inr ⟨hneg, N.neg⟩))
    · rw [Function.update_of_ne h]
  refine ⟨⟨⟨?_, ?_, ?_, I.pos, I.entered, ?_, ?_, ?_, ?_⟩, fun _ h => h, fun o ho hpos => ?_,
    fun _ h h' => absurd h h', ?_, fun _ h h' => absurd h h', ?_, N.constsCount⟩, ?_, ?_, ?_⟩
  · intro w n hw
    rw [N.uses, hsame w n hw]
    exact I.exact w n hw
  · intro n hn hnot
    have hne : n ≠ use := by
      rintro rfl
      exact hnot R.entered
    rw [hinsn n hn.le, N.uses, Function.update_of_ne hne]
    exact I.outside n hn hnot
  · intro n hn
    have := I.pos use R.entered
    rw [Function.update_of_ne (by omega)]
    exact I.none n hn
  · exact ⟨I.start.1, by rw [hinsn i S.pos.le, I.start.2]⟩
  · intro n hn hr
    obtain ⟨h1, h2⟩ := N.insn n (by omega)
    rw [h1, h2]
    exact I.consts n hn hr
  · exact I.constsCount.trans N.constsCount
  · intro n hn
    rcases N.consts n with h | h
    · rw [h]
      exact I.constOps n hn
    · rw [h]
      exact isConst_constOp type
  · rw [List.mem_singleton.1 ho] at hpos
    omega
  · intro m hm hne
    rw [Function.update_of_ne hne, hinsn m (I.pos m hm).le]
    exact ⟨rfl, rfl⟩
  · intro n _ hr
    exact N.insn n hr
  · rw [Function.update_self]
  · exact hinsn use (I.pos use R.entered).le
  · unfold Ctx.Image
    rw [if_pos hneg]
    exact ⟨N.neg, N.range, N.op, N.type_eq, by rw [N.val, hval]⟩

/-! ## Extensions and truncations -/

theorem Ready.type_eq (S : Start base type i root) (R : Ready base type i root use ref D V ctx) (hpos : 0 < ref)
    (hext : isExt (base.insn ref).op = true) :
    (ctx.insn (base.insn ref).op1).type = (base.insn (base.insn ref).op1).type := by
  have hops := operands_ext S.checked hext
  rw [R.inv.operand_eq S R.fresh (R.insn_eq hpos).2 (by rw [hops]; exact List.mem_singleton_self _)]

/-- An extension or truncation of a value that is not narrow. -/
theorem Ready.ext_walked (S : Start base type i root) (R : Ready base type i root use ref D V ctx) (hpos : 0 < ref)
    (hext : isExt (base.insn ref).op = true) (hsrc : (base.insn (base.insn ref).op1).type ≠ type)
    (honce : base.Once ref) : ∃ ctx', ctx.promoteExt type ref use = some (ref, ctx') ∧
      ∃ D' V', Walked base type i root use ref D V ctx ref D' V' ctx' := by
  have hby : ¬base.Bypassed type ref := fun h => hsrc h.2.2
  obtain ⟨hinsn, hV⟩ := R.insn_eq hpos
  have hty := R.type_eq S hpos hext
  unfold Ctx.promoteExt
  dsimp only
  rw [hinsn, hty, if_pos hsrc]
  have hi : ref ≠ i := fun h => R.fresh (h ▸ R.inv.start.1)
  have F := (Frame.refl ref (R.enter hpos hby honce)).modify (.inr rfl) hi
    (fun insn => { insn with op := Ctx.extOp type (base.insn (base.insn ref).op1).type insn.op, type := type })
    (fun w _ => by rw [hV, hinsn]; rfl)
  refine ⟨_, rfl, _, _, R.leave hpos hby (fun o ho => absurd ho List.not_mem_nil) (fun o ho => ?_) F (.ext hext hsrc ?_ ?_ ?_) ?_⟩
  · rw [narrowOps_ext hext] at ho
    exact absurd ho List.not_mem_nil
  · rw [Ctx.modify_self, hinsn]
  · rw [Ctx.modify_self]
  · rw [Ctx.modify_self, hinsn]
    rfl
  · rw [Ctx.modify_self, Function.update_self]

/-- What is left when the value `x` takes the place of the extension `ref` at `use`, and the extension goes when
`use` was its only use. -/
theorem Ready.bypass_of (S : Start base type i root) (R : Ready base type i root use ref D V ctx)
    (hby : base.Bypassed type ref) {x : ℤ} (hx : (base.insn ref).op1 = x) (hx0 : 0 < x) {G : Prop} [Decidable G]
    (hgone : G ↔ (ctx.uses ref).filter (· ≠ use) = [])
    (hinsn : ∀ m, ctx'.insn m = if m = ref ∧ G then (ctx.insn m).makeNop else ctx.insn m)
    (hval : ctx'.val = ctx.val) (hcount : ctx'.constsCount = ctx.constsCount)
    (href : ctx'.uses ref = (ctx.uses ref).filter (· ≠ use))
    (huses : ∀ n, (ctx'.uses x).count n = if n = ref ∧ G then (ctx.uses x).count n - 1
      else if n = use then (ctx.uses x).count n + (V use).count ref else (ctx.uses x).count n)
    (hother : ∀ w, w ≠ ref → w ≠ x → ctx'.uses w = ctx.uses w) :
    ∃ V', Walked base type i root use ref D V ctx x D V' ctx' := by
  obtain ⟨hpos, hext, hsrc⟩ := hby
  have C := S.checked
  have I := R.inv
  obtain ⟨hinsnref, hV⟩ := R.insn_eq hpos
  have himage : ∀ c : Ctx, base.Image type c ref x := by
    intro c
    unfold Ctx.Image
    rw [if_neg (not_lt.2 hpos.le)]
    exact .inl ⟨⟨hpos, hext, hsrc⟩, hx.symm⟩
  have hxby := (himage ctx).not_bypassed C
  have hne : ref ≠ x := by
    rintro rfl
    exact hxby ⟨hpos, hext, hsrc⟩
  have hVx : V ref = [x] := by rw [hV, operands_ext C hext, hx]
  have hsame : ∀ m, D m → ctx'.insn m = ctx.insn m := by
    intro m hm
    rw [hinsn, if_neg]
    rintro ⟨rfl, -⟩
    exact R.fresh hm
  refine ⟨fun n => if n = ref ∧ G then [] else if n = use then (V use).map (subst ref x) else V n,
    ⟨⟨⟨?_, ?_, ?_, I.pos, I.entered, ⟨I.start.1, by rw [hsame i I.start.1, I.start.2]⟩, ?_, ?_, ?_⟩, fun _ h => h,
      fun o ho _ hnot => ?_, fun _ h h' => absurd h h', ?_, fun _ h h' => absurd h h', ?_, hcount.ge⟩, ?_, hsame use R.entered, himage ctx'⟩⟩
  · intro w n hw
    by_cases hwref : w = ref
    · -- the uses of the extension
      subst hwref
      rw [href]
      by_cases hnu : n = use
      · subst hnu
        rw [if_neg (fun h => R.ne h.1), if_pos rfl, count_map_subst_eq _ hne, if_pos rfl, List.count_eq_zero]
        simp
      · rw [List.count_filter (by simpa using hnu), I.exact w n hw, if_neg hnu]
        split_ifs with h
        · rw [h.1, hVx]
          simp [hne.symm]
        · rfl
    by_cases hwx : w = x
    · -- the uses of the value
      subst hwx
      rw [huses, I.exact w n hw]
      split_ifs with h h'
      · rw [h.1, hVx]
        simp
      · rw [h', count_map_subst_eq _ hne, if_neg hwref, if_pos rfl]
      · rfl
    · rw [hother w hwref hwx, I.exact w n hw]
      split_ifs with h h'
      · rw [h.1, hVx]
        simp [Ne.symm hwx]
      · rw [h', count_map_subst_eq _ hne, if_neg hwref, if_neg hwx]
      · rfl
  · intro n hn hnot
    have hnu : n ≠ use := by
      rintro rfl
      exact hnot R.entered
    rw [hinsn, if_neg hnu]
    by_cases hg : n = ref ∧ G
    · obtain ⟨rfl, hg⟩ := hg
      rw [if_pos ⟨rfl, hg⟩, if_pos ⟨rfl, hg⟩, href, hinsnref]
      exact .inr ⟨⟨hpos, hext, hsrc⟩, R.visited, rfl, rfl, hgone.1 hg⟩
    · rw [if_neg hg, if_neg hg]
      refine (I.outside n hn hnot).imp id fun ⟨h1, h1', h2, h3, h4⟩ => ⟨h1, h1', h2, h3, ?_⟩
      have hnx : n ≠ x := by
        rintro rfl
        exact hxby h1
      by_cases hnr : n = ref
      · rw [hnr, href, ← hnr, h4]
        rfl
      · rw [hother n hnr hnx, h4]
  · intro n hn
    have := I.pos use R.entered
    rw [if_neg (by rintro ⟨rfl, -⟩; omega), if_neg (by omega)]
    exact I.none n hn
  · intro n hn hr
    rw [hinsn, if_neg (by rintro ⟨rfl, -⟩; omega), hval]
    exact I.consts n hn hr
  · rw [hcount]
    exact I.constsCount
  · intro n hn
    rw [hinsn, if_neg (by rintro ⟨rfl, -⟩; omega)]
    exact I.constOps n hn
  · rw [List.mem_singleton.1 ho] at hnot
    exact absurd ⟨hpos, hext, hsrc⟩ hnot
  · intro m hm hmu
    refine ⟨?_, hsame m hm⟩
    rw [if_neg, if_neg hmu]
    rintro ⟨rfl, -⟩
    exact R.fresh hm
  · intro n hn _
    rw [hinsn, if_neg (by rintro ⟨rfl, -⟩; omega), hval]
    exact ⟨rfl, rfl⟩
  · rw [if_neg (fun h => R.ne h.1), if_pos rfl]

/-- An extension of a narrow value. -/
theorem Ready.bypass_walked (S : Start base type i root) (R : Ready base type i root use ref D V ctx)
    (hby : base.Bypassed type ref) : ∃ ctx', ctx.promoteExt type ref use = some ((base.insn ref).op1, ctx') ∧
      ∃ V', Walked base type i root use ref D V ctx (base.insn ref).op1 D V' ctx' := by
  have C := S.checked
  obtain ⟨hinsn, hV⟩ := R.insn_eq hby.1
  have hty := R.type_eq S hby.1 hby.2.1
  have hx := S.separate.operand ref R.visited hby
  have hne : (base.insn ref).op1 ≠ ref := by
    intro h
    have hsize := (C.ext _ hby.2.1).2.2
    rw [h] at hsize
    split_ifs at hsize <;> exact lt_irrefl _ hsize
  have hk : (ctx.uses ref).count use = (V use).count ref := R.inv.exact ref use hby.1
  have hk1 : 0 < (V use).count ref := List.count_pos_iff.2 R.slot
  have hlen : (ctx.uses ref).length = (V use).count ref + ((ctx.uses ref).filter (· ≠ use)).length := by
    rw [← hk, List.length_eq_countP_add_countP (· == use), ← List.countP_eq_length_filter]
    congr 2
    funext a
    simp
  unfold Ctx.promoteExt
  dsimp only
  rw [hinsn, hty, if_neg (not_not.2 hby.2.2), if_neg (by simpa [isConstRef] using hx.le)]
  have hself : ((ctx.useListRemoveAll ref use).uses ref) = (ctx.uses ref).filter (· ≠ use) :=
    Function.update_self _ _ _
  have hother : ∀ w, w ≠ ref → (ctx.useListRemoveAll ref use).uses w = ctx.uses w :=
    fun w hw => Function.update_of_ne hw _ _
  rw [hself]
  by_cases hnil : (ctx.uses ref).filter (· ≠ use) = []
  · -- the extension goes, and `use` takes its place among the uses of the value
    have hmem : ref ∈ ctx.uses (base.insn ref).op1 := by
      rw [← List.count_pos_iff, R.inv.exact _ _ hx, hV, operands_ext C hby.2.1]
      simp
    rw [if_pos (by rw [hnil]; rfl)]
    refine ⟨_, rfl, R.bypass_of S hby rfl hx (G := True) (iff_of_true trivial hnil) (fun m => ?_) rfl rfl ?_ (fun n => ?_) ?_⟩
    · by_cases hm : m = ref
      · rw [if_pos ⟨hm, trivial⟩, hm]
        exact Function.update_self _ _ _
      · rw [if_neg fun h => hm h.1]
        exact Function.update_of_ne hm _ _
    · simp only [Ctx.modify, Ctx.useListAdd, Ctx.useListReplaceOne, Ctx.setUses, Function.update_of_ne hne.symm]
      exact hself
    · simp only [Ctx.modify, Ctx.useListAdd, Ctx.useListReplaceOne, Ctx.setUses, Function.update_self]
      rw [List.count_append, hother _ hne, List.count_replace,
        if_pos (List.contains_iff_mem.2 hmem), List.count_replicate, hlen, hnil]
      have := R.ne
      by_cases hn : n = ref
      · subst hn
        simp [this]
      · by_cases hu : n = use
        · subst hu
          simp [hn, Ne.symm hn]
          omega
        · simp [hn, hu, Ne.symm hn, Ne.symm hu]
    · intro w hw hwx
      simp only [Ctx.modify, Ctx.useListAdd, Ctx.useListReplaceOne, Ctx.setUses, Function.update_of_ne hwx]
      exact hother w hw
  · rw [if_neg (by rwa [List.length_eq_zero_iff])]
    refine ⟨_, rfl, R.bypass_of S hby rfl hx (G := False) (iff_of_false id hnil) (fun m => ?_) rfl rfl ?_
      (fun n => ?_) ?_⟩
    · rw [if_neg (fun h => h.2)]
      rfl
    · simp only [Ctx.useListAdd, Ctx.setUses, Function.update_of_ne hne.symm]
      exact hself
    · simp only [Ctx.useListAdd, Ctx.setUses, Function.update_self]
      rw [List.count_append, List.count_append, hother _ hne, List.count_replicate, List.count_replicate, hlen]
      by_cases hu : n = use
      · subst hu
        simp
        omega
      · simp [hu, Ne.symm hu]
    · intro w hw hwx
      simp only [Ctx.useListAdd, Ctx.setUses, Function.update_of_ne hwx]
      exact hother w hw

end IrJit.Narrow
