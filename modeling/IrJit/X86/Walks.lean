import IrJit.X86.Assign

/-!
# X86.Walks — the walks of the caller and the callee compute the same slots

Unless structures are passed by reference, every walk goes through the counters of `assign`, up to the
area for registers that only the caller counts.
-/

namespace IrJit.X86

variable {cc : CallConvDsc} {s t : Counters} {a : Arg} {args : List Arg} {j : ℕ} {sp entry : ℤ}
  {f : Frame}

/-- The argument is no structure that is passed by reference. -/
def NoRef (cc : CallConvDsc) (a : Arg) : Prop := cc.passStructByVal = true ∨ a.argval = none

theorem NoRef.not_ref {p : ℕ × ℕ} (h : NoRef cc a) (ha : a.argval = some p)
    (hv : cc.passStructByVal = false) : False := by
  rcases h with h | h
  · rw [h] at hv
    cases hv
  · rw [h] at ha
    cases ha

/-- A structure without bytes, passed by value: nothing is moved. -/
def Arg.isEmpty (cc : CallConvDsc) (a : Arg) : Bool :=
  cc.passStructByVal && a.argval.any fun p => p.1 = 0

/-! ## The caller -/

/-- An argument is moved in exactly one of the two passes. -/
theorem moves_spec (cc : CallConvDsc) (sp : ℤ) (a : Arg) (dst : Option Reg) (s : Counters) :
    (pass1Move cc sp a dst s).1 = (assignValue dst s).1 ∧
      (pass3Move cc sp a dst s).1 = (assignValue dst s).1 ∧
      (((pass1Move cc sp a dst s).2 = (some ((assignValue dst s).2.loc sp), false) ∧
        (pass3Move cc sp a dst s).2 = none) ∨
      ((pass1Move cc sp a dst s).2 = (none, true) ∧
        (pass3Move cc sp a dst s).2 = some ((assignValue dst s).2.loc sp))) := by
  cases dst with
  | some r =>
    unfold pass1Move pass3Move assignValue
    cases a.isLoaded cc
    · exact ⟨rfl, rfl, Or.inl ⟨rfl, rfl⟩⟩
    · exact ⟨rfl, rfl, Or.inr ⟨rfl, rfl⟩⟩
  | none =>
    unfold pass1Move pass3Move assignValue
    dsimp only
    rw [slot_pos]
    cases a.isStored
    · exact ⟨rfl, rfl, Or.inr ⟨rfl, rfl⟩⟩
    · exact ⟨rfl, rfl, Or.inl ⟨rfl, rfl⟩⟩

/-- What the two passes do with an argument whose slot is `x`. -/
inductive Moved (sp : ℤ) (x : Slot) (o1 : Option Loc × Bool) (o3 : Option Loc) : Prop
  | first (h1 : o1.1 = some (x.loc sp)) (h3 : o3 = none)
  | third (h1 : o1 = (none, true)) (h3 : o3 = some (x.loc sp))
  | empty (o : ℕ) (hx : x = .stack o 0) (h1 : o1.1 = none) (h3 : o3 = none)

theorem moved_value (cc : CallConvDsc) (sp : ℤ) (a : Arg) (dst : Option Reg) (s : Counters) :
    Moved sp (assignValue dst s).2 (pass1Move cc sp a dst s).2 (pass3Move cc sp a dst s).2 := by
  obtain ⟨-, -, ⟨h1, h3⟩ | ⟨h1, h3⟩⟩ := moves_spec cc sp a dst s
  · exact .first (by rw [h1]) h3
  · exact .third h1 h3

theorem pass3Step_fst (sp : ℤ) (s : Counters) (a : Arg) :
    (pass3Step cc sp s a).1 = (assign cc s a).1 := by
  cases argKind cc a with
  | struct size align ht ha hv => simp only [pass3Step, assign, ht, ha, hv, if_true]
  | ref size align ht ha hv =>
    simp only [pass3Step, assign, ht, ha, hv, if_true, Bool.false_eq_true, if_false]
    cases cc.intParamRegs[s.intParam]? <;> rfl
  | int ht ha =>
    simp only [pass3Step, assign, ht, ha, if_true]
    exact (moves_spec cc sp a _ _).2.1
  | fp ht ha =>
    simp only [pass3Step, assign, ht, Bool.false_eq_true, if_false]
    exact (moves_spec cc sp a _ _).2.1

theorem pass1Step_fst (h : NoRef cc a) (sp : ℤ) (s : Counters) :
    (pass1Step cc sp s a).1 = (assign cc s a).1 := by
  cases argKind cc a with
  | struct size align ht ha hv => simp only [pass1Step, assign, ht, ha, hv, if_true]
  | ref size align ht ha hv => exact (h.not_ref ha hv).elim
  | int ht ha =>
    simp only [pass1Step, assign, ht, ha, if_true]
    exact (moves_spec cc sp a _ _).1
  | fp ht ha =>
    simp only [pass1Step, assign, ht, Bool.false_eq_true, if_false]
    exact (moves_spec cc sp a _ _).1

theorem moved_step (h : NoRef cc a) (sp : ℤ) (s : Counters) :
    Moved sp (assign cc s a).2 (pass1Step cc sp s a).2 (pass3Step cc sp s a).2 := by
  cases argKind cc a with
  | struct size align ht ha hv =>
    simp only [pass1Step, pass3Step, assign, ht, ha, hv, if_true]
    by_cases hs : size = 0
    · subst hs
      exact .empty _ rfl rfl rfl
    · exact .first (if_pos hs) rfl
  | ref size align ht ha hv => exact (h.not_ref ha hv).elim
  | int ht ha =>
    simp only [pass1Step, pass3Step, assign, ht, ha, if_true]
    exact moved_value cc sp a _ _
  | fp ht ha =>
    simp only [pass1Step, pass3Step, assign, ht, Bool.false_eq_true, if_false]
    exact moved_value cc sp a _ _

theorem pass1_getElem? (sp : ℤ) (h : ∀ a ∈ args, NoRef cc a) (hj : args[j]? = some a) :
    (pass1 cc sp args)[j]? = some (pass1Step cc sp (assigned cc args j) a).2 := by
  have hstate : endState (pass1Step cc sp) (startCounters cc) (args.take j) =
      assigned cc args j := by
    refine Walk.endState_rel (R := Eq) ?_ rfl
    rintro s _ b hb rfl
    exact pass1Step_fst (h b (List.mem_of_mem_take hb)) sp s
  rw [pass1, Walk.getElem?_walk, hj, hstate]
  rfl

theorem pass3_getElem? (cc : CallConvDsc) (sp : ℤ) (hj : args[j]? = some a) :
    (pass3 cc sp args)[j]? = some (pass3Step cc sp (assigned cc args j) a).2 := by
  have hstate : endState (pass3Step cc sp) (startCounters cc) (args.take j) =
      assigned cc args j := by
    refine Walk.endState_rel (R := Eq) ?_ rfl
    rintro s _ b - rfl
    exact pass3Step_fst sp s b
  rw [pass3, Walk.getElem?_walk, hj, hstate]
  rfl

/-- The caller leaves an argument in its slot, in one of the passes. -/
theorem argLoc_eq (sp : ℤ) (h : ∀ a ∈ args, NoRef cc a) (hj : args[j]? = some a) :
    argLoc cc sp args j = some ((slot cc args j a).loc sp) ∨
      (argLoc cc sp args j = none ∧ ∃ o, slot cc args j a = .stack o 0) := by
  have hm := moved_step (h a (List.mem_of_getElem? hj)) sp (assigned cc args j)
  have h1 := pass1_getElem? sp h hj
  have h3 := pass3_getElem? cc sp hj
  unfold argLoc
  rw [h1, h3]
  cases hm with
  | first hm1 hm3 =>
    left
    rw [Option.bind_some, hm1]
    rfl
  | third hm1 hm3 =>
    -- the first pass has set `do_pass3`
    have hdo : doPass3 cc sp args = true := by
      unfold doPass3
      rw [List.any_eq_true]
      exact ⟨_, List.mem_of_getElem? h1, by rw [hm1]⟩
    left
    rw [hdo, Option.bind_some, hm1, Option.join_some, hm3]
    rfl
  | empty o hx hm1 hm3 =>
    right
    refine ⟨?_, o, hx⟩
    rw [Option.bind_some, hm1, Option.join_some, hm3, ite_self]
    rfl

/-! ## The area of a call -/

/-- Counters that lag behind by the area for registers. -/
def Lags (cc : CallConvDsc) (s t : Counters) : Prop :=
  s.intParam = t.intParam ∧ s.fpParam = t.fpParam ∧ s.stackOffset = t.stackOffset + cc.shadowStoreSize

theorem Lags.nextInt (h : Lags cc s t) : Lags cc (s.nextInt cc) (t.nextInt cc) := by
  obtain ⟨h1, h2, h3⟩ := h
  refine ⟨?_, ?_, h3⟩
  · rw [nextInt_intParam, nextInt_intParam, h1]
  · show s.fpParam + _ = t.fpParam + _
    rw [h2]

theorem Lags.nextFp (h : Lags cc s t) : Lags cc (s.nextFp cc) (t.nextFp cc) := by
  obtain ⟨h1, h2, h3⟩ := h
  refine ⟨?_, ?_, h3⟩
  · show s.intParam + _ = t.intParam + _
    rw [h1]
  · rw [nextFp_fpParam, nextFp_fpParam, h2]

theorem Lags.push (h : Lags cc s t) (n : ℕ) : Lags cc (s.push n) (t.push n) := by
  obtain ⟨h1, h2, h3⟩ := h
  refine ⟨h1, h2, ?_⟩
  show s.stackOffset + n = t.stackOffset + n + _
  omega

theorem Lags.structOffset (hcc : Regular cc) (hv : cc.passStructByVal = true) (h : Lags cc s t)
    (align : ℕ) : s.structOffset align = t.structOffset align := by
  have h3 := h.2.2
  rw [hcc.shadow hv] at h3
  unfold Counters.structOffset
  rw [h3]
  rfl

theorem Lags.pushStruct (hcc : Regular cc) (hv : cc.passStructByVal = true) (h : Lags cc s t)
    (size align : ℕ) : Lags cc (s.pushStruct size align) (t.pushStruct size align) := by
  refine ⟨h.1, h.2.1, ?_⟩
  show alignedSize (s.structOffset align + size) 8 = alignedSize (t.structOffset align + size) 8 + _
  rw [h.structOffset hcc hv, hcc.shadow hv, Nat.add_zero]

theorem Lags.assignValue (h : Lags cc s t) (dst : Option Reg) :
    Lags cc (assignValue dst s).1 (assignValue dst t).1 := by
  cases dst with
  | some r => exact h
  | none => exact h.push 8

/-- A register that is left, or eight bytes. -/
theorem push_of_length (l : List Reg) (n : ℕ) (ty : IrType) (s s' : Counters)
    (hs : s'.stackOffset = s.stackOffset) :
    (if n ≥ l.length then s.push (max 8 ty.size) else s).stackOffset =
      (assignValue l[n]? s').1.stackOffset := by
  rw [slot_pos]
  split_ifs with h
  · rw [List.getElem?_eq_none h]
    show s.stackOffset + 8 = s'.stackOffset + 8
    rw [hs]
  · rw [List.getElem?_eq_getElem (Nat.lt_of_not_le h)]
    exact hs.symm

theorem assignValue_params (dst : Option Reg) (s : Counters) :
    (X86.assignValue dst s).1.intParam = s.intParam ∧
      (X86.assignValue dst s).1.fpParam = s.fpParam := by
  cases dst <;> exact ⟨rfl, rfl⟩

theorem usedStackStep_spec (hcc : Regular cc) (h : NoRef cc a) {u : UsedStack}
    (hu : Lags cc s u.toCounters ∧ u.copyStack = 0) :
    Lags cc (assign cc s a).1 (usedStackStep cc u a).1.toCounters ∧
      (usedStackStep cc u a).1.copyStack = 0 := by
  obtain ⟨hl, hcopy⟩ := hu
  cases argKind cc a with
  | struct size align ht ha hv =>
    simp only [usedStackStep, assign, ht, ha, hv, if_true, not_true_eq_false, if_false]
    exact ⟨hl.pushStruct hcc hv size align, hcopy⟩
  | ref size align ht ha hv => exact (h.not_ref ha hv).elim
  | int ht ha =>
    simp only [usedStackStep, assign, ht, ha, if_true]
    refine ⟨?_, hcopy⟩
    have hpush := push_of_length cc.intParamRegs u.intParam a.type u.toCounters (u.nextInt cc) rfl
    have hval := hl.nextInt.assignValue cc.intParamRegs[s.intParam]?
    rw [hl.1] at hval ⊢
    obtain ⟨h1, h2, h3⟩ := hval
    obtain ⟨p1, p2⟩ := assignValue_params cc.intParamRegs[u.intParam]? (u.nextInt cc)
    rw [p1] at h1
    rw [p2] at h2
    rw [← hpush] at h3
    refine ⟨h1.trans ?_, h2.trans ?_, h3⟩
    · split_ifs <;> rfl
    · split_ifs <;> rfl
  | fp ht ha =>
    simp only [usedStackStep, assign, ht, Bool.false_eq_true, if_false]
    refine ⟨?_, hcopy⟩
    have hpush := push_of_length cc.fpParamRegs u.fpParam a.type u.toCounters (u.nextFp cc) rfl
    have hval := hl.nextFp.assignValue cc.fpParamRegs[s.fpParam]?
    rw [hl.2.1] at hval ⊢
    obtain ⟨h1, h2, h3⟩ := hval
    obtain ⟨p1, p2⟩ := assignValue_params cc.fpParamRegs[u.fpParam]? (u.nextFp cc)
    rw [p1] at h1
    rw [p2] at h2
    rw [← hpush] at h3
    refine ⟨h1.trans ?_, h2.trans ?_, h3⟩
    · split_ifs <;> rfl
    · split_ifs <;> rfl

/-- The area of a call ends with the last argument. -/
theorem callUsedStack_eq (hcc : Regular cc) (h : ∀ a ∈ args, NoRef cc a) :
    callUsedStack cc args = stackBytes cc args ∧ copyStack cc args = 0 := by
  have hrel : Lags cc (endState (assign cc) (startCounters cc) args)
      (usedStackEnd cc args).toCounters ∧ (usedStackEnd cc args).copyStack = 0 := by
    refine Walk.endState_rel
      (R := fun s (u : UsedStack) => Lags cc s u.toCounters ∧ u.copyStack = 0) ?_ ?_
    · intro s u a ha hu
      exact usedStackStep_spec hcc (h a ha) hu
    · exact ⟨⟨rfl, rfl, (Nat.zero_add _).symm⟩, rfl⟩
  obtain ⟨⟨-, -, hoff⟩, hcopy⟩ := hrel
  have hc0 : copyStack cc args = 0 := by
    unfold copyStack
    rw [hcopy]
    rfl
  refine ⟨?_, hc0⟩
  unfold callUsedStack stackBytes
  rw [hoff, hc0, Nat.add_zero]

/-! ## The callee -/

/-- The address that goes with the offset zero of the caller. -/
def calleeSp (cc : CallConvDsc) (entry : ℤ) : ℤ := entry + 8 - cc.shadowStoreSize

theorem address_of_lags (f : Frame) (entry : ℤ) (h : Lags cc s t) :
    f.address entry (f.stackStart + t.stackOffset) = calleeSp cc entry + s.stackOffset := by
  have h3 := h.2.2
  rw [f.address_stackStart]
  unfold calleeSp
  omega

/-- The alignment of a structure that is stored in `value_params`. -/
theorem max_align (align : ℕ) : max 8 (if align = 0 then 1 else align) = max 8 align := by
  split_ifs with h
  · rw [h]
    rfl
  · rfl

theorem structOffset_param (s : Counters) (align : ℕ) :
    s.structOffset (if align = 0 then 1 else align) = s.structOffset align := by
  unfold Counters.structOffset
  rw [max_align]

theorem pushStruct_param (s : Counters) (size align : ℕ) :
    s.pushStruct size (if align = 0 then 1 else align) = s.pushStruct size align := by
  unfold Counters.pushStruct
  rw [structOffset_param]

/-- The address of a slot on the stack. -/
def Slot.address (sp : ℤ) : Slot → Option ℤ
  | .reg _ => none
  | .stack offset _ => some (sp + offset)

/-- The register of a slot. -/
def Slot.reg? : Slot → Option Reg
  | .reg r => some r
  | .stack _ _ => none

theorem loadValue_spec (f : Frame) (entry : ℤ) (h : Lags cc s t) (dst : Option Reg) :
    Lags cc (assignValue dst s).1 (loadValue f entry dst t).1 ∧
      (loadValue f entry dst t).2 = some ((assignValue dst s).2.loc (calleeSp cc entry)) := by
  cases dst with
  | some r => exact ⟨h, rfl⟩
  | none =>
    refine ⟨h.push 8, ?_⟩
    unfold loadValue
    rw [address_of_lags f entry h]
    rfl

theorem fixValue_spec (f : Frame) (entry : ℤ) (h : Lags cc s t) (dst : Option Reg) :
    Lags cc (assignValue dst s).1 (fixValue f entry dst t).1 ∧
      (fixValue f entry dst t).2 = (assignValue dst s).2.address (calleeSp cc entry) := by
  cases dst with
  | some r => exact ⟨h, rfl⟩
  | none =>
    refine ⟨h.push 8, ?_⟩
    unfold fixValue
    rw [address_of_lags f entry h]
    rfl

theorem loadParamStep_spec (hcc : Regular cc) (hn : NoRef cc a) (h : Lags cc s t) :
    Lags cc (assign cc s a).1 (loadParamStep cc f entry t a.param).1 ∧
      (loadParamStep cc f entry t a.param).2 =
        if a.argval.isSome then none else some ((assign cc s a).2.loc (calleeSp cc entry)) := by
  cases argKind cc a with
  | struct size align ht ha hv =>
    simp only [loadParamStep, Arg.param, assign, ht, ha, hv, if_true, Option.map_some,
      pushStruct_param, Option.isSome_some, and_true]
    exact h.pushStruct hcc hv size align
  | ref size align ht ha hv => exact (hn.not_ref ha hv).elim
  | int ht ha =>
    simp only [loadParamStep, Arg.param, assign, ht, ha, if_true, Option.map_none, h.1,
      Option.isSome_none, Bool.false_eq_true, if_false]
    exact loadValue_spec f entry h.nextInt _
  | fp ht ha =>
    simp only [loadParamStep, Arg.param, assign, ht, ha, h.2.1, Option.isSome_none,
      Bool.false_eq_true, if_false]
    exact loadValue_spec f entry h.nextFp _

theorem fixSpillStep_spec (hcc : Regular cc) (h : Lags cc s t) :
    Lags cc (assign cc s a).1 (fixSpillStep cc f entry t a.param).1 ∧
      (fixSpillStep cc f entry t a.param).2 = (assign cc s a).2.address (calleeSp cc entry) := by
  cases argKind cc a with
  | struct size align ht ha hv =>
    simp only [fixSpillStep, Arg.param, assign, ht, ha, hv, if_true, Option.map_some,
      pushStruct_param, structOffset_param, f.address_stackStart]
    refine ⟨h.pushStruct hcc hv size align, ?_⟩
    rw [← h.structOffset hcc hv]
    unfold Slot.address calleeSp
    rw [hcc.shadow hv]
    simp
  | ref size align ht ha hv =>
    simp only [fixSpillStep, Arg.param, assign, ht, ha, hv, if_true, Option.map_some, h.1,
      Bool.false_eq_true, if_false]
    exact fixValue_spec f entry h.nextInt _
  | int ht ha =>
    simp only [fixSpillStep, Arg.param, assign, ht, ha, if_true, Option.map_none, h.1]
    exact fixValue_spec f entry h.nextInt _
  | fp ht ha =>
    simp only [fixSpillStep, Arg.param, assign, ht, h.2.1, Bool.false_eq_true, if_false]
    exact fixValue_spec f entry h.nextFp _

theorem start_lags (cc : CallConvDsc) : Lags cc (startCounters cc) ⟨0, 0, 0⟩ :=
  ⟨rfl, rfl, (Nat.zero_add _).symm⟩

/-- The walk of `ir_emit_load_params` goes through the slots, from the callee's side. -/
theorem loadParams_getElem? (f : Frame) (entry : ℤ) (hcc : Regular cc)
    (h : ∀ a ∈ args, NoRef cc a) (hj : args[j]? = some a) :
    (loadParams cc f entry (args.map Arg.param))[j]? =
      some (if a.argval.isSome then none
        else some ((slot cc args j a).loc (calleeSp cc entry))) := by
  have hstate : Lags cc (assigned cc args j)
      (endState (loadParamStep cc f entry) ⟨0, 0, 0⟩ ((args.map Arg.param).take j)) := by
    rw [← List.map_take, Walk.endState_map]
    refine Walk.endState_rel ?_ (start_lags cc)
    intro s t b hb hst
    exact (loadParamStep_spec hcc (h b (List.mem_of_mem_take hb)) hst).1
  rw [loadParams, Walk.getElem?_walk, List.getElem?_map, hj]
  exact congrArg some (loadParamStep_spec hcc (h a (List.mem_of_getElem? hj)) hstate).2

theorem fixParamSpills_getElem? (f : Frame) (entry : ℤ) (hcc : Regular cc)
    (hj : args[j]? = some a) :
    (fixParamSpills cc f entry (args.map Arg.param))[j]? =
      some ((slot cc args j a).address (calleeSp cc entry)) := by
  have hstate : Lags cc (assigned cc args j)
      (endState (fixSpillStep cc f entry) ⟨0, 0, 0⟩ ((args.map Arg.param).take j)) := by
    rw [← List.map_take, Walk.endState_map]
    refine Walk.endState_rel ?_ (start_lags cc)
    intro s t b hb hst
    exact (fixSpillStep_spec hcc hst).1
  rw [fixParamSpills, Walk.getElem?_walk, List.getElem?_map, hj]
  exact congrArg some (fixSpillStep_spec hcc hstate).2

theorem assignValue_reg? (dst : Option Reg) (s : Counters) : (assignValue dst s).2.reg? = dst := by
  cases dst <;> rfl

/-- The search of `ir_get_param_reg` stops at the register of the slot. -/
theorem getParamRegLoop_eq (cc : CallConvDsc) (args : List Arg) (j : ℕ) (s : Counters) :
    getParamRegLoop cc (args.map Arg.param) j s.intParam s.fpParam =
      args[j]?.bind fun a => (assign cc (endState (assign cc) s (args.take j)) a).2.reg? := by
  induction args generalizing j s with
  | nil => rfl
  | cons b args ih =>
    cases j with
    | zero =>
      simp only [List.map_cons, getParamRegLoop, List.getElem?_cons_zero, Option.bind_some,
        List.take_zero, Walk.endState_nil, Param.isStructByVal, Arg.param]
      cases argKind cc b with
      | struct size align ht ha hv =>
        simp only [assign, ht, ha, hv, if_true, Option.map_some, Option.isSome_some, Bool.true_and]
        rfl
      | ref size align ht ha hv =>
        simp only [assign, ht, ha, hv, if_true, Option.map_some, Bool.and_false, Bool.false_eq_true,
          if_false, assignValue_reg?]
      | int ht ha =>
        simp only [assign, ht, ha, if_true, Option.map_none, Option.isSome_none, Bool.false_and,
          Bool.false_eq_true, if_false, assignValue_reg?]
      | fp ht ha => simp only [assign, ht, Bool.false_eq_true, if_false, assignValue_reg?]
    | succ j =>
      have hnext : getParamRegLoop cc (b.param :: args.map Arg.param) (j + 1) s.intParam s.fpParam =
          getParamRegLoop cc (args.map Arg.param) j (assign cc s b).1.intParam
            (assign cc s b).1.fpParam := by
        simp only [getParamRegLoop, Param.isStructByVal, Arg.param]
        cases argKind cc b with
        | struct size align ht ha hv =>
          simp only [assign, ht, ha, hv, if_true, Option.map_some, Option.isSome_some, Bool.true_and]
          rfl
        | ref size align ht ha hv =>
          simp only [assign, ht, ha, hv, if_true, Option.map_some, Bool.and_false,
            Bool.false_eq_true, if_false, assignValue_params]
          rfl
        | int ht ha =>
          simp only [assign, ht, ha, if_true, Option.map_none, Option.isSome_none, Bool.false_and,
            Bool.false_eq_true, if_false, assignValue_params]
          rfl
        | fp ht ha =>
          simp only [assign, ht, Bool.false_eq_true, if_false, assignValue_params]
          rfl
      rw [List.map_cons, hnext, ih]
      rfl

theorem getParamReg_eq (cc : CallConvDsc) (hj : args[j]? = some a) :
    getParamReg cc (args.map Arg.param) j = (slot cc args j a).reg? := by
  have h := getParamRegLoop_eq cc args j (startCounters cc)
  rw [hj] at h
  exact h

end IrJit.X86
