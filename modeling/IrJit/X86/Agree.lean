import IrJit.X86.Walks

/-!
# X86.Agree — caller and callee agree on where arguments are

The callee never skips the area for registers that a Microsoft caller leaves below its stack arguments,
and `ir_emit_load_params` takes every structure for one that is passed by value; so the two sides agree
under that convention only if all arguments are values in registers.  Under the other two they agree,
except for a tail call that passes something through a fixed area and then leaves it.
-/

namespace IrJit.X86

variable {k : CallConv} {cc : CallConvDsc} {site : Site} {f : Frame} {args : List Arg} {a : Arg}
  {j : ℕ} {sp entry : ℤ}

/-- The callee takes parameter `j` from a location: the three walks say so. -/
def TakenFrom (cc : CallConvDsc) (f : Frame) (entry : ℤ) (params : List Param) (j : ℕ) : Loc → Prop
  | .reg r =>
    (loadParams cc f entry params)[j]? = some (some (.reg r)) ∧
      (fixParamSpills cc f entry params)[j]? = some none ∧ getParamReg cc params j = some r
  | .stack address size =>
    -- a structure that is passed by value is not moved
    ((loadParams cc f entry params)[j]? = some (some (.stack address size)) ∨
      ((loadParams cc f entry params)[j]? = some none ∧
        ∃ p, params[j]? = some p ∧ p.isStructByVal cc = true)) ∧
      (fixParamSpills cc f entry params)[j]? = some (some address) ∧ getParamReg cc params j = none

/-- Caller and callee agree: each argument is taken from where it is left, the locations of the
arguments and of the copies of structures share nothing and are inside the area of the call. -/
structure Agreement (cc : CallConvDsc) (site : Site) (f : Frame) (sp : ℤ) (args : List Arg) :
    Prop where
  taken : ∀ j a, args[j]? = some a → a.isEmpty cc = false → ∃ l, argLoc cc sp args j = some l ∧
    TakenFrom cc f (site.entry cc sp args) (args.map Arg.param) j l
  disjoint : ∀ (i j : ℕ) (l l' : Loc), i < j → argLoc cc sp args i = some l →
    argLoc cc sp args j = some l' → l.Disjoint l'
  copies : ∀ (i j : ℕ) (l l' : Loc), i < j → (structCopies cc site sp args)[i]? = some (some l) →
    (structCopies cc site sp args)[j]? = some (some l') → l.Disjoint l'
  apart : ∀ (i j : ℕ) (l l' : Loc), (structCopies cc site sp args)[i]? = some (some l) →
    argLoc cc sp args j = some l' → l.Disjoint l'
  inside : ∀ (j : ℕ) (l : Loc), (argLoc cc sp args j = some l ∨
    (structCopies cc site sp args)[j]? = some (some l)) → l.Inside sp (callUsedStack cc args)

/-- Nothing goes through the stack. -/
def InRegs (cc : CallConvDsc) (args : List Arg) : Prop :=
  ∀ j a o n, args[j]? = some a → slot cc args j a = .stack o n → n = 0

/-- Where the two sides agree. -/
structure Sound (k : CallConv) (site : Site) (args : List Arg) : Prop where
  ms : k = .ms → args.length ≤ 4 ∧ ∀ a ∈ args, a.argval = none
  tailcall : site.tailcall = true → site.fixedCallStackSize ≠ 0 →
    stackBytes k.dsc args ≤ site.fixedCallStackSize → InRegs k.dsc args

/-! ## One argument -/

/-- The callee looks for an argument in its slot, counted from its own side. -/
theorem slot_taken (f : Frame) (entry : ℤ) (hcc : Regular cc) (h : ∀ a ∈ args, NoRef cc a)
    (hj : args[j]? = some a) :
    TakenFrom cc f entry (args.map Arg.param) j ((slot cc args j a).loc (calleeSp cc entry)) := by
  have hload := loadParams_getElem? f entry hcc h hj
  have hfix := fixParamSpills_getElem? f entry hcc hj
  have hreg := getParamReg_eq cc hj
  cases hx : slot cc args j a with
  | reg r =>
    rw [hx] at hload hfix hreg
    have hnone : a.argval = none := by
      rcases h a (List.mem_of_getElem? hj) with hv | hn
      · cases ha : a.argval with
        | none => rfl
        | some p =>
          have ht : a.type.isInt = true := by
            rw [a.addr (by rw [ha]; rfl)]
            rfl
          simp [slot, assign, ht, ha, hv] at hx
      · exact hn
    rw [hnone] at hload
    exact ⟨hload, hfix, hreg⟩
  | stack o n =>
    rw [hx] at hload hfix hreg
    refine ⟨?_, hfix, hreg⟩
    cases ha : a.argval with
    | none =>
      rw [ha] at hload
      exact Or.inl hload
    | some p =>
      have hv : cc.passStructByVal = true := by
        rcases h a (List.mem_of_getElem? hj) with hv | hn
        · exact hv
        · rw [hn] at ha
          cases ha
      rw [ha] at hload
      refine Or.inr ⟨hload, a.param, by rw [List.getElem?_map, hj]; rfl, ?_⟩
      simp [Param.isStructByVal, Arg.param, ha, hv]

/-- The offset at which a location on the stack is taken. -/
theorem address_of_taken (hcc : Regular cc) (hj : args[j]? = some a) {o n : ℕ}
    (hx : slot cc args j a = .stack o n)
    (ht : TakenFrom cc f entry (args.map Arg.param) j ((slot cc args j a).loc sp)) :
    sp = calleeSp cc entry := by
  have hfix := fixParamSpills_getElem? f entry hcc hj
  rw [hx] at hfix ht
  have heq : (some (some (calleeSp cc entry + (o : ℤ))) : Option (Option ℤ)) =
      some (some (sp + (o : ℤ))) := hfix.symm.trans ht.2.1
  have h1 : calleeSp cc entry + (o : ℤ) = sp + o := Option.some.inj (Option.some.inj heq)
  omega

theorem isEmpty_of_slot (h : NoRef cc a) {o : ℕ} (hx : slot cc args j a = .stack o 0) :
    a.isEmpty cc = true := by
  have hval : ∀ dst s o, (assignValue dst s).2 ≠ .stack o 0 := by
    intro dst s o
    cases dst with
    | some r => exact Slot.noConfusion
    | none =>
      intro h
      cases h
  cases argKind cc a with
  | struct size align ht ha hv =>
    simp only [slot, assign, ht, ha, hv, if_true, Slot.stack.injEq] at hx
    simp [Arg.isEmpty, ha, hv, hx.2]
  | ref size align ht ha hv => exact (h.not_ref ha hv).elim
  | int ht ha =>
    simp only [slot, assign, ht, ha, if_true] at hx
    exact absurd hx (hval _ _ _)
  | fp ht ha =>
    simp only [slot, assign, ht, Bool.false_eq_true, if_false] at hx
    exact absurd hx (hval _ _ _)

theorem slot_of_isEmpty (args : List Arg) (j : ℕ) (h : a.isEmpty cc = true) :
    ∃ o, slot cc args j a = .stack o 0 := by
  cases argKind cc a with
  | struct size align ht ha hv =>
    have hs : size = 0 := by simpa [Arg.isEmpty, ha, hv] using h
    refine ⟨(assigned cc args j).structOffset align, ?_⟩
    simp only [slot, assign, ht, ha, hv, if_true, hs]
  | ref size align ht ha hv => simp [Arg.isEmpty, hv] at h
  | int ht ha => simp [Arg.isEmpty, ha] at h
  | fp ht ha => simp [Arg.isEmpty, ha] at h

theorem argLoc_none (cc : CallConvDsc) (sp : ℤ) (hj : args[j]? = none) :
    argLoc cc sp args j = none := by
  unfold argLoc pass1 pass3
  simp [Walk.getElem?_walk, hj]

/-- A location that is used is the slot of an argument. -/
theorem argLoc_some {l : Loc} (h : ∀ a ∈ args, NoRef cc a) (hl : argLoc cc sp args j = some l) :
    ∃ a, args[j]? = some a ∧ l = (slot cc args j a).loc sp := by
  cases hj : args[j]? with
  | none =>
    rw [argLoc_none cc sp hj] at hl
    cases hl
  | some a =>
    refine ⟨a, rfl, ?_⟩
    rcases argLoc_eq sp h hj with heq | ⟨heq, -⟩
    · exact Option.some.inj (hl.symm.trans heq)
    · rw [heq] at hl
      cases hl

/-- An argument with bytes is in its slot. -/
theorem argLoc_of_not_isEmpty (h : ∀ a ∈ args, NoRef cc a) (hj : args[j]? = some a)
    (he : a.isEmpty cc = false) : argLoc cc sp args j = some ((slot cc args j a).loc sp) := by
  rcases argLoc_eq sp h hj with heq | ⟨-, o, hx⟩
  · exact heq
  · rw [isEmpty_of_slot (h a (List.mem_of_getElem? hj)) hx] at he
    cases he

/-! ## The Microsoft convention -/

theorem ms_assign (i off : ℕ) (ha : a.argval = none) :
    (assign msDsc ⟨i, i, off⟩ a).1 = ⟨i + 1, i + 1, off + if i < 4 then 0 else 8⟩ ∧
      ((assign msDsc ⟨i, i, off⟩ a).2.reg?.isSome = decide (i < 4)) ∧
      (4 ≤ i → (assign msDsc ⟨i, i, off⟩ a).2 = .stack off 8) := by
  -- both classes have four registers and share their counter
  have hval : ∀ (l : List Reg) (s : Counters), l.length = 4 → s = ⟨i + 1, i + 1, off⟩ →
      (assignValue l[i]? s).1 = ⟨i + 1, i + 1, off + if i < 4 then 0 else 8⟩ ∧
      ((assignValue l[i]? s).2.reg?.isSome = decide (i < 4)) ∧
      (4 ≤ i → (assignValue l[i]? s).2 = .stack off 8) := by
    rintro l s hl rfl
    by_cases hi : i < 4
    · rw [List.getElem?_eq_getElem (by omega), if_pos hi]
      refine ⟨rfl, ?_, fun h => absurd h (by omega)⟩
      rw [assignValue_reg?, Option.isSome_some, decide_eq_true hi]
    · rw [List.getElem?_eq_none (by omega), if_neg hi]
      refine ⟨rfl, ?_, fun _ => rfl⟩
      rw [assignValue_reg?, Option.isSome_none, decide_eq_false hi]
  cases ht : a.type.isInt with
  | true =>
    simp only [assign, ht, ha, if_true]
    exact hval _ _ rfl rfl
  | false =>
    simp only [assign, ht, Bool.false_eq_true, if_false]
    exact hval _ _ rfl rfl

/-- The counters of values under the Microsoft convention: four registers, then the stack. -/
theorem ms_assigned (h : ∀ a ∈ args, a.argval = none) (hj : j ≤ args.length) :
    assigned msDsc args j = ⟨j, j, 32 + 8 * (j - 4)⟩ := by
  induction j with
  | zero => rfl
  | succ j ih =>
    have hget : args[j]? = some args[j] := List.getElem?_eq_getElem hj
    rw [assigned_succ hget, ih (by omega), (ms_assign _ _ (h _ (List.getElem_mem hj))).1]
    congr 1
    split_ifs <;> omega

theorem ms_stackBytes (h : ∀ a ∈ args, a.argval = none) :
    stackBytes msDsc args = 32 + 8 * (args.length - 4) := by
  have hall := ms_assigned h le_rfl
  rw [assigned, List.take_length] at hall
  rw [stackBytes, hall]

theorem ms_inRegs (hlen : args.length ≤ 4) (h : ∀ a ∈ args, a.argval = none) :
    InRegs msDsc args := by
  intro j a o n hj hx
  obtain ⟨hlt, rfl⟩ := List.getElem?_eq_some_iff.1 hj
  have hreg := (ms_assign j (32 + 8 * (j - 4)) (h _ (List.getElem_mem hlt))).2.1
  rw [slot, ms_assigned h hlt.le] at hx
  rw [hx, decide_eq_true (by omega)] at hreg
  cases hreg

/-! ## Entry of the callee -/

theorem dsc_cleanup (k : CallConv) : k.dsc.cleanupStackByCallee = false := by cases k <;> rfl

theorem dsc_byVal (hk : k ≠ .ms) :
    k.dsc.passStructByVal = true ∧ k.dsc.shadowStoreSize = 0 := by
  cases k with
  | ms => exact absurd rfl hk
  | _ => exact ⟨rfl, rfl⟩

/-- A tail call jumps if it has no arguments on the stack, or if they fit the fixed area. -/
theorem returned_eq_zero (ht : site.tailcall = true) (hne : args ≠ []) :
    site.returned k.dsc args = 0 ↔ callUsedStack k.dsc args = 0 ∨
      (k.dsc.shadowStoreSize ≠ 0 ∧ callUsedStack k.dsc args = k.dsc.shadowStoreSize) ∨
      (site.fixedCallStackSize ≠ 0 ∧ callUsedStack k.dsc args ≤ site.fixedCallStackSize) := by
  have hpre : site.isPreallocated k.dsc = false := by simp [Site.isPreallocated, ht]
  simp only [Site.returned, hne, hpre, Site.usedStack, ht, dsc_cleanup, false_or,
    Bool.false_eq_true, if_false, true_and, not_false_eq_true, and_true]
  split_ifs <;> omega

theorem entry_of_jump (h : site.tailcall = true ∧ site.returned cc args = 0) :
    site.entry cc sp args = sp + site.frameBytes := if_pos h

theorem entry_of_call (h : ¬(site.tailcall = true ∧ site.returned cc args = 0)) :
    site.entry cc sp args = sp - 8 := if_neg h

/-- No structure is passed by reference. -/
theorem Sound.noRef (h : Sound k site args) : ∀ a ∈ args, NoRef k.dsc a := by
  intro a ha
  by_cases hk : k = .ms
  · exact Or.inr ((h.ms hk).2 a ha)
  · exact Or.inl (dsc_byVal hk).1

/-- A jump leaves nothing on the stack. -/
theorem Sound.inRegs (h : Sound k site args) (hne : args ≠ []) (ht : site.tailcall = true)
    (hr : site.returned k.dsc args = 0) : InRegs k.dsc args := by
  by_cases hk : k = .ms
  · subst hk
    exact ms_inRegs (h.ms rfl).1 (h.ms rfl).2
  have hused := (callUsedStack_eq k.regular h.noRef).1
  have hshadow := (dsc_byVal hk).2
  rcases (returned_eq_zero ht hne).1 hr with h0 | ⟨hne', -⟩ | ⟨hfix, hle⟩
  · intro j a o n hj hx
    have hb := (slot_bounds hj hx).2
    omega
  · exact absurd hshadow hne'
  · exact h.tailcall ht hfix (hused ▸ hle)

/-- An argument on the stack is taken from where it is left. -/
theorem Sound.calleeSp_eq (h : Sound k site args) (hj : args[j]? = some a) {o n : ℕ}
    (hx : slot k.dsc args j a = .stack o n) (hn : n ≠ 0) :
    calleeSp k.dsc (site.entry k.dsc sp args) = sp := by
  have hne : args ≠ [] := by
    rintro rfl
    cases hj
  have hk : k ≠ .ms := by
    rintro rfl
    exact hn (ms_inRegs (h.ms rfl).1 (h.ms rfl).2 j a o n hj hx)
  have hcall : ¬(site.tailcall = true ∧ site.returned k.dsc args = 0) := by
    rintro ⟨ht, hr⟩
    exact hn (h.inRegs hne ht hr j a o n hj hx)
  rw [entry_of_call hcall, calleeSp, (dsc_byVal hk).2]
  simp

theorem Sound.taken (h : Sound k site args) (hj : args[j]? = some a)
    (he : a.isEmpty k.dsc = false) : ∃ l, argLoc k.dsc sp args j = some l ∧
      TakenFrom k.dsc f (site.entry k.dsc sp args) (args.map Arg.param) j l := by
  refine ⟨_, argLoc_of_not_isEmpty h.noRef hj he, ?_⟩
  have htaken := slot_taken f (site.entry k.dsc sp args) k.regular h.noRef hj
  cases hx : slot k.dsc args j a with
  | reg r =>
    rw [hx] at htaken
    exact htaken
  | stack o n =>
    have hn : n ≠ 0 := by
      rintro rfl
      rw [isEmpty_of_slot (h.noRef a (List.mem_of_getElem? hj)) hx] at he
      cases he
    rw [h.calleeSp_eq hj hx hn, hx] at htaken
    exact htaken

theorem Sound.structCopies_none (h : Sound k site args) (l : Loc) :
    (structCopies k.dsc site sp args)[j]? ≠ some (some l) := by
  have hc := (callUsedStack_eq k.regular h.noRef).2
  unfold structCopies
  rw [if_neg (by rw [hc]; decide), List.getElem?_map]
  cases args[j]? <;> simp

theorem Sound.agreement (h : Sound k site args) : Agreement k.dsc site f sp args where
  taken _ _ hj he := h.taken hj he
  disjoint i j l l' hij hi hj := by
    obtain ⟨b, hb, rfl⟩ := argLoc_some h.noRef hi
    obtain ⟨a, ha, rfl⟩ := argLoc_some h.noRef hj
    exact slot_disjoint k.regular sp hij hb ha
  copies i _ l _ _ hi := absurd hi (h.structCopies_none l)
  apart i _ l _ hi := absurd hi (h.structCopies_none l)
  inside j l hl := by
    rcases hl with hl | hl
    · obtain ⟨a, ha, rfl⟩ := argLoc_some h.noRef hl
      rw [(callUsedStack_eq k.regular h.noRef).1]
      cases hx : slot k.dsc args j a with
      | reg r => trivial
      | stack o n =>
        have hb := (slot_bounds ha hx).2
        refine ⟨?_, ?_⟩
        · show sp ≤ sp + (o : ℤ)
          omega
        · show sp + (o : ℤ) + n ≤ sp + stackBytes k.dsc args
          omega
    · exact absurd hl (h.structCopies_none l)

/-! ## What agreement needs -/

/-- `ir_emit_load_params` takes no structure from anywhere. -/
theorem loadParams_struct (cc : CallConvDsc) (f : Frame) (entry : ℤ) (hj : args[j]? = some a)
    {p : ℕ × ℕ} (ha : a.argval = some p) :
    (loadParams cc f entry (args.map Arg.param))[j]? = some none := by
  have ht : a.type.isInt = true := by
    rw [a.addr (by rw [ha]; rfl)]
    rfl
  rw [loadParams, Walk.getElem?_walk, List.getElem?_map, hj]
  simp [loadParamStep, Arg.param, ht, ha]

theorem Agreement.ms_values (h : Agreement msDsc site f sp args) : ∀ a ∈ args, a.argval = none := by
  intro a ha
  obtain ⟨j, hj⟩ := List.mem_iff_getElem?.1 ha
  cases hv : a.argval with
  | none => rfl
  | some p =>
    obtain ⟨l, -, ht⟩ := h.taken j a hj rfl
    have hload := loadParams_struct msDsc f (site.entry msDsc sp args) hj hv
    cases l with
    | reg r =>
      have := ht.1.symm.trans hload
      cases this
    | stack o n =>
      rcases ht.1 with h1 | ⟨-, p', hp, hval⟩
      · have := h1.symm.trans hload
        cases this
      · simp [Param.isStructByVal, msDsc] at hval

/-- The fifth argument of a Microsoft call is taken 32 bytes below. -/
theorem Agreement.ms_length (h : Agreement msDsc site f sp args) : args.length ≤ 4 := by
  have hvals := h.ms_values
  have hnoref : ∀ a ∈ args, NoRef msDsc a := fun a ha => Or.inr (hvals a ha)
  by_contra hlen
  have hlt : 4 < args.length := by omega
  have hj : args[4]? = some args[4] := List.getElem?_eq_getElem hlt
  have hx : slot msDsc args 4 args[4] = .stack 32 8 := by
    rw [slot, ms_assigned hvals hlt.le]
    exact (ms_assign 4 32 (hvals _ (List.getElem_mem hlt))).2.2 le_rfl
  obtain ⟨l, hl, ht⟩ := h.taken 4 _ hj rfl
  obtain ⟨a, ha, rfl⟩ := argLoc_some hnoref hl
  obtain rfl : args[4] = a := Option.some.inj (hj.symm.trans ha)
  have hsp := address_of_taken (CallConv.regular .ms) hj hx ht
  have hshadow : (CallConv.ms.dsc.shadowStoreSize : ℤ) = 32 := rfl
  rw [calleeSp, hshadow] at hsp
  by_cases hjump : site.tailcall = true ∧ site.returned msDsc args = 0
  · -- the fixed area, and so the frame, is larger than the distance
    have hne : args ≠ [] := by
      rintro rfl
      exact absurd hlt (by decide)
    have hused := (callUsedStack_eq (CallConv.regular .ms) hnoref).1
    have hbytes := ms_stackBytes hvals
    have hfix := site.fixed_le
    have hused' : callUsedStack msDsc args = 32 + 8 * (args.length - 4) := hused.trans hbytes
    rw [entry_of_jump hjump] at hsp
    rcases (returned_eq_zero (k := .ms) hjump.1 hne).1 hjump.2 with h0 | ⟨-, h0⟩ | ⟨-, h0⟩
    · have h0' : callUsedStack msDsc args = 0 := h0
      omega
    · have h0' : callUsedStack msDsc args = 32 := h0
      omega
    · have h0' : callUsedStack msDsc args ≤ site.fixedCallStackSize := h0
      omega
  · rw [entry_of_call hjump] at hsp
    omega

theorem Agreement.inRegs (h : Agreement k.dsc site f sp args) (hk : k ≠ .ms)
    (ht : site.tailcall = true) (hfix : site.fixedCallStackSize ≠ 0)
    (hle : stackBytes k.dsc args ≤ site.fixedCallStackSize) : InRegs k.dsc args := by
  have hnoref : ∀ a ∈ args, NoRef k.dsc a := fun a _ => Or.inl (dsc_byVal hk).1
  intro j a o n hj hx
  by_contra hn
  have he : a.isEmpty k.dsc = false := by
    rw [← Bool.not_eq_true]
    intro he
    obtain ⟨o', hx'⟩ := slot_of_isEmpty args j he
    rw [hx'] at hx
    cases hx
    exact hn rfl
  obtain ⟨l, hl, htaken⟩ := h.taken j a hj he
  obtain ⟨b, hb, rfl⟩ := argLoc_some hnoref hl
  obtain rfl : a = b := Option.some.inj (hj.symm.trans hb)
  have hsp := address_of_taken k.regular hj hx htaken
  have hne : args ≠ [] := by
    rintro rfl
    cases hj
  have hused := (callUsedStack_eq k.regular hnoref).1
  have hr : site.returned k.dsc args = 0 :=
    (returned_eq_zero ht hne).2 (Or.inr (Or.inr ⟨hfix, by rw [hused]; exact hle⟩))
  rw [entry_of_jump ⟨ht, hr⟩, calleeSp, (dsc_byVal hk).2] at hsp
  simp at hsp
  omega

/-- An integer in `rax`. -/
def intArg : Arg := ⟨.i32, none, false, some .rax, false, fun h => by cases h⟩

end IrJit.X86
