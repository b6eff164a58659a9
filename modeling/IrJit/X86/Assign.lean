import IrJit.X86.Arguments
import Mathlib.Data.List.Nodup

/-!
# X86.Assign — what a calling convention says

Each argument gets a slot: the next register of its class, or the next bytes of the stack.  A structure
is on the stack if the convention passes structures by value, else a pointer to it is passed.  Slots
of distinct arguments share nothing.
-/

namespace IrJit.X86

/-- A register, or bytes at an offset. -/
inductive Slot
  | reg (r : Reg)
  | stack (offset size : ℕ)
  deriving DecidableEq

/-- The location of a slot; the bytes on the stack start at `sp`. -/
def Slot.loc (sp : ℤ) : Slot → Loc
  | .reg r => .reg r
  | .stack offset size => .stack (sp + offset) size

variable (cc : CallConvDsc)

/-- The slot of a value: the register, if there is one left. -/
def assignValue (dst : Option Reg) (s : Counters) : Counters × Slot :=
  match dst with
  | some r => (s, .reg r)
  | none => (s.push 8, .stack s.stackOffset 8)

/-- The slot of the next argument. -/
def assign (s : Counters) (a : Arg) : Counters × Slot :=
  if a.type.isInt then
    match a.argval with
    | some (size, align) =>
      if cc.passStructByVal then (s.pushStruct size align, .stack (s.structOffset align) size)
      else assignValue cc.intParamRegs[s.intParam]? (s.nextInt cc)
    | none => assignValue cc.intParamRegs[s.intParam]? (s.nextInt cc)
  else assignValue cc.fpParamRegs[s.fpParam]? (s.nextFp cc)

/-- The counters before argument `j`. -/
def assigned (args : List Arg) (j : ℕ) : Counters :=
  endState (assign cc) (startCounters cc) (args.take j)

/-- The bytes of the stack up to the last argument. -/
def stackBytes (args : List Arg) : ℕ := (endState (assign cc) (startCounters cc) args).stackOffset

/-- A convention: its registers are distinct, and one that passes structures by value has no area for
registers. -/
structure Regular : Prop where
  shadow : cc.passStructByVal = true → cc.shadowStoreSize = 0
  int : cc.intParamRegs.Nodup
  fp : cc.fpParamRegs.Nodup
  apart : ∀ r ∈ cc.intParamRegs, r ∉ cc.fpParamRegs

theorem CallConv.regular (k : CallConv) : Regular k.dsc := by
  cases k <;> exact ⟨by decide, by decide, by decide, by decide⟩

variable {cc} {s t : Counters} {a : Arg} {args : List Arg} {j : ℕ}

@[simp] theorem nextInt_intParam : (s.nextInt cc).intParam = s.intParam + 1 := rfl

@[simp] theorem nextFp_fpParam : (s.nextFp cc).fpParam = s.fpParam + 1 := rfl

theorem le_structOffset (align : ℕ) : s.stackOffset ≤ s.structOffset align := le_alignedSize _ _

theorem structOffset_add_le (size align : ℕ) :
    s.structOffset align + size ≤ (s.pushStruct size align).stackOffset := le_alignedSize _ _

theorem slot_pos (t : IrType) : max 8 t.size = 8 := max_eq_left t.size_le

/-! ## Four kinds of arguments -/

/-- A structure by value, a structure by reference, an integer and a floating point number. -/
inductive ArgKind (cc : CallConvDsc) (a : Arg) : Prop
  | struct (size align : ℕ) (ht : a.type.isInt = true) (ha : a.argval = some (size, align))
    (hv : cc.passStructByVal = true)
  | ref (size align : ℕ) (ht : a.type.isInt = true) (ha : a.argval = some (size, align))
    (hv : cc.passStructByVal = false)
  | int (ht : a.type.isInt = true) (ha : a.argval = none)
  | fp (ht : a.type.isInt = false) (ha : a.argval = none)

theorem argKind (cc : CallConvDsc) (a : Arg) : ArgKind cc a := by
  cases ha : a.argval with
  | none =>
    cases ht : a.type.isInt with
    | true => exact .int ht ha
    | false => exact .fp ht ha
  | some p =>
    have ht : a.type.isInt = true := by
      rw [a.addr (by rw [ha]; rfl)]
      rfl
    cases hv : cc.passStructByVal with
    | true => exact .struct p.1 p.2 ht ha hv
    | false => exact .ref p.1 p.2 ht ha hv

/-! ## Slots share nothing -/

/-- What a step takes: one register of a class, or bytes from the old offset to the new one. -/
inductive Takes (cc : CallConvDsc) (s s' : Counters) : Slot → Prop
  | int (r : Reg) (h : cc.intParamRegs[s.intParam]? = some r) (hn : s'.intParam = s.intParam + 1) :
    Takes cc s s' (.reg r)
  | fp (r : Reg) (h : cc.fpParamRegs[s.fpParam]? = some r) (hn : s'.fpParam = s.fpParam + 1) :
    Takes cc s s' (.reg r)
  | stack (offset size : ℕ) (h : s.stackOffset ≤ offset) (hn : offset + size ≤ s'.stackOffset) :
    Takes cc s s' (.stack offset size)

theorem assignValue_cases (dst : Option Reg) (s : Counters) :
    (∃ r, dst = some r ∧ assignValue dst s = (s, .reg r)) ∨
      (dst = none ∧ assignValue dst s = (s.push 8, .stack s.stackOffset 8)) := by
  cases dst with
  | some r => exact Or.inl ⟨r, rfl, rfl⟩
  | none => exact Or.inr ⟨rfl, rfl⟩

theorem takes_int (cc : CallConvDsc) (s : Counters) :
    Takes cc s (assignValue cc.intParamRegs[s.intParam]? (s.nextInt cc)).1
      (assignValue cc.intParamRegs[s.intParam]? (s.nextInt cc)).2 := by
  rcases assignValue_cases cc.intParamRegs[s.intParam]? (s.nextInt cc) with ⟨r, hr, h⟩ | ⟨-, h⟩
  · rw [h]
    exact .int r hr rfl
  · rw [h]
    exact .stack _ _ le_rfl le_rfl

theorem takes_fp (cc : CallConvDsc) (s : Counters) :
    Takes cc s (assignValue cc.fpParamRegs[s.fpParam]? (s.nextFp cc)).1
      (assignValue cc.fpParamRegs[s.fpParam]? (s.nextFp cc)).2 := by
  rcases assignValue_cases cc.fpParamRegs[s.fpParam]? (s.nextFp cc) with ⟨r, hr, h⟩ | ⟨-, h⟩
  · rw [h]
    exact .fp r hr rfl
  · rw [h]
    exact .stack _ _ le_rfl le_rfl

theorem assign_takes (cc : CallConvDsc) (s : Counters) (a : Arg) :
    Takes cc s (assign cc s a).1 (assign cc s a).2 := by
  cases argKind cc a with
  | struct size align ht ha hv =>
    simp only [assign, ht, ha, hv, if_true]
    exact .stack _ _ (le_structOffset _) (structOffset_add_le _ _)
  | ref size align ht ha hv =>
    simpa only [assign, ht, ha, hv, if_true, Bool.false_eq_true, if_false] using takes_int cc s
  | int ht ha => simpa only [assign, ht, ha, if_true] using takes_int cc s
  | fp ht ha => simpa only [assign, ht, Bool.false_eq_true, if_false] using takes_fp cc s

/-- No counter goes back. -/
def Le (s t : Counters) : Prop :=
  s.intParam ≤ t.intParam ∧ s.fpParam ≤ t.fpParam ∧ s.stackOffset ≤ t.stackOffset

theorem le_assignValue (dst : Option Reg) (h : Le s t) : Le s (assignValue dst t).1 := by
  rcases assignValue_cases dst t with ⟨r, -, h'⟩ | ⟨-, h'⟩
  · rw [h']
    exact h
  · rw [h']
    exact ⟨h.1, h.2.1, h.2.2.trans (Nat.le_add_right _ _)⟩

theorem assign_mono (cc : CallConvDsc) (s : Counters) (a : Arg) : Le s (assign cc s a).1 := by
  have hint : Le s (s.nextInt cc) := ⟨Nat.le_succ _, Nat.le_add_right _ _, le_rfl⟩
  have hfp : Le s (s.nextFp cc) := ⟨Nat.le_add_right _ _, Nat.le_succ _, le_rfl⟩
  cases argKind cc a with
  | struct size align ht ha hv =>
    simp only [assign, ht, ha, hv, if_true]
    refine ⟨le_rfl, le_rfl, (le_structOffset align).trans ?_⟩
    exact (Nat.le_add_right _ _).trans (structOffset_add_le size align)
  | ref size align ht ha hv =>
    simp only [assign, ht, ha, hv, if_true, Bool.false_eq_true, if_false]
    exact le_assignValue _ hint
  | int ht ha =>
    simp only [assign, ht, ha, if_true]
    exact le_assignValue _ hint
  | fp ht ha =>
    simp only [assign, ht, Bool.false_eq_true, if_false]
    exact le_assignValue _ hfp

/-- The slot of argument `j`. -/
def slot (cc : CallConvDsc) (args : List Arg) (j : ℕ) (a : Arg) : Slot :=
  (assign cc (assigned cc args j) a).2

theorem assigned_succ (h : args[j]? = some a) :
    assigned cc args (j + 1) = (assign cc (assigned cc args j) a).1 :=
  Walk.endState_take_succ h

theorem slot_takes (cc : CallConvDsc) (h : args[j]? = some a) :
    Takes cc (assigned cc args j) (assigned cc args (j + 1)) (slot cc args j a) := by
  rw [assigned_succ h]
  exact assign_takes cc _ a

theorem assigned_intParam_mono (cc : CallConvDsc) (args : List Arg) {i j : ℕ} (h : i ≤ j) :
    (assigned cc args i).intParam ≤ (assigned cc args j).intParam :=
  Walk.key_mono Counters.intParam (fun s a => (assign_mono cc s a).1) h

theorem assigned_fpParam_mono (cc : CallConvDsc) (args : List Arg) {i j : ℕ} (h : i ≤ j) :
    (assigned cc args i).fpParam ≤ (assigned cc args j).fpParam :=
  Walk.key_mono Counters.fpParam (fun s a => (assign_mono cc s a).2.1) h

theorem assigned_stackOffset_mono (cc : CallConvDsc) (args : List Arg) {i j : ℕ} (h : i ≤ j) :
    (assigned cc args i).stackOffset ≤ (assigned cc args j).stackOffset :=
  Walk.key_mono Counters.stackOffset (fun s a => (assign_mono cc s a).2.2) h

theorem ne_of_getElem? {l : List Reg} (hl : l.Nodup) {i j : ℕ} {r r' : Reg} (hi : l[i]? = some r)
    (hj : l[j]? = some r') (h : i < j) : r ≠ r' := by
  rintro rfl
  obtain ⟨hi', hri⟩ := List.getElem?_eq_some_iff.1 hi
  obtain ⟨hj', hrj⟩ := List.getElem?_eq_some_iff.1 hj
  exact h.ne ((List.Nodup.getElem_inj_iff hl).1 (hri.trans hrj.symm))

/-- Two arguments have slots that share nothing. -/
theorem slot_disjoint (hcc : Regular cc) (sp : ℤ) {i : ℕ} {b : Arg} (hij : i < j)
    (hi : args[i]? = some b) (hj : args[j]? = some a) :
    ((slot cc args i b).loc sp).Disjoint ((slot cc args j a).loc sp) := by
  have h1 := assigned_intParam_mono cc args (show i + 1 ≤ j from hij)
  have h2 := assigned_fpParam_mono cc args (show i + 1 ≤ j from hij)
  have h3 := assigned_stackOffset_mono cc args (show i + 1 ≤ j from hij)
  have ti := slot_takes cc hi
  have tj := slot_takes cc hj
  generalize slot cc args i b = x at ti ⊢
  generalize slot cc args j a = y at tj ⊢
  cases ti with
  | int r h hn =>
    cases tj with
    | int r' h' _ => exact ne_of_getElem? hcc.int h h' (by omega)
    | fp r' h' _ =>
      rintro rfl
      exact hcc.apart _ (List.mem_of_getElem? h) (List.mem_of_getElem? h')
    | stack => trivial
  | fp r h hn =>
    cases tj with
    | int r' h' _ =>
      rintro rfl
      exact hcc.apart _ (List.mem_of_getElem? h') (List.mem_of_getElem? h)
    | fp r' h' _ => exact ne_of_getElem? hcc.fp h h' (by omega)
    | stack => trivial
  | stack o n h hn =>
    cases tj with
    | int => trivial
    | fp => trivial
    | stack o' n' h' _ =>
      left
      show sp + (o : ℤ) + n ≤ sp + o'
      omega

/-- The slots on the stack are between the area for registers and `stackBytes`. -/
theorem slot_bounds (hj : args[j]? = some a) {o n : ℕ} (h : slot cc args j a = .stack o n) :
    cc.shadowStoreSize ≤ o ∧ o + n ≤ stackBytes cc args := by
  have ht := slot_takes cc hj
  rw [h] at ht
  cases ht with
  | stack _ _ hle hn =>
    have h0 := assigned_stackOffset_mono cc args (Nat.zero_le j)
    have h1 : (assigned cc args (j + 1)).stackOffset ≤ stackBytes cc args :=
      Walk.key_le_end Counters.stackOffset (fun s a => (assign_mono cc s a).2.2) _
    have h2 : (assigned cc args 0).stackOffset = cc.shadowStoreSize := rfl
    omega

end IrJit.X86
