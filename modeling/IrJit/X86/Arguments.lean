import IrJit.Lib.Walk
import IrJit.X86.CallConv

/-!
# X86.Arguments — the caller and the callee (`ir_x86.dasc`, 10766–11277, 15511–15598 and 15691–15786; `ir_emit.c`,
100–162)

`ir_call_used_stack` and the passes of `ir_emit_arguments`, each with its own counters.  What is
recorded of a pass is the location at which it leaves an argument; a move from a register to itself
leaves the argument where it is.

`ir_emit_load_params` moves the parameters, `ir_fix_param_spills` records the addresses of those that
are on the stack, `ir_get_param_reg` tells the register allocator where the others are.
-/

namespace IrJit.X86

variable (cc : CallConvDsc)

/-- The counters of `ir_call_used_stack`; `stackOffset` is `used_stack`. -/
structure UsedStack extends Counters where
  copyStack : ℕ

/-- One round of `ir_call_used_stack`. -/
def usedStackStep (s : UsedStack) (a : Arg) : UsedStack × Unit :=
  let scalar (s : UsedStack) (t : IrType) : UsedStack :=
    let c := if s.intParam ≥ cc.intParamRegs.length then s.push (max 8 t.size) else s.toCounters
    { s with toCounters := c.nextInt cc }
  if a.type.isInt then
    match a.argval with
    | some (size, align) =>
      if ¬cc.passStructByVal then
        (scalar { s with copyStack := alignedSize (s.copyStack + size) (max 8 align) } .addr, ())
      else ({ s with toCounters := s.pushStruct size align }, ())
    | none => (scalar s a.type, ())
  else
    let c := if s.fpParam ≥ cc.fpParamRegs.length then s.push (max 8 a.type.size) else s.toCounters
    ({ s with toCounters := c.nextFp cc }, ())

def usedStackEnd (args : List Arg) : UsedStack := endState (usedStackStep cc) ⟨⟨0, 0, 0⟩, 0⟩ args

/-- `*copy_stack_ptr`. -/
def copyStack (args : List Arg) : ℕ := alignedSize (usedStackEnd cc args).copyStack 16

/-- `ir_call_used_stack`. -/
def callUsedStack (args : List Arg) : ℕ :=
  (usedStackEnd cc args).stackOffset + cc.shadowStoreSize + copyStack cc args

/-- A call: `op == IR_TAILCALL`, `IR_PREALLOCATED_STACK`, `fixed_call_stack_size` and the bytes between
`rsp` and the return address of the caller's frame.  A fixed area for arguments is part of the frame. -/
structure Site where
  tailcall : Bool
  preallocatedStack : Bool
  fixedCallStackSize : ℕ
  frameBytes : ℕ
  fixed_le : fixedCallStackSize ≤ frameBytes

variable (site : Site)

/-- `op == IR_CALL && (ctx->flags2 & IR_PREALLOCATED_STACK) && !cc->cleanup_stack_by_callee`. -/
def Site.isPreallocated : Bool :=
  !site.tailcall && site.preallocatedStack && !cc.cleanupStackByCallee

/-- `used_stack` while the arguments are moved. -/
def Site.usedStack (args : List Arg) : ℕ :=
  if site.isPreallocated cc then
    if ¬cc.passStructByVal then callUsedStack cc args else 0
  else
    let used := callUsedStack cc args
    let used := if cc.shadowStoreSize ≠ 0 ∧ site.tailcall ∧ used = cc.shadowStoreSize then 0 else used
    if site.fixedCallStackSize ≠ 0 ∧ used ≤ site.fixedCallStackSize ∧ ¬cc.cleanupStackByCallee then 0
    else used

/-- The value that `ir_emit_arguments` returns. -/
def Site.returned (args : List Arg) : ℕ :=
  if args = [] ∨ site.isPreallocated cc then 0 else site.usedStack cc args

/-- `rsp` at the entry of the callee: below a return address, unless `ir_emit_tailcall` jumps. -/
def Site.entry (sp : ℤ) (args : List Arg) : ℤ :=
  if site.tailcall ∧ site.returned cc args = 0 then sp + site.frameBytes else sp - 8

/-! ## Copies of structures -/

/-- One round of the loop over `copy_stack_offset`. -/
def copyStep (sp : ℤ) (used : ℕ) (copyStackOffset : ℕ) (a : Arg) : ℕ × Option Loc :=
  match a.argval with
  | some (size, align) =>
    let offset := alignedSize (copyStackOffset + size) (max 8 align)
    (offset, some (.stack (sp + ((used : ℤ) - offset)) size))
  | none => (copyStackOffset, none)

/-- The copies of the structures that are passed by reference. -/
def structCopies (sp : ℤ) (args : List Arg) : List (Option Loc) :=
  if copyStack cc args ≠ 0 then walk (copyStep sp (site.usedStack cc args)) 0 args
  else args.map fun _ => none

/-! ## Passes -/

/-- The value has to be loaded into the register of the argument: a constant, a value without a
register or one that is reloaded into a register the callee does not preserve. -/
def Arg.isLoaded (a : Arg) : Bool :=
  match a.reg with
  | none => true
  | some r => a.isConst || (a.spilled && !cc.preservedRegs.contains r)

/-- The value is in a register and goes to the stack from there. -/
def Arg.isStored (a : Arg) : Bool := !a.isConst && a.reg.isSome && !a.spilled

/-- The end of the first pass for an argument that is no structure: the location, and `do_pass3`. -/
def pass1Move (sp : ℤ) (a : Arg) (dst : Option Reg) (s : Counters) :
    Counters × Option Loc × Bool :=
  match dst with
  | some r => if a.isLoaded cc then (s, none, true) else (s, some (.reg r), false)
  | none =>
    let n := max 8 a.type.size
    if a.isStored then (s.push n, some (.stack (sp + s.stackOffset) n), false)
    else (s.push n, none, true)

/-- The first pass: register arguments that go through the stack, and moves between registers (these
are made by the second pass, all at once). -/
def pass1Step (sp : ℤ) (s : Counters) (a : Arg) : Counters × Option Loc × Bool :=
  if a.type.isInt then
    match a.argval with
    | some (size, align) =>
      if cc.passStructByVal then
        (s.pushStruct size align,
          if size ≠ 0 then some (.stack (sp + s.structOffset align) size) else none, false)
      else (s.nextInt cc, none, true)
    | none => pass1Move cc sp a cc.intParamRegs[s.intParam]? (s.nextInt cc)
  else pass1Move cc sp a cc.fpParamRegs[s.fpParam]? (s.nextFp cc)

/-- The end of the third pass for an argument that is no structure. -/
def pass3Move (sp : ℤ) (a : Arg) (dst : Option Reg) (s : Counters) : Counters × Option Loc :=
  match dst with
  | some r => (s, if a.isLoaded cc then some (.reg r) else none)
  | none =>
    let n := max 8 a.type.size
    (s.push n, if a.isStored then none else some (.stack (sp + s.stackOffset) n))

/-- The third pass: constants, values in memory and pointers to the copies of structures. -/
def pass3Step (sp : ℤ) (s : Counters) (a : Arg) : Counters × Option Loc :=
  if a.type.isInt then
    match a.argval with
    | some (size, align) =>
      if cc.passStructByVal then (s.pushStruct size align, none)
      else
        match cc.intParamRegs[s.intParam]? with
        | some r => (s.nextInt cc, some (.reg r))
        | none => ((s.push 8).nextInt cc, some (.stack (sp + s.stackOffset) 8))
    | none => pass3Move cc sp a cc.intParamRegs[s.intParam]? (s.nextInt cc)
  else pass3Move cc sp a cc.fpParamRegs[s.fpParam]? (s.nextFp cc)

def startCounters : Counters := ⟨0, 0, cc.shadowStoreSize⟩

def pass1 (sp : ℤ) (args : List Arg) : List (Option Loc × Bool) :=
  walk (pass1Step cc sp) (startCounters cc) args

def pass3 (sp : ℤ) (args : List Arg) : List (Option Loc) :=
  walk (pass3Step cc sp) (startCounters cc) args

/-- `do_pass3`. -/
def doPass3 (sp : ℤ) (args : List Arg) : Bool := (pass1 cc sp args).any fun o => o.2

/-- Where `ir_emit_arguments` leaves an argument, in whichever pass. -/
def argLoc (sp : ℤ) (args : List Arg) (j : ℕ) : Option Loc :=
  ((pass1 cc sp args)[j]?.bind Prod.fst).or
    (if doPass3 cc sp args then (pass3 cc sp args)[j]?.join else none)

end IrJit.X86

/-! ## The callee -/

namespace IrJit.X86

variable (cc : CallConvDsc)

/-- The frame of the callee: `IR_USE_FRAME_POINTER`, `stack_frame_size` and `call_stack_size`. -/
structure Frame where
  framePointer : Bool
  stackFrameSize : ℕ
  callStackSize : ℕ

namespace Frame

variable (f : Frame)

/-- `stack_start`. -/
def stackStart : ℕ := if f.framePointer then 8 * 2 + f.stackFrameSize else 8 + f.stackFrameSize

/-- `IR_SPILL_POS_TO_OFFSET`. -/
def spillPosToOffset (pos : ℕ) : ℤ :=
  if f.framePointer then (pos : ℤ) - f.stackFrameSize else pos + f.callStackSize

/-- `rbp` or `rsp` after the prologue; `entry` is `rsp` before it. -/
def base (entry : ℤ) : ℤ :=
  if f.framePointer then entry - 8 else entry - (f.stackFrameSize + f.callStackSize)

/-- The address of a spill position. -/
def address (entry : ℤ) (pos : ℕ) : ℤ := f.base entry + f.spillPosToOffset pos

/-- Parameters start above the return address. -/
theorem address_stackStart (entry : ℤ) (n : ℕ) :
    f.address entry (f.stackStart + n) = entry + 8 + n := by
  unfold address base spillPosToOffset stackStart
  cases f.framePointer <;> simp <;> omega

end Frame

/-- The end of a round of `ir_emit_load_params`: a value is taken from its register or from the stack. -/
def loadValue (f : Frame) (entry : ℤ) (src : Option Reg) (s : Counters) : Counters × Option Loc :=
  match src with
  | some r => (s, some (.reg r))
  | none => (s.push 8, some (.stack (f.address entry (f.stackStart + s.stackOffset)) 8))

/-- One round of `ir_emit_load_params`: the location that a parameter is taken from. -/
def loadParamStep (f : Frame) (entry : ℤ) (s : Counters) (p : Param) : Counters × Option Loc :=
  if p.type.isInt then
    match p.valueParam with
    -- any structure is on the stack here
    | some (size, align) => (s.pushStruct size align, none)
    | none => loadValue f entry cc.intParamRegs[s.intParam]? (s.nextInt cc)
  else loadValue f entry cc.fpParamRegs[s.fpParam]? (s.nextFp cc)

/-- The end of a round of `ir_fix_param_spills`: the spill position of a value on the stack. -/
def fixValue (f : Frame) (entry : ℤ) (src : Option Reg) (s : Counters) : Counters × Option ℤ :=
  match src with
  | some _ => (s, none)
  | none => (s.push 8, some (f.address entry (f.stackStart + s.stackOffset)))

/-- One round of `ir_fix_param_spills`: the address of a structure or of a value on the stack. -/
def fixSpillStep (f : Frame) (entry : ℤ) (s : Counters) (p : Param) : Counters × Option ℤ :=
  if p.type.isInt then
    match p.valueParam with
    | some (size, align) =>
      if cc.passStructByVal then
        (s.pushStruct size align, some (f.address entry (f.stackStart + s.structOffset align)))
      else fixValue f entry cc.intParamRegs[s.intParam]? (s.nextInt cc)
    | none => fixValue f entry cc.intParamRegs[s.intParam]? (s.nextInt cc)
  else fixValue f entry cc.fpParamRegs[s.fpParam]? (s.nextFp cc)

def loadParams (f : Frame) (entry : ℤ) (params : List Param) : List (Option Loc) :=
  walk (loadParamStep cc f entry) ⟨0, 0, 0⟩ params

def fixParamSpills (f : Frame) (entry : ℤ) (params : List Param) : List (Option ℤ) :=
  walk (fixSpillStep cc f entry) ⟨0, 0, 0⟩ params

/-- The structure is passed on the stack. -/
def Param.isStructByVal (p : Param) : Bool := p.valueParam.isSome && cc.passStructByVal

/-- The loop of `ir_get_param_reg`: parameter `j` of the rest of the list. -/
def getParamRegLoop : List Param → ℕ → ℕ → ℕ → Option Reg
  | [], _, _, _ => none
  | p :: _, 0, intParam, fpParam =>
    if p.type.isInt then
      if p.isStructByVal cc then none else cc.intParamRegs[intParam]?
    else cc.fpParamRegs[fpParam]?
  | p :: ps, j + 1, intParam, fpParam =>
    if p.type.isInt then
      if p.isStructByVal cc then getParamRegLoop ps j intParam fpParam
      else getParamRegLoop ps j (intParam + 1) (fpParam + if cc.shadowParamRegs then 1 else 0)
    else getParamRegLoop ps j (intParam + if cc.shadowParamRegs then 1 else 0) (fpParam + 1)

/-- `ir_get_param_reg`. -/
def getParamReg (params : List Param) (j : ℕ) : Option Reg := getParamRegLoop cc params j 0 0

end IrJit.X86
