import IrJit.Lib.HashChain

/-!
# Ra.SpillSlots — stack slots of `ir_linear_scan`

The `VAR`s and `ALLOCA`s get their slots first.  The spilled virtual registers follow, in a second
linear scan over their whole spans.  An interval is its number; the list of the intervals still to be
handled, the active list and the free lists `handled` of each size all run through the one field
`listNext`, and `0` ends a list.

Frame offsets are `int32_t`: `none` stands for a sum that overflows.
-/

namespace IrJit.Ra.Spill

/-- The sizes of small slots. -/
inductive SlotSize
  | one | two | four | eight
  deriving DecidableEq, Repr

/-- A size in bytes. -/
def SlotSize.bytes : SlotSize → ℕ
  | one => 1
  | two => 2
  | four => 4
  | eight => 8

/-- `ctx->stack_frame_size`, the left-overs and free lists of `ir_reg_alloc_data` and the fields of the
intervals that the scan writes.  Empty free lists also stand for `data->handled == NULL`. -/
structure State where
  frame : ℕ
  unused4 : ℕ
  unused2 : ℕ
  unused1 : ℕ
  handled : SlotSize → ℕ
  active : ℕ
  listNext : ℕ → ℕ
  spillPos : ℕ → ℕ

/-- The state in which `ir_reg_alloc` starts. -/
def State.init : State :=
  { frame := 0, unused4 := 0, unused2 := 0, unused1 := 0, handled := fun _ => 0, active := 0
    listNext := fun _ => 0, spillPos := fun _ => 0 }

section Allocate

/-- A sum of `int32_t`. -/
def add32 (a b : ℕ) : Option ℕ := if a + b < 2 ^ 31 then some (a + b) else none

/-- `IR_ALIGNED_SIZE`. -/
def alignedSize (size alignment : ℕ) : Option ℕ :=
  (add32 size (alignment - 1)).map fun n => n / alignment * alignment

/-- The slot of the first interval of a free list. -/
def State.peek (s : State) (k : SlotSize) : ℕ := s.spillPos (s.handled k)

/-- Takes the first interval off a free list. -/
def State.pop (s : State) (k : SlotSize) : State :=
  { s with handled := Function.update s.handled k (s.listNext (s.handled k)) }

/-- The end of the frame moves; with 8-byte pointers by eight bytes, the upper half left over. -/
def State.grow (s : State) (wide : Bool) : Option State :=
  if wide then (add32 s.frame 8).map fun f => { s with unused4 := s.frame + 4, frame := f }
  else (add32 s.frame 4).map fun f => { s with frame := f }

/-- `ir_allocate_small_spill_slot` for the sizes it has slots of; `wide` is `sizeof(void*) == 8`. -/
def allocateSmallSpillSlot (wide : Bool) (size : SlotSize) (s : State) : Option (ℕ × State) :=
  if s.handled size ≠ 0 then some (s.peek size, s.pop size)
  else match size with
  | .eight => (add32 s.frame 8).map fun f => (s.frame, { s with frame := f })
  | .four =>
    if s.unused4 ≠ 0 then some (s.unused4, { s with unused4 := 0 })
    else if s.handled .eight ≠ 0 then
      some (s.peek .eight, { s.pop .eight with unused4 := s.peek .eight + 4 })
    else (s.grow wide).map fun t => (s.frame, t)
  | .two =>
    if s.unused2 ≠ 0 then some (s.unused2, { s with unused2 := 0 })
    else if s.unused4 ≠ 0 then
      some (s.unused4, { s with unused2 := s.unused4 + 2, unused4 := 0 })
    else if s.handled .four ≠ 0 then
      some (s.peek .four, { s.pop .four with unused2 := s.peek .four + 2 })
    else if s.handled .eight ≠ 0 then
      some (s.peek .eight,
        { s.pop .eight with unused2 := s.peek .eight + 2, unused4 := s.peek .eight + 4 })
    else (s.grow wide).map fun t => (s.frame, { t with unused2 := s.frame + 2 })
  | .one =>
    if s.unused1 ≠ 0 then some (s.unused1, { s with unused1 := 0 })
    else if s.unused2 ≠ 0 then
      some (s.unused2, { s with unused1 := s.unused2 + 1, unused2 := 0 })
    else if s.unused4 ≠ 0 then
      some (s.unused4, { s with unused1 := s.unused4 + 1, unused2 := s.unused4 + 2, unused4 := 0 })
    else if s.handled .two ≠ 0 then
      some (s.peek .two, { s.pop .two with unused1 := s.peek .two + 1 })
    else if s.handled .four ≠ 0 then
      some (s.peek .four,
        { s.pop .four with unused1 := s.peek .four + 1, unused2 := s.peek .four + 2 })
    else if s.handled .eight ≠ 0 then
      some (s.peek .eight,
        { s.pop .eight with
          unused1 := s.peek .eight + 1, unused2 := s.peek .eight + 2, unused4 := s.peek .eight + 4 })
    else (s.grow wide).map fun t =>
      (s.frame, { t with unused1 := s.frame + 1, unused2 := s.frame + 2 })

/-- `ir_allocate_big_spill_slot`. -/
def allocateBigSpillSlot (wide : Bool) (size : ℕ) (s : State) : Option (ℕ × State) :=
  match size with
  | 0 => some (0, s)
  | 1 => allocateSmallSpillSlot wide .one s
  | 2 => allocateSmallSpillSlot wide .two s
  | 3 | 4 => allocateSmallSpillSlot wide .four s
  | 5 | 6 | 7 | 8 => allocateSmallSpillSlot wide .eight s
  | size => do
    let ret ← alignedSize s.frame 16
    let size ← alignedSize size 8
    let frame ← add32 ret size
    some (ret, { s with frame })

end Allocate

section Vars

/-- A node of the list `ctx->vars`: a `VAR` with the size of its type, an `ALLOCA` with its bytes. -/
inductive Var
  | var (size : SlotSize)
  | alloca (bytes : ℕ)
  deriving DecidableEq

/-- The bytes that may be accessed through a variable. -/
def Var.bytes : Var → ℕ
  | var size => size.bytes
  | alloca bytes => bytes

/-- The slot of one variable. -/
def allocateVar (wide : Bool) : Var → State → Option (ℕ × State)
  | .var size => allocateSmallSpillSlot wide size
  | .alloca bytes => allocateBigSpillSlot wide bytes

/-- The slots of the variables, in the order of the list. -/
def allocateVars (wide : Bool) : List Var → State → Option (List ℕ × State)
  | [], s => some ([], s)
  | v :: vs, s => do
    let (slot, s) ← allocateVar wide v s
    let (slots, s) ← allocateVars wide vs s
    some (slot :: slots, s)

end Vars

/-- The virtual registers after the registers were assigned.  `spilled` are those with an interval
that was split or got no register, without a stack position and not a parameter in memory; `start` is
the start of the first range and `stop` the end of the last one of the last split. -/
structure Vregs where
  count : ℕ
  spilled : ℕ → Bool
  start : ℕ → ℕ
  stop : ℕ → ℕ
  size : ℕ → SlotSize

section Scan

variable (V : Vregs)

/-- The interval to insert after: the loop of `ir_add_to_unhandled_spill`. -/
def insertionPoint (listNext : ℕ → ℕ) (pos : ℕ) : ℕ → ℕ → Option ℕ
  | 0, _ => none
  | fuel + 1, prev =>
    if listNext prev ≠ 0 then
      if pos ≤ V.start (listNext prev) then some prev
      else insertionPoint listNext pos fuel (listNext prev)
    else some prev

/-- `ir_add_to_unhandled_spill` on `(unhandled, list_next)`. -/
def addToUnhandledSpill (ival : ℕ) (u : ℕ × (ℕ → ℕ)) : Option (ℕ × (ℕ → ℕ)) :=
  if u.1 = 0 ∨ V.start ival ≤ V.start u.1 then some (ival, Function.update u.2 ival u.1)
  else (insertionPoint V u.2 (V.start ival) (V.count + 1) u.1).map fun prev =>
    (u.1, Function.update (Function.update u.2 ival (u.2 prev)) prev ival)

/-- The spilled registers, from the last one down. -/
def collectSpilled : ℕ → ℕ × (ℕ → ℕ) → Option (ℕ × (ℕ → ℕ))
  | 0, u => some u
  | j + 1, u =>
    if V.spilled (j + 1) then (addToUnhandledSpill V (j + 1) u).bind (collectSpilled j)
    else collectSpilled j u

/-- An interval becomes handled: its slot goes to the free list unless it is there already. -/
def release (i : ℕ) (s : State) : Option State :=
  (HashChain.walk s.listNext (fun old => s.spillPos old = s.spillPos i) (V.count + 1)
      (s.handled (V.size i))).map fun old =>
    if old = 0 then
      { s with
        listNext := Function.update s.listNext i (s.handled (V.size i))
        handled := Function.update s.handled (V.size i) i }
    else s

/-- Unlinks `other` from the active list; `prev` is the interval before it, `0` for the first. -/
def unlink (prev other : ℕ) (s : State) : State :=
  if prev ≠ 0 then { s with listNext := Function.update s.listNext prev (s.listNext other) }
  else { s with active := s.listNext other }

/-- The loop over the active list: intervals that end before `position` become handled. -/
def expire (position : ℕ) : ℕ → ℕ → ℕ → State → Option State
  | 0, _, _, _ => none
  | fuel + 1, other, prev, s =>
    if other = 0 then some s
    else if V.stop other ≤ position then
      (release V other (unlink prev other s)).bind fun s =>
        expire position fuel (if prev ≠ 0 then s.listNext prev else s.active) prev s
    else expire position fuel (s.listNext other) other s

/-- The interval gets its slot and becomes active, or handled when it ends before the next one starts;
`unhandled` are the intervals after it. -/
def place (ival unhandled slot : ℕ) (s : State) : Option State :=
  let s := { s with spillPos := Function.update s.spillPos ival slot }
  if unhandled ≠ 0 ∧ V.stop ival > V.start unhandled then
    some { s with listNext := Function.update s.listNext ival s.active, active := ival }
  else release V ival s

/-- The body of the scan. -/
def handle (wide : Bool) (ival unhandled : ℕ) (s : State) : Option State := do
  let s ← expire V (V.start ival) (V.count + 1) s.active 0 s
  let (slot, s) ← allocateSmallSpillSlot wide (V.size ival) s
  place V ival unhandled slot s

/-- The scan over the intervals in `unhandled`. -/
def scan (wide : Bool) : ℕ → ℕ → State → Option State
  | 0, _, _ => none
  | fuel + 1, unhandled, s =>
    if unhandled = 0 then some s
    else
      (handle V wide unhandled (s.listNext unhandled) s).bind
        (scan wide fuel (s.listNext unhandled))

end Scan

/-- The slots of a function. -/
structure Layout where
  frame : ℕ
  varSlots : List ℕ
  spillPos : ℕ → ℕ

/-- The parts of `ir_linear_scan` that hand out stack slots. -/
def linearScanSlots (wide : Bool) (vars : List Var) (V : Vregs) : Option Layout := do
  let (varSlots, s) ← allocateVars wide vars State.init
  let (unhandled, listNext) ← collectSpilled V V.count (0, s.listNext)
  let s ← scan V wide (V.count + 1) unhandled { s with listNext }
  some { frame := s.frame, varSlots, spillPos := s.spillPos }

end IrJit.Ra.Spill
