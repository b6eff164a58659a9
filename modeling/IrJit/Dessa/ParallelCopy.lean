import Mathlib.Data.Finset.Option
import IrJit.Lib.FirstBit
import IrJit.Dessa.Machine

/-!
# Dessa.ParallelCopy — `ir_dessa_parallel_copy` (`ir_emit.c`)

The translation of `ir_emit_dessa_move`, `ir_dessa_resolve_cycle` and `ir_dessa_parallel_copy` for
x86-64 (no `IR_X86_I64`, `IR_HAVE_SWAP_INT` defined, `IR_HAVE_SWAP_FP` not), release build.

* A destination or a source location is a number: a register below `regNum`, else a spill slot.
  A negative source is a constant (`-from < consts_count`) or the address of a local variable.
* The emitters return the instructions, in order.  `none` stands for a step with no meaning: a
  missing temporary register used as an operand, or a constant used as an index of a bit set.
* The tables `pred`, `types`, `loc` are functions, the bit sets are finite sets.  The loops carry
  a fuel that the length of the tables bounds.
-/

namespace IrJit.Dessa

/-- `ir_dessa_copy`. -/
structure Copy where
  type : IrType
  dst : ℕ
  src : ℤ
  deriving DecidableEq, Repr

/-- `IR_IS_SIGNED_32BIT`. -/
def isSigned32 (v : Word) : Bool := -2147483648 ≤ v.toInt && v.toInt ≤ 2147483647

/-- `ir_emit_load` of a constant. -/
def emitLoad (type : IrType) (reg : ℕ) (ref : ℤ) : Instr :=
  if type.isInt then .loadImm type reg ref else .loadImmFp type reg ref

/-- `ir_emit_load_mem`. -/
def emitLoadMem (type : IrType) (reg : ℕ) (mem : Mem) : Instr :=
  if type.isInt then .loadMem type reg mem else .loadMemFp type reg mem

/-- `ir_emit_store_mem`. -/
def emitStoreMem (type : IrType) (mem : Mem) (reg : ℕ) : Instr :=
  if type.isInt then .storeMem type mem reg else .storeMemFp type mem reg

/-- `ir_emit_mov` or `ir_emit_fp_mov`, by the type. -/
def emitMov (type : IrType) (dst src : ℕ) : Instr :=
  if type.isInt then .mov type dst src else .fpMov type dst src

/-- The temporary register of the class of a type: `IR_IS_TYPE_INT(type) ? tmp_reg : tmp_fp_reg`. -/
def tmpFor (type : IrType) (tmp tmpFp : Option ℕ) : Option ℕ := if type.isInt then tmp else tmpFp

/-- The test of `ir_emit_dessa_move` for storing a constant to memory as an immediate. -/
def storesImm (ctx : Ctx) (type : IrType) (src : ℤ) : Bool :=
  type.isInt && !ctx.isSymConst src && (type.size != 8 || isSigned32 (ctx.constVal src))

/-- `ir_emit_dessa_move`. -/
def emitDessaMove (ctx : Ctx) (type : IrType) (dst : ℕ) (src : ℤ) (tmp tmpFp : Option ℕ) :
    Option (List Instr) :=
  if dst < regNum then
    if src < 0 then
      if -src < ctx.constsCount then some [emitLoad type dst src]
      else some [.leaLocal dst (-src - ctx.constsCount)]
    else if src.toNat < regNum then some [emitMov type dst src.toNat]
    else some [emitLoadMem type dst (.slot (src.toNat - regNum))]
  else
    let memTo := Mem.slot (dst - regNum)
    if src < 0 then
      if -src < ctx.constsCount then
        if storesImm ctx type src then
          some [.storeMemImm type memTo ((ctx.constVal src).setWidth 32)]
        else do
          let r ← tmpFor type tmp tmpFp
          some [emitLoad type r src, emitStoreMem type memTo r]
      else do
        let r ← tmp
        some [.leaLocal r (-src - ctx.constsCount), emitStoreMem type memTo r]
    else if src.toNat < regNum then some [emitStoreMem type memTo src.toNat]
    else do
      let r ← tmpFor type tmp tmpFp
      some [emitLoadMem type r (.slot (src.toNat - regNum)), emitStoreMem type memTo r]

/-- What does not change while the copies are resolved: the context, the tables `pred` and `types`,
the temporary registers and the length of the tables. -/
structure Env where
  ctx : Ctx
  pred : ℕ → ℤ
  types : ℕ → IrType
  tmp : Option ℕ
  tmpFp : Option ℕ
  len : ℕ

/-- What changes: the pending destinations, the place of each source value, the code so far. -/
structure PcState where
  todo : Finset ℕ
  loc : ℕ → ℕ
  code : List Instr

variable (e : Env)

/-! ### Cycles -/

/-- Freeing the temporary register of the class of `type`, unless it was saved before. -/
def saveTmp (type : IrType) (spilled : Bool) : Option (List Instr) :=
  if spilled then some []
  else (tmpFor type e.tmp e.tmpFp).map (fun t => [emitStoreMem type .tmpSpill t])

/-- Reloading the temporary register of the class of `type`, if one was saved. -/
def reloadTmp (type : IrType) (spilled : Bool) : Option (List Instr) :=
  if spilled then (tmpFor type e.tmp e.tmpFp).map (fun t => [emitLoadMem type t .tmpSpill])
  else some []

/-- The loop of `ir_dessa_resolve_cycle` from `dst` (`to` in C) on; `spilled` is `IR_MEM_VAL(tmp_spill_slot)`. -/
def resolveCycleLoop (root : ℕ) : ℕ → ℕ → Bool → PcState → Option PcState
  | 0, _, _, _ => none
  | fuel + 1, dst, spilled, st =>
    let src := (e.pred dst).toNat
    let r := st.loc src
    let type := e.types dst
    if src = root then do
      let reload ← reloadTmp e type spilled
      let c ← emitDessaMove e.ctx type dst r none none
      some ⟨st.todo.erase dst, Function.update st.loc src dst, st.code ++ reload ++ c⟩
    else if regNum ≤ dst ∧ regNum ≤ r then do
      let save ← saveTmp e type spilled
      let c ← emitDessaMove e.ctx type dst r e.tmp e.tmpFp
      resolveCycleLoop root fuel src true
        ⟨st.todo.erase dst, Function.update st.loc src dst, st.code ++ save ++ c⟩
    else do
      let c ← emitDessaMove e.ctx type dst r none none
      resolveCycleLoop root fuel src spilled
        ⟨st.todo.erase dst, Function.update st.loc src dst, st.code ++ c⟩

/-- `ir_dessa_resolve_cycle`. -/
def resolveCycle (root : ℕ) (st : PcState) : Option PcState :=
  let src := (e.pred root).toNat
  let type := e.types src
  if type.isInt && decide (e.pred src = root) && decide (root < regNum) && decide (src < regNum) then
    -- a simple cycle from 2 elements
    let type := if type.size < (e.types root).size then e.types root else type
    some ⟨(st.todo.erase src).erase root, Function.update (Function.update st.loc root src) src root,
      st.code ++ [.xchg type root src]⟩
  else do
    let t ← tmpFor type e.tmp e.tmpFp
    let save := if root < regNum then emitMov type t root
      else emitLoadMem type t (.slot (root - regNum))
    resolveCycleLoop e root e.len root false
      ⟨st.todo, Function.update st.loc root t, st.code ++ [save]⟩

/-! ### Trees -/

/-- The loops over the "windmill blades": the first one does not free the temporaries (`blocked`),
the last one has nothing to keep back. -/
def resolveBlades (blocked : Finset ℕ) : ℕ → Finset ℕ → PcState → Option PcState
  | 0, _, _ => none
  | fuel + 1, ready, st =>
    match firstBit ready with
    | none => some st
    | some dst =>
      let todo := st.todo.erase dst
      let ready := ready.erase dst
      let type := e.types dst
      let src := e.pred dst
      if src < 0 then do
        let c ← emitDessaMove e.ctx type dst src e.tmp e.tmpFp
        resolveBlades blocked fuel ready ⟨todo, st.loc, st.code ++ c⟩
      else do
        let src := src.toNat
        let r := st.loc src
        let c ← emitDessaMove e.ctx type dst r e.tmp e.tmpFp
        let ready := if src = r ∧ src ∈ todo ∧ src ∉ blocked then insert src ready else ready
        resolveBlades blocked fuel ready ⟨todo, Function.update st.loc src dst, st.code ++ c⟩

/-- The inner loop of the search for a cycle: follow `pred` while it stays in `ready`; the second
component is the root of the cycle, if one was closed. -/
def findCycle (ready : Finset ℕ) : ℕ → Finset ℕ → ℤ → Option (Finset ℕ × Option ℕ)
  | 0, _, _ => none
  | fuel + 1, visited, dst =>
    if 0 ≤ dst ∧ dst.toNat ∈ ready then
      let dst := e.pred dst.toNat
      -- `ir_bitset_in(visited, to)` has no meaning for a constant
      if dst < 0 then none
      else if dst.toNat ∈ visited then some (visited, some dst.toNat)
      else findCycle ready fuel (insert dst.toNat visited) dst
    else some (visited, none)

/-- The cycle found by the search, if any, is resolved. -/
def resolveFound (st : PcState) : Option ℕ → Option PcState
  | none => some st
  | some root => resolveCycle e root st

/-- The loop over the "windmill axles". -/
def resolveAxles : ℕ → Finset ℕ → PcState → Option PcState
  | 0, _, _ => none
  | fuel + 1, ready, st =>
    match firstBit ready with
    | none => some st
    | some dst => do
      let (visited, root) ← findCycle e ready (e.len + 1) {dst} (e.pred dst)
      let st ← resolveFound e st root
      resolveAxles fuel (ready \ visited) st

/-! ### The whole copy -/

/-- The first loop of `ir_dessa_parallel_copy`: the tables.  They are not initialised in C and read
only where this loop has written; outside `pred` is a constant here. -/
def predOf (copies : List Copy) : ℕ → ℤ :=
  copies.foldl (fun f c => Function.update f c.dst c.src) (fun _ => -1)

def typesOf (copies : List Copy) : ℕ → IrType :=
  copies.foldl (fun f c => Function.update f c.dst c.type) (fun _ => .void)

def dstsOf (copies : List Copy) : Finset ℕ := copies.foldl (fun s c => insert c.dst s) ∅

def srcsOf (copies : List Copy) : Finset ℕ :=
  copies.foldl (fun s c => if c.src < 0 then s else insert c.src.toNat s) ∅

/-- `loc`, initialised for the sources. -/
def locOf (copies : List Copy) : ℕ → ℕ :=
  copies.foldl (fun f c => if c.src < 0 then f else Function.update f c.src.toNat c.src.toNat)
    (fun _ => 0)

def envOf (ctx : Ctx) (copies : List Copy) (memSlotsCount : ℕ) (tmp tmpFp : Option ℕ) : Env :=
  { ctx, pred := predOf copies, types := typesOf copies, tmp, tmpFp,
    len := regNum + memSlotsCount + 1 }

/-- `ir_dessa_parallel_copy`. -/
def dessaParallelCopy (ctx : Ctx) (copies : List Copy) (memSlotsCount : ℕ) (tmp tmpFp : Option ℕ) :
    Option (List Instr) :=
  match copies with
  | [c] => emitDessaMove ctx c.type c.dst c.src tmp tmpFp
  | _ => do
    let e := envOf ctx copies memSlotsCount tmp tmpFp
    let srcs := srcsOf copies
    let tmps := tmp.toFinset ∪ tmpFp.toFinset
    let todo := dstsOf copies
    -- the trees that do not set temporary registers
    let st ← resolveBlades e tmps (e.len + 1) ((todo \ srcs) \ tmps) ⟨todo, locOf copies, []⟩
    -- the cycles
    let st ← resolveAxles e (e.len + 1) (st.todo ∩ srcs) st
    -- the trees that set temporary registers
    let st ← resolveBlades e ∅ (e.len + 1) (st.todo \ srcs) st
    some st.code

end IrJit.Dessa
