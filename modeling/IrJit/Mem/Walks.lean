import IrJit.Mem.Insns

/-!
# Mem.Walks — load forwarding and dead stores during construction (`ir.c`)

`_ir_LOAD`, `_ir_VLOAD`, `_ir_STORE` and `_ir_VSTORE` with folding enabled.  Each walks back over the
control chain from `ctx->control`.  A walk gives, besides the reference it returns, the instruction at
which it stopped.
-/

namespace IrJit.Mem.Ctx

variable (C : Ctx)

section Loads

/-- May a value of type `found` stand for a load of type `type`, as it is, by `BITCAST` or by `TRUNC`? -/
def forwards (found type : IrType) : Bool :=
  found = type || found.size = type.size || (found.size > type.size && type.isInt && found.isInt)

/-- `ir_find_aliasing_load_i`: the instruction at which the walk stopped and the value it found. -/
def findAliasingLoad (type : IrType) (addr limit : ℤ) : ℕ → ℕ → List ℤ → Option (ℕ × ℤ)
  | 0, _, _ => none
  | fuel + 1, ref, modified =>
    if (ref : ℤ) ≤ limit then none
    else
      let insn := C.base ref
      if insn.op = .load then
        if insn.op2 = addr ∧ forwards insn.type type then some (ref, ref)
        else findAliasingLoad type addr limit fuel insn.op1.toNat modified
      else if insn.op = .store then
        if insn.op2 = addr then
          if (C.base insn.op3).op = .rload ∧ (C.base insn.op3).op2 ∈ modified then none
          else if forwards (C.base insn.op3).type type then some (ref, insn.op3)
          else none
        else if C.checkAliasing addr insn.op2 type (C.base insn.op3).type ≠ .no then none
        else findAliasingLoad type addr limit fuel insn.op1.toNat modified
      else if insn.op = .rstore then
        findAliasingLoad type addr limit fuel insn.op1.toNat (insn.op3 :: modified)
      else if insn.op = .call then
        if C.isPureCall insn then findAliasingLoad type addr limit fuel insn.op1.toNat modified
        else none
      else if insn.op = .merge ∨ insn.op = .loopBegin ∨ insn.op = .vstore
          ∨ (insn.op = .beginOp ∧ insn.op2 ≠ 0) then none
      else findAliasingLoad type addr limit fuel insn.op1.toNat modified

/-- `ir_find_aliasing_vload_i`. -/
def findAliasingVload (type : IrType) (var : ℤ) : ℕ → ℕ → Option (ℕ × ℤ)
  | 0, _ => none
  | fuel + 1, ref =>
    if (ref : ℤ) ≤ var then none
    else
      let insn := C.base ref
      if insn.op = .vload then
        if insn.op2 = var ∧ forwards insn.type type then some (ref, ref)
        else findAliasingVload type var fuel insn.op1.toNat
      else if insn.op = .vstore then
        if insn.op2 = var then
          if forwards (C.base insn.op3).type type then some (ref, insn.op3) else none
        else findAliasingVload type var fuel insn.op1.toNat
      else if insn.op = .call then
        if C.isPureCall insn then findAliasingVload type var fuel insn.op1.toNat else none
      else if insn.op = .merge ∨ insn.op = .loopBegin ∨ insn.op = .store
          ∨ (insn.op = .beginOp ∧ insn.op2 ≠ 0) then none
      else findAliasingVload type var fuel insn.op1.toNat

/-- What a load becomes: a new instruction, or a value found, with the conversion that is put on it. -/
inductive Loaded
  | emit (op : IrOp) (loc : ℤ)
  | found (stop : ℕ) (ref : ℤ)
  deriving DecidableEq

/-- `_ir_VLOAD`. -/
def irVload (type : IrType) (var : ℤ) : Loaded :=
  match C.findAliasingVload type var (C.control + 1) C.control with
  | some (stop, ref) => .found stop ref
  | none => .emit .vload var

/-- `_ir_LOAD`. -/
def irLoad (type : IrType) (addr : ℤ) : Loaded :=
  if (C.base addr).op = .vaddr then C.irVload type (C.base addr).op1
  else
    match C.findAliasingLoad type addr (if addr > 0 then addr else 1) (C.control + 1) C.control [] with
    | some (stop, ref) => .found stop ref
    | none => .emit .load addr

/-- The value that `_ir_LOAD` and `_ir_VLOAD` return for a found reference of type `found`: itself, its
`BITCAST`, or its `TRUNC` to the type of the load. -/
def convert (found type : IrType) (v : BitVec 64) : BitVec 64 :=
  if found = type then v
  else if found.size = type.size then v
  else v &&& BitVec.ofNat 64 (2 ^ (8 * type.size) - 1)

end Loads

section Stores

/-- What a walk for a store finds: nothing, a reason why the new store is dead, or an earlier store that
is dead (with the instruction after it, `0` for none). -/
inductive StoreWalk
  | keep
  | dead (stop : ℕ)
  | delete (stop next : ℕ)
  deriving DecidableEq

/-- `op >= IR_START`. -/
def fromStart (op : IrOp) : Bool := IrOp.start.ctorIdx ≤ op.ctorIdx

/-- `ir_find_aliasing_store_i`. -/
def findAliasingStore (addr val limit : ℤ) : ℕ → ℕ → ℕ → Bool → StoreWalk
  | 0, _, _, _ => .keep
  | fuel + 1, ref, next, guarded =>
    if (ref : ℤ) ≤ limit then .keep
    else
      let insn := C.base ref
      let type := (C.base val).type
      if insn.op = .store then
        if insn.op2 = addr then
          if (C.base insn.op3).type = type then
            if insn.op3 = val then .dead ref
            else if guarded then .keep
            else .delete ref next
          else .keep
        else if C.checkAliasing addr insn.op2 type (C.base insn.op3).type ≠ .no then .keep
        else findAliasingStore addr val limit fuel insn.op1.toNat ref guarded
      else if insn.op = .load then
        if insn.op2 = addr then
          if (ref : ℤ) = val then .dead ref else .keep
        else if C.checkAliasing addr insn.op2 type insn.type ≠ .no then .keep
        else findAliasingStore addr val limit fuel insn.op1.toNat ref guarded
      else if insn.op = .guard ∨ insn.op = .guardNot then
        findAliasingStore addr val limit fuel insn.op1.toNat ref true
      else if fromStart insn.op then
        if insn.op = .beginOp ∧ insn.op1 ≠ 0 ∧ insn.op2 = 0 then
          -- the END of the block before is skipped
          findAliasingStore addr val limit fuel (C.base insn.op1).op1.toNat insn.op1.toNat guarded
        else .keep
      else if insn.op = .call then .keep
      else findAliasingStore addr val limit fuel insn.op1.toNat ref guarded

/-- `ir_find_aliasing_vstore_i`. -/
def findAliasingVstore (var val : ℤ) : ℕ → ℕ → ℕ → Bool → StoreWalk
  | 0, _, _, _ => .keep
  | fuel + 1, ref, next, guarded =>
    if (ref : ℤ) ≤ var then .keep
    else
      let insn := C.base ref
      if insn.op = .vstore then
        if insn.op2 = var then
          if insn.op3 = val then .dead ref
          else if guarded then .keep
          else .delete ref next
        else findAliasingVstore var val fuel insn.op1.toNat ref guarded
      else if insn.op = .vload then
        if insn.op2 = var then
          if (ref : ℤ) = val then .dead ref else .keep
        else findAliasingVstore var val fuel insn.op1.toNat ref guarded
      else if insn.op = .guard ∨ insn.op = .guardNot then
        findAliasingVstore var val fuel insn.op1.toNat ref true
      else if fromStart insn.op then
        if insn.op = .beginOp ∧ insn.op1 ≠ 0 ∧ insn.op2 = 0 then
          findAliasingVstore var val fuel (C.base insn.op1).op1.toNat insn.op1.toNat guarded
        else .keep
      else if insn.op = .call ∨ insn.op = .load ∨ insn.op = .store then .keep
      else findAliasingVstore var val fuel insn.op1.toNat ref guarded

/-- `ir_emit3` of a store: the new instruction becomes `control`. -/
def emitStore (op : IrOp) (loc val : ℤ) : Ctx :=
  { C with
    base := Function.update C.base C.insnsCount
      { op, type := .void, op1 := C.control, op2 := loc, op3 := val, val := 0, proto := 0 }
    insnsCount := C.insnsCount + 1
    control := C.insnsCount }

/-- An earlier store is taken out of the control chain and becomes a `NOP`. -/
def deleteStore (ref next : ℕ) : Ctx :=
  let prev := (C.base ref).op1
  let C :=
    if next ≠ 0 then
      { C with base := Function.update C.base next { C.base next with op1 := prev } }
    else { C with control := prev.toNat }
  { C with
    base := Function.update C.base ref
      { C.base ref with op := .nop, type := .void, op1 := 0, op2 := 0, op3 := 0 } }

/-- What is done with the outcome of a walk for a store. -/
def finishStore (op : IrOp) (loc val : ℤ) : StoreWalk → Ctx
  | .keep => C.emitStore op loc val
  | .dead _ => C
  | .delete ref next => (C.deleteStore ref next).emitStore op loc val

/-- The walk of `_ir_VSTORE`. -/
def vstoreWalk (var val : ℤ) : StoreWalk := C.findAliasingVstore var val (C.control + 1) C.control 0 false

/-- The walk of `_ir_STORE` when the address is not a `VADDR`. -/
def storeWalk (addr val : ℤ) : StoreWalk :=
  C.findAliasingStore addr val (if addr > 0 then addr else 1) (C.control + 1) C.control 0 false

/-- `_ir_VSTORE`. -/
def irVstore (var val : ℤ) : Ctx := C.finishStore .vstore var val (C.vstoreWalk var val)

/-- `_ir_STORE`. -/
def irStore (addr val : ℤ) : Ctx :=
  if (C.base addr).op = .vaddr then C.irVstore (C.base addr).op1 val
  else C.finishStore .store addr val (C.storeWalk addr val)

end Stores

end IrJit.Mem.Ctx
