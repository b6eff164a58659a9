import IrJit.Core.Types
import IrJit.Core.Ops
import IrJit.Lib.HashChain

/-!
# Consts.Table — the constants of a context and their hash table (`ir.c`)

The constants of a context grow downwards from `ir_base`: constant `n` has the reference `-n` and
lies at index `consts_limit - n` of the allocated block.  The constants are interned through a hash
table whose chains run through the field `prev_const` of the constants themselves.
-/

namespace IrJit.Consts

open HashChain

/-- The part of `ir_insn` that a constant uses. -/
structure Cell where
  optx : BitVec 32
  prevConst : ℤ
  val : BitVec 64

/-- The part of `ir_ctx` that the constants use.  `buf` is the allocated block; what it holds
outside the constants and instructions is never looked at. -/
structure Ctx where
  buf : ℕ → Cell
  insnsCount : ℕ
  insnsLimit : ℕ
  constsCount : ℕ
  constsLimit : ℕ
  constHash : ℕ → ℤ
  constHashMask : ℕ

def irNull : ℤ := -1

def irFalse : ℤ := -2

def irTrue : ℤ := -3

/-- `IR_CONST_HASH_SIZE`. -/
def constHashSize : ℕ := 64

/-- `IR_OPT(op, type)`. -/
def irOpt (op : ℕ) (type : IrType) : BitVec 32 := BitVec.ofNat 32 (op ||| type.ctorIdx <<< 8)

/-- `IR_OPTX(op, type, n)`. -/
def irOptx (op : IrOp) (type : IrType) (n : BitVec 16) : BitVec 32 :=
  BitVec.ofNat 32 (op.ctorIdx ||| type.ctorIdx <<< 8 ||| n.toNat <<< 16)

namespace Ctx

/-- The index of `ir_base[ref]` in the block: the code always keeps `ir_base` at
`buf + consts_limit`. -/
def index (ctx : Ctx) (ref : ℤ) : ℕ := (ctx.constsLimit + ref).toNat

/-- `ctx->ir_base[ref]`. -/
def irBase (ctx : Ctx) (ref : ℤ) : Cell := ctx.buf (ctx.index ref)

/-- `ctx->ir_base[ref] = cell`. -/
def setBase (ctx : Ctx) (ref : ℤ) (cell : Cell) : Ctx :=
  { ctx with buf := Function.update ctx.buf (ctx.index ref) cell }

/-- `ctx->const_hash[hash] = ref`. -/
def setHash (ctx : Ctx) (hash : ℕ) (ref : ℤ) : Ctx :=
  { ctx with constHash := Function.update ctx.constHash hash ref }

end Ctx

/-- `ir_init`, on a block that holds `garbage`. -/
def init (garbage : ℕ → Cell) (constsLimit insnsLimit : ℕ) : Ctx :=
  let ctx : Ctx :=
    { buf := garbage
      insnsCount := 1
      insnsLimit := insnsLimit
      constsCount := 4
      constsLimit := constsLimit
      constHash := fun _ => 0
      constHashMask := constHashSize - 1 }
  let ctx := ctx.setBase irNull
    { ctx.irBase irNull with optx := irOpt IrOp.cAddr.ctorIdx .addr, val := 0 }
  let ctx := ctx.setBase irFalse
    { ctx.irBase irFalse with optx := irOpt IrOp.cBool.ctorIdx .bool, val := 0 }
  ctx.setBase irTrue
    { ctx.irBase irTrue with optx := irOpt IrOp.cBool.ctorIdx .bool, val := 1 }

/-- The new `consts_limit` of `ir_grow_bottom`. -/
def grownLimit (limit : ℕ) : ℕ :=
  if limit < 1024 * 4 then limit * 2
  else if limit < 1024 * 4 * 2 then 1024 * 4 * 2
  else limit + 1024 * 4

/-- `ir_grow_bottom`: the block is enlarged and `memmove` shifts the used part of it up. -/
def growBottom (ctx : Ctx) : Ctx :=
  let limit := grownLimit ctx.constsLimit
  let shift := limit - ctx.constsLimit
  { ctx with
    constsLimit := limit
    buf := fun i =>
      if shift ≤ i ∧ i < shift + (ctx.constsLimit + ctx.insnsCount) then ctx.buf (i - shift)
      else ctx.buf i }

/-- `ir_next_const`. -/
def nextConst (ctx : Ctx) : ℤ × Ctx :=
  let ref := ctx.constsCount
  let ctx := if ref ≥ ctx.constsLimit then growBottom ctx else ctx
  (-ref, { ctx with constsCount := ref + 1 })

/-- `ir_unique_const_addr`. -/
def uniqueConstAddr (ctx : Ctx) (addr : BitVec 64) : ℤ × Ctx :=
  let (ref, ctx) := nextConst ctx
  -- the source: "don't insert into constants chain"
  (ref, ctx.setBase ref
    { optx := irOpt IrType.addr.ctorIdx .addr, val := addr, prevConst := 0 })

/-- `ir_const_hash`. -/
def hashOf (val : BitVec 64) (optx : BitVec 32) : ℕ :=
  (val ^^^ (val >>> 32) ^^^ optx.setWidth 64).toNat

/-- The body of the loop of `ir_const_hash_rehash`. -/
def rehashStep (ctx : Ctx) (n : ℕ) : Ctx :=
  let ref : ℤ := -n
  let insn := ctx.irBase ref
  let hash := hashOf insn.val insn.optx &&& ctx.constHashMask
  (ctx.setBase ref { insn with prevConst := ctx.constHash hash }).setHash hash ref

/-- `ir_const_hash_rehash`: the constants from `IR_TRUE - 1` down to the last one are chained
again. -/
def constHashRehash (ctx : Ctx) : Ctx :=
  let ctx := { ctx with
    constHashMask := (ctx.constHashMask + 1) * 2 - 1
    constHash := fun _ => 0 }
  (List.range' 4 (ctx.constsCount - 4)).foldl rehashStep ctx

/-- The search loop of `ir_const_ex`: the reference found, `0` when there is none.  A chain is
shorter than the number of constants. -/
def findConst (ctx : Ctx) (val : BitVec 64) (optx : BitVec 32) : Option ℤ :=
  walk (fun ref => (ctx.irBase ref).prevConst)
    (fun ref => (ctx.irBase ref).val = val && (ctx.irBase ref).optx = optx)
    ctx.constsCount (ctx.constHash (hashOf val optx &&& ctx.constHashMask))

/-- The end of `ir_const_ex`: a new constant is put in front of its chain. -/
def linkConst (ctx : Ctx) (val : BitVec 64) (optx : BitVec 32) : ℤ × Ctx :=
  let hash := hashOf val optx &&& ctx.constHashMask
  let prev := ctx.constHash hash
  let ctx := ctx.setHash hash (-ctx.constsCount)
  let (ref, ctx) := nextConst ctx
  (ref, ctx.setBase ref { optx := optx, val := val, prevConst := prev })

/-- `ir_const_ex`; `none` when the search does not end. -/
def constEx (ctx : Ctx) (val : BitVec 64) (type : IrType) (optx : BitVec 32) : Option (ℤ × Ctx) :=
  if type = .bool then some (if val ≠ 0 then irTrue else irFalse, ctx)
  else if type = .addr ∧ val = 0 then some (irNull, ctx)
  else do
    let ref ← findConst ctx val optx
    if ref ≠ 0 then return (ref, ctx)
    let ctx := if ctx.constsCount > ctx.constHashMask then constHashRehash ctx else ctx
    return linkConst ctx val optx

/-- `ir_const`. -/
def const (ctx : Ctx) (val : BitVec 64) (type : IrType) : Option (ℤ × Ctx) :=
  constEx ctx val type (irOpt type.ctorIdx type)

def constI8 (ctx : Ctx) (c : BitVec 8) : Option (ℤ × Ctx) := const ctx (c.signExtend 64) .i8

def constI16 (ctx : Ctx) (c : BitVec 16) : Option (ℤ × Ctx) := const ctx (c.signExtend 64) .i16

def constI32 (ctx : Ctx) (c : BitVec 32) : Option (ℤ × Ctx) := const ctx (c.signExtend 64) .i32

def constI64 (ctx : Ctx) (c : BitVec 64) : Option (ℤ × Ctx) := const ctx c .i64

def constU8 (ctx : Ctx) (c : BitVec 8) : Option (ℤ × Ctx) := const ctx (c.setWidth 64) .u8

def constU16 (ctx : Ctx) (c : BitVec 16) : Option (ℤ × Ctx) := const ctx (c.setWidth 64) .u16

def constU32 (ctx : Ctx) (c : BitVec 32) : Option (ℤ × Ctx) := const ctx (c.setWidth 64) .u32

def constU64 (ctx : Ctx) (c : BitVec 64) : Option (ℤ × Ctx) := const ctx c .u64

def constBool (ctx : Ctx) (c : Bool) : Option (ℤ × Ctx) :=
  some (if c then irTrue else irFalse, ctx)

def constChar (ctx : Ctx) (c : BitVec 8) : Option (ℤ × Ctx) := const ctx (c.signExtend 64) .char

/-- `ir_const_float`, on the bits of the number. -/
def constFloat (ctx : Ctx) (c : BitVec 32) : Option (ℤ × Ctx) := const ctx (c.setWidth 64) .float

/-- `ir_const_double`, on the bits of the number. -/
def constDouble (ctx : Ctx) (c : BitVec 64) : Option (ℤ × Ctx) := const ctx c .double

def constAddr (ctx : Ctx) (c : BitVec 64) : Option (ℤ × Ctx) :=
  if c = 0 then some (irNull, ctx) else const ctx c .addr

def constFuncAddr (ctx : Ctx) (c : BitVec 64) (proto : BitVec 16) : Option (ℤ × Ctx) :=
  if c = 0 then some (irNull, ctx) else constEx ctx c .addr (irOptx .funcAddr .addr proto)

def constFunc (ctx : Ctx) (str : BitVec 32) (proto : BitVec 16) : Option (ℤ × Ctx) :=
  constEx ctx (str.signExtend 64) .addr (irOptx .func .addr proto)

def constSym (ctx : Ctx) (str : BitVec 32) : Option (ℤ × Ctx) :=
  constEx ctx (str.signExtend 64) .addr (irOptx .sym .addr 0)

def constStr (ctx : Ctx) (str : BitVec 32) : Option (ℤ × Ctx) :=
  constEx ctx (str.signExtend 64) .addr (irOptx .str .addr 0)

def constLabel (ctx : Ctx) (str : BitVec 32) : Option (ℤ × Ctx) :=
  constEx ctx (str.signExtend 64) .addr (irOptx .label .addr 0)

/-- A call of the functions that make constants. -/
inductive Call
  | i8 (c : BitVec 8)
  | i16 (c : BitVec 16)
  | i32 (c : BitVec 32)
  | i64 (c : BitVec 64)
  | u8 (c : BitVec 8)
  | u16 (c : BitVec 16)
  | u32 (c : BitVec 32)
  | u64 (c : BitVec 64)
  | bool (c : Bool)
  | char (c : BitVec 8)
  | float (c : BitVec 32)
  | double (c : BitVec 64)
  | addr (c : BitVec 64)
  | funcAddr (c : BitVec 64) (proto : BitVec 16)
  | func (s : BitVec 32) (proto : BitVec 16)
  | sym (s : BitVec 32)
  | str (s : BitVec 32)
  | label (s : BitVec 32)
  | const (val : BitVec 64) (type : IrType)
  | constEx (val : BitVec 64) (type : IrType) (optx : BitVec 32)
  | uniqueAddr (addr : BitVec 64)
  deriving DecidableEq

/-- The result of one call. -/
def step (ctx : Ctx) : Call → Option (ℤ × Ctx)
  | .i8 c => constI8 ctx c
  | .i16 c => constI16 ctx c
  | .i32 c => constI32 ctx c
  | .i64 c => constI64 ctx c
  | .u8 c => constU8 ctx c
  | .u16 c => constU16 ctx c
  | .u32 c => constU32 ctx c
  | .u64 c => constU64 ctx c
  | .bool c => constBool ctx c
  | .char c => constChar ctx c
  | .float c => constFloat ctx c
  | .double c => constDouble ctx c
  | .addr c => constAddr ctx c
  | .funcAddr c proto => constFuncAddr ctx c proto
  | .func s proto => constFunc ctx s proto
  | .sym s => constSym ctx s
  | .str s => constStr ctx s
  | .label s => constLabel ctx s
  | .const val type => const ctx val type
  | .constEx val type optx => constEx ctx val type optx
  | .uniqueAddr addr => some (uniqueConstAddr ctx addr)

/-- A sequence of calls, with the references they return. -/
def run (ctx : Ctx) : List Call → Option (List ℤ × Ctx)
  | [] => some ([], ctx)
  | c :: calls => do
    let (ref, ctx) ← step ctx c
    let (refs, ctx) ← run ctx calls
    return (ref :: refs, ctx)

end IrJit.Consts
