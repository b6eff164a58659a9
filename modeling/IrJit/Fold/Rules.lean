import IrJit.Fold.Engine

/-!
# Fold.Rules — the rules of `ir_fold.h`

One definition for each body, in the order of the file.  A pattern names the opcode of the question and
those of its operands, with `nop` for `_` and for an operand that is not there.
-/

namespace IrJit.Fold

/-! ## Constants (26–1570) -/

/-- The pairs of integer constants, and the single ones, that have a rule. -/
def hasIntRule (o o1 o2 : IrOp) : Bool :=
  let same := o1 = o2
  let one := o2 = .nop
  match o with
  | .eq | .ne | .lt | .ge | .le | .gt | .ult | .uge | .ule | .ugt =>
    same && (o1 = .cBool || o1 = .cChar || isUIA o1)
  | .add | .sub | .mul =>
    (same && isUIA o1) || (o1 = .cAddr && (o2 = .cI64 || o2 = .cU64)) ||
      ((o1 = .cI64 || o1 = .cU64) && o2 = .cAddr)
  | .div | .mod => same && isUIA o1
  | .neg | .abs => one && isI o1
  | .not => one && (o1 = .cBool || o1 = .cChar || isUI o1)
  | .or | .and | .xor => same && (o1 = .cBool || o1 = .cChar || isUI o1)
  | .shl | .shr | .sar | .rol | .ror => same && (o1 = .cChar || isUI o1)
  | .sext | .zext =>
    one && (o1 = .cI8 || o1 = .cU8 || o1 = .cBool || o1 = .cChar || o1 = .cI16 || o1 = .cU16 ||
      o1 = .cI32 || o1 = .cU32)
  | .trunc =>
    one && (o1 = .cI16 || o1 = .cI32 || o1 = .cI64 || o1 = .cU16 || o1 = .cU32 || o1 = .cU64)
  | .bitcast => one && (o1 = .cBool || o1 = .cChar || isUIA o1)
  | _ => false

def constants : Rule where
  pattern := hasIntRule
  body F _ q a b :=
    if q.op = .bitcast ∧ ¬q.type.isInt then .const (F.convert q.op q.type a.type a.val)
    else if q.op = .abs ∧ i64 a.val ≥ 0 then .copy q.op1
    else .ofOutcome (foldConst q.op q.type a.type b.type a.val b.val)

/-- The smaller or the larger of two constants; the signed types other than `char` are paired with
unsigned ones. -/
def minMaxConst : Rule where
  pattern o o1 o2 :=
    (o = .min || o = .max) && ((o1 = o2 && (o1 = .cBool || o1 = .cChar || isUA o1)) ||
      (o1 = .cI8 && o2 = .cU8) || (o1 = .cI16 && o2 = .cU16) || (o1 = .cI32 && o2 = .cU32) ||
      (o1 = .cI64 && o2 = .cU64))
  body _ _ q a b :=
    let x := if a.type.isSigned then i64 a.val else u64 a.val
    let y := if a.type.isSigned then i64 b.val else u64 b.val
    .copy (if (if q.op = .min then x ≤ y else x ≥ y) then q.op1 else q.op2)

/-- Comparisons of floating point constants; `ORDERED` and `UNORDERED` too. -/
def floatCompare : Rule where
  pattern o o1 o2 := (isCmp o || o = .ordered || o = .unordered) && isF o1 && o1 = o2
  body F _ q a b := .bool (F.compare q.op a.type a.val b.val)

def floatArith : Rule where
  pattern o o1 o2 := (o = .add || o = .sub || o = .mul || o = .div) && isF o1 && o1 = o2
  body F _ q a b := .const (F.arith q.op a.type a.val b.val)

def floatUnary : Rule where
  pattern o o1 o2 := (o = .neg || o = .abs) && isF o1 && o2 = .nop
  body F _ q a _ := .const (F.arith q.op a.type a.val 0)

def floatMinMax : Rule where
  pattern o o1 o2 := (o = .min || o = .max) && isF o1 && o1 = o2
  body F _ q a b :=
    .copy (if F.compare (if q.op = .min then .le else .ge) a.type a.val b.val then q.op1 else q.op2)

/-- `INT2FP`, `FP2INT`, `FP2FP` and `BITCAST` of a constant. -/
def floatConvert : Rule where
  pattern o o1 o2 :=
    o2 = .nop && ((o = .int2fp && isUI o1) || ((o = .fp2int || o = .fp2fp || o = .bitcast) && isF o1))
  body F _ q a _ :=
    if q.op = .fp2fp ∧ q.type = a.type then .copy q.op1
    else .const (F.convert q.op q.type a.type a.val)

/-- `EQ`, `LT`, `GE`, `LE`, `GT` with a floating point constant. -/
def compareNaN : Rule where
  pattern o o1 o2 := (o = .eq || o = .lt || o = .ge || o = .le || o = .gt) && o1 = .nop && isF o2
  body F _ _ _ b := if F.isNaN b.type b.val then .copy irFalse else .next

def neNaN : Rule where
  pattern o o1 o2 := o = .ne && o1 = .nop && isF o2
  body F _ _ _ b := if F.isNaN b.type b.val then .copy irTrue else .next

def orderedConst : Rule where
  pattern o o1 o2 := o = .ordered && o1 = .nop && isF o2
  body F c q _ b := if F.isNaN b.type b.val then .copy irFalse else .again c q q.op1 q.op1

def unorderedConst : Rule where
  pattern o o1 o2 := o = .unordered && o1 = .nop && isF o2
  body F c q _ b := if F.isNaN b.type b.val then .copy irTrue else .again c q q.op1 q.op1

/-- The largest value of a type of `n` bytes. -/
def maxU (n : ℕ) : ℤ := 2 ^ (8 * n) - 1
def maxI (n : ℕ) : ℤ := 2 ^ (8 * n - 1) - 1
def minI (n : ℕ) : ℤ := -maxI n - 1

def addOvU : Rule where
  pattern o o1 o2 := o = .addOv && isU o1 && o1 = o2
  body _ _ q a b :=
    -- `max - op2` is computed modulo 2 ^ 64
    if u64 a.val > toU 64 (maxU q.type.size - u64 b.val) then .next
    else .const (BitVec.ofInt 64 (u64 a.val + u64 b.val))

def addOvI : Rule where
  pattern o o1 o2 := o = .addOv && isI o1 && o1 = o2
  body _ _ q a b :=
    let x := i64 a.val
    let y := i64 b.val
    if (y > 0 ∧ x > maxI q.type.size - y) ∨ (y < 0 ∧ x < minI q.type.size - y) then .next
    else .const (BitVec.ofInt 64 (x + y))

def subOvU : Rule where
  pattern o o1 o2 := o = .subOv && isU o1 && o1 = o2
  body _ _ _ a b :=
    if u64 b.val > u64 a.val then .next else .const (BitVec.ofInt 64 (u64 a.val - u64 b.val))

def subOvI : Rule where
  pattern o o1 o2 := o = .subOv && isI o1 && o1 = o2
  body _ _ q a b :=
    let x := i64 a.val
    let y := i64 b.val
    if (y > 0 ∧ x < minI q.type.size + y) ∨ (y < 0 ∧ x > maxI q.type.size + y) then .next
    else .const (BitVec.ofInt 64 (x - y))

def mulOvU : Rule where
  pattern o o1 o2 := o = .mulOv && isU o1 && o1 = o2
  body _ _ q a b :=
    let res := toU 64 (u64 a.val * u64 b.val)
    if (u64 a.val ≠ 0 ∧ res.tdiv (u64 a.val) ≠ u64 b.val) ∨ res > maxU q.type.size then .next
    else .const (BitVec.ofInt 64 res)

def mulOvI : Rule where
  pattern o o1 o2 := o = .mulOv && isI o1 && o1 = o2
  body _ _ q a b :=
    let x := i64 a.val
    let y := i64 b.val
    let res := toI 64 (u64 a.val * u64 b.val)
    -- the quotient of `INT64_MIN` and -1 is undefined
    if x = -1 ∧ res = -2 ^ 63 then .undefined
    else if (x ≠ 0 ∧ res.tdiv x ≠ y) ∨ res < minI q.type.size ∨ res > maxI q.type.size then .next
    else .const (BitVec.ofInt 64 res)

def overflowOf : Rule where
  pattern o o1 o2 := o = .overflow && o1 = .nop && o2 = .nop
  body _ _ _ a _ :=
    if a.op ≠ .addOv ∧ a.op ≠ .subOv ∧ a.op ≠ .mulOv then .copy irFalse else .next

/-! ## Copies and conditions (1574–1622) -/

/-- `IR_COPY_HARD` is the lowest bit. -/
def copyRule : Rule where
  pattern o o1 o2 := o = .copy && o1 = .nop && o2 = .nop
  body _ _ q _ _ := if q.op2 % 2 = 0 then .copy q.op1 else .emit 0

def phiRule : Rule where
  pattern o o1 o2 := o = .phi && o1 = .nop && o2 = .nop
  body _ _ q _ _ := if q.op2 = q.op3 ∧ q.op3 ≠ 0 then .copy q.op2 else .emit 3

/-- `ir_const_is_true`. -/
def constIsTrue (F : FloatOps) (i : Insn) : Bool :=
  if i.op.isSymConst then true
  else if i.type = .bool then valB i.val
  else if i.type.isInt then i64 i.val ≠ 0
  else !F.isZero i.type i.val

def condConst : Rule where
  pattern o o1 o2 := o = .cond && o1.isConstOp && o2 = .nop
  body F _ q a _ := if constIsTrue F a then .copy q.op2 else .copy q.op3

def bitcastSame : Rule where
  pattern o o1 o2 := o = .bitcast && o1 = .nop && o2 = .nop
  body _ _ q a _ := if q.type = a.type then .copy q.op1 else .next

/-! ## Absolute values, negations and comparisons with constants (1624–1950) -/

def absAbs : Rule where
  pattern o o1 o2 := o = .abs && o1 = .abs && o2 = .nop
  body _ _ q _ _ := .copy q.op1

/-- `abs(neg(y)) => abs(y)`. -/
def absNeg : Rule where
  pattern o o1 o2 := o = .abs && o1 = .neg && o2 = .nop
  body _ c q a _ := .restart c { q with op1 := a.op1 }

/-- `f(f(y)) => y`. -/
def involution : Rule where
  pattern o o1 o2 := (o = .neg || o = .not || o = .bswap) && o1 = o && o2 = .nop
  body _ _ _ a _ := .copy a.op1

def eqBool : Rule where
  pattern o o1 o2 := o = .eq && o1 = .nop && o2 = .cBool
  body _ c q _ _ := if q.op2 = irTrue then .copy q.op1 else .unary c q .not .bool q.op1

def neBool : Rule where
  pattern o o1 o2 := o = .ne && o1 = .nop && o2 = .cBool
  body _ c q _ _ := if q.op2 ≠ irTrue then .copy q.op1 else .unary c q .not .bool q.op1

/-- The value of a constant, read with the size and the sign of a type. -/
def readAs (t : IrType) (v : Val) : Val :=
  if t.isSigned then
    match t.size with
    | 1 => BitVec.ofInt 64 (i8 v)
    | 2 => BitVec.ofInt 64 (i16 v)
    | 4 => BitVec.ofInt 64 (i32 v)
    | _ => v
  else
    match t.size with
    | 1 => BitVec.ofInt 64 (u8 v)
    | 2 => BitVec.ofInt 64 (u16 v)
    | 4 => BitVec.ofInt 64 (u32 v)
    | _ => v

/-- `NE 1` and `EQ 0` of a converted boolean. -/
def isNegation (op : IrOp) (v : Val) : Bool := (op = .ne && v = 1) || (op = .eq && v = 0)

/-- `NE 0` and `EQ 1` of a converted boolean. -/
def isIdentity (op : IrOp) (v : Val) : Bool := (op = .ne && v = 0) || (op = .eq && v = 1)

def cmpBitcast : Rule where
  pattern o o1 o2 := (o = .eq || o = .ne) && o1 = .bitcast && (isUIA o2 || o2 = .cChar)
  body _ c q a b :=
    let t := (c.insn a.op1).type
    if t = .bool then
      if isNegation q.op b.val then .unary c q .not .bool a.op1
      else if isIdentity q.op b.val then .copy a.op1
      else .next
    else if t.isInt then .withConst c q q.op a.op1 (readAs t b.val) t
    else .next

/-- `C_U16 .. C_U64`, `C_I16 .. C_I64` and `C_ADDR`. -/
def isWide (o : IrOp) : Bool := isUIA o && o ≠ .cU8 && o ≠ .cI8

/-- The answer when the constant is out of the range of the narrow type. -/
def outOfRange (op : IrOp) (v : Val) : Reply :=
  match op with
  | .eq | .ugt | .uge => .copy irFalse
  | .ne | .ult | .ule => .copy irTrue
  | .gt | .ge => .copy (if i64 v ≥ 0 then irFalse else irTrue)
  | .lt | .le => .copy (if i64 v ≥ 0 then irTrue else irFalse)
  | _ => .next

def cmpExt : Rule where
  pattern o o1 o2 :=
    isWide o2 && (((o = .eq || o = .ne) && (o1 = .zext || o1 = .sext)) ||
      ((o = .ult || o = .uge || o = .ule || o = .ugt) && o1 = .zext) ||
      ((o = .lt || o = .ge || o = .le || o = .gt) && o1 = .sext))
  body _ c q a b :=
    if c.shared q.op1 then .next
    else
      let t := (c.insn a.op1).type
      if t = .bool ∧ isNegation q.op b.val then .unary c q .not .bool a.op1
      else if t = .bool ∧ isIdentity q.op b.val then .copy a.op1
      else if b.val >>> (t.size * 8) ≠ 0 ∧
          (a.op ≠ .sext ∨ b.val.sshiftRight (t.size * 8) ≠ BitVec.ofInt 64 (-1)) then
        outOfRange q.op b.val
      else .withConst c q q.op a.op1 (readAs t b.val) t

def cmpExtExt : Rule where
  pattern o o1 o2 :=
    o1 = o2 && (((o = .eq || o = .ne) && (o1 = .zext || o1 = .sext)) ||
      ((o = .ult || o = .uge || o = .ule || o = .ugt) && o1 = .zext) ||
      ((o = .lt || o = .ge || o = .le || o = .gt) && o1 = .sext))
  body _ c q a b :=
    if (c.insn a.op1).type = (c.insn b.op1).type ∧ ¬c.shared q.op1 ∧ ¬c.shared q.op2 then
      .again c q a.op1 b.op1
    else .next

def orderZextZext : Rule where
  pattern o o1 o2 := (o = .lt || o = .ge || o = .le || o = .gt) && o1 = .zext && o2 = .zext
  body _ c q a b :=
    if (c.insn a.op1).type = (c.insn b.op1).type ∧ ¬c.shared q.op1 ∧ ¬c.shared q.op2 then
      .restart c { q with op := plusFour q.op, op1 := a.op1, op2 := b.op1 }
    else .next

def notCmp : Rule where
  pattern o o1 o2 := o = .not && (isCmp o1 || o1 = .ordered || o1 = .unordered) && o2 = .nop
  body _ c q a _ :=
    if (c.insn a.op1).type.isInt then
      .restart c { q with op := xorOne a.op, type := a.type, op1 := a.op1, op2 := a.op2 }
    else .next

/-- `(a - b) == 0 => a == b`, only with use lists. -/
def eqSub : Rule where
  pattern o o1 o2 := (o = .eq || o = .ne) && o1 = .sub && isUIA o2
  body _ c q a b :=
    if c.useLists.isSome ∧ ¬c.shared q.op1 ∧ b.val = 0 then .again c q a.op1 a.op2 else .next

/-! ## Sums and differences (1952–2263) -/

/-- `a + 0 => a` and `a - 0 => a`. -/
def addZero : Rule where
  pattern o o1 o2 :=
    (o = .add || o = .sub || o = .addOv || o = .subOv) && o1 = .nop && isUIA o2
  body _ c q a b :=
    if b.val = 0 then
      if a.type ≠ q.type then .unary c q .bitcast q.type q.op1 else .copy q.op1
    else .next

/-- `0 + a => a`. -/
def zeroAdd : Rule where
  pattern o o1 o2 := o = .add && isUIA o1 && o2 = .nop
  body _ c q a b :=
    if a.val = 0 then
      if b.type ≠ q.type then .unary c q .bitcast q.type q.op2 else .copy q.op2
    else .next

/-- `0 - a => -a`. -/
def zeroSub : Rule where
  pattern o o1 o2 := o = .sub && isI o1 && o2 = .nop
  body _ c q a _ := if a.val = 0 then .unary c q .neg q.type q.op2 else .next

def ugeZero : Rule where
  pattern o o1 o2 := o = .uge && o1 = .nop && isUIA o2
  body _ _ _ _ b := if b.val = 0 then .copy irTrue else .next

def ugtZero : Rule where
  pattern o o1 o2 := o = .ugt && o1 = .nop && isUIA o2
  body _ c q _ b := if b.val = 0 then .restart c { q with op := .ne, type := .bool } else .next

def ultZero : Rule where
  pattern o o1 o2 := o = .ult && o1 = .nop && isUIA o2
  body _ _ _ _ b := if b.val = 0 then .copy irFalse else .next

def uleZero : Rule where
  pattern o o1 o2 := o = .ule && o1 = .nop && isUIA o2
  body _ c q _ b := if b.val = 0 then .restart c { q with op := .eq, type := .bool } else .next

/-- `(-a) + b => b - a`. -/
def addNeg : Rule where
  pattern o o1 o2 := o = .add && o1 = .neg && o2 = .nop
  body _ c q a _ := .restart c { q with op := succ q.op, op1 := q.op2, op2 := a.op1 }

/-- `a + (-b) => a - b`. -/
def addSubNeg : Rule where
  pattern o o1 o2 := (o = .add || o = .sub) && o1 = .nop && o2 = .neg
  body _ c q _ b := .restart c { q with op := xorOne q.op, op2 := b.op1 }

/-- A value that replaces the question: the type may have to be changed. -/
def castOr (c : Ctx) (q : Question) (r : ℤ) : Reply :=
  if (c.insn r).type ≠ q.type then .unary c q .bitcast q.type r else .copy r

/-- `(a - b) + b => a`. -/
def subThenAdd : Rule where
  pattern o o1 o2 := o = .add && o1 = .sub && o2 = .nop
  body _ c q a _ := if q.type.isInt ∧ a.op2 = q.op2 then castOr c q a.op1 else .next

/-- `a + (b - a) => b`. -/
def addOfSub : Rule where
  pattern o o1 o2 := o = .add && o1 = .nop && o2 = .sub
  body _ c q _ b := if q.type.isInt ∧ b.op2 = q.op1 then castOr c q b.op1 else .next

/-- `(a + b) - a => b`. -/
def addThenSub : Rule where
  pattern o o1 o2 := o = .sub && o1 = .add && o2 = .nop
  body _ c q a _ :=
    if q.type.isInt then
      if a.op1 = q.op2 then castOr c q a.op2
      else if a.op2 = q.op2 then castOr c q a.op1
      else .next
    else .next

/-- `a - (a + b) => -b`. -/
def subOfAdd : Rule where
  pattern o o1 o2 := o = .sub && o1 = .nop && o2 = .add
  body _ c q _ b :=
    if q.type.isInt then
      if b.op1 = q.op1 then .unary c q .neg q.type b.op2
      else if b.op2 = q.op1 then .unary c q .neg q.type b.op1
      else .next
    else .next

/-- `(a - b) - a => -b`. -/
def subThenSub : Rule where
  pattern o o1 o2 := o = .sub && o1 = .sub && o2 = .nop
  body _ c q a _ :=
    if q.type.isInt ∧ a.op1 = q.op2 then .unary c q .neg q.type a.op2 else .next

/-- `a - (a - b) => b`. -/
def subOfSub : Rule where
  pattern o o1 o2 := o = .sub && o1 = .nop && o2 = .sub
  body _ c q _ b := if q.type.isInt ∧ b.op1 = q.op1 then castOr c q b.op2 else .next

/-- `b - c` with both operands in the type of the question. -/
def castBoth (c : Ctx) (q : Question) (r s : ℤ) : Reply :=
  let (c₁, r') := c.cast r q.type
  let (c₂, s') := c₁.cast s q.type
  .again c₂ q r' s'

/-- `(a + b) - (a + c) => b - c`. -/
def subAddAdd : Rule where
  pattern o o1 o2 := o = .sub && o1 = .add && o2 = .add
  body _ c q a b :=
    if q.type.isInt then
      if q.op1 = q.op2 then .const 0
      else if a.op1 = b.op1 then castBoth c q a.op2 b.op2
      else if a.op1 = b.op2 then castBoth c q a.op2 b.op1
      else if a.op2 = b.op1 then castBoth c q a.op1 b.op2
      else if a.op2 = b.op2 then castBoth c q a.op1 b.op1
      else .next
    else .next

/-! ## Products, quotients and remainders (2267–2485) -/

def mulDivNegConst : Rule where
  pattern o o1 o2 := (o = .mul || o = .div) && o1 = .neg && isI o2
  body _ c q a b := .withConst c q q.op a.op1 (-b.val) b.type

/-- `val.f = x` keeps the high half of `val`. -/
def setFloat (stale : Val) (x : BitVec 32) : Val := stale.extractLsb' 32 32 ++ x

def mulDivNegFloat : Rule where
  pattern o o1 o2 := (o = .mul || o = .div) && o1 = .neg && o2 = .cFloat
  body F c q a b :=
    .withConst c q q.op a.op1 (setFloat F.stale (b.val.setWidth 32 ^^^ 0x80000000)) b.type

def mulDivNegDouble : Rule where
  pattern o o1 o2 := (o = .mul || o = .div) && o1 = .neg && o2 = .cDouble
  body _ c q a b := .withConst c q q.op a.op1 (b.val ^^^ 0x8000000000000000) b.type

def mulU : Rule where
  pattern o o1 o2 := o = .mul && o1 = .nop && isUA o2
  body _ _ q _ b := if b.val = 0 then .copy q.op2 else if b.val = 1 then .copy q.op1 else .next

def mulI : Rule where
  pattern o o1 o2 := o = .mul && o1 = .nop && isI o2
  body _ c q _ b :=
    if b.val = 0 then .copy q.op2
    else if b.val = 1 then .copy q.op1
    else if b.val = BitVec.ofInt 64 (-1) then .unary c q .neg q.type q.op1
    else .next

/-- 1.0, 2.0 and -1.0 as a `double` and as a `float`. -/
def oneD : Val := 0x3ff0000000000000
def twoD : Val := 0x4000000000000000
def minusOneD : Val := 0xbff0000000000000
def oneF : BitVec 32 := 0x3f800000
def twoF : BitVec 32 := 0x40000000
def minusOneF : BitVec 32 := 0xbf800000

def mulDouble : Rule where
  pattern o o1 o2 := o = .mul && o1 = .nop && o2 = .cDouble
  body _ c q _ b :=
    if b.val = oneD then .copy q.op1
    else if b.val = twoD then .restart c { q with op := .add, op2 := q.op1 }
    else if b.val = minusOneD then .unary c q .neg q.type q.op1
    else .next

def mulFloat : Rule where
  pattern o o1 o2 := o = .mul && o1 = .nop && o2 = .cFloat
  body _ c q _ b :=
    let f := b.val.setWidth 32
    if f = oneF then .copy q.op1
    else if f = twoF then .restart c { q with op := .add, op2 := q.op1 }
    else if f = minusOneF then .unary c q .neg q.type q.op1
    else .next

/-- `a / C => a >> log2(C)`. -/
def divU : Rule where
  pattern o o1 o2 := o = .div && o1 = .nop && isU o2
  body _ c q _ b :=
    if b.val = 1 then .copy q.op1
    else if isPowerOfTwo b.val then .withConst c q .shr q.op1 (log2 b.val) q.type
    else .next

def divI : Rule where
  pattern o o1 o2 := o = .div && o1 = .nop && isI o2
  body _ c q a b :=
    if b.val = 1 then .copy q.op1
    else if b.val = BitVec.ofInt 64 (-1) then .unary c q .neg q.type q.op1
    else if isPowerOfTwo b.val ∧ a.op = .zext then .withConst c q .shr q.op1 (log2 b.val) q.type
    else .next

/-- `a % C => a & (C - 1)`. -/
def modConst : Rule where
  pattern o o1 o2 := o = .mod && o1 = .nop && isUI o2
  body _ c q a b :=
    if b.val = 1 then .const 0
    else if isPowerOfTwo b.val ∧ (¬q.type.isSigned ∨ a.op = .zext) then
      .withConst c q .and q.op1 (b.val - 1) q.type
    else .next

def divDouble : Rule where
  pattern o o1 o2 := o = .div && o1 = .nop && o2 = .cDouble
  body _ c q _ b :=
    if b.val = oneD then .copy q.op1
    else if b.val = minusOneD then .unary c q .neg q.type q.op1
    else .next

def divFloat : Rule where
  pattern o o1 o2 := o = .div && o1 = .nop && o2 = .cFloat
  body _ c q _ b :=
    let f := b.val.setWidth 32
    if f = oneF then .copy q.op1
    else if f = minusOneF then .unary c q .neg q.type q.op1
    else .next

def mulDivNegNeg : Rule where
  pattern o o1 o2 := (o = .mul || o = .div) && o1 = .neg && o2 = .neg
  body _ c q a b := .again c q a.op1 b.op1

/-! ## Bitwise operations and shifts with constants (2487–2790) -/

def andBool : Rule where
  pattern o o1 o2 := o = .and && o1 = .nop && o2 = .cBool
  body _ _ q _ b := if valB b.val then .copy q.op1 else .copy q.op2

def orBool : Rule where
  pattern o o1 o2 := o = .or && o1 = .nop && o2 = .cBool
  body _ _ q _ b := if valB b.val then .copy q.op2 else .copy q.op1

def xorBool : Rule where
  pattern o o1 o2 := o = .xor && o1 = .nop && o2 = .cBool
  body _ c q _ b := if ¬valB b.val then .copy q.op1 else .unary c q .not q.type q.op1

/-- The bodies for `AND`, `OR` and `XOR` with a constant of `w` bits. -/
def andBody (w : ℕ) (q : Question) (b : Insn) : Reply :=
  let v := b.val.setWidth w
  if v = 0 then .copy q.op2 else if v = BitVec.allOnes w then .copy q.op1 else .next

def orBody (w : ℕ) (q : Question) (b : Insn) : Reply :=
  let v := b.val.setWidth w
  if v = BitVec.allOnes w then .copy q.op2 else if v = 0 then .copy q.op1 else .next

def xorBody (w : ℕ) (c : Ctx) (q : Question) (b : Insn) : Reply :=
  let v := b.val.setWidth w
  if v = 0 then .copy q.op1
  else if v = BitVec.allOnes w then .unary c q .not q.type q.op1
  else .next

/-- The constants whose member of `w` bits the rules read. -/
def isWidth8 (o : IrOp) : Bool := o = .cU8 || o = .cI8 || o = .cChar
def isWidth16 (o : IrOp) : Bool := o = .cU16 || o = .cI16
def isWidth32 (o : IrOp) : Bool := o = .cU32 || o = .cI32
def isWidth64 (o : IrOp) : Bool := o = .cU64 || o = .cI64

def and8 : Rule where
  pattern o o1 o2 := o = .and && o1 = .nop && isWidth8 o2
  body _ _ q _ b := andBody 8 q b

def and16 : Rule where
  pattern o o1 o2 := o = .and && o1 = .nop && isWidth16 o2
  body _ _ q _ b := andBody 16 q b

def and32 : Rule where
  pattern o o1 o2 := o = .and && o1 = .nop && isWidth32 o2
  body _ _ q _ b := andBody 32 q b

def and64 : Rule where
  pattern o o1 o2 := o = .and && o1 = .nop && isWidth64 o2
  body _ _ q _ b := andBody 64 q b

def or8 : Rule where
  pattern o o1 o2 := o = .or && o1 = .nop && isWidth8 o2
  body _ _ q _ b := orBody 8 q b

def or16 : Rule where
  pattern o o1 o2 := o = .or && o1 = .nop && isWidth16 o2
  body _ _ q _ b := orBody 16 q b

def or32 : Rule where
  pattern o o1 o2 := o = .or && o1 = .nop && isWidth32 o2
  body _ _ q _ b := orBody 32 q b

def or64 : Rule where
  pattern o o1 o2 := o = .or && o1 = .nop && isWidth64 o2
  body _ _ q _ b := orBody 64 q b

def xor8 : Rule where
  pattern o o1 o2 := o = .xor && o1 = .nop && isWidth8 o2
  body _ c q _ b := xorBody 8 c q b

def xor16 : Rule where
  pattern o o1 o2 := o = .xor && o1 = .nop && isWidth16 o2
  body _ c q _ b := xorBody 16 c q b

def xor32 : Rule where
  pattern o o1 o2 := o = .xor && o1 = .nop && isWidth32 o2
  body _ c q _ b := xorBody 32 c q b

def xor64 : Rule where
  pattern o o1 o2 := o = .xor && o1 = .nop && isWidth64 o2
  body _ c q _ b := xorBody 64 c q b

/-- `a << 0 => a`, `a << 1 => a + a`. -/
def shlConst : Rule where
  pattern o o1 o2 := o = .shl && o1 = .nop && isUI o2
  body _ c q _ b :=
    if b.val = 0 then .copy q.op1
    else if b.val = 1 then .restart c { q with op := .add, op2 := q.op1 }
    else .next

def shiftZero : Rule where
  pattern o o1 o2 := (o = .shr || o = .sar || o = .rol || o = .ror) && o1 = .nop && isUI o2
  body _ _ q _ b := if b.val = 0 then .copy q.op1 else .next

def zeroShift : Rule where
  pattern o o1 o2 := (o = .shl || o = .shr) && isUI o1 && o2 = .nop
  body _ _ q a _ := if a.val = 0 then .copy q.op1 else .next

/-- The bodies for `SAR`, `ROL` and `ROR` of a constant of `w` bits. -/
def fixedBody (w : ℕ) (q : Question) (a : Insn) : Reply :=
  let v := a.val.setWidth w
  if v = 0 ∨ v = BitVec.allOnes w then .copy q.op1 else .next

def isSarRolRor (o : IrOp) : Bool := o = .sar || o = .rol || o = .ror

def fixed8 : Rule where
  pattern o o1 o2 := isSarRolRor o && (o1 = .cU8 || o1 = .cI8) && o2 = .nop
  body _ _ q a _ := fixedBody 8 q a

def fixed16 : Rule where
  pattern o o1 o2 := isSarRolRor o && isWidth16 o1 && o2 = .nop
  body _ _ q a _ := fixedBody 16 q a

def fixed32 : Rule where
  pattern o o1 o2 := isSarRolRor o && isWidth32 o1 && o2 = .nop
  body _ _ q a _ := fixedBody 32 q a

def fixed64 : Rule where
  pattern o o1 o2 := isSarRolRor o && isWidth64 o1 && o2 = .nop
  body _ _ q a _ := fixedBody 64 q a

/-! ## Conversions and masks (2792–3209) -/

def ltAbs : Rule where
  pattern o o1 o2 := o = .lt && o1 = .abs && (isI o2 || isF o2)
  body _ _ _ _ b := if b.val = 0 then .copy irFalse else .next

def geAbs : Rule where
  pattern o o1 o2 := o = .ge && o1 = .abs && (isI o2 || isF o2)
  body _ _ _ _ b := if b.val = 0 then .copy irTrue else .next

def fp2fpTwice : Rule where
  pattern o o1 o2 := o = .fp2fp && o1 = .fp2fp && o2 = .nop
  body _ _ q a _ := if q.type = .float then .copy a.op1 else .next

def fp2intInt2fp : Rule where
  pattern o o1 o2 := o = .fp2int && o1 = .int2fp && o2 = .nop
  body _ c q a _ :=
    let src := (c.insn a.op1).type
    if src.size ≥ a.type.size then .next
    else if src = q.type then .copy a.op1
    else .next

def truncExt : Rule where
  pattern o o1 o2 := o = .trunc && (o1 = .zext || o1 = .sext) && o2 = .nop
  body _ c q a _ :=
    let src := (c.insn a.op1).type
    if src = q.type then .copy a.op1
    else if src.size = q.type.size then .restart c { q with op := .bitcast, op1 := a.op1 }
    else if src.size > q.type.size then .restart c { q with op := .trunc, op1 := a.op1 }
    else .restart c { q with op := a.op, op1 := a.op1 }

def convertBitcast : Rule where
  pattern o o1 o2 := (o = .trunc || o = .zext || o = .sext) && o1 = .bitcast && o2 = .nop
  body _ c q a _ :=
    if (c.insn a.op1).type.isInt then .restart c { q with op1 := a.op1 } else .next

def bitcastTwice : Rule where
  pattern o o1 o2 := o = .bitcast && o1 = .bitcast && o2 = .nop
  body _ c q a _ :=
    let src := (c.insn a.op1).type
    if src = q.type then .copy a.op1
    else if src.isInt = q.type.isInt then .restart c { q with op1 := a.op1 }
    else .next

def convertTwice : Rule where
  pattern o o1 o2 := (o = .trunc || o = .zext || o = .sext) && o1 = o && o2 = .nop
  body _ c q a _ := .restart c { q with op1 := a.op1 }

def sextZext : Rule where
  pattern o o1 o2 := o = .sext && o1 = .zext && o2 = .nop
  body _ c q a _ := .restart c { q with op := .zext, op1 := a.op1 }

/-- `SEXT(AND(_, 0b0*)) -> ZEXT(AND(_, 0b0*))`. -/
def sextAnd : Rule where
  pattern o o1 o2 := o = .sext && o1 = .and && o2 = .nop
  body _ c q a _ :=
    if c.isNumber a.op2 ∧ (c.insn a.op2).val.getLsbD (a.type.size * 8 - 1) = false then
      .restart c { q with op := .zext }
    else .next

def sextShr : Rule where
  pattern o o1 o2 := o = .sext && o1 = .shr && o2 = .nop
  body _ c q a _ :=
    if c.isNumber a.op2 ∧ (c.insn a.op2).val ≠ 0 then .restart c { q with op := .zext } else .next

def truncAnd : Rule where
  pattern o o1 o2 := o = .trunc && o1 = .and && o2 = .nop
  body _ c q a _ :=
    let mask := (c.insn a.op2).val
    if a.op2 < 0 ∧ ((q.type.size = 1 ∧ mask = 0xff) ∨ (q.type.size = 2 ∧ mask = 0xffff) ∨
        (q.type.size = 4 ∧ mask = 0xffffffff)) then
      .restart c { q with op1 := a.op1 }
    else .next

/-- The mask keeps exactly the bits of a type of `n` bytes. -/
def masksTo (n : ℕ) (v : Val) : Bool :=
  (n = 1 && v = 0xff) || (n = 2 && v = 0xffff) || (n = 4 && v = 0xffffffff)

def andZext : Rule where
  pattern o o1 o2 := o = .and && o1 = .zext && isWide o2
  body _ c q a b := if masksTo (c.insn a.op1).type.size b.val then .copy q.op1 else .next

def andSext : Rule where
  pattern o o1 o2 := o = .and && o1 = .sext && isWide o2
  body _ c q a b :=
    if masksTo (c.insn a.op1).type.size b.val then .unary c q .zext q.type a.op1 else .next

/-- `((uintN_t)-1) >> (count & (N - 1))`. -/
def onesShr (w : ℕ) (count : Val) : BitVec w := BitVec.allOnes w >>> (count.toNat % w)

/-- `((uintN_t)-1) << (count & (N - 1))`; the 8- and 16-bit operands are promoted to `int`. -/
def onesShl (w : ℕ) (count : Val) : ℤ :=
  if w < 32 then (2 ^ w - 1) * 2 ^ (count.toNat % w)
  else ((BitVec.allOnes w <<< (count.toNat % w)).toNat : ℤ)

/-- `(x >> N) & (0xff >> N) => x >> N`. -/
def andShrBody (w : ℕ) (c : Ctx) (q : Question) (a b : Insn) : Reply :=
  if a.op2 < 0 ∧ onesShr w (c.insn a.op2).val = b.val.setWidth w then .copy q.op1 else .next

/-- `(x << N) & (0xff << N) => x << N`. -/
def andShlBody (w : ℕ) (c : Ctx) (q : Question) (a b : Insn) : Reply :=
  if a.op2 < 0 ∧ onesShl w (c.insn a.op2).val = (b.val.setWidth w).toNat then .copy q.op1 else .next

/-- `(x & (0xff >> N)) << N => x << N`. -/
def shlAndBody (w : ℕ) (c : Ctx) (q : Question) (a b : Insn) : Reply :=
  if a.op2 < 0 ∧ onesShr w b.val = (c.insn a.op2).val.setWidth w then
    .restart c { q with op1 := a.op1 }
  else .next

/-- `(x & (0xff << N)) >> N => x >> N`. -/
def shrAndBody (w : ℕ) (c : Ctx) (q : Question) (a b : Insn) : Reply :=
  if a.op2 < 0 ∧ onesShl w b.val = ((c.insn a.op2).val.setWidth w).toNat then
    .restart c { q with op1 := a.op1 }
  else .next

def andShr8 : Rule where
  pattern o o1 o2 := o = .and && o1 = .shr && (o2 = .cI8 || o2 = .cU8)
  body _ := andShrBody 8

def andShr16 : Rule where
  pattern o o1 o2 := o = .and && o1 = .shr && isWidth16 o2
  body _ := andShrBody 16

def andShr32 : Rule where
  pattern o o1 o2 := o = .and && o1 = .shr && isWidth32 o2
  body _ := andShrBody 32

def andShr64 : Rule where
  pattern o o1 o2 := o = .and && o1 = .shr && isWidth64 o2
  body _ := andShrBody 64

def andShl8 : Rule where
  pattern o o1 o2 := o = .and && o1 = .shl && (o2 = .cI8 || o2 = .cU8)
  body _ := andShlBody 8

def andShl16 : Rule where
  pattern o o1 o2 := o = .and && o1 = .shl && isWidth16 o2
  body _ := andShlBody 16

def andShl32 : Rule where
  pattern o o1 o2 := o = .and && o1 = .shl && isWidth32 o2
  body _ := andShlBody 32

def andShl64 : Rule where
  pattern o o1 o2 := o = .and && o1 = .shl && isWidth64 o2
  body _ := andShlBody 64

def shlAnd8 : Rule where
  pattern o o1 o2 := o = .shl && o1 = .and && (o2 = .cI8 || o2 = .cU8)
  body _ := shlAndBody 8

def shlAnd16 : Rule where
  pattern o o1 o2 := o = .shl && o1 = .and && isWidth16 o2
  body _ := shlAndBody 16

def shlAnd32 : Rule where
  pattern o o1 o2 := o = .shl && o1 = .and && isWidth32 o2
  body _ := shlAndBody 32

def shlAnd64 : Rule where
  pattern o o1 o2 := o = .shl && o1 = .and && isWidth64 o2
  body _ := shlAndBody 64

def shrAnd8 : Rule where
  pattern o o1 o2 := o = .shr && o1 = .and && (o2 = .cI8 || o2 = .cU8)
  body _ := shrAndBody 8

def shrAnd16 : Rule where
  pattern o o1 o2 := o = .shr && o1 = .and && isWidth16 o2
  body _ := shrAndBody 16

def shrAnd32 : Rule where
  pattern o o1 o2 := o = .shr && o1 = .and && isWidth32 o2
  body _ := shrAndBody 32

def shrAnd64 : Rule where
  pattern o o1 o2 := o = .shr && o1 = .and && isWidth64 o2
  body _ := shrAndBody 64

def cmpFp2fp : Rule where
  pattern o o1 o2 := isCmp o && o1 = .fp2fp && o2 = .cDouble
  body F c q a b :=
    if F.fitsFloat b.val then
      .withConst c q q.op a.op1 (F.convert .fp2fp .float .double b.val) .float
    else .next

/-! ## Reassociation (3211–3611) -/

/-- `val.i64 < 0 && val.i64 != INT64_MIN`. -/
def isNegative (v : Val) : Bool := i64 v < 0 && i64 v ≠ -2 ^ 63

/-- `(x + c1) + c2 => x + (c1 + c2)`. -/
def addAddConst : Rule where
  pattern o o1 o2 := o = .add && o1 = .add && isUIA o2
  body _ c q a b :=
    if c.isNumber a.op2 then .withConst c q q.op a.op1 ((c.insn a.op2).val + b.val) b.type else .next

/-- `(c1 - x) + c2 => (c1 + c2) - x`. -/
def constSubAdd (c : Ctx) (q : Question) (a b : Insn) : Reply :=
  if c.isNumber a.op1 then
    .constWith c q (succ q.op) ((c.insn a.op1).val + b.val) b.type a.op2
  else .next

/-- `(x - c1) + c2 => x + (c2 - c1)`. -/
def addSubU : Rule where
  pattern o o1 o2 := o = .add && o1 = .sub && isUA o2
  body _ c q a b :=
    if c.isNumber a.op2 then .withConst c q q.op a.op1 (b.val - (c.insn a.op2).val) b.type
    else constSubAdd c q a b

def addSubI : Rule where
  pattern o o1 o2 := o = .add && o1 = .sub && isI o2
  body _ c q a b :=
    if c.isNumber a.op2 then
      let v := b.val - (c.insn a.op2).val
      if isNegative v then .withConst c q (succ q.op) a.op1 (-v) b.type
      else .withConst c q q.op a.op1 v b.type
    else constSubAdd c q a b

/-- `(x + c1) - c2 => x + (c1 - c2)`. -/
def subAddU : Rule where
  pattern o o1 o2 := o = .sub && o1 = .add && isUA o2
  body _ c q a b :=
    if c.isNumber a.op2 then .withConst c q .add a.op1 ((c.insn a.op2).val - b.val) b.type else .next

def subAddI : Rule where
  pattern o o1 o2 := o = .sub && o1 = .add && isI o2
  body _ c q a b :=
    if c.isNumber a.op2 then
      let v := (c.insn a.op2).val - b.val
      if isNegative v then .withConst c q q.op a.op1 (-v) b.type
      else .withConst c q .add a.op1 v b.type
    else .next

/-- `c1 - (x + c2) => (c1 - c2) - x`. -/
def subConstAdd : Rule where
  pattern o o1 o2 := o = .sub && isUIA o1 && o2 = .add
  body _ c q a b :=
    if c.isNumber b.op2 then .constWith c q q.op (a.val - (c.insn b.op2).val) b.type b.op1 else .next

/-- `(x - c1) - c2 => x - (c1 + c2)` and `(c1 - x) - c2 => (c1 - c2) - x`; both sign classes test
`val.i64`. -/
def subSubConst : Rule where
  pattern o o1 o2 := o = .sub && o1 = .sub && isUIA o2
  body _ c q a b :=
    if c.isNumber a.op2 then
      let v := (c.insn a.op2).val + b.val
      if isNegative v then .withConst c q .add a.op1 (-v) b.type
      else .withConst c q q.op a.op1 v b.type
    else if c.isNumber a.op1 then
      .constWith c q q.op ((c.insn a.op1).val - b.val) b.type a.op2
    else .next

/-- `c1 - (x - c2) => (c1 + c2) - x` and `c1 - (c2 - x) => x + (c1 - c2)`; the opcode of the second
is left as it is, or incremented. -/
def subConstSub : Rule where
  pattern o o1 o2 := o = .sub && isUIA o1 && o2 = .sub
  body _ c q a b :=
    if c.isNumber b.op2 then .constWith c q q.op (a.val + (c.insn b.op2).val) a.type b.op1
    else if c.isNumber b.op1 then
      let v := a.val - (c.insn b.op1).val
      if isNegative v then .withConst c q (succ q.op) b.op2 (-v) a.type
      else .withConst c q q.op b.op2 v a.type
    else .next

/-- `(x * c1) * c2 => x * (c1 * c2)`. -/
def mulMulConst : Rule where
  pattern o o1 o2 := o = .mul && o1 = .mul && isUIA o2
  body _ c q a b :=
    if c.isNumber a.op2 then .withConst c q q.op a.op1 ((c.insn a.op2).val * b.val) b.type else .next

def andAndConst : Rule where
  pattern o o1 o2 := o = .and && o1 = .and && isUIA o2
  body _ c q a b :=
    if c.isNumber a.op2 then .withConst c q q.op a.op1 ((c.insn a.op2).val &&& b.val) b.type
    else .next

def orOrConst : Rule where
  pattern o o1 o2 := o = .or && o1 = .or && isUIA o2
  body _ c q a b :=
    if c.isNumber a.op2 then .withConst c q q.op a.op1 ((c.insn a.op2).val ||| b.val) b.type
    else .next

def xorXorConst : Rule where
  pattern o o1 o2 := o = .xor && o1 = .xor && isUIA o2
  body _ c q a b :=
    if c.isNumber a.op2 then .withConst c q q.op a.op1 ((c.insn a.op2).val ^^^ b.val) b.type
    else .next

def absorb : Rule where
  pattern o o1 o2 := (o = .and || o = .or || o = .min || o = .max) && o1 = o && o2 = .nop
  body _ _ q a _ := if a.op1 = q.op2 ∨ a.op2 = q.op2 then .copy q.op2 else .next

def xorXor : Rule where
  pattern o o1 o2 := o = .xor && o1 = .xor && o2 = .nop
  body _ _ q a _ :=
    if a.op1 = q.op2 then .copy a.op2 else if a.op2 = q.op2 then .copy a.op1 else .next

/-- `r` is `width - s`. -/
def isComplement (c : Ctx) (t : IrType) (r s : ℤ) : Bool :=
  let i := c.insn r
  i.op = .sub && i.op1 < 0 && i.op2 = s && (c.insn i.op1).val = BitVec.ofNat 64 (t.size * 8)

/-- `(x << c) | (x >> (32 - c)) -> ROL(x, c)`. -/
def rotate : Rule where
  pattern o o1 o2 := (o = .or || o = .add) && ((o1 = .shl && o2 = .shr) || (o1 = .shr && o2 = .shl))
  body _ c q a b :=
    let rot (i : Insn) : Reply :=
      .restart c { q with op := plusThree i.op, type := i.type, op1 := i.op1, op2 := i.op2 }
    if a.op1 = b.op1 then
      if a.op2 < 0 ∧ b.op2 < 0 then
        if (c.insn a.op2).val + (c.insn b.op2).val = BitVec.ofNat 64 (q.type.size * 8) then rot a
        else .next
      else if isComplement c q.type b.op2 a.op2 then rot a
      else if isComplement c q.type a.op2 b.op2 then rot b
      else .next
    else .next

/-! ## Any operands (3613–3821) -/

/-- The patterns of `swap_ops` itself. -/
def swapAny : Rule where
  pattern o o1 o2 := (o = .mul || o = .ordered || o = .unordered) && o1 = .nop && o2 = .nop
  body _ c q _ _ := swapOps c q

def swapOv : Rule where
  pattern o o1 o2 := (o = .addOv || o = .mulOv) && o1 = .nop && o2 = .nop
  body _ c q _ _ := if q.op1 < q.op2 then .again c q q.op2 q.op1 else .emit 0

/-- `a + a => a * 2`. -/
def addAny : Rule where
  pattern o o1 o2 := o = .add && o1 = .nop && o2 = .nop
  body _ c q _ _ :=
    if q.type.isInt ∧ q.op1 = q.op2 then .withConst c q .mul q.op1 2 q.type else swapOps c q

def subAny : Rule where
  pattern o o1 o2 := o = .sub && o1 = .nop && o2 = .nop
  body _ _ q _ _ := if q.type.isInt ∧ q.op1 = q.op2 then .const 0 else .next

def subOvAny : Rule where
  pattern o o1 o2 := o = .subOv && o1 = .nop && o2 = .nop
  body _ _ q _ _ := if q.op1 = q.op2 then .const 0 else .emit 0

def idempotent : Rule where
  pattern o o1 o2 := (o = .and || o = .or || o = .min || o = .max) && o1 = .nop && o2 = .nop
  body _ c q _ _ := if q.op1 = q.op2 then .copy q.op1 else swapOps c q

def xorAny : Rule where
  pattern o o1 o2 := o = .xor && o1 = .nop && o2 = .nop
  body _ c q _ _ := if q.op1 = q.op2 then .const 0 else swapOps c q

def eqAny : Rule where
  pattern o o1 o2 := (o = .eq || o = .ne) && o1 = .nop && o2 = .nop
  body _ c q a _ :=
    if q.op1 ≠ q.op2 then swapOps c q
    else if a.type.isInt then .bool (q.op = .eq)
    else .next

/-- `a >= a => true`: `(opt ^ (opt >> 1)) & 1`. -/
def holdsOfEqual (o : IrOp) : Bool := o = .ge || o = .le || o = .uge || o = .ule

/-- `[U]LT <-> [U]GT`, `[U]LE <-> [U]GE`. -/
def swapOrder (c : Ctx) (q : Question) : Reply :=
  if q.op1 < q.op2 then .restart c { q with op := xorThree q.op, op1 := q.op2, op2 := q.op1 }
  else .next

def orderAny : Rule where
  pattern o o1 o2 := (o = .lt || o = .ge || o = .le || o = .gt) && o1 = .nop && o2 = .nop
  body _ c q a _ :=
    if q.op1 = q.op2 then
      if a.type.isInt then .bool (holdsOfEqual q.op) else .next
    else swapOrder c q

def unsignedOrderAny : Rule where
  pattern o o1 o2 := (o = .ult || o = .uge || o = .ule || o = .ugt) && o1 = .nop && o2 = .nop
  body _ c q _ _ := if q.op1 = q.op2 then .bool (holdsOfEqual q.op) else swapOrder c q

/-- `COND` of a boolean. -/
def condBool (c : Ctx) (q : Question) (b : Insn) : Reply :=
  if q.op2 = irTrue then
    if q.op3 = irFalse then .copy q.op1
    else .restart c { q with op := .or, type := .bool, op2 := q.op3, op3 := 0 }
  else if q.op3 = irFalse then .restart c { q with op := .and, type := .bool, op3 := 0 }
  else if q.op2 = irFalse then
    if q.op3 = irTrue then
      .restart c { q with op := .not, type := .bool, op2 := 0, op3 := 0 }
    else .next
  else if q.type.isInt ∧ q.op2 < 0 ∧ q.op3 < 0 ∧ b.val = 1 ∧ (c.insn q.op3).val = 0 then
    .restart c { q with op := if q.type.size > 1 then .zext else .bitcast, op2 := 0, op3 := 0 }
  else .next

/-- `COND` of another integer type. -/
def condInt (c : Ctx) (q : Question) (a : Insn) : Reply :=
  if q.op2 = irTrue ∧ q.op3 = irFalse then
    .withConst c { q with type := .bool, op3 := 0 } .ne q.op1 0 a.type
  else if q.op2 = irFalse ∧ q.op3 = irTrue then
    .withConst c { q with type := .bool, op3 := 0 } .eq q.op1 0 a.type
  else .next

/-- `COND` of a comparison with zero. -/
def condCompare (c : Ctx) (q : Question) (a : Insn) : Reply :=
  let i := c.insn a.op2
  if a.op = .ne ∧ a.op2 < 0 ∧ i.type.isInt ∧ i.val = 0 then .restart c { q with op1 := a.op1 }
  else if a.op = .eq ∧ a.op2 < 0 ∧ i.type.isInt ∧ i.val = 0 then
    .restart c { q with op1 := a.op1, op2 := q.op3, op3 := q.op2 }
  else .next

/-- The second attempt is made when the first one finds nothing. -/
def Reply.orElse : Reply → Reply → Reply
  | .next, r => r
  | r, _ => r

def condAny : Rule where
  pattern o o1 o2 := o = .cond && o1 = .nop && o2 = .nop
  body _ c q a b :=
    if q.op2 = q.op3 then .copy q.op2
    else
      (if a.type = .bool then condBool c q b else if a.type.isInt then condInt c q a else .next).orElse
        (condCompare c q a)

/-! ## The loop of `ir_folding` (`ir.c`, 971–1028)

A question is looked up under four keys, from both operands to none; the first rule that answers
decides.  A rule that restarts the engine asks another question, in a context that may have more
constants and more instructions. -/

/-- The rules of `ir_fold.h` that answer or pass on, in the order of the file. -/
def answering : List Rule :=
  [constants, minMaxConst, floatCompare, floatArith, floatUnary, floatMinMax, floatConvert,
    compareNaN, neNaN, addOvU, addOvI, subOvU, subOvI, mulOvU, mulOvI, overflowOf, copyRule,
    phiRule, condConst, bitcastSame, absAbs, involution, ugeZero, ultZero, mulU, andBool, orBool,
    and8, and16, and32, and64, or8, or16, or32, or64, shiftZero, zeroShift, fixed8, fixed16,
    fixed32, fixed64, ltAbs, geAbs, fp2fpTwice, fp2intInt2fp, andZext, andShr8, andShr16, andShr32,
    andShr64, andShl8, andShl16, andShl32, andShl64, absorb, xorXor, subAny, subOvAny]

/-- The rules that may ask another question. -/
def restarting : List Rule :=
  [orderedConst, unorderedConst, absNeg, eqBool, neBool, cmpBitcast, cmpExt, cmpExtExt,
    orderZextZext, notCmp, eqSub, addZero, zeroAdd, zeroSub, ugtZero, uleZero, addNeg, addSubNeg,
    subThenAdd, addOfSub, addThenSub, subOfAdd, subThenSub, subOfSub, subAddAdd, mulDivNegConst,
    mulDivNegFloat, mulDivNegDouble, mulI, mulDouble, mulFloat, divU, divI, modConst, divDouble,
    divFloat, mulDivNegNeg, xorBool, xor8, xor16, xor32, xor64, shlConst, truncExt, convertBitcast,
    bitcastTwice, convertTwice, sextZext, sextAnd, sextShr, truncAnd, andSext, shlAnd8, shlAnd16,
    shlAnd32, shlAnd64, shrAnd8, shrAnd16, shrAnd32, shrAnd64, cmpFp2fp, addAddConst, addSubU,
    addSubI, subAddU, subAddI, subConstAdd, subSubConst, subConstSub, mulMulConst, andAndConst,
    orOrConst, xorXorConst, rotate, swapAny, swapOv, addAny, idempotent, xorAny, eqAny, orderAny,
    unsignedOrderAny, condAny]

/-- No key fits two rules, so that their order does not matter. -/
def rules : List Rule := answering ++ restarting

/-- `_ir_fold_hash`. -/
def findRule (o o1 o2 : IrOp) : Option Rule := rules.find? fun r => r.pattern o o1 o2

variable (F : FloatOps)

/-- One round of the loop over the masks. -/
def attempt (c : Ctx) (q : Question) (o1 o2 : IrOp) : Reply :=
  match findRule q.op o1 o2 with
  | some r => r.body F c q (c.insn q.op1) (c.insn q.op2)
  | none => .next

/-- The keys `op2/op1/op`, `op2/_/op`, `_/op1/op` and `_/_/op`; `next` is the way to the CSE. -/
def dispatch (c : Ctx) (q : Question) : Reply :=
  let o1 := (c.insn q.op1).op
  let o2 := (c.insn q.op2).op
  (attempt F c q o1 o2).orElse <| (attempt F c q .nop o2).orElse <|
    (attempt F c q o1 .nop).orElse <| attempt F c q .nop .nop

/-- `ir_folding` with at most `n` questions: the context, the last question and the answer to it.  With
use lists a restart is left to the caller. -/
def folding : ℕ → Ctx → Question → Option (Ctx × Question × Reply)
  | 0, _, _ => none
  | n + 1, c, q =>
    match dispatch F c q with
    | .restart c' q' =>
      if c'.useLists.isNone then folding n c' q' else some (c', q', .restart c' q')
    | r => some (c, q, r)

end IrJit.Fold
