import Mathlib.Data.Nat.Basic

/-!
# Core.Types — the value types of the IR (`ir.h`, `IR_TYPES`)

The order of the constructors is the order of the enumeration `ir_type`; the tests
`IR_IS_TYPE_INT`, `IR_IS_TYPE_SIGNED` and the table `ir_type_size` are those of the 64-bit targets.
-/

namespace IrJit

/-- `ir_type`. -/
inductive IrType
  | void | bool | u8 | u16 | u32 | u64 | addr | char | i8 | i16 | i32 | i64 | double | float
  deriving DecidableEq, Repr

namespace IrType

/-- `IR_IS_TYPE_INT`: every type before `IR_DOUBLE`. -/
def isInt : IrType → Bool
  | double | float => false
  | _ => true

/-- `IR_IS_TYPE_SIGNED`: from `IR_CHAR` to `IR_I64`. -/
def isSigned : IrType → Bool
  | char | i8 | i16 | i32 | i64 => true
  | _ => false

/-- `ir_type_size` (in bytes, `sizeof(void*) = 8`). -/
def size : IrType → ℕ
  | void => 0
  | bool | u8 | char | i8 => 1
  | u16 | i16 => 2
  | u32 | i32 | float => 4
  | u64 | addr | i64 | double => 8

theorem size_le (t : IrType) : t.size ≤ 8 := by cases t <;> decide

/-- Register class and size: what decides which bytes of which register file a move touches. -/
def kind (t : IrType) : Bool × ℕ := (t.isInt, t.size)

theorem isInt_of_kind {t u : IrType} (h : t.kind = u.kind) : t.isInt = u.isInt :=
  congrArg Prod.fst h

theorem size_of_kind {t u : IrType} (h : t.kind = u.kind) : t.size = u.size :=
  congrArg Prod.snd h

end IrType

end IrJit
