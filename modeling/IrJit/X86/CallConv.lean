import IrJit.Core.Types
import Mathlib.Data.Nat.Bitwise
import Mathlib.Data.Int.Notation

/-!
# X86.CallConv — calling conventions of x86-64 (`ir_private.h`, 1402–1422; `ir_x86.dasc`, 1039–1104)

Only the fields that decide where arguments go.  The counts `int_param_regs_count` and
`fp_param_regs_count` are the lengths of the tables.
-/

namespace IrJit.X86

/-- `ir_reg`. -/
inductive Reg
  | rax | rcx | rdx | rbx | rsp | rbp | rsi | rdi | r8 | r9 | r10 | r11 | r12 | r13 | r14 | r15
  | xmm (n : Fin 16)
  deriving DecidableEq

/-- `ir_call_conv_dsc`. -/
structure CallConvDsc where
  cleanupStackByCallee : Bool
  passStructByVal : Bool
  shadowParamRegs : Bool
  shadowStoreSize : ℕ
  intParamRegs : List Reg
  fpParamRegs : List Reg
  preservedRegs : List Reg

/-- `ir_call_conv_x86_64_ms`. -/
def msDsc : CallConvDsc where
  cleanupStackByCallee := false
  passStructByVal := false
  shadowParamRegs := true
  shadowStoreSize := 32
  intParamRegs := [.rcx, .rdx, .r8, .r9]
  fpParamRegs := [.xmm 0, .xmm 1, .xmm 2, .xmm 3]
  preservedRegs := [.rbx, .rbp, .rsi, .rdi, .r12, .r13, .r14, .r15, .xmm 6, .xmm 7, .xmm 8, .xmm 9,
    .xmm 10, .xmm 11, .xmm 12, .xmm 13, .xmm 14, .xmm 15]

/-- `ir_call_conv_x86_64_sysv`. -/
def sysvDsc : CallConvDsc where
  cleanupStackByCallee := false
  passStructByVal := true
  shadowParamRegs := false
  shadowStoreSize := 0
  intParamRegs := [.rdi, .rsi, .rdx, .rcx, .r8, .r9]
  fpParamRegs := [.xmm 0, .xmm 1, .xmm 2, .xmm 3, .xmm 4, .xmm 5, .xmm 6, .xmm 7]
  preservedRegs := [.rbx, .rbp, .r12, .r13, .r14, .r15]

/-- `ir_call_conv_x86_64_preserve_none`. -/
def preserveNoneDsc : CallConvDsc where
  cleanupStackByCallee := false
  passStructByVal := true
  shadowParamRegs := false
  shadowStoreSize := 0
  intParamRegs := [.r12, .r13, .r14, .r15, .rdi, .rsi, .rdx, .rcx, .r8, .r9, .r11, .rax]
  fpParamRegs := [.xmm 0, .xmm 1, .xmm 2, .xmm 3, .xmm 4, .xmm 5, .xmm 6, .xmm 7]
  preservedRegs := [.rbp]

/-- `IR_CC_X86_64_SYSV`, `IR_CC_X86_64_MS` and `IR_CC_PRESERVE_NONE`. -/
inductive CallConv
  | sysv | ms | preserveNone
  deriving DecidableEq

/-- `ir_get_call_conv_dsc`. -/
def CallConv.dsc : CallConv → CallConvDsc
  | .sysv => sysvDsc
  | .ms => msDsc
  | .preserveNone => preserveNoneDsc

/-- `IR_ALIGNED_SIZE`: the bits of `alignment - 1` are cleared, whether or not it is a power of two. -/
def alignedSize (size alignment : ℕ) : ℕ :=
  let x := size + (alignment - 1)
  x - (x &&& (alignment - 1))

theorem le_alignedSize (size alignment : ℕ) : size ≤ alignedSize size alignment := by
  have h : (size + (alignment - 1)) &&& (alignment - 1) ≤ alignment - 1 := Nat.and_le_right
  simp only [alignedSize]
  omega

/-- An argument of a call: its type, the size and alignment of an `ARGVAL` (it is an address) and what
the register allocator says about it. -/
structure Arg where
  type : IrType
  argval : Option (ℕ × ℕ)
  isConst : Bool
  reg : Option Reg
  spilled : Bool
  addr : argval.isSome → type = .addr

/-- A `PARAM`: its type and the entry of `value_params` (with an alignment other than zero). -/
structure Param where
  type : IrType
  valueParam : Option (ℕ × ℕ)

/-- The parameter that an argument is for.  An alignment of zero is stored as one. -/
def Arg.param (a : Arg) : Param where
  type := a.type
  valueParam := a.argval.map fun (size, align) => (size, if align = 0 then 1 else align)

/-- Where an argument is: a register, or a number of bytes of memory. -/
inductive Loc
  | reg (r : Reg)
  | stack (address : ℤ) (size : ℕ)
  deriving DecidableEq

/-- Two locations share nothing. -/
def Loc.Disjoint : Loc → Loc → Prop
  | .reg r, .reg r' => r ≠ r'
  | .stack a n, .stack b m => a + n ≤ b ∨ b + m ≤ a
  | _, _ => True

/-- The bytes of a location on the stack are in the area of `n` bytes from `sp` on. -/
def Loc.Inside (sp : ℤ) (n : ℕ) : Loc → Prop
  | .reg _ => True
  | .stack a m => sp ≤ a ∧ a + m ≤ sp + n

/-- The counters of a walk over the arguments or parameters. -/
structure Counters where
  intParam : ℕ
  fpParam : ℕ
  stackOffset : ℕ

/-- `int_param++; if (cc->shadow_param_regs) fp_param++;`. -/
def Counters.nextInt (cc : CallConvDsc) (s : Counters) : Counters :=
  { s with intParam := s.intParam + 1, fpParam := s.fpParam + if cc.shadowParamRegs then 1 else 0 }

/-- `fp_param++; if (cc->shadow_param_regs) int_param++;`. -/
def Counters.nextFp (cc : CallConvDsc) (s : Counters) : Counters :=
  { s with fpParam := s.fpParam + 1, intParam := s.intParam + if cc.shadowParamRegs then 1 else 0 }

/-- `stack_offset += n`. -/
def Counters.push (s : Counters) (n : ℕ) : Counters := { s with stackOffset := s.stackOffset + n }

/-- The offset of a structure: at least the alignment of a pointer. -/
def Counters.structOffset (s : Counters) (align : ℕ) : ℕ := alignedSize s.stackOffset (max 8 align)

/-- `stack_offset` after a structure. -/
def Counters.pushStruct (s : Counters) (size align : ℕ) : Counters :=
  { s with stackOffset := alignedSize (s.structOffset align + size) 8 }

end IrJit.X86
