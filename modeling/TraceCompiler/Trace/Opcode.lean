import TraceCompiler.Trace.Value

/-! # Opcodes

Each opcode has a name, a signature and a few marks that say how it takes part in a trace: guards
and finish leave it, jump and finish end it, overflow operations hand a flag to the guard after
them.
-/

namespace TraceCompiler

/-- The operations of a trace, in the order of their codes. -/
inductive Opcode where
  /-- Code zero, which names no operation. -/
  | invalid
  | intAdd
  | intSub
  | intMul
  | intFloordiv
  | intMod
  | intAnd
  | intOr
  | intXor
  | intLshift
  | intRshift
  | uintRshift
  | intNeg
  | intInvert
  | intAddOvf
  | intSubOvf
  | intMulOvf
  | intLt
  | intLe
  | intEq
  | intNe
  | intGt
  | intGe
  | uintLt
  | uintLe
  | uintGt
  | uintGe
  | intIsTrue
  | intIsZero
  | ptrEq
  | ptrNe
  | floatAdd
  | floatSub
  | floatMul
  | floatTruediv
  | floatNeg
  | floatAbs
  | floatLt
  | floatLe
  | floatEq
  | floatNe
  | floatGt
  | floatGe
  | castFloatToInt
  | castIntToFloat
  | sameAsI
  | sameAsR
  | sameAsF
  | getfieldI
  | getfieldR
  | getfieldF
  | setfield
  | getarrayitemI
  | getarrayitemR
  | getarrayitemF
  | setarrayitem
  | arraylen
  | new
  | newWithVtable
  | newArray
  | callI
  | callR
  | callF
  | callN
  | guardTrue
  | guardFalse
  | guardValue
  | guardClass
  | guardNonnull
  | guardIsnull
  | guardNoOverflow
  | guardOverflow
  | jump
  | finish
  | debugMergePoint
  /-- A code `n` places beyond the last operation. -/
  | unassigned (n : Nat)
  deriving DecidableEq, Inhabited

namespace Opcode

def all : List Opcode :=
  [.intAdd, .intSub, .intMul, .intFloordiv, .intMod, .intAnd, .intOr, .intXor, .intLshift,
    .intRshift, .uintRshift, .intNeg, .intInvert, .intAddOvf, .intSubOvf, .intMulOvf, .intLt,
    .intLe, .intEq, .intNe, .intGt, .intGe, .uintLt, .uintLe, .uintGt, .uintGe, .intIsTrue,
    .intIsZero, .ptrEq, .ptrNe, .floatAdd, .floatSub, .floatMul, .floatTruediv, .floatNeg,
    .floatAbs, .floatLt, .floatLe, .floatEq, .floatNe, .floatGt, .floatGe, .castFloatToInt,
    .castIntToFloat, .sameAsI, .sameAsR, .sameAsF, .getfieldI, .getfieldR, .getfieldF, .setfield,
    .getarrayitemI, .getarrayitemR, .getarrayitemF, .setarrayitem, .arraylen, .new,
    .newWithVtable, .newArray, .callI, .callR, .callF, .callN, .guardTrue, .guardFalse,
    .guardValue, .guardClass, .guardNonnull, .guardIsnull, .guardNoOverflow, .guardOverflow,
    .jump, .finish, .debugMergePoint]

def count : Nat := all.length + 1

def name : Opcode → String
  | invalid => "invalid"
  | intAdd => "int_add"
  | intSub => "int_sub"
  | intMul => "int_mul"
  | intFloordiv => "int_floordiv"
  | intMod => "int_mod"
  | intAnd => "int_and"
  | intOr => "int_or"
  | intXor => "int_xor"
  | intLshift => "int_lshift"
  | intRshift => "int_rshift"
  | uintRshift => "uint_rshift"
  | intNeg => "int_neg"
  | intInvert => "int_invert"
  | intAddOvf => "int_add_ovf"
  | intSubOvf => "int_sub_ovf"
  | intMulOvf => "int_mul_ovf"
  | intLt => "int_lt"
  | intLe => "int_le"
  | intEq => "int_eq"
  | intNe => "int_ne"
  | intGt => "int_gt"
  | intGe => "int_ge"
  | uintLt => "uint_lt"
  | uintLe => "uint_le"
  | uintGt => "uint_gt"
  | uintGe => "uint_ge"
  | intIsTrue => "int_is_true"
  | intIsZero => "int_is_zero"
  | ptrEq => "ptr_eq"
  | ptrNe => "ptr_ne"
  | floatAdd => "float_add"
  | floatSub => "float_sub"
  | floatMul => "float_mul"
  | floatTruediv => "float_truediv"
  | floatNeg => "float_neg"
  | floatAbs => "float_abs"
  | floatLt => "float_lt"
  | floatLe => "float_le"
  | floatEq => "float_eq"
  | floatNe => "float_ne"
  | floatGt => "float_gt"
  | floatGe => "float_ge"
  | castFloatToInt => "cast_float_to_int"
  | castIntToFloat => "cast_int_to_float"
  | sameAsI => "same_as_i"
  | sameAsR => "same_as_r"
  | sameAsF => "same_as_f"
  | getfieldI => "getfield_gc_i"
  | getfieldR => "getfield_gc_r"
  | getfieldF => "getfield_gc_f"
  | setfield => "setfield_gc"
  | getarrayitemI => "getarrayitem_gc_i"
  | getarrayitemR => "getarrayitem_gc_r"
  | getarrayitemF => "getarrayitem_gc_f"
  | setarrayitem => "setarrayitem_gc"
  | arraylen => "arraylen_gc"
  | new => "new"
  | newWithVtable => "new_with_vtable"
  | newArray => "new_array"
  | callI => "call_i"
  | callR => "call_r"
  | callF => "call_f"
  | callN => "call_n"
  | guardTrue => "guard_true"
  | guardFalse => "guard_false"
  | guardValue => "guard_value"
  | guardClass => "guard_class"
  | guardNonnull => "guard_nonnull"
  | guardIsnull => "guard_isnull"
  | guardNoOverflow => "guard_no_overflow"
  | guardOverflow => "guard_overflow"
  | jump => "jump"
  | finish => "finish"
  | debugMergePoint => "debug_merge_point"
  | unassigned n => "Opcode(" ++ toString (count + n) ++ ")"

def code : Opcode → Nat
  | invalid => 0
  | unassigned n => count + n
  | o => all.idxOf o + 1

def ofCode : Nat → Opcode
  | 0 => invalid
  | n + 1 => (all[n]?).getD (unassigned (n + 1 - count))

def find? (s : String) : Option Opcode := all.find? fun o => o.name = s

/-- The kinds of the fixed arguments. Calls, jump and finish take any number. -/
def argKinds : Opcode → List Kind
  | intAdd | intSub | intMul | intFloordiv | intMod | intAnd | intOr | intXor | intLshift
  | intRshift | uintRshift | intAddOvf | intSubOvf | intMulOvf | intLt | intLe | intEq
  | intNe | intGt | intGe | uintLt | uintLe | uintGt | uintGe => [.int, .int]
  | intNeg | intInvert | intIsTrue | intIsZero | castIntToFloat | sameAsI | newArray
  | guardTrue | guardFalse => [.int]
  | ptrEq | ptrNe | guardClass => [.ref, .ref]
  | floatAdd | floatSub | floatMul | floatTruediv | floatLt | floatLe | floatEq | floatNe
  | floatGt | floatGe => [.float, .float]
  | floatNeg | floatAbs | castFloatToInt | sameAsF => [.float]
  | sameAsR | getfieldI | getfieldR | getfieldF | arraylen | newWithVtable | guardNonnull
  | guardIsnull => [.ref]
  | setfield => [.ref, .any]
  | getarrayitemI | getarrayitemR | getarrayitemF => [.ref, .int]
  | setarrayitem => [.ref, .int, .any]
  | guardValue => [.any, .any]
  | _ => []

def resultKind : Opcode → Kind
  | intAdd | intSub | intMul | intFloordiv | intMod | intAnd | intOr | intXor | intLshift
  | intRshift | uintRshift | intNeg | intInvert | intAddOvf | intSubOvf | intMulOvf | intLt
  | intLe | intEq | intNe | intGt | intGe | uintLt | uintLe | uintGt | uintGe | intIsTrue
  | intIsZero | ptrEq | ptrNe | floatLt | floatLe | floatEq | floatNe | floatGt | floatGe
  | castFloatToInt | sameAsI | getfieldI | getarrayitemI | arraylen | callI => .int
  | floatAdd | floatSub | floatMul | floatTruediv | floatNeg | floatAbs | castIntToFloat
  | sameAsF | getfieldF | getarrayitemF | callF => .float
  | sameAsR | getfieldR | getarrayitemR | new | newWithVtable | newArray | callR => .ref
  | _ => .void

def isGuard : Opcode → Bool
  | guardTrue | guardFalse | guardValue | guardClass | guardNonnull | guardIsnull
  | guardNoOverflow | guardOverflow => true
  | _ => false

def isFinal : Opcode → Bool
  | jump | finish => true
  | _ => false

def isComparison : Opcode → Bool
  | intLt | intLe | intEq | intNe | intGt | intGe | uintLt | uintLe | uintGt | uintGe
  | intIsTrue | intIsZero | ptrEq | ptrNe | floatLt | floatLe | floatEq | floatNe | floatGt
  | floatGe => true
  | _ => false

/-- Arithmetic that must be followed by an overflow guard. -/
def isOverflow : Opcode → Bool
  | intAddOvf | intSubOvf | intMulOvf => true
  | _ => false

/-- An operation whose descriptor says what it works on. -/
def needsDescr : Opcode → Bool
  | getfieldI | getfieldR | getfieldF | setfield | getarrayitemI | getarrayitemR
  | getarrayitemF | setarrayitem | arraylen | new | newWithVtable | newArray | callI | callR
  | callF | callN => true
  | _ => false

/-- An operation that runs native code and loses the caller-saved registers. -/
def isCall : Opcode → Bool
  | new | newWithVtable | newArray | callI | callR | callF | callN => true
  | _ => false

def isVariadic : Opcode → Bool
  | callI | callR | callF | callN | jump | finish => true
  | _ => false

def isValid : Opcode → Bool
  | invalid => false
  | unassigned _ => false
  | _ => true

def exitsTrace (o : Opcode) : Bool := o.isGuard || o = finish

def arity? (o : Opcode) : Option Nat := if o.isVariadic then none else some o.argKinds.length

def isOverflowGuard : Opcode → Bool
  | guardNoOverflow | guardOverflow => true
  | _ => false

end Opcode

end TraceCompiler
