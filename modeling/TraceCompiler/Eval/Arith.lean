import TraceCompiler.Trace.Opcode

/-! # Arithmetic of operations

What the operations on words compute: wrapping integers, divisions that truncate, shift counts
modulo 64, and doubles by their bits.
-/

namespace TraceCompiler.Eval

def quotient (a b : Word) : Word := Word.ofInt (Int.tdiv (Word.signed a) (Word.signed b))

def remainder (a b : Word) : Word := Word.ofInt (Int.tmod (Word.signed a) (Word.signed b))

def shiftRight (a b : Word) : Word := Word.ofInt (Word.signed a / Int.pow 2 (b.toNat % 64))

def signedTest (p : Int → Int → Bool) (a b : Word) : Word :=
  Word.ofBool (p (Word.signed a) (Word.signed b))

/-- The integer operations on two words that cannot fail, without those that can overflow. -/
def intResult? (o : Opcode) (a b : Word) : Option Word :=
  match o with
  | .intAdd => some (a + b)
  | .intSub => some (a - b)
  | .intMul => some (a * b)
  | .intAnd => some (a &&& b)
  | .intOr => some (a ||| b)
  | .intXor => some (a ^^^ b)
  | .intLshift => some (a <<< (b % 64))
  | .intRshift => some (shiftRight a b)
  | .uintRshift => some (a >>> (b % 64))
  | .intLt => some (signedTest (fun x y => x < y) a b)
  | .intLe => some (signedTest (fun x y => x ≤ y) a b)
  | .intEq | .ptrEq => some (Word.ofBool (a = b))
  | .intNe | .ptrNe => some (Word.ofBool (a ≠ b))
  | .intGt => some (signedTest (fun x y => y < x) a b)
  | .intGe => some (signedTest (fun x y => y ≤ x) a b)
  | .uintLt => some (Word.ofBool (a < b))
  | .uintLe => some (Word.ofBool (a ≤ b))
  | .uintGt => some (Word.ofBool (b < a))
  | .uintGe => some (Word.ofBool (b ≤ a))
  | _ => none

def isNegative (w : Word) : Bool := Word.signed w < 0

/-- A sum overflows when its sign differs from that of both operands. -/
def addOverflows (a b : Word) : Bool :=
  isNegative a == isNegative b && isNegative (a + b) != isNegative a

/-- A difference overflows when the signs of the operands differ and its own is not the first. -/
def subOverflows (a b : Word) : Bool :=
  isNegative a != isNegative b && isNegative (a - b) != isNegative a

/-- A product overflows when that of the magnitudes is beyond the range on its side of zero. -/
def mulOverflows (a b : Word) : Bool :=
  let m := (Word.signed a).natAbs * (Word.signed b).natAbs
  if isNegative a != isNegative b then 0x8000000000000000 < m else 0x8000000000000000 ≤ m

def overflowResult? (o : Opcode) (a b : Word) : Option (Word × Bool) :=
  match o with
  | .intAddOvf => some (a + b, addOverflows a b)
  | .intSubOvf => some (a - b, subOverflows a b)
  | .intMulOvf => some (a * b, mulOverflows a b)
  | _ => none

def floatResult? (o : Opcode) (a b : Word) : Option Word :=
  match o with
  | .floatAdd => some (Double.add a b)
  | .floatSub => some (Double.sub a b)
  | .floatMul => some (Double.mul a b)
  | .floatTruediv => some (Double.div a b)
  | .floatLt => some (Word.ofBool (Double.lt a b))
  | .floatLe => some (Word.ofBool (Double.le a b))
  | .floatEq => some (Word.ofBool (Double.eq a b))
  | .floatNe => some (Word.ofBool (!Double.eq a b))
  | .floatGt => some (Word.ofBool (Double.lt b a))
  | .floatGe => some (Word.ofBool (Double.le b a))
  | _ => none

def unaryResult? (o : Opcode) (a : Word) : Option Word :=
  match o with
  | .sameAsI | .sameAsR | .sameAsF => some a
  | .intNeg => some (0 - a)
  | .intInvert => some (a ^^^ 0xFFFFFFFFFFFFFFFF)
  | .intIsTrue => some (Word.ofBool (a ≠ 0))
  | .intIsZero => some (Word.ofBool (a = 0))
  | .floatNeg => some (Double.neg a)
  | .floatAbs => some (Double.abs a)
  | .castIntToFloat => some (Double.ofInt (Word.signed a))
  | .castFloatToInt => some (Double.truncate a)
  | _ => none

end TraceCompiler.Eval
