import TraceCompiler.Number.Word

/-! # IEEE double precision on bit patterns

A word is read as sign, biased exponent and fraction.
-/

namespace TraceCompiler.Double

def negative (w : Word) : Bool := 0x8000000000000000 ≤ w.toNat

def magnitudeBits (w : Word) : Nat := w.toNat % 0x8000000000000000

def infinityBits : Nat := 0x7ff0000000000000

/-- Not a number: the exponent is all ones and the fraction is not zero. -/
def isNaN (w : Word) : Bool := infinityBits < magnitudeBits w

def isInfinite (w : Word) : Bool := magnitudeBits w = infinityBits

def isZero (w : Word) : Bool := magnitudeBits w = 0

def ofMagnitude (neg : Bool) (bits : Nat) : Word := (bits + if neg then 0x8000000000000000 else 0).toUInt64

def infinity (neg : Bool) : Word := ofMagnitude neg infinityBits

def zero (neg : Bool) : Word := ofMagnitude neg 0

/-- What an invalid operation on numbers yields. -/
def defaultNaN : Word := 0xfff8000000000000

/-- What reading the text `nan` yields. -/
def textNaN : Word := 0x7ff8000000000001

def quiet (w : Word) : Word := w ||| 0x0008000000000000

/-- The natural `m` of a finite number `± m · 2^q`. -/
def mantissa (w : Word) : Nat :=
  let e : Nat := magnitudeBits w / 0x10000000000000
  let f : Nat := magnitudeBits w % 0x10000000000000
  if e = 0 then f else 0x10000000000000 + f

/-- The integer `q` of a finite number `± m · 2^q`. -/
def exponent (w : Word) : Int :=
  let e : Nat := magnitudeBits w / 0x10000000000000
  if e = 0 then -1074 else (e : Int) - 1075

def divRound (num den : Nat) : Nat :=
  let q := num / den
  let r := num % den
  if 2 * r < den then q else if den < 2 * r then q + 1 else if q % 2 = 0 then q else q + 1

/-- The double nearest to `num / den`, ties to the even mantissa, beyond the range an infinity. -/
def ofQuotient (neg : Bool) (num den : Nat) : Word :=
  if num = 0 then zero neg
  else
    let k : Int := (num.log2 : Int) - den.log2
    let scaled (q : Int) : Nat × Nat := (num * Nat.pow 2 (-q).toNat, den * Nat.pow 2 q.toNat)
    let q0 : Int := max (k - 53) (-1074)
    let q : Int := if (scaled q0).1 / (scaled q0).2 < 0x20000000000000 then q0 else q0 + 1
    let m := divRound (scaled q).1 (scaled q).2
    let bits := if m < 0x10000000000000 then m else (q + 1074).toNat * 0x10000000000000 + m
    if infinityBits ≤ bits then infinity neg else ofMagnitude neg bits

def ofScaled (neg : Bool) (m : Nat) (q : Int) : Word :=
  ofQuotient neg (m * Nat.pow 2 q.toNat) (Nat.pow 2 (-q).toNat)

/-- The first operand that is not a number, made quiet. -/
def propagated (a b : Word) : Word := if isNaN a then quiet a else quiet b

/-- Exact sum of two finite numbers, rounded once. A zero sum is negative only for two negative
zeros. -/
def addFinite (a b : Word) : Word :=
  let q := min (exponent a) (exponent b)
  let term (w : Word) : Int :=
    let m : Int := mantissa w * Int.pow 2 (exponent w - q).toNat
    if negative w then -m else m
  let s := term a + term b
  if s = 0 then zero (negative a && negative b && isZero a && isZero b)
  else ofScaled (s < 0) s.natAbs q

def add (a b : Word) : Word :=
  if isNaN a || isNaN b then propagated a b
  else if isInfinite a then
    if isInfinite b && negative a != negative b then defaultNaN else a
  else if isInfinite b then b
  else addFinite a b

def neg (w : Word) : Word := w ^^^ 0x8000000000000000

def abs (w : Word) : Word := w &&& 0x7fffffffffffffff

def sub (a b : Word) : Word :=
  if isNaN a || isNaN b then propagated a b else add a (neg b)

def mul (a b : Word) : Word :=
  let s := negative a != negative b
  if isNaN a || isNaN b then propagated a b
  else if isInfinite a || isInfinite b then
    if isZero a || isZero b then defaultNaN else infinity s
  else ofScaled s (mantissa a * mantissa b) (exponent a + exponent b)

def div (a b : Word) : Word :=
  let s := negative a != negative b
  if isNaN a || isNaN b then propagated a b
  else if isInfinite a then if isInfinite b then defaultNaN else infinity s
  else if isInfinite b then zero s
  else if isZero b then if isZero a then defaultNaN else infinity s
  else
    let q := exponent a - exponent b
    ofQuotient s (mantissa a * Nat.pow 2 q.toNat) (mantissa b * Nat.pow 2 (-q).toNat)

/-- Where a number stands in the order of the reals: both zeros at 0. -/
def orderKey (w : Word) : Int :=
  if negative w then -(magnitudeBits w : Int) else magnitudeBits w

def unordered (a b : Word) : Bool := isNaN a || isNaN b

def lt (a b : Word) : Bool := !unordered a b && decide (orderKey a < orderKey b)

def le (a b : Word) : Bool := !unordered a b && decide (orderKey a ≤ orderKey b)

def eq (a b : Word) : Bool := !unordered a b && decide (orderKey a = orderKey b)

def ofInt (i : Int) : Word := ofQuotient (i < 0) i.natAbs 1

/-- Truncation toward zero to a signed word; what does not fit, and what is not a number, becomes
the least integer. -/
def truncate (w : Word) : Word :=
  let least : Word := 0x8000000000000000
  if isNaN w || isInfinite w then least
  else
    let n := mantissa w * Nat.pow 2 (exponent w).toNat / Nat.pow 2 (-exponent w).toNat
    let i : Int := if negative w then -(n : Int) else n
    if -0x8000000000000000 ≤ i ∧ i < 0x8000000000000000 then Word.ofInt i else least

end TraceCompiler.Double
