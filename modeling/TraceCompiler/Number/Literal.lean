import TraceCompiler.Number.Double
import TraceCompiler.Text.Printable

/-! # Number literals

Integers are written in decimal or behind a base mark (`0b`, `0o`, `0x`, or a leading `0` for
octal), with single underscores allowed between digits.
-/

namespace TraceCompiler.Literal

inductive Fault where
  | malformed
  | outOfRange
  deriving DecidableEq

inductive Reader where
  | signed
  | unsigned
  | plain
  | real
  deriving DecidableEq

structure Error where
  reader : Reader
  text : String
  fault : Fault
  deriving DecidableEq

def Reader.name : Reader → String
  | .signed => "ParseInt"
  | .unsigned => "ParseUint"
  | .plain => "Atoi"
  | .real => "ParseFloat"

def Fault.text : Fault → String
  | .malformed => "invalid syntax"
  | .outOfRange => "value out of range"

def Error.message (e : Error) : String :=
  "strconv." ++ e.reader.name ++ ": parsing " ++ Text.quoted e.text ++ ": " ++ e.fault.text

def lower (c : Char) : Char := if 'A' ≤ c ∧ c ≤ 'Z' then Char.ofNat (c.toNat + 32) else c

inductive Before where
  | start
  | digit
  | underscore
  | other
  deriving DecidableEq

def underscoresOk (cs : List Char) : Bool :=
  let cs := match cs with
    | '+' :: r => r
    | '-' :: r => r
    | _ => cs
  let scan (isHex : Bool) (b : Before) (cs : List Char) : Option Before :=
    cs.foldlM (fun b c =>
      if c.isDigit || (isHex && 'a' ≤ lower c && lower c ≤ 'f') then some .digit
      else if c = '_' then if b = .digit then some .underscore else none
      else if b = .underscore then none
      else some .other) b
  let final := match cs with
    | '0' :: m :: r =>
      if lower m = 'b' || lower m = 'o' || lower m = 'x' then scan (lower m = 'x') .digit r
      else scan false .start cs
    | _ => scan false .start cs
  match final with
  | none => false
  | some b => b ≠ .underscore

/-- Digits to a number below `2^64`, underscores skipped when allowed. -/
def readDigits (base : Nat) (underscores : Bool) : Nat → List Char → Except Fault Nat
  | n, [] => .ok n
  | n, c :: cs =>
    if c = '_' && underscores then readDigits base underscores n cs
    else match Text.digitValue? base c with
      | none => .error .malformed
      | some d =>
        if n * base + d < 0x10000000000000000 then readDigits base underscores (n * base + d) cs
        else .error .outOfRange

def readMarked (cs : List Char) : Except Fault Nat := do
  let n ← match cs with
    | [] => .error .malformed
    | '0' :: m :: d :: r =>
      if lower m = 'b' then readDigits 2 true 0 (d :: r)
      else if lower m = 'o' then readDigits 8 true 0 (d :: r)
      else if lower m = 'x' then readDigits 16 true 0 (d :: r)
      else readDigits 8 true 0 (m :: d :: r)
    | '0' :: r => readDigits 8 true 0 r
    | _ => readDigits 10 true 0 cs
  if cs.contains '_' && !underscoresOk cs then .error .malformed else .ok n

def splitSign : List Char → Bool × List Char
  | '-' :: r => (true, r)
  | '+' :: r => (false, r)
  | cs => (false, cs)

def withSign (read : List Char → Except Fault Nat) (cs : List Char) : Except Fault Int :=
  let (neg, rest) := splitSign cs
  match read rest with
  | .error e => .error e
  | .ok n =>
    if neg then if n ≤ 0x8000000000000000 then .ok (-(n : Int)) else .error .outOfRange
    else if n < 0x8000000000000000 then .ok n else .error .outOfRange

def readSigned (s : String) : Except Error Int :=
  (withSign readMarked s.toList).mapError fun f => ⟨.signed, s, f⟩

def readUnsigned (s : String) : Except Error Nat :=
  (readMarked s.toList).mapError fun f => ⟨.unsigned, s, f⟩

def readPlain (s : String) : Except Error Int :=
  let digits (cs : List Char) : Except Fault Nat :=
    if cs.isEmpty then .error .malformed else readDigits 10 false 0 cs
  (withSign digits s.toList).mapError fun f => ⟨.plain, s, f⟩

def specialWord? (cs : List Char) : Option Word :=
  let word := String.ofList (cs.map lower)
  if word = "nan" then some Double.textNaN
  else if word = "inf" || word = "+inf" || word = "infinity" || word = "+infinity" then
    some (Double.infinity false)
  else if word = "-inf" || word = "-infinity" then some (Double.infinity true)
  else none

structure Mantissa where
  value : Nat := 0
  places : Nat := 0
  digits : Nat := 0
  point : Bool := false

def readMantissa (base : Nat) : Mantissa → List Char → Mantissa × List Char
  | m, [] => (m, [])
  | m, c :: cs =>
    if c = '_' then readMantissa base m cs
    else if c = '.' then
      if m.point then (m, c :: cs) else readMantissa base { m with point := true } cs
    else match Text.digitValue? base c with
      | some d => readMantissa base
          { m with
            value := m.value * base + d
            digits := m.digits + 1
            places := if m.point then m.places + 1 else m.places } cs
      | none => (m, c :: cs)

/-- Exponent digits; beyond five the value no longer grows. -/
def readExponentDigits (cs : List Char) : Option Nat :=
  match cs with
  | [] => none
  | c :: _ =>
    if !c.isDigit then none
    else cs.foldlM (fun e c =>
      if c = '_' then some e
      else if c.isDigit then some (if e < 10000 then e * 10 + (c.toNat - '0'.toNat) else e)
      else none) 0

/-- The number `value · radix^scale` rounded to a double. Far outside the range of the exponents
the answer needs no computation. -/
def scaledDouble (neg : Bool) (value : Nat) (radix : Nat) (scale : Int) : Word :=
  let size : Int := (value.log2 : Int) + scale * (if radix = 2 then 1 else 3)
  if value = 0 then Double.zero neg
  else if scale > 0 ∧ size > 1100 then Double.infinity neg
  else if scale < 0 ∧ size < -1200 then Double.zero neg
  else Double.ofQuotient neg (value * Nat.pow radix scale.toNat) (Nat.pow radix (-scale).toNat)

def readDigitsReal (cs : List Char) : Except Fault Word := do
  let (neg, rest) := splitSign cs
  let (isHex, body) : Bool × List Char := match rest with
    | '0' :: m :: d :: r => if lower m = 'x' then (true, d :: r) else (false, rest)
    | _ => (false, rest)
  let (m, tail) := readMantissa (if isHex then 16 else 10) {} body
  if m.digits = 0 then throw .malformed
  let mark := if isHex then 'p' else 'e'
  let exp : Int ← match tail with
    | [] => if isHex then throw .malformed else pure 0
    | c :: r =>
      if lower c ≠ mark then throw .malformed
      else
        let (eneg, digits) := splitSign r
        match readExponentDigits digits with
        | none => throw .malformed
        | some e => pure (if eneg then -(e : Int) else e)
  if cs.contains '_' && !underscoresOk cs then throw .malformed
  let w :=
    if isHex then scaledDouble neg m.value 2 (exp - 4 * m.places)
    else scaledDouble neg m.value 10 (exp - m.places)
  if Double.isInfinite w then throw .outOfRange
  return w

def readReal (s : String) : Except Error Word :=
  match specialWord? s.toList with
  | some w => .ok w
  | none => (readDigitsReal s.toList).mapError fun f => ⟨.real, s, f⟩

end TraceCompiler.Literal
