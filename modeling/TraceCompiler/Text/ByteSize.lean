import TraceCompiler.Number.Decimal
import TraceCompiler.Number.Literal
import TraceCompiler.Text.LetterCase

/-! # Byte counts in human form

A byte count is written with four significant digits and the largest binary unit that keeps it
below 1024.
-/

namespace TraceCompiler.ByteSize

/-- The units in which counts are written, each 1024 times the one before. -/
def units : List String := ["KiB", "MiB", "GiB", "TiB", "PiB", "EiB", "ZiB", "YiB"]

def scaled (size : Word) (unit : String) : List String → Word × String
  | [] => (size, unit)
  | larger :: rest =>
    if Double.le (Double.ofInt 1024) size then
      scaled (Double.div size (Double.ofInt 1024)) larger rest
    else (size, unit)

def text (n : Int) : String :=
  let (size, unit) := scaled (Double.ofInt n) "B" units
  Decimal.fourDigits.text size ++ unit

inductive Error where
  | malformed (text : String)
  | number (e : Literal.Error)
  | suffix (text : String)
  deriving DecidableEq

def Error.message : Error → String
  | malformed s => "invalid size: '" ++ s ++ "'"
  | number e => e.message
  | suffix s => "invalid suffix: '" ++ s ++ "'"

def unitPower? : Char → Option Nat
  | 'k' => some 1
  | 'm' => some 2
  | 'g' => some 3
  | 't' => some 4
  | 'p' => some 5
  | _ => none

def factor? : List Char → Option Nat
  | [] | ['b'] => some 1
  | c :: rest =>
    let extra := String.ofList rest
    if extra = "b" ∨ extra = "ib" ∨ Text.byteCount extra ∉ [1, 2] then
      (unitPower? c).map (Nat.pow 1024 ·)
    else none

def endsNumber (c : Char) : Bool := ('0' ≤ c && c ≤ '9') || c = '.' || c = ' '

def split? (cs : List Char) : Option (List Char × List Char) :=
  let unit := (cs.reverse.takeWhile (! endsNumber ·)).reverse
  match cs.reverse.dropWhile (! endsNumber ·) with
  | [] => none
  | ' ' :: number => some (number.reverse, unit)
  | number => some (number.reverse, unit)

/-- Read a byte count. What does not fit a signed word becomes the least integer. -/
def parse (s : String) : Except Error Int := do
  let some (number, unit) := split? s.toList | throw (.malformed s)
  let size ← (Literal.readReal (String.ofList number)).mapError .number
  if Double.lt size 0 then throw (.malformed s)
  if 3 < Text.byteCount (String.ofList unit) then throw (.suffix (String.ofList unit))
  let unit := unit.map Text.lower
  match factor? unit with
  | none => throw (.suffix (String.ofList unit))
  | some f => return Word.signed (Double.truncate (Double.mul size (Double.ofInt f)))

end TraceCompiler.ByteSize
