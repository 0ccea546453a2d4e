import TraceCompiler.Number.Double
import TraceCompiler.Text.Basic

/-! # Decimal text of doubles

`Digits` are significant decimal digits with the place of the point.
-/

namespace TraceCompiler.Decimal

/-- The number `0.d₁d₂… · 10^point`, without trailing zeros. -/
structure Digits where
  digits : List Nat
  point : Int

def digitsOf (n : Nat) : List Nat := (Nat.toDigits 10 n).map fun c => c.toNat - '0'.toNat

def trim (ds : List Nat) : List Nat := (ds.reverse.dropWhile (· = 0)).reverse

def leading (num den : Nat) : Int :=
  if den ≤ num then (digitsOf (num / den)).length - 1
  else
    let j := (digitsOf (den / num)).length
    if den ≤ num * Nat.pow 10 (j - 1) then 1 - (j : Int) else -(j : Int)

def inUnits (num den : Nat) (p : Int) : Nat × Nat := (num * Nat.pow 10 (-p).toNat, den * Nat.pow 10 p.toNat)

def ofUnits (n : Nat) (p : Int) : Digits :=
  let ds := digitsOf n
  ⟨trim ds, p + ds.length⟩

/-- The quotient to `count` significant digits, ties to the even last digit. -/
def rounded (count num den : Nat) : Digits :=
  let p := leading num den - count + 1
  let u := inUnits num den p
  ofUnits (Double.divRound u.1 u.2) p

/-- The reals that round to a finite positive double, as quotients over a common denominator, with
whether the ends belong to them. -/
structure Interval where
  low : Nat
  value : Nat
  high : Nat
  den : Nat
  closed : Bool

def interval (w : Word) : Interval :=
  let m := Double.mantissa w
  let q := Double.exponent w
  let lowGap := if m = 0x10000000000000 ∧ q ≠ -1074 then 1 else 2
  let up := Nat.pow 2 (q - 2).toNat
  { low := (4 * m - lowGap) * up
    value := 4 * m * up
    high := (4 * m + 2) * up
    den := Nat.pow 2 (2 - q).toNat
    closed := m % 2 = 0 }

def Interval.holds (i : Interval) (n : Nat) (p : Int) : Bool :=
  let x := n * Nat.pow 10 p.toNat * i.den
  let s := Nat.pow 10 (-p).toNat
  if i.closed then i.low * s ≤ x ∧ x ≤ i.high * s else i.low * s < x ∧ x < i.high * s

/-- The nearest number of `count` digits in the interval, if there is one. -/
def Interval.nearest? (i : Interval) (count : Nat) : Option Digits :=
  let p := leading i.value i.den - count + 1
  let u := inUnits i.value i.den p
  let below := u.1 / u.2
  let near := Double.divRound u.1 u.2
  let other := if near = below then below + 1 else below
  if i.holds near p then some (ofUnits near p)
  else if i.holds other p then some (ofUnits other p)
  else none

/-- The fewest digits that round to the double; seventeen always suffice. -/
def shortest (w : Word) : Digits :=
  if Double.isZero w then ⟨[0], 1⟩
  else
    let i := interval w
    match (List.range 17).findSome? fun k => i.nearest? (k + 1) with
    | some d => d
    | none => rounded 17 i.value i.den

def digitsText (ds : List Nat) : String := String.ofList (ds.map Nat.digitChar)

def Digits.scientific (d : Digits) : String :=
  let e := d.point - 1
  let frac := d.digits.drop 1
  digitsText (d.digits.take 1) ++ (if frac.isEmpty then "" else "." ++ digitsText frac) ++
    "e" ++ (if e < 0 then "-" else "+") ++ Text.padLeft 2 '0' (toString e.natAbs)

def Digits.positional (d : Digits) : String :=
  if d.point ≤ 0 then
    "0." ++ digitsText (List.replicate (-d.point).toNat 0) ++ digitsText d.digits
  else
    let n := d.point.toNat
    let whole := d.digits.take n ++ List.replicate (n - d.digits.length) 0
    let frac := d.digits.drop n
    digitsText whole ++ if frac.isEmpty then "" else "." ++ digitsText frac

/-- How digits become text: the exponent form is taken from `10^limit` on and below `10^-4`. -/
structure Style where
  digits : Word → Digits
  limit : Int

def general : Style := ⟨shortest, 6⟩

def fourDigits : Style :=
  ⟨fun w => if Double.isZero w then ⟨[0], 1⟩ else
    let i := interval w
    rounded 4 i.value i.den, 4⟩

def Style.magnitude (s : Style) (w : Word) : String :=
  let d := s.digits w
  if d.point - 1 < -4 ∨ s.limit ≤ d.point - 1 then d.scientific else d.positional

def Style.text (s : Style) (w : Word) : String :=
  if Double.isNaN w then "NaN"
  else if Double.isInfinite w then if Double.negative w then "-Inf" else "+Inf"
  else (if Double.negative w then "-" else "") ++ s.magnitude w

end TraceCompiler.Decimal
