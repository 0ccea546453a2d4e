import TraceCompiler.Number.Literal

/-! # What plain scalars stand for

A plain scalar may stand for a number, a point in time, a truth value or nothing; any other is a
text.
-/

namespace TraceCompiler.Yaml

namespace Timestamp

def number? : List Char → Option (Nat × List Char)
  | a :: b :: r =>
    if !a.isDigit then none
    else if b.isDigit then some ((a.toNat - '0'.toNat) * 10 + (b.toNat - '0'.toNat), r)
    else some (a.toNat - '0'.toNat, b :: r)
  | [a] => if a.isDigit then some (a.toNat - '0'.toNat, []) else none
  | [] => none

def numberAfter? (c : Char) : List Char → Option (Nat × List Char)
  | [] => none
  | x :: r => if x = c then number? r else none

def isLeapYear (year : Nat) : Bool := year % 4 = 0 && (year % 100 ≠ 0 || year % 400 = 0)

def daysIn (year month : Nat) : Nat :=
  if month = 2 then if isLeapYear year then 29 else 28
  else if month ∈ [4, 6, 9, 11] then 30
  else 31

def afterDate? (cs : List Char) : Option (List Char) := do
  let digits := cs.takeWhile Char.isDigit
  if digits.length ≠ 4 then none
  let year := digits.foldl (fun n c => n * 10 + (c.toNat - '0'.toNat)) 0
  let (month, cs) ← numberAfter? '-' (cs.drop 4)
  let (day, cs) ← numberAfter? '-' cs
  if 1 ≤ month ∧ month ≤ 12 ∧ 1 ≤ day ∧ day ≤ daysIn year month then some cs else none

/-- What follows a fraction of a second, if there is one. -/
def afterFraction : List Char → List Char
  | p :: d :: r => if (p = '.' || p = ',') && d.isDigit then r.dropWhile Char.isDigit else p :: d :: r
  | cs => cs

def afterTime? (cs : List Char) : Option (List Char) := do
  let (hour, cs) ← number? cs
  let (minute, cs) ← numberAfter? ':' cs
  let (second, cs) ← numberAfter? ':' cs
  if hour < 24 ∧ minute < 60 ∧ second < 60 then some (afterFraction cs) else none

/-- Whether a text is an offset from the time of the prime meridian. -/
def isOffset : List Char → Bool
  | ['Z'] => true
  | [sign, a, b, ':', c, d] =>
    (sign = '+' || sign = '-') && [a, b, c, d].all Char.isDigit &&
      (number? [a, b]).any (·.1 ≤ 24) && (number? [c, d]).any (·.1 ≤ 60)
  | _ => false

def isTimestamp (s : String) : Bool :=
  match afterDate? s.toList with
  | none => false
  | some [] => true
  | some (c :: r) =>
    if c = 'T' || c = 't' then (afterTime? r).any isOffset
    else c = ' ' && afterTime? (r.dropWhile (· = ' ')) = some []

end Timestamp

inductive Scalar where
  | null
  | bool (b : Bool)
  | int (i : Int)
  | float (w : Word)
  | time
  | text (s : String)
  deriving DecidableEq

namespace Scalar

def spelled? (s : String) : Option Scalar :=
  if s ∈ ["", "~", "null", "Null", "NULL"] then some null
  else if s ∈ ["true", "True", "TRUE"] then some (bool true)
  else if s ∈ ["false", "False", "FALSE"] then some (bool false)
  else if s ∈ [".nan", ".NaN", ".NAN"] then some (float Double.textNaN)
  else if s ∈ [".inf", ".Inf", ".INF", "+.inf", "+.Inf", "+.INF"] then
    some (float (Double.infinity false))
  else if s ∈ ["-.inf", "-.Inf", "-.INF"] then some (float (Double.infinity true))
  else none

/-- The truth value that a word stands for where one is expected. Elsewhere such a word is a text. -/
def truthOf? (s : String) : Option Bool :=
  if s ∈ ["y", "Y", "yes", "Yes", "YES", "on", "On", "ON"] then some true
  else if s ∈ ["n", "N", "no", "No", "NO", "off", "Off", "OFF"] then some false
  else none

def looksReal (s : String) : Bool :=
  let isDigit (c : Char) : Bool := '0' ≤ c && c ≤ '9'
  let cs := (Literal.splitSign s.toList).2
  let whole := cs.takeWhile isDigit
  let (fraction, rest, point) := match cs.drop whole.length with
    | '.' :: r => (r.takeWhile isDigit, r.dropWhile isDigit, true)
    | r => ([], r, false)
  let exponentOk := match rest with
    | [] => true
    | c :: r =>
      let ds := (Literal.splitSign r).2
      (c = 'e' || c = 'E') && !ds.isEmpty && ds.all isDigit
  exponentOk && (!whole.isEmpty || (point && !fraction.isEmpty))

def digits (base : Nat) (ds : List Char) : Except Literal.Fault Nat :=
  if ds.isEmpty then .error .malformed else Literal.readDigits base false 0 ds

/-- A number in a base behind its mark: with a sign, or without one up to the largest word. -/
def basedInt? (base : Nat) (ds : List Char) : Option Int :=
  match Literal.withSign (digits base) ds with
  | .ok i => some i
  | .error _ => (digits base ds).toOption.map Int.ofNat

/-- A binary number after `0b` or an octal one after `0o`. A sign stands before or behind the mark. -/
def markedInt? : List Char → Option Int
  | '0' :: 'b' :: ds => basedInt? 2 ds
  | '-' :: '0' :: 'b' :: ds => (Literal.withSign (digits 2) ('-' :: ds)).toOption
  | '0' :: 'o' :: ds => basedInt? 8 ds
  | '-' :: '0' :: 'o' :: ds => (Literal.withSign (digits 8) ('-' :: ds)).toOption
  | _ => none

def number? (s : String) : Option Scalar :=
  let digits := String.ofList (s.toList.filter (· ≠ '_'))
  match Literal.readSigned digits with
  | .ok i => some (int i)
  | .error _ =>
    match Literal.readUnsigned digits with
    | .ok n => some (int n)
    | .error _ =>
      match if looksReal digits then (Literal.readReal digits).toOption else none with
      | some w => some (float w)
      | none => (markedInt? digits.toList).map int

def classify (s : String) : Scalar :=
  match spelled? s with
  | some v => v
  | none =>
    match s.toList with
    | '.' :: _ =>
      match Literal.readReal s with
      | .ok w => float w
      | .error _ => text s
    | c :: _ =>
      if c = '+' || c = '-' || c.isDigit then
        if Timestamp.isTimestamp s then time else (number? s).getD (text s)
      else text s
    | [] => null

def tag : Scalar → String
  | null => "!!null"
  | bool _ => "!!bool"
  | int _ => "!!int"
  | float _ => "!!float"
  | time => "!!timestamp"
  | text _ => "!!str"

/-- What a scalar stands for under a tag that decides it; nothing if it is none of that kind. An
integer that is a signed word serves as a real number. -/
def under? (tag s : String) : Option Scalar :=
  let v := classify s
  if v.tag = tag then some v
  else
    match tag, v with
    | "!!float", int i => if i < 0x8000000000000000 then some (float (Double.ofInt i)) else none
    | _, _ => none

end Scalar

end TraceCompiler.Yaml
