/-! # Digits, words and dumps

Numbers as text in the bases the program writes, texts padded to a width or taken apart at white
space, dumps of bytes, durations, and bytes in base 64.
-/

namespace TraceCompiler.Text

/-- Lower-case hexadecimal digits, without a sign or leading zeros. -/
def hexDigits (n : Nat) : String := String.ofList (Nat.toDigits 16 n)

/-- Hexadecimal digits behind the base mark, so that zero is `0x0`. -/
def hex (n : Nat) : String := "0x" ++ hexDigits n

def padLeft (width : Nat) (fill : Char) (s : String) : String :=
  String.ofList (List.replicate (width - s.length) fill) ++ s

def hexPadded (width n : Nat) : String := padLeft width '0' (hexDigits n)

def hexBytes (bytes : List UInt8) : String :=
  String.join (bytes.map fun b => hexPadded 2 b.toNat)

def signedDecimal (i : Int) : String := if i < 0 then toString i else "+" ++ toString i

def digitValue? (base : Nat) (c : Char) : Option Nat :=
  let v : Option Nat :=
    if '0' ≤ c ∧ c ≤ '9' then some (c.toNat - '0'.toNat)
    else if 'a' ≤ c ∧ c ≤ 'z' then some (c.toNat - 'a'.toNat + 10)
    else if 'A' ≤ c ∧ c ≤ 'Z' then some (c.toNat - 'A'.toNat + 10)
    else none
  v.filter (· < base)

def bytesOfHex? (s : String) : Option (List UInt8) :=
  let rec go : List Char → Option (List UInt8)
    | [] => some []
    | [_] => none
    | a :: b :: rest => do
      let hi ← digitValue? 16 a
      let lo ← digitValue? 16 b
      let bytes ← go rest
      return (hi * 16 + lo).toUInt8 :: bytes
  go s.toList

def joined (sep : String) (parts : List String) : String := sep.intercalate parts

def isSpace (c : Char) : Bool :=
  let n := c.toNat
  (9 ≤ n && n ≤ 13) || n = 32 || n = 0x85 || n = 0xa0 || n = 0x1680 || (0x2000 ≤ n && n ≤ 0x200a) ||
    n = 0x2028 || n = 0x2029 || n = 0x202f || n = 0x205f || n = 0x3000

def trimmed (s : String) : String :=
  String.ofList ((s.toList.dropWhile isSpace).reverse.dropWhile isSpace).reverse

def words (s : String) : List String :=
  (s.toList.splitBy fun a b => isSpace a = isSpace b).filterMap fun w =>
    match w with
    | c :: _ => if isSpace c then none else some (String.ofList w)
    | [] => none

def occurs (s : List Char) : List Char → Bool
  | [] => s.isEmpty
  | c :: cs => s.isPrefixOf (c :: cs) || occurs s cs

def cutColon? (s : String) : Option (String × String) :=
  match s.toList.dropWhile (· ≠ ':') with
  | [] => none
  | _ :: rest => some (String.ofList (s.toList.takeWhile (· ≠ ':')), String.ofList rest)

def dumpChar (b : UInt8) : Char := if 32 ≤ b && b ≤ 126 then Char.ofNat b.toNat else '.'

def dumpLine (offset : Nat) (bytes : List UInt8) : String :=
  let cell (i : Nat) : String :=
    ((bytes[i]?).map fun b => hexPadded 2 b.toNat).getD "  " ++ if i = 7 then "  " else " "
  hexPadded 8 offset ++ "  " ++ String.join ((List.range 16).map cell) ++ " |" ++
    String.ofList (bytes.map dumpChar) ++ "|\n"

def dumpFrom (offset : Nat) (bytes : List UInt8) : String :=
  match bytes with
  | [] => ""
  | b :: rest => dumpLine offset (b :: rest.take 15) ++ dumpFrom (offset + 16) (rest.drop 15)
termination_by bytes.length
decreasing_by simp only [List.length_cons, List.length_drop]; omega

def hexDump (bytes : List UInt8) : String := dumpFrom 0 bytes

end TraceCompiler.Text

namespace TraceCompiler.Duration

/-- A number with some of its digits behind the point, of which no zeros come last. -/
def withPoint (places n : Nat) : String :=
  let digits := (Text.padLeft places '0' (toString (n % Nat.pow 10 places))).toList
  let fraction := (digits.reverse.dropWhile (· = '0')).reverse
  let whole := toString (n / Nat.pow 10 places)
  if places = 0 || fraction.isEmpty then whole else whole ++ "." ++ String.ofList fraction

def magnitudeText (n : Nat) : String :=
  if n = 0 then "0s"
  else if n < 1000 then toString n ++ "ns"
  else if n < 1000000 then withPoint 3 n ++ "µs"
  else if n < 1000000000 then withPoint 6 n ++ "ms"
  else
    let minutes := n / (60 * 1000000000)
    let seconds := withPoint 9 (n % (60 * 1000000000)) ++ "s"
    if minutes = 0 then seconds
    else
      let hours := minutes / 60
      (if hours = 0 then "" else toString hours ++ "h") ++ toString (minutes % 60) ++ "m" ++ seconds

def text (ns : Int) : String := (if ns < 0 then "-" else "") ++ magnitudeText ns.natAbs

end TraceCompiler.Duration

namespace TraceCompiler.Text.Base64

def digit? (c : Char) : Option Nat :=
  if 'A' ≤ c && c ≤ 'Z' then some (c.toNat - 'A'.toNat)
  else if 'a' ≤ c && c ≤ 'z' then some (c.toNat - 'a'.toNat + 26)
  else if '0' ≤ c && c ≤ '9' then some (c.toNat - '0'.toNat + 52)
  else if c = '+' then some 62
  else if c = '/' then some 63
  else none

def groups? : List Char → Option (List UInt8)
  | [] => some []
  | [a, b, '=', '='] => do
    let n := (← digit? a) * 4 + (← digit? b) / 16
    return [n.toUInt8]
  | [a, b, c, '='] => do
    let n := (← digit? a) * 1024 + (← digit? b) * 16 + (← digit? c) / 4
    return [(n / 256).toUInt8, n.toUInt8]
  | a :: b :: c :: d :: rest => do
    let n := (← digit? a) * 262144 + (← digit? b) * 4096 + (← digit? c) * 64 + (← digit? d)
    return (n / 65536).toUInt8 :: (n / 256).toUInt8 :: n.toUInt8 :: (← groups? rest)
  | _ => none

def decode? (s : String) : Option (List UInt8) :=
  groups? (s.toList.filter fun c => c ≠ '\n' && c ≠ '\x0d')

end TraceCompiler.Text.Base64
