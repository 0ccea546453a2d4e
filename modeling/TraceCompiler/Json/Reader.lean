import TraceCompiler.Text.Basic
import TraceCompiler.Text.Utf8

/-! # JSON

The first value of some bytes is read, with blanks before it.
-/

namespace TraceCompiler.Json

def escaped (c : Char) : String :=
  let n := c.toNat
  if c = '"' then "\\\""
  else if c = '\\' then "\\\\"
  else if n = 8 then "\\b"
  else if n = 12 then "\\f"
  else if n = 10 then "\\n"
  else if n = 13 then "\\r"
  else if n = 9 then "\\t"
  else if n < 32 || c = '<' || c = '>' || c = '&' || n = 0x2028 || n = 0x2029 then
    "\\u" ++ Text.hexPadded 4 n
  else c.toString

def quoted (s : String) : String := "\"" ++ String.join (s.toList.map escaped) ++ "\""

/-- A JSON value. Numbers are kept as they are written. -/
inductive Value where
  | null
  | bool (b : Bool)
  | number (text : String)
  | string (s : String)
  | array (items : List Value)
  | object (fields : List (String × Value))

inductive Error where
  | nothing
  | unfinished
  | malformed

def isBlank (c : Char) : Bool := c = ' ' || c = '\t' || c = '\r' || c = '\n'

def isDigit (c : Char) : Bool := '0' ≤ c && c ≤ '9'

def word {α : Type} (a : α) : List Char → List Char → Except Error (α × List Char)
  | [], cs => .ok (a, cs)
  | _ :: _, [] => .error .unfinished
  | w :: ws, c :: cs => if c = w then word a ws cs else .error .malformed

def digits (cs : List Char) : Except Error (List Char × List Char) :=
  match cs with
  | [] => .error .unfinished
  | c :: _ =>
    if isDigit c then .ok (cs.takeWhile isDigit, cs.dropWhile isDigit) else .error .malformed

/-- The whole part of a number: no zero comes first but zero itself. -/
def wholePart (cs : List Char) : Except Error (List Char × List Char) :=
  match cs with
  | '0' :: rest => .ok (['0'], rest)
  | _ => digits cs

def fraction (cs : List Char) : Except Error (List Char × List Char) :=
  match cs with
  | '.' :: rest => do
    let (ds, rest) ← digits rest
    return ('.' :: ds, rest)
  | _ => .ok ([], cs)

def optional (p : Char → Bool) : List Char → List Char × List Char
  | [] => ([], [])
  | c :: rest => if p c then ([c], rest) else ([], c :: rest)

def exponent (cs : List Char) : Except Error (List Char × List Char) :=
  match cs with
  | [] => .ok ([], [])
  | e :: rest =>
    if e = 'e' || e = 'E' then do
      let (sign, rest) := optional (fun c => c = '+' || c = '-') rest
      let (ds, rest) ← digits rest
      return (e :: sign ++ ds, rest)
    else .ok ([], cs)

def number (cs : List Char) : Except Error (Value × List Char) := do
  let (sign, cs) := optional (· = '-') cs
  let (whole, cs) ← wholePart cs
  let (frac, cs) ← fraction cs
  let (exp, cs) ← exponent cs
  return (.number (String.ofList (sign ++ whole ++ frac ++ exp)), cs)

inductive Piece where
  | byte (b : UInt8)
  | code (n : Nat)

def letterCode? : Char → Option Nat
  | '"' => some 34
  | '\\' => some 92
  | '/' => some 47
  | 'b' => some 8
  | 'f' => some 12
  | 'n' => some 10
  | 'r' => some 13
  | 't' => some 9
  | _ => none

def fourDigits : Nat → Nat → List Char → Except Error (Nat × List Char)
  | 0, n, cs => .ok (n, cs)
  | _ + 1, _, [] => .error .unfinished
  | left + 1, n, c :: cs =>
    match Text.digitValue? 16 c with
    | some d => fourDigits left (n * 16 + d) cs
    | none => .error .malformed

def pieces : Nat → List Char → Except Error (List Piece × List Char)
  | 0, _ | _, [] => .error .unfinished
  | fuel + 1, c :: cs =>
    if c = '"' then .ok ([], cs)
    else if c = '\\' then
      match cs with
      | [] => .error .unfinished
      | 'u' :: cs => do
        let (n, cs) ← fourDigits 4 0 cs
        let (ps, cs) ← pieces fuel cs
        return (.code n :: ps, cs)
      | l :: cs =>
        match letterCode? l with
        | none => .error .malformed
        | some n => do
          let (ps, cs) ← pieces fuel cs
          return (.code n :: ps, cs)
    else if c.toNat < 32 then .error .malformed
    else do
      let (ps, cs) ← pieces fuel cs
      return (.byte c.toNat.toUInt8 :: ps, cs)

/-- Whether a code is the first or the second half of a character. -/
def isHigh (n : Nat) : Bool := 0xd800 ≤ n && n < 0xdc00
def isLow (n : Nat) : Bool := 0xdc00 ≤ n && n < 0xe000

def charOfCode (n : Nat) : Char := if isHigh n || isLow n then Text.replacement else Char.ofNat n

/-- The characters of pieces, behind bytes that wait in reverse to be read together. Two escapes that
are the halves of a character stand for it. -/
def charsOf (bytes : List UInt8) : List Piece → List Char
  | [] => Text.charsOfBytes bytes.reverse
  | .byte b :: ps => charsOf (b :: bytes) ps
  | [.code n] => Text.charsOfBytes bytes.reverse ++ [charOfCode n]
  | .code n :: p :: ps =>
    Text.charsOfBytes bytes.reverse ++
      match p with
      | .code m =>
        if isHigh n && isLow m then
          Char.ofNat (0x10000 + (n - 0xd800) * 1024 + (m - 0xdc00)) :: charsOf [] ps
        else charOfCode n :: charsOf [] (p :: ps)
      | .byte _ => charOfCode n :: charsOf [] (p :: ps)
termination_by ps => ps.length

def string (cs : List Char) : Except Error (String × List Char) := do
  let (ps, cs) ← pieces cs.length cs
  return (String.ofList (charsOf [] ps), cs)

def next (cs : List Char) : Except Error (Char × List Char) :=
  match cs.dropWhile isBlank with
  | [] => .error .unfinished
  | c :: cs => .ok (c, cs)

def expected (e : Char) (cs : List Char) : Except Error (List Char) := do
  let (c, cs) ← next cs
  if c = e then .ok cs else .error .malformed

/-- What stands between brackets, of which the closing one may come at once. -/
def enclosed {α : Type} (close : Char) (p : List Char → Except Error (List α × List Char))
    (cs : List Char) : Except Error (List α × List Char) := do
  let (c, cs) ← next cs
  if c = close then .ok ([], cs) else p (c :: cs)

/-- What follows an element: the closing bracket, or a comma and more elements. -/
def continued {α : Type} (close : Char) (p : List Char → Except Error (List α × List Char)) (a : α)
    (cs : List Char) : Except Error (List α × List Char) := do
  let (c, cs) ← next cs
  if c = close then .ok ([a], cs)
  else if c = ',' then do
    let (as, cs) ← p cs
    return (a :: as, cs)
  else .error .malformed

mutual

/-- A value with blanks before it. Containers may be nested as deep as the last argument says. -/
def value : Nat → Nat → List Char → Except Error (Value × List Char)
  | 0, _, _ => .error .unfinished
  | fuel + 1, depth, cs => do
    let (c, cs) ← next cs
    if c = '"' then do
      let (s, cs) ← string cs
      return (.string s, cs)
    else if c = 'n' then word .null ['u', 'l', 'l'] cs
    else if c = 't' then word (.bool true) ['r', 'u', 'e'] cs
    else if c = 'f' then word (.bool false) ['a', 'l', 's', 'e'] cs
    else if c = '-' || isDigit c then number (c :: cs)
    else if depth = 0 then .error .malformed
    else if c = '[' then do
      let (vs, cs) ← enclosed ']' (items fuel (depth - 1)) cs
      return (.array vs, cs)
    else if c = '{' then do
      let (fs, cs) ← enclosed '}' (fields fuel (depth - 1)) cs
      return (.object fs, cs)
    else .error .malformed

def items : Nat → Nat → List Char → Except Error (List Value × List Char)
  | 0, _, _ => .error .unfinished
  | fuel + 1, depth, cs => do
    let (v, cs) ← value fuel depth cs
    continued ']' (items fuel depth) v cs

def fields : Nat → Nat → List Char → Except Error (List (String × Value) × List Char)
  | 0, _, _ => .error .unfinished
  | fuel + 1, depth, cs => do
    let cs ← expected '"' cs
    let (k, cs) ← string cs
    let cs ← expected ':' cs
    let (v, cs) ← value fuel depth cs
    continued '}' (fields fuel depth) (k, v) cs

end

def maxDepth : Nat := 10000

def Value.isDelimited : Value → Bool
  | .number _ => false
  | _ => true

/-- The first value, and how many bytes have to be seen to know it. -/
def read (bytes : List UInt8) : Except Error (Value × Nat) :=
  let cs := bytes.map fun b => Char.ofNat b.toNat
  if cs.all isBlank then .error .nothing
  else do
    let (v, rest) ← value (cs.length + 1) maxDepth cs
    let used := cs.length - rest.length
    return (v, if v.isDelimited then used else min (used + 1) cs.length)

end TraceCompiler.Json
