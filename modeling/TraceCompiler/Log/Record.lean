import TraceCompiler.Number.Literal

/-! # Logs

A level is a number with names at four of its values, and a record is one line of keys and values.
-/

namespace TraceCompiler.Log

structure Level where
  value : Int
  deriving DecidableEq

namespace Level

def debug : Level := ⟨-4⟩
def info : Level := ⟨0⟩
def warn : Level := ⟨4⟩
def error : Level := ⟨8⟩

def text (l : Level) : String :=
  let near (name : String) (base : Level) : String :=
    let distance := wrap64 (l.value - base.value)
    if distance = 0 then name else name ++ Text.signedDecimal distance
  if l.value < info.value then near "DEBUG" debug
  else if l.value < warn.value then near "INFO" info
  else if l.value < error.value then near "WARN" warn
  else near "ERROR" error

inductive Fault where
  | unknownName
  | distance (e : Literal.Error)
  deriving DecidableEq

structure Error where
  text : String
  fault : Fault
  deriving DecidableEq

def Error.message (e : Error) : String :=
  "slog: level string " ++ Text.quoted e.text ++ ": " ++
    match e.fault with
    | .unknownName => "unknown name"
    | .distance e => e.message

/-- The capital of a letter; the dotless i has a capital without a dot. -/
def capital (c : Char) : Char := if c = '\u0131' then 'I' else c.toUpper

def named? (name : List Char) : Option Level :=
  match String.ofList (name.map capital) with
  | "DEBUG" => some debug
  | "INFO" => some info
  | "WARN" => some warn
  | "ERROR" => some error
  | _ => none

def parse (s : String) : Except Error Level := do
  let isSign (c : Char) : Bool := c = '+' || c = '-'
  let name := s.toList.takeWhile (! isSign ·)
  let distance ←
    match s.toList.dropWhile (! isSign ·) with
    | [] => pure 0
    | rest => (Literal.readPlain (String.ofList rest)).mapError fun e => ⟨s, .distance e⟩
  match named? name with
  | some l => return ⟨wrap64 (l.value + distance)⟩
  | none => throw ⟨s, .unknownName⟩

end Level

structure Record where
  level : Level
  message : String
  attributes : List (String × String) := []

namespace Record

def isSpecial (c : Char) : Bool :=
  if c.toNat < 128 then c.toNat ≤ 32 || c = '=' || c = '"'
  else !Text.isPrintable c || c.toNat = 0xfffd

def valueText (s : String) : String :=
  if s.isEmpty || s.toList.any isSpecial then Text.quoted s else s

def line (r : Record) : String :=
  Text.joined " " ((("level", r.level.text) :: ("msg", r.message) :: r.attributes).map
    fun (k, v) => valueText k ++ "=" ++ valueText v)

end Record

end TraceCompiler.Log
