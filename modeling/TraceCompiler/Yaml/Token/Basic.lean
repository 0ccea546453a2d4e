import TraceCompiler.Text.Basic
import TraceCompiler.Text.Utf8
import TraceCompiler.Yaml.Cursor

/-! # Tokens

What a document is made of: indicators, scalars, and the marks that stand for the start and the end
of indented parts.
-/

namespace TraceCompiler.Yaml

inductive Lexeme where
  | streamEnd
  | version (major minor : Nat)
  | tagHandle (handle uri : String)
  | documentStart
  | documentEnd
  | blockSequenceStart
  | blockMappingStart
  | blockEnd
  | flowSequenceStart
  | flowSequenceEnd
  | flowMappingStart
  | flowMappingEnd
  | blockEntry
  | flowEntry
  | key
  | value
  | reference (name : String)
  | anchor (name : String)
  | tag (handle suffix : String)
  | plain (text : String)
  | quoted (text : String)
  deriving DecidableEq

structure Token where
  line : Nat
  lexeme : Lexeme

namespace ReadM

def anchorName : ReadM String := do
  pass
  need 1
  let name ← take isNameChar
  let rest := (← get).rest
  unless !name.isEmpty && (gapNext rest ||
      rest.head?.any (· ∈ ['?', ':', ',', ']', '}', '%', '@', '\x60'])) do
    malformed
  return String.ofList name

def isUriChar (c : Char) : Bool :=
  isNameChar c ||
    c ∈ [';', '/', '?', ':', '@', '&', '=', '+', '$', ',', '.', '!', '~', '*', '\'', '(', ')', '[', ']']

/-- How many bytes a character takes, by its first one. -/
def sequenceLength? (b : Nat) : Option Nat :=
  if b < 0x80 then some 1
  else if b / 32 = 6 then some 2
  else if b / 16 = 14 then some 3
  else if b / 8 = 30 then some 4
  else none

def uriByte : ReadM Nat := do
  need 3
  match (← get).rest with
  | '%' :: a :: b :: _ =>
    let some hi := Text.digitValue? 16 a | malformed
    let some lo := Text.digitValue? 16 b | malformed
    pass
    pass
    pass
    return hi * 16 + lo
  | _ => malformed

def uriEscape : ReadM (List Char) := do
  let first ← uriByte
  let some n := sequenceLength? first | malformed
  let more ← (List.range (n - 1)).mapM fun _ => do
    let b ← uriByte
    unless b / 64 = 2 do malformed
    return b
  return Text.charsOfBytes ((first :: more).map Nat.toUInt8)

def uriFrom : Nat → List (List Char) → ReadM (List Char)
  | 0, _ => malformed
  | fuel + 1, parts => do
    let part ← take isUriChar
    if ← sees (· = '%') then
      let c ← uriEscape
      need 1
      uriFrom fuel (c :: part :: parts)
    else return (part :: parts).reverse.flatten

def uri (start : List Char) : ReadM (List Char) := do
  need 1
  let before := (← get).index
  let rest ← uriFrom (← get).size []
  if start.isEmpty && (← get).index = before then malformed
  return start.drop 1 ++ rest

/-- A handle: an exclamation mark, or a name between two of them. The second one may be missing,
except in a directive. -/
def handle (directive : Bool) : ReadM (List Char) := do
  need 1
  unless ← sees (· = '!') do malformed
  pass
  need 1
  let name ← take isNameChar
  if ← sees (· = '!') then
    pass
    return '!' :: name ++ ['!']
  if directive && !name.isEmpty then malformed
  return '!' :: name

def tag : ReadM (String × String) := do
  need 2
  let (h, suffix) ← if (← get).rest[1]? = some '<' then do
      pass
      pass
      let suffix ← uri []
      unless ← sees (· = '>') do malformed
      pass
      pure ([], suffix)
    else do
      let h ← handle false
      if 1 < h.length && h.getLast? = some '!' then
        pure (h, ← uri [])
      else
        let suffix ← uri h
        pure (if suffix.isEmpty then ([], h) else (['!'], suffix))
  need 1
  unless gapNext (← get).rest do malformed
  return (String.ofList h, String.ofList suffix)

def versionNumber : ReadM Nat := do
  need 1
  let ds ← take Char.isDigit
  if ds.isEmpty || 2 < ds.length then malformed
  return ds.foldl (fun n c => n * 10 + (c.toNat - '0'.toNat)) 0

inductive Directive where
  | version (major minor : Nat)
  | tagHandle (handle uri : String)

def directiveValue (name : String) : ReadM Directive := do
  need 1
  let _ ← take isBlank
  if name = "YAML" then
    let major ← versionNumber
    unless ← sees (· = '.') do malformed
    pass
    return .version major (← versionNumber)
  else if name = "TAG" then
    let h ← handle true
    need 1
    unless ← sees isBlank do malformed
    let _ ← take isBlank
    let u ← uri []
    need 1
    unless gapNext (← get).rest do malformed
    return .tagHandle (String.ofList h) (String.ofList u)
  else malformed

def directive : ReadM Directive := do
  pass
  need 1
  let name ← take isNameChar
  unless !name.isEmpty && gapNext (← get).rest do malformed
  let d ← directiveValue (String.ofList name)
  endLine
  return d

end ReadM

end TraceCompiler.Yaml
