/-! # Places in a document

A text is read character by character, with a count of lines and columns.
-/

namespace TraceCompiler.Yaml

/-- Why a text is no document, or does not fit what is expected of it. -/
inductive Error where
  | malformed (line : Nat)
  | unknownAnchor (name : String)
  | selfContained (name : String)
  | excessiveAliases
  | badTag (tag : String)
  | badMerge
  | badKey
  | unhashableKey
  | mismatch (lines : List Nat)
  deriving DecidableEq

def Error.message : Error → String
  | malformed line => "yaml: line " ++ toString line ++ ": malformed document"
  | unknownAnchor name => "yaml: unknown anchor '" ++ name ++ "' referenced"
  | selfContained name => "yaml: anchor '" ++ name ++ "' value contains itself"
  | excessiveAliases => "yaml: document contains excessive aliasing"
  | badTag tag => "yaml: cannot decode value as a " ++ tag
  | badMerge => "yaml: map merge requires map or sequence of maps as the value"
  | badKey => "yaml: a key is no scalar"
  | unhashableKey => "yaml: a merged mapping has a key that is no scalar"
  | mismatch lines =>
    "yaml: unmarshal errors:" ++
      String.join (lines.map fun l => "\n  line " ++ toString l ++ ": unexpected value")

def isBlank (c : Char) : Bool := c = ' ' || c = '\t'

def isBreak (c : Char) : Bool :=
  c = '\n' || c = '\x0d' || c = '\u0085' || c = '\u2028' || c = '\u2029'

/-- What a line break is in a text: a newline, but for the separators of lines and paragraphs. -/
def keptBreak (c : Char) : Char := if c = '\u2028' || c = '\u2029' then c else '\n'

def isAllowed (c : Char) : Bool :=
  let n := c.toNat
  n = 9 || n = 10 || n = 13 || (32 ≤ n && n ≤ 126) || n = 0x85 ||
    (0xa0 ≤ n && n ≠ 0xfffe && n ≠ 0xffff)

def gapNext : List Char → Bool
  | [] => true
  | c :: _ => isBlank c || isBreak c

def isMarker : List Char → Bool
  | '-' :: '-' :: '-' :: r | '.' :: '.' :: '.' :: r => gapNext r
  | _ => false

/-- A character of names: an ASCII letter or digit, a dash or an underscore. -/
def isNameChar (c : Char) : Bool := c.isAlphanum || c = '_' || c = '-'

structure Cursor where
  rest : List Char
  /-- How many of the next characters are decoded. The end of the text counts as one, again and
  again. -/
  ready : Nat := 0
  blocks : List Nat
  /-- Whether the block behind those cannot be decoded. -/
  spoiled : Bool := false
  /-- Whether a byte order mark was next when characters were last decoded. -/
  marked : Bool := false
  index : Nat := 0
  line : Nat := 1
  column : Nat := 0
  /-- The line breaks since the last character that is no blank. -/
  breaks : Nat := 0
  /-- More than the number of steps that reading can take. -/
  size : Nat

namespace Cursor

def blockSize : Nat := 512

/-- Divide a text into blocks, and tell whether one follows that cannot be decoded. -/
def divide (done : List Nat) (count room : Nat) : List Char → List Nat × Bool
  | [] => ((count :: done).reverse, false)
  | c :: cs =>
    let fits := c.utf8Size ≤ room
    let done := if fits then done else count :: done
    let count := if fits then count else 0
    let room := if fits then room else blockSize
    if isAllowed c then divide done (count + 1) (room - c.utf8Size) cs else (done.reverse, true)

/-- The start of a text. A byte order mark is passed over. -/
def ofText (s : String) : Cursor :=
  let (rest, room) := match s.toList with
    | '\ufeff' :: cs => (cs, blockSize - '\ufeff'.utf8Size)
    | cs => (cs, blockSize)
  let (blocks, spoiled) := divide [] 0 room rest
  { rest, blocks, spoiled, size := rest.length + 16 }

/-- Decode blocks, or the end, until `n` characters are ready. -/
def extend (n : Nat) (spoiled : Bool) : Nat → List Nat → Option (Nat × List Nat)
  | ready, [] => if spoiled then none else some (ready + 1, [])
  | ready, b :: bs => if n ≤ ready + b then some (ready + b, bs) else extend n spoiled (ready + b) bs

end Cursor

abbrev ReadM := StateT Cursor (Except Error)

namespace ReadM

def malformed {α : Type} : ReadM α := do throw (.malformed (← get).line)

/-- See to it that the next `n` characters are decoded, as far as the text goes. -/
def need (n : Nat) : ReadM Unit := do
  let c ← get
  if c.ready < n then
    let some (ready, blocks) := Cursor.extend n c.spoiled c.ready c.blocks | malformed
    set { c with ready, blocks, marked := c.rest.head? = some '\ufeff' }

def pass : ReadM Unit :=
  modify fun c => { c with
    rest := c.rest.drop 1
    ready := c.ready - 1
    index := c.index + 1
    column := c.column + 1
    breaks := if c.rest.head?.any isBlank then c.breaks else 0 }

def passBreak : ReadM Unit :=
  modify fun c =>
    let n := match c.rest with
      | '\x0d' :: '\n' :: _ => 2
      | _ => 1
    { c with
      rest := c.rest.drop n
      ready := c.ready - n
      index := c.index + n
      line := c.line + 1
      column := 0
      breaks := c.breaks + 1 }

def sees (p : Char → Bool) : ReadM Bool := return (← get).rest.head?.any p

/-- Pass some characters that are no line breaks, and see to `n` characters behind each. -/
def advance (n : Nat) : Nat → ReadM Unit
  | 0 => pure ()
  | count + 1 => do
    pass
    need n
    advance n count

def take (p : Char → Bool) : ReadM (List Char) := do
  need 1
  let taken := (← get).rest.takeWhile p
  advance 1 taken.length
  return taken

def passLine : ReadM (List Char) := take (! isBreak ·)

def passBreakIf : ReadM Unit := do
  if ← sees isBreak then
    need 2
    passBreak

def endLine : ReadM Unit := do
  let _ ← take isBlank
  if ← sees (· = '#') then
    let _ ← passLine
  match (← get).rest with
  | [] => pure ()
  | c :: _ =>
    unless isBreak c do malformed
    need 2
    passBreak

def commentReach : Nat := 512

/-- Whether a line break is one of ASCII, behind which comments are looked for. -/
def isPlainBreak (c : Char) : Bool := c = '\n' || c = '\x0d'

def lookAhead (lines : Bool) : Nat → List Char → ReadM (Option Nat)
  | n, [] => do
    if n < commentReach then need (n + 1)
    return none
  | n, c :: r => do
    if commentReach ≤ n then return none
    need (n + 1)
    if isBlank c || (lines && isPlainBreak c) then lookAhead lines (n + 1) r
    else if lines && isBreak c then
      if n + 1 < commentReach then need (n + 2)
      return none
    else return if c = '#' then some n else none

def passUntil (index : Nat) : Nat → ReadM Unit
  | 0 => pure ()
  | fuel + 1 => do
    need 1
    if (← get).index < index then
      if ← sees isBreak then
        need 2
        passBreak
      else pass
      passUntil index fuel

def passComments : Nat → ReadM Unit
  | 0 => pure ()
  | fuel + 1 => do
    let _ ← passLine
    let c ← get
    if c.rest.head?.all isPlainBreak then
      if let some n ← lookAhead true 1 (c.rest.drop 1) then
        passUntil (c.index + n) c.size
        passComments fuel
    else need 2

def passLineComment : ReadM Unit := do
  let c ← get
  if c.breaks = 0 then
    if let some n ← lookAhead false 0 c.rest then
      passUntil (c.index + n) c.size
      let _ ← passLine

end ReadM

end TraceCompiler.Yaml
