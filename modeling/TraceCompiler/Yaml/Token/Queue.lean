import TraceCompiler.Yaml.Token.Basic
import TraceCompiler.Yaml.Token.Scalar

/-! # The tokens of a document

Tokens are found from left to right and wait in a queue.
-/

namespace TraceCompiler.Yaml

/-- A token that may turn out to be a key, in one flow level. -/
structure KeySlot where
  possible : Bool := false
  /-- Whether nothing but a key can stand there. -/
  required : Bool := false
  awaited : Bool := false
  number : Nat := 0
  index : Nat := 0
  line : Nat := 0
  column : Nat := 0

/-- The tokens found so far, and the place to go on from. -/
structure Queue where
  cursor : Cursor
  waiting : List Token := []
  taken : Nat := 0
  indent : Int := -1
  indents : List Int := []
  keyAllowed : Bool := true
  /-- The flow levels from the innermost on; the last one is the document. -/
  slots : List KeySlot := [{}]
  flow : Nat := 0
  /-- How many indented parts are open. -/
  nesting : Nat := 0

abbrev QueueM := StateT Queue (Except Error)

namespace QueueM

def onText {α : Type} (m : ReadM α) : QueueM α := do
  let q ← get
  let (a, cursor) ← m.run q.cursor
  set { q with cursor }
  return a

def malformed {α : Type} : QueueM α := onText ReadM.malformed

def maxNesting : Nat := 10000

def append (line : Nat) (l : Lexeme) : QueueM Unit :=
  modify fun q => { q with waiting := q.waiting ++ [⟨line, l⟩] }

/-- Put a token in front of the one with a number, or at the end if that one was taken out. -/
def insertAt (number line : Nat) (l : Lexeme) : QueueM Unit :=
  modify fun q =>
    let place := if number < q.taken then q.waiting.length else number - q.taken
    { q with waiting := q.waiting.insertIdx place ⟨line, l⟩ }

def appendHere (l : Lexeme) : QueueM Unit := do append (← get).cursor.line l

def slot : QueueM KeySlot := return ((← get).slots.head?).getD {}

def setSlot (s : KeySlot) : QueueM Unit := modify fun q => { q with slots := s :: q.slots.drop 1 }

def keyReach : Nat := 1024

def stillKey (s : KeySlot) : QueueM Bool := do
  let c := (← get).cursor
  if !s.possible then return false
  else if s.line < c.line || s.index + keyReach < c.index then
    if s.required then malformed else return false
  else return true

def dropKey : QueueM Unit := do
  let s ← slot
  if s.possible then
    if s.required then malformed
    setSlot { s with possible := false, awaited := false }

def saveKey : QueueM Unit := do
  let q ← get
  if q.keyAllowed then
    dropKey
    setSlot {
      possible := true
      required := q.flow = 0 && q.indent = q.cursor.column
      awaited := true
      number := q.taken + q.waiting.length
      index := q.cursor.index
      line := q.cursor.line
      column := q.cursor.column }

def allowKey (b : Bool) : QueueM Unit := modify fun q => { q with keyAllowed := b }

/-- Open an indented part in a column, unless it is open already. Its mark goes to the end or in
front of a token. -/
def openIndent (column : Nat) (number : Option Nat) (line : Nat) (l : Lexeme) : QueueM Unit := do
  let q ← get
  if q.flow = 0 && q.indent < column then
    set { q with indent := column, indents := q.indent :: q.indents, nesting := q.nesting + 1 }
    if maxNesting < q.nesting + 1 then malformed
    match number with
    | some n => insertAt n line l
    | none => append line l

def closeIndents (column : Int) : Nat → QueueM Unit
  | 0 => pure ()
  | fuel + 1 => do
    let q ← get
    if q.flow = 0 && column < q.indent then
      appendHere .blockEnd
      modify fun q => { q with
        indent := (q.indents.head?).getD (-1)
        indents := q.indents.drop 1
        nesting := q.nesting - 1 }
      closeIndents column fuel

def closeAll : QueueM Unit := do
  closeIndents (-1) ((← get).nesting + 1)
  dropKey
  allowKey false

/-- Pass blanks, comments and line breaks up to the next token. Tabs are blanks only in flow style
and where no key can start. -/
def passSpace : Nat → QueueM Unit
  | 0 => pure ()
  | fuel + 1 => do
    onText do
      ReadM.need 1
      let c ← get
      if c.column = 0 && c.marked then ReadM.pass
      ReadM.need 1
    let q ← get
    let tabs := 0 < q.flow || !q.keyAllowed
    let _ ← onText (ReadM.take fun c => c = ' ' || (c = '\t' && tabs))
    if ← onText (ReadM.sees (· = '#')) then onText (ReadM.passComments q.cursor.size)
    if ← onText (ReadM.sees isBreak) then
      onText ReadM.passBreakIf
      if q.flow = 0 then allowKey true
      passSpace fuel

def streamEnd : QueueM Unit := do
  modify fun q =>
    if q.cursor.column = 0 then q
    else { q with cursor := { q.cursor with column := 0, line := q.cursor.line + 1 } }
  closeAll
  appendHere .streamEnd

def directive : QueueM Unit := do
  closeAll
  let line := (← get).cursor.line
  match ← onText ReadM.directive with
  | .version major minor => append line (.version major minor)
  | .tagHandle h u => append line (.tagHandle h u)

def marker (l : Lexeme) : QueueM Unit := do
  closeAll
  let line := (← get).cursor.line
  onText do
    ReadM.pass
    ReadM.pass
    ReadM.pass
  append line l

def indicator (l : Lexeme) : QueueM Unit := do
  let line := (← get).cursor.line
  onText ReadM.pass
  append line l

def flowStart (l : Lexeme) : QueueM Unit := do
  saveKey
  let q ← get
  set { q with slots := { number := q.taken + q.waiting.length } :: q.slots, flow := q.flow + 1 }
  if maxNesting < q.flow + 1 then malformed
  allowKey true
  indicator l

def flowEnd (l : Lexeme) : QueueM Unit := do
  dropKey
  let q ← get
  if 0 < q.flow then
    let number := (← slot).number
    set { q with
      flow := q.flow - 1
      slots := (q.slots.drop 1).map fun (s : KeySlot) =>
        if s.number = number then { s with awaited := false } else s }
  allowKey false
  indicator l

def flowEntry : QueueM Unit := do
  dropKey
  allowKey true
  indicator .flowEntry

def blockEntry : QueueM Unit := do
  let q ← get
  if q.flow = 0 then
    unless q.keyAllowed do malformed
    openIndent q.cursor.column none q.cursor.line .blockSequenceStart
  dropKey
  allowKey true
  indicator .blockEntry

def explicit (l : Lexeme) : QueueM Unit := do
  let q ← get
  if q.flow = 0 then
    unless q.keyAllowed do malformed
    openIndent q.cursor.column none q.cursor.line .blockMappingStart
  if l = .key then dropKey
  allowKey (q.flow = 0)
  indicator l

def value : QueueM Unit := do
  let s ← slot
  if ← stillKey s then
    insertAt s.number s.line .key
    openIndent s.column (some s.number) s.line .blockMappingStart
    setSlot { s with possible := false, awaited := false }
    allowKey false
    indicator .value
  else explicit .value

/-- A token that may be a key, and behind which none starts. -/
def keyable (body : ReadM Lexeme) : QueueM Unit := do
  saveKey
  allowKey false
  let line := (← get).cursor.line
  append line (← onText body)

def plain : QueueM Unit := do
  saveKey
  allowKey false
  let q ← get
  let (text, crossed) ← onText (ReadM.plain (0 < q.flow) (q.indent + 1))
  append q.cursor.line (.plain text)
  if crossed then allowKey true

def block (literal : Bool) : QueueM Unit := do
  dropKey
  allowKey true
  let q ← get
  append q.cursor.line (.quoted (← onText (ReadM.block literal q.indent)))

def startsPlain (flow : Bool) : List Char → Bool
  | [] => false
  | c :: r =>
    if c = '-' then !(r.head?.any isBlank)
    else if c = '?' || c = ':' then !flow && !gapNext r
    else !isBlank c && !isBreak c &&
      !(c ∈ [',', '[', ']', '{', '}', '#', '&', '*', '!', '|', '>', '\'', '"', '%', '@', '\x60'])

/-- The token that starts with what comes next, inside a document. -/
def content (flow : Bool) (cs : List Char) : QueueM Unit :=
  match cs with
  | [] => malformed
  | c :: r =>
    if c = '[' then flowStart .flowSequenceStart
    else if c = '{' then flowStart .flowMappingStart
    else if c = ']' then flowEnd .flowSequenceEnd
    else if c = '}' then flowEnd .flowMappingEnd
    else if c = ',' then flowEntry
    else if c = '-' && gapNext r then blockEntry
    else if c = '?' && (flow || gapNext r) then explicit .key
    else if c = ':' && (flow || gapNext r) then value
    else if c = '*' then keyable (Lexeme.reference <$> ReadM.anchorName)
    else if c = '&' then keyable (Lexeme.anchor <$> ReadM.anchorName)
    else if c = '!' then keyable (do let (h, s) ← ReadM.tag; return .tag h s)
    else if c = '|' && !flow then block true
    else if c = '>' && !flow then block false
    else if c = '\'' || c = '"' then keyable (Lexeme.quoted <$> ReadM.quoted c)
    else if startsPlain flow cs then plain
    else malformed

def find : QueueM Unit := do
  onText (ReadM.need 1)
  passSpace (← get).cursor.size
  let q ← get
  closeIndents q.cursor.column (q.nesting + 1)
  onText (ReadM.need 4)
  let c := (← get).cursor
  if c.rest.isEmpty then streamEnd
  else if c.column = 0 && c.rest.head? = some '%' then directive
  else if c.column = 0 && isMarker c.rest then
    marker (if c.rest.head? = some '-' then .documentStart else .documentEnd)
  else
    content (0 < (← get).flow) c.rest
    if (← get).waiting.getLast?.any (·.lexeme ≠ .blockEntry) then onText ReadM.passLineComment

/-- Find tokens until the first one is certain and two more wait behind it. -/
def fill : Nat → QueueM Unit
  | 0 => pure ()
  | fuel + 1 => do
    let q ← get
    let undecided ←
      if q.waiting.length < 3 then pure true
      else
        match q.slots.find? fun s => s.awaited && s.number = q.taken with
        | some s => stillKey s
        | none => pure false
    if undecided then
      find
      fill fuel

def peek : QueueM Token := do
  fill (← get).cursor.size
  match (← get).waiting with
  | t :: _ => return t
  | [] => malformed

def skip : QueueM Unit :=
  modify fun q => { q with waiting := q.waiting.drop 1, taken := q.taken + 1 }

end QueueM

end TraceCompiler.Yaml
