import TraceCompiler.Text.Basic
import TraceCompiler.Yaml.Cursor

/-! # The text of scalars

A scalar stands in the text plain, between quotes, or as an indented block.
-/

namespace TraceCompiler.Yaml

/-- What stands between two words of a scalar. -/
inductive Gap where
  | blanks (cs : List Char)
  | breaks (first : Option Char) (more : List Char)

namespace Gap

def text : Gap → List Char
  | blanks cs => cs.reverse
  | breaks first more =>
    match first with
    | some '\n' => if more.isEmpty then [' '] else more.reverse
    | _ => first.toList ++ more.reverse

def crossesLine : Gap → Bool
  | blanks _ => false
  | breaks _ _ => true

end Gap

namespace ReadM

def gap (column : Int) : Nat → Gap → ReadM Gap
  | 0, g => return g
  | fuel + 1, g => do
    need 1
    let c ← get
    match c.rest with
    | [] => return g
    | x :: _ =>
      if isBlank x then
        match g with
        | .blanks cs =>
          pass
          gap column fuel (.blanks (x :: cs))
        | .breaks _ _ =>
          if x = '\t' && c.column < column then malformed
          pass
          gap column fuel g
      else if isBreak x then
        need 2
        passBreak
        match g with
        | .blanks _ => gap column fuel (.breaks (some (keptBreak x)) [])
        | .breaks first more => gap column fuel (.breaks first (keptBreak x :: more))
      else return g

def isFlowIndicator (c : Char) : Bool :=
  c = ',' || c = '?' || c = '[' || c = ']' || c = '{' || c = '}'

/-- Divide a text behind the first word of a plain scalar. -/
def plainWord (flow : Bool) : List Char → List Char × List Char
  | [] => ([], [])
  | c :: r =>
    if isBlank c || isBreak c || (c = ':' && gapNext r) || (flow && isFlowIndicator c) then ([], c :: r)
    else
      let (word, rest) := plainWord flow r
      (c :: word, rest)

/-- Read words of a plain scalar, of which the ones before are given last first. -/
def plainFrom (flow : Bool) (indent : Int) : Nat → List (List Char) → Gap → ReadM (List Char × Bool)
  | 0, _, _ => malformed
  | fuel + 1, parts, between => do
    need 4
    let c ← get
    let stop (parts : List (List Char)) (g : Gap) : List Char × Bool :=
      (parts.reverse.flatten, g.crossesLine)
    if (c.column = 0 && isMarker c.rest) || c.rest.head? = some '#' then return stop parts between
    let (word, rest) := plainWord flow c.rest
    if word.isEmpty then return stop parts between
    advance 2 word.length
    let parts := word :: between.text :: parts
    if gapNext rest && !rest.isEmpty then
      let g ← gap indent c.size (.blanks [])
      if !flow && (← get).column < indent then return stop parts g
      plainFrom flow indent fuel parts g
    else return stop parts (.blanks [])

def plain (flow : Bool) (indent : Int) : ReadM (String × Bool) := do
  let (text, crossed) ← plainFrom flow indent (← get).size [] (.blanks [])
  return (String.ofList text, crossed)

def escape? : Char → Option Char
  | '0' => some '\x00'
  | 'a' => some '\x07'
  | 'b' => some '\x08'
  | 't' | '\t' => some '\t'
  | 'n' => some '\n'
  | 'v' => some '\x0b'
  | 'f' => some '\x0c'
  | 'r' => some '\x0d'
  | 'e' => some '\x1b'
  | ' ' => some ' '
  | '"' => some '"'
  | '\'' => some '\''
  | '\\' => some '\\'
  | 'N' => some '\u0085'
  | '_' => some '\u00a0'
  | 'L' => some '\u2028'
  | 'P' => some '\u2029'
  | _ => none

def escapeDigits? : Char → Option Nat
  | 'x' => some 2
  | 'u' => some 4
  | 'U' => some 8
  | _ => none

def charOfDigits? (ds : List Char) : Option Char := do
  let n ← ds.foldlM (fun n c => (Text.digitValue? 16 c).map (n * 16 + ·)) 0
  if n.isValidChar then some (Char.ofNat n) else none

def escaped : ReadM Char := do
  match (← get).rest with
  | [] => malformed
  | x :: _ =>
    match escapeDigits? x with
    | some n =>
      pass
      need n
      let ds := (← get).rest.take n
      let some c := if ds.length = n then charOfDigits? ds else none | malformed
      (List.range n).forM fun _ => pass
      return c
    | none =>
      let some c := escape? x | malformed
      pass
      return c

def quotedWord (quote : Char) : Nat → List Char → ReadM (List Char × Bool)
  | 0, _ => malformed
  | fuel + 1, word => do
    match (← get).rest with
    | [] => return (word.reverse, false)
    | c :: r =>
      if isBlank c || isBreak c then return (word.reverse, false)
      else if c = quote then
        if quote = '\'' && r.head? = some '\'' then
          pass
          pass
          need 2
          quotedWord quote fuel ('\'' :: word)
        else return (word.reverse, false)
      else if c = '\\' && quote = '"' then
        if r.head?.any isBreak then
          need 3
          pass
          passBreak
          return (word.reverse, true)
        else
          pass
          let x ← escaped
          need 2
          quotedWord quote fuel (x :: word)
      else
        pass
        need 2
        quotedWord quote fuel (c :: word)

def quotedFrom (quote : Char) : Nat → List (List Char) → ReadM (List Char)
  | 0, _ => malformed
  | fuel + 1, parts => do
    need 4
    let c ← get
    if c.rest.isEmpty || (c.column = 0 && isMarker c.rest) then malformed
    let (word, joined) ← quotedWord quote c.size []
    need 1
    if ← sees (· = quote) then
      pass
      return (word :: parts).reverse.flatten
    let g ← gap 0 c.size (if joined then .breaks none [] else .blanks [])
    quotedFrom quote fuel (g.text :: word :: parts)

def quoted (quote : Char) : ReadM String := do
  pass
  return String.ofList (← quotedFrom quote (← get).size [])

/-- What becomes of the line breaks at the end of a block. -/
inductive Chomping where
  | strip
  | clip
  | keep
  deriving DecidableEq

def chomping? : ReadM (Option Chomping) := do
  need 1
  match (← get).rest with
  | '+' :: _ => do pass; return some .keep
  | '-' :: _ => do pass; return some .strip
  | _ => return none

def indentation? : ReadM (Option Nat) := do
  need 1
  match (← get).rest with
  | c :: _ =>
    if c = '0' then malformed
    if c.isDigit then
      pass
      return some (c.toNat - '0'.toNat)
    return none
  | [] => return none

def blockBreaks (indent : Nat) : Nat → Nat → List Char → ReadM (List Char × Nat)
  | 0, most, breaks => return (breaks, most)
  | fuel + 1, most, breaks => do
    need 1
    let c ← get
    let spaces := (c.rest.takeWhile (· = ' ')).length
    advance 1 (if indent = 0 then spaces else min spaces (indent - c.column))
    let c ← get
    let most := max most c.column
    match c.rest with
    | [] => return (breaks, most)
    | x :: _ =>
      if x = '\t' && (indent = 0 || c.column < indent) then malformed
      if isBreak x then
        need 2
        passBreak
        blockBreaks indent fuel most (keptBreak x :: breaks)
      else return (breaks, most)

def blockLines (literal : Bool) (indent : Nat) : Nat → Bool → List (List Char) → List Char →
    List Char → ReadM (List (List Char) × List Char × List Char)
  | 0, _, parts, first, more => return (parts, first, more)
  | fuel + 1, indented, parts, first, more => do
    need 1
    let c ← get
    if c.rest.isEmpty || c.column ≠ indent then return (parts, first, more)
    let blank := c.rest.head?.any isBlank
    let lead := if !literal && !indented && !blank && first = ['\n'] then
        if more.isEmpty then [' '] else []
      else first
    let line ← passLine
    need 2
    let next := ((← get).rest.head?.filter isBreak).toList.map keptBreak
    if !next.isEmpty then passBreak
    let (breaks, _) ← blockBreaks indent c.size 0 []
    blockLines literal indent fuel blank (line :: more.reverse :: lead :: parts) next breaks

def block (literal : Bool) (indent : Int) : ReadM String := do
  pass
  let sign ← chomping?
  let digit ← indentation?
  let sign ← if sign.isNone && digit.isSome then chomping? else pure sign
  endLine
  let given := digit.map fun n => if 0 ≤ indent then indent.toNat + n else n
  let size := (← get).size
  let (breaks, most) ← blockBreaks (given.getD 0) size 0 []
  let column := given.getD (max (max most (indent + 1).toNat) 1)
  let (parts, first, more) ← blockLines literal column size false [] [] breaks
  let chomping := sign.getD .clip
  let lead := if chomping = .strip then [] else first
  let tail := if chomping = .keep then more.reverse else []
  return String.ofList (tail :: lead :: parts).reverse.flatten

end ReadM

end TraceCompiler.Yaml
