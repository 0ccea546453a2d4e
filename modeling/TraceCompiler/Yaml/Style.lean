import TraceCompiler.Yaml.Cursor
import TraceCompiler.Yaml.Scalar

/-! # How texts are written

A text is plain if it reads back as itself.
-/

namespace TraceCompiler.Yaml

inductive Style where
  | plain
  | single
  | double
  | block
  deriving DecidableEq

/-- Numbers in base sixty, such as `1:30`, which older documents have. -/
def isBaseSixty (s : String) : Bool :=
  let isDigit (c : Char) : Bool := '0' ≤ c && c ≤ '9'
  let digits (cs : List Char) : Bool := cs.all fun c => isDigit c || c = '_'
  match (String.ofList (Literal.splitSign s.toList).2).splitOn ":" with
  | first :: second :: more =>
    let parts := second :: more
    let last := (parts.getLast?.getD "").toList
    let whole := last.takeWhile (· ≠ '.')
    let fraction := last.drop (whole.length + 1)
    let isSixty (cs : List Char) : Bool :=
      match cs with
      | [d] => isDigit d
      | [t, d] => '0' ≤ t && t ≤ '5' && isDigit d
      | _ => false
    first.toList.head?.any isDigit && digits first.toList &&
      parts.dropLast.all (fun p => isSixty p.toList) && isSixty whole && digits fraction
  | _ => false

/-- Whether a plain text reads back as text. -/
def staysText (s : String) : Bool :=
  Scalar.classify s = .text s && (Scalar.truthOf? s).isNone && !isBaseSixty s

def isVisible (c : Char) : Bool :=
  let n := c.toNat
  n = 10 || (32 ≤ n && n ≤ 126) || (0xa0 ≤ n && n ≤ 0xfffd && n ≠ 0xfeff)

def hasPair (p q : Char → Bool) : List Char → Bool
  | a :: b :: r => (p a && q b) || hasPair p q (b :: r)
  | _ => false

/-- Whether the structure of a document is safe from a plain text, in flow style or in block style. -/
def fitsPlain (flow : Bool) (s : String) : Bool :=
  let cs := s.toList
  let blankAt (i : Nat) : Bool :=
    match cs[i]? with
    | none => true
    | some c => isBlank c
  let harmless (i : Nat) (c : Char) : Bool :=
    if i = 0 && c ∈ ['#', ',', '[', ']', '{', '}', '&', '*', '!', '|', '>', '\'', '"', '%', '@', '\x60'] then
      false
    else if c = ':' || (i = 0 && c = '?') then !flow && !blankAt (i + 1)
    else if i = 0 && c = '-' then !blankAt 1
    else if c ∈ [',', '?', '[', ']', '{', '}'] then !flow
    else if c = '#' then !blankAt (i - 1)
    else true
  cs.zipIdx.all (fun (c, i) => harmless i c && isVisible c && !isBreak c) &&
    !(s.startsWith "---" || s.startsWith "...") && cs.head? ≠ some ' ' && cs.getLast? ≠ some ' '

def fitsSingle (s : String) : Bool :=
  let cs := s.toList
  cs.all isVisible && !hasPair isBreak (· = ' ') cs && !hasPair (· = ' ') isBreak cs

def fitsBlock (s : String) : Bool :=
  let cs := s.toList
  cs.all (fun c => isVisible c || c = '\t') && cs.getLast? ≠ some ' ' && !hasPair (· = ' ') isBreak cs

def Style.of (flow : Bool) (s : String) : Style :=
  if s.contains '\n' then if !flow && fitsBlock s then block else double
  else if !staysText s then double
  else if fitsPlain flow s then plain
  else if fitsSingle s then single
  else double

/-- A character between double quotes, as it is only if it is `bare` and can be. -/
def escapedChar (bare : Bool) (c : Char) : String :=
  let n := c.toNat
  let hex (width : Nat) : String := (Text.hexPadded width n).toUpper
  if c = '"' then "\\\""
  else if c = '\\' then "\\\\"
  else if bare && isVisible c && !isBreak c then c.toString
  else if n = 0 then "\\0"
  else if n = 7 then "\\a"
  else if n = 8 then "\\b"
  else if n = 9 then "\\t"
  else if n = 10 then "\\n"
  else if n = 11 then "\\v"
  else if n = 12 then "\\f"
  else if n = 13 then "\\r"
  else if n = 27 then "\\e"
  else if n = 0x85 then "\\N"
  else if n = 0xa0 then "\\_"
  else if n = 0x2028 then "\\L"
  else if n = 0x2029 then "\\P"
  else if n < 256 then "\\x" ++ hex 2
  else if n < 0x10000 then "\\u" ++ hex 4
  else "\\U" ++ hex 8

/-- Characters between double quotes. Behind a byte order mark at the start nothing is bare. -/
def escapedText (cs : List Char) : String :=
  String.join (cs.map (escapedChar (cs.head? ≠ some '\ufeff')))

def blanks (column : Nat) : String := String.ofList (List.replicate column ' ')

def indented (column : Nat) : Bool → List Char → String
  | _, [] => ""
  | afterBreak, c :: r =>
    if isBreak c then c.toString ++ indented column true r
    else (if afterBreak then blanks column else "") ++ c.toString ++ indented column false r

def blockHints (cs : List Char) : String :=
  let start := if cs.head?.any fun c => c = ' ' || isBreak c then "2" else ""
  let ending := match cs.reverse with
    | [] => "-"
    | [c] => if isBreak c then "+" else "-"
    | c :: d :: _ => if !isBreak c then "-" else if isBreak d then "+" else ""
  start ++ ending

def scalarText (flow : Bool) (column : Nat) (s : String) : String :=
  let cs := s.toList
  match Style.of flow s with
  | .plain => s
  | .single =>
    "'" ++ indented column false (cs.flatMap fun c => if c = '\'' then [c, c] else [c]) ++ "'"
  | .double => "\"" ++ escapedText cs ++ "\""
  | .block =>
    "|" ++ blockHints cs ++ (if cs.head?.any isBreak then "" else "\n") ++ indented column true cs

def scalarLine (column : Nat) (s : String) : String :=
  let t := scalarText false column s
  if Style.of false s = .block && s.toList.getLast?.any isBreak then t else t ++ "\n"

inductive Layout where
  | text (s : String)
  | int (i : Int)
  | bool (b : Bool)
  | flow (items : List String)
  | list (items : List Layout)
  | record (fields : List (String × Layout))

def isShortKey (s : String) : Bool := !s.toList.any isBreak && s.utf8ByteSize ≤ 128

mutual

/-- A value after its colon or dash. -/
def Layout.after (here : Bool) (column : Nat) : Layout → String
  | .text s => " " ++ scalarLine column s
  | .int i => " " ++ toString i ++ "\n"
  | .bool b => " " ++ toString b ++ "\n"
  | .flow items => " [" ++ Text.joined ", " (items.map (scalarText true (column + 2))) ++ "]\n"
  | .list [] => " []\n"
  | .list items => (if here then " " else "\n" ++ blanks column) ++ Layout.itemLines column items
  | .record [] => " \x7b\x7d\n"
  | .record fields => (if here then " " else "\n" ++ blanks column) ++ Layout.fieldLines column fields

def Layout.itemLines (column : Nat) : List Layout → String
  | [] => ""
  | item :: rest =>
    "-" ++ Layout.after true (column + 2) item ++
      (if rest.isEmpty then "" else blanks column) ++ Layout.itemLines column rest

def Layout.fieldLines (column : Nat) : List (String × Layout) → String
  | [] => ""
  | (key, value) :: rest =>
    (if isShortKey key then
      scalarText false (column + 2) key ++ ":" ++ Layout.after false (column + 2) value
    else
      "? " ++ scalarLine (column + 2) key ++ blanks column ++ ":" ++
        Layout.after true (column + 2) value) ++
      (if rest.isEmpty then "" else blanks column) ++ Layout.fieldLines column rest

end

def Layout.document (fields : List (String × Layout)) : String := Layout.fieldLines 0 fields

end TraceCompiler.Yaml
