import TraceCompiler.Yaml.Token.Queue

/-! # The tree of a document

A document is a tree of nodes. Only the first document of a text counts.
-/

namespace TraceCompiler.Yaml

/-- A tree. Scalars and collections know their line. -/
inductive Node where
  | plain (line : Nat) (text : String)
  /-- A scalar in quotes or in a block. -/
  | quoted (line : Nat) (text : String)
  | sequence (line : Nat) (items : List Node)
  | mapping (line : Nat) (entries : List (Node × Node))
  | tagged (tag : String) (node : Node)
  | reference (name : String) (number anchor : Nat)
  deriving Inhabited

namespace Node

def untagged : Node → Node
  | tagged _ n => n.untagged
  | n => n

def line : Node → Nat
  | plain l _ | quoted l _ | sequence l _ | mapping l _ => l
  | tagged _ n => n.line
  | reference .. => 0

def text? (n : Node) : Option String :=
  match n.untagged with
  | plain _ s | quoted _ s => some s
  | _ => none

def standardTags : String := "tag:yaml.org,2002:"

def shortTag (tag : String) : String :=
  if tag.startsWith standardTags then "!!" ++ (tag.drop standardTags.length).toString else tag

def tag? : Node → Option String
  | tagged t _ => some (shortTag t)
  | _ => none

/-- Whether a key asks for other mappings to be merged into its own. -/
def isMerge (n : Node) : Bool :=
  match n with
  | plain _ s => s = "<<"
  | tagged t _ => shortTag t = "!!merge" && n.text? = some "<<"
  | _ => false

def sameKey (a b : Node) : Bool :=
  match a.untagged, b.untagged with
  | reference x _ _, reference y _ _ => x = y
  | sequence .., sequence .. | mapping .., mapping .. => true
  | _, _ => a.text?.isSome && a.text? = b.text?

end Node

structure Tree where
  root : Node
  anchors : Array Node := #[]

/-- The anchors seen so far, and the handles of tags. -/
structure Anchors where
  /-- The anchors by their names, the latest first. -/
  names : List (String × Nat) := []
  nodes : Array Node := #[]
  aliases : Nat := 0
  handles : List (String × String) := []

abbrev TreeM := StateT Anchors QueueM

namespace TreeM

def peek : TreeM Token := QueueM.peek

def skip : TreeM Unit := QueueM.skip

def malformed {α : Type} : TreeM α := QueueM.malformed (α := α)

def nothing (t : Token) : Node := .plain t.line ""

def sees (ls : List Lexeme) : TreeM Bool := return (← peek).lexeme ∈ ls

def aliasOf (name : String) : TreeM Node := do
  let a ← get
  let some anchor := a.names.lookup name | throw (.unknownAnchor name)
  set { a with aliases := a.aliases + 1 }
  return .reference name a.aliases anchor

/-- Note an anchor before its node is read, so that the node can refer to itself. -/
def declare (name : String) : TreeM Nat :=
  modifyGet fun a =>
    (a.nodes.size, { a with names := (name, a.nodes.size) :: a.names, nodes := a.nodes.push default })

def address (handle suffix : String) : TreeM String := do
  if handle.isEmpty then return suffix
  match (← get).handles.lookup handle with
  | some start => return start ++ suffix
  | none => malformed

/-- The anchor and the tag of a node, in either order. -/
def properties : TreeM (Option String × Option String) := do
  match (← peek).lexeme with
  | .anchor name =>
    skip
    match (← peek).lexeme with
    | .tag h s => do skip; return (some name, some (← address h s))
    | _ => return (some name, none)
  | .tag h s =>
    skip
    match (← peek).lexeme with
    | .anchor name => do skip; return (some name, some (← address h s))
    | _ => return (none, some (← address h s))
  | _ => return (none, none)

def withTag (tag : Option String) (n : Node) : Node :=
  match tag with
  | some t => if t = "!" then n else .tagged t n
  | none => n

mutual

def node : Nat → Bool → Bool → TreeM Node
  | 0, _, _ => malformed
  | fuel + 1, block, indentless => do
    let start ← peek
    match start.lexeme with
    | .reference name =>
      skip
      aliasOf name
    | _ =>
      let (anchor, tag) ← properties
      let number ← anchor.mapM declare
      let n ← content fuel block indentless start.line (anchor.isSome || tag.isSome)
      let n := withTag tag n
      match number with
      | some i => modify fun a => { a with nodes := a.nodes.setIfInBounds i n }
      | none => pure ()
      return n

/-- A node behind its properties, of which the line is given. -/
def content : Nat → Bool → Bool → Nat → Bool → TreeM Node
  | 0, _, _, _, _ => malformed
  | fuel + 1, block, indentless, line, described => do
    match (← peek).lexeme with
    | .blockEntry =>
      if indentless then return .sequence line (← indentlessItems fuel)
      else if described then return .plain line ""
      else malformed
    | .plain s => do skip; return .plain line s
    | .quoted s => do skip; return .quoted line s
    | .flowSequenceStart => do skip; return .sequence line (← flowItems fuel true)
    | .flowMappingStart => do skip; return .mapping line (← flowEntries fuel true)
    | .blockSequenceStart =>
      if block then
        skip
        return .sequence line (← blockItems fuel)
      else if described then return .plain line ""
      else malformed
    | .blockMappingStart =>
      if block then
        skip
        return .mapping line (← blockEntries fuel)
      else if described then return .plain line ""
      else malformed
    | _ => if described then return .plain line "" else malformed

/-- The items of a sequence up to its closing bracket. A pair without braces is an item. -/
def flowItems : Nat → Bool → TreeM (List Node)
  | 0, _ => malformed
  | fuel + 1, first => do
    if (← peek).lexeme = .flowSequenceEnd then
      skip
      return []
    if !first then
      unless (← peek).lexeme = .flowEntry do malformed
      skip
    let t ← peek
    if t.lexeme = .flowSequenceEnd then
      skip
      return []
    else if t.lexeme = .key then
      skip
      let k ← pairKey fuel
      let v ← pairValue fuel [.flowEntry, .flowSequenceEnd]
      return .mapping t.line [(k, v)] :: (← flowItems fuel false)
    else
      let item ← node fuel false false
      return item :: (← flowItems fuel false)

/-- The key of a pair without braces. Where it is missing, the token in its place is passed over. -/
def pairKey : Nat → TreeM Node
  | 0 => malformed
  | fuel + 1 => do
    let t ← peek
    if t.lexeme ∈ [Lexeme.value, .flowEntry, .flowSequenceEnd] then
      skip
      return nothing t
    else node fuel false false

/-- A value in flow style with the colon before it, if there is one. -/
def pairValue : Nat → List Lexeme → TreeM Node
  | 0, _ => malformed
  | fuel + 1, ends => do
    if (← peek).lexeme = .value then
      skip
      let t ← peek
      if t.lexeme ∈ ends then return nothing t else node fuel false false
    else return nothing (← peek)

def flowEntries : Nat → Bool → TreeM (List (Node × Node))
  | 0, _ => malformed
  | fuel + 1, first => do
    if (← peek).lexeme = .flowMappingEnd then
      skip
      return []
    if !first then
      unless (← peek).lexeme = .flowEntry do malformed
      skip
    let t ← peek
    if t.lexeme = .flowMappingEnd then
      skip
      return []
    else if t.lexeme = .key then
      skip
      let t ← peek
      let k ← if t.lexeme ∈ [Lexeme.value, .flowEntry, .flowMappingEnd] then pure (nothing t)
        else node fuel false false
      let v ← pairValue fuel [.flowEntry, .flowMappingEnd]
      return (k, v) :: (← flowEntries fuel false)
    else
      let k ← node fuel false false
      let v := nothing (← peek)
      return (k, v) :: (← flowEntries fuel false)

def blockItems : Nat → TreeM (List Node)
  | 0 => malformed
  | fuel + 1 => do
    match (← peek).lexeme with
    | .blockEnd => do skip; return []
    | .blockEntry =>
      skip
      let t ← peek
      let item ← if t.lexeme ∈ [Lexeme.blockEntry, .blockEnd] then pure (nothing t)
        else node fuel true false
      return item :: (← blockItems fuel)
    | _ => malformed

def indentlessItems : Nat → TreeM (List Node)
  | 0 => malformed
  | fuel + 1 => do
    match (← peek).lexeme with
    | .blockEntry =>
      skip
      let t ← peek
      let item ← if t.lexeme ∈ [Lexeme.blockEntry, .key, .value, .blockEnd] then pure (nothing t)
        else node fuel true false
      return item :: (← indentlessItems fuel)
    | _ => return []

def blockEntries : Nat → TreeM (List (Node × Node))
  | 0 => malformed
  | fuel + 1 => do
    match (← peek).lexeme with
    | .blockEnd => do skip; return []
    | .key =>
      skip
      let k ← blockPart fuel
      let v ← if (← peek).lexeme = .value then do skip; blockPart fuel
        else pure (nothing (← peek))
      return (k, v) :: (← blockEntries fuel)
    | _ => malformed

def blockPart : Nat → TreeM Node
  | 0 => malformed
  | fuel + 1 => do
    let t ← peek
    if t.lexeme ∈ [Lexeme.key, .value, .blockEnd] then return nothing t
    else node fuel true true

end

def addHandle (handle uri : String) : TreeM Unit := do
  let a ← get
  if (a.handles.lookup handle).isSome then malformed
  set { a with handles := a.handles ++ [(handle, uri)] }

def directives : Nat → Bool → TreeM Unit
  | 0, _ => malformed
  | fuel + 1, versioned => do
    match (← peek).lexeme with
    | .version major minor =>
      if versioned || major ≠ 1 || minor ≠ 1 then malformed
      skip
      directives fuel true
    | .tagHandle h u =>
      addHandle h u
      skip
      directives fuel versioned
    | _ =>
      modify fun a => { a with handles := a.handles ++ [("!", "!"), ("!!", Node.standardTags)] }

def document (fuel : Nat) : TreeM (Option Node) := do
  let t ← peek
  match t.lexeme with
  | .streamEnd => return none
  | .version .. | .tagHandle .. | .documentStart =>
    directives fuel false
    unless (← peek).lexeme = .documentStart do malformed
    skip
    let t ← peek
    let root ← match t.lexeme with
      | .version .. | .tagHandle .. | .documentStart | .documentEnd | .streamEnd => pure (nothing t)
      | _ => node fuel true false
    let _ ← peek
    return some root
  | _ =>
    directives fuel false
    let root ← node fuel true false
    let _ ← peek
    return some root

end TreeM

def parse (s : String) : Except Error (Option Tree) := do
  let cursor := Cursor.ofText s
  let (root, a) ← ((TreeM.document (8 * cursor.size)).run {}).run' { cursor }
  return root.map fun n => ⟨n, a.nodes⟩

end TraceCompiler.Yaml
