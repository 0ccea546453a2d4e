import TraceCompiler.Yaml.Scalar
import TraceCompiler.Yaml.Tree

/-! # Taking documents apart

A node is decoded on top of a default.
-/

namespace TraceCompiler.Yaml

structure Decoding where
  anchors : Array Node := #[]
  /-- The lines of the nodes that did not fit. -/
  mismatches : List Nat := []
  /-- How many nodes were visited, and how many of them by way of an alias. -/
  visits : Nat := 0
  aliased : Nat := 0
  /-- The aliases on the way to the present node. -/
  path : List Nat := []
  /-- More than the number of mappings that can be merged into one another. -/
  depth : Nat := 0

/-- Whether most visits come from aliases. The share that is allowed falls with their number. -/
def Decoding.isExcessive (d : Decoding) : Bool :=
  let extra := min (d.visits - 400000) 3600000
  100 < d.aliased && 1000 < d.visits &&
    d.visits * (99 * 3600000 - 89 * extra) < d.aliased * 100 * 3600000

/-- Decoding. Some decoders fail for reasons of their own. -/
abbrev DecodeM (ε : Type) := StateT Decoding (Except (Error ⊕ ε))

namespace DecodeM

variable {ε α σ : Type}

def fail (e : Error) : DecodeM ε α := throw (.inl e)

def mismatch (n : Node) : DecodeM ε Unit :=
  modify fun d => { d with mismatches := d.mismatches ++ [n.line] }

def count : DecodeM ε Unit := do
  modify fun d => { d with
    visits := d.visits + 1
    aliased := if d.path.isEmpty then d.aliased else d.aliased + 1 }
  if (← get).isExcessive then fail .excessiveAliases

def visit (n : Node) (k : Node → DecodeM ε α) : DecodeM ε α := do
  count
  match n with
  | .reference name number anchor =>
    let d ← get
    if number ∈ d.path then fail (.selfContained name)
    modify fun d => { d with path := number :: d.path }
    count
    let a ← k ((d.anchors[anchor]?).getD default)
    modify fun s => { s with path := d.path }
    return a
  | n => k n

def afresh (n : Node) (k : Node → DecodeM ε α) : DecodeM ε α := do
  let outer ← get
  set { outer with visits := 0, aliased := 0, path := [] }
  let a ← visit n k
  modify fun d => { d with visits := outer.visits, aliased := outer.aliased, path := outer.path }
  return a

/-- What a scalar stands for. Its tag may decide, and a text may be written as bytes. -/
def scalar? (n : Node) : DecodeM ε (Option Scalar) := do
  let some s := n.text? | return none
  match n.tag?, n with
  | none, .plain .. => return some (.classify s)
  | some "!!binary", _ =>
    match Text.Base64.decode? s with
    | some bytes => return some (.text (Text.ofBytes bytes))
    | none => fail (.badTag "!!binary")
  | some tag, _ =>
    if tag ∈ ["!!bool", "!!int", "!!float", "!!null", "!!timestamp"] then
      match Scalar.under? tag s with
      | some v => return some v
      | none => fail (.badTag tag)
    else return some (.text s)
  | none, _ => return some (.text s)

def isNull (n : Node) : DecodeM ε Bool := return (← scalar? n) = some .null

def string? (n : Node) : DecodeM ε (Option String) := do
  match ← scalar? n with
  | some .null => return none
  | some (.text s) => return some s
  | some _ => return n.text?
  | none => do mismatch n; return none

def string (n : Node) (default : String) : DecodeM ε String := return (← string? n).getD default

def int (n : Node) (default : Int) : DecodeM ε Int := do
  match ← scalar? n with
  | some .null => return default
  | some (.int i) => if i < 0x8000000000000000 then return i
  | some (.float w) =>
    if !Double.isNaN w && Double.le w (Double.ofInt 0x7FFFFFFFFFFFFFFF) then
      return Word.signed (Double.truncate w)
  | _ => pure ()
  mismatch n
  return default

def bool (n : Node) (default : Bool) : DecodeM ε Bool := do
  match ← scalar? n with
  | some .null => return default
  | some (.bool b) => return b
  | some (.text s) => if let some b := Scalar.truthOf? s then return b
  | _ => pure ()
  mismatch n
  return default

def list (item : Node → DecodeM ε α) (n : Node) : DecodeM ε (List α) := do
  match n.untagged with
  | .sequence _ items =>
    items.filterMapM fun i => visit i fun i => do
      if ← isNull i then return none else some <$> item i
  | _ =>
    unless ← isNull n do mismatch n
    return []

def strings (n : Node) : DecodeM ε (List String) := list (string · "") n

def optional (part : Node → DecodeM ε α) (n : Node) : DecodeM ε (Option α) := do
  if ← isNull n then return none
  if n.tag? = some "!!null" then
    mismatch n
    return none
  some <$> part n

def hasTwins : List (Node × Node) → Bool
  | [] => false
  | (k, _) :: rest => rest.any (fun e => k.sameKey e.1) || hasTwins rest

def isMergeable (n : Node) : DecodeM ε Bool := do
  let isMapping (n : Node) : Bool := n.untagged matches .mapping ..
  match n with
  | .reference _ _ anchor => return isMapping (((← get).anchors[anchor]?).getD default)
  | n => return isMapping n

def sourcesOf (merge : Node) : List Node :=
  match merge.untagged with
  | .sequence _ items => items
  | _ => [merge]

def anything (onKey : Error) : Nat → Node → DecodeM ε (Bool × Bool)
  | 0, _ => return (true, true)
  | depth + 1, n => do
    let inner (n : Node) : DecodeM ε (Bool × Bool) := visit n (anything .badKey depth)
    match n.untagged with
    | .sequence _ items =>
      items.forM fun i => discard (inner i)
      return (true, true)
    | .mapping _ es =>
      if hasTwins es then
        mismatch n
        return (false, true)
      let (merges, own) := es.partition (·.1.isMerge)
      own.forM fun (k, v) => do
        let (valued, isCollection) ← inner k
        if valued then
          if isCollection then fail onKey
          discard (inner v)
      merges.forM fun (_, m) => (sourcesOf m).forM fun source => do
        unless ← isMergeable source do fail .badMerge
        discard (inner source)
      return (true, true)
    | _ =>
      discard (scalar? n)
      return (true, false)

/-- The names among keys that merged entries must not have. -/
def reserved (es : List (Node × Node)) : DecodeM ε (List String) := do
  let depth := (← get).depth
  es.filterMapM fun (k, _) => visit k fun k => do
    match ← scalar? k with
    | some (.text s) => return some s
    | some _ => return none
    | none =>
      if (← anything .unhashableKey depth k).1 then fail .unhashableKey
      return none

/-- Go through a mapping, then through those merged into it. -/
def walk (entry : Bool → String → Node → σ → DecodeM ε σ) :
    Nat → Node → σ × Option (List String) → DecodeM ε (σ × Option (List String))
  | 0, _, s => return s
  | depth + 1, n, s => do
    let .mapping _ es := n.untagged
      | unless ← isNull n do mismatch n
        return s
    if hasTwins es then
      mismatch n
      return s
    let (merges, own) := es.partition (·.1.isMerge)
    let (s, taken) ← own.foldlM (fun (s, taken) (k, v) => do
      match ← visit k string? with
      | none => return (s, taken)
      | some name =>
        if taken.any (name ∈ ·) then return (s, taken)
        return (← visit v (entry taken.isSome name · s), taken.map (name :: ·))) s
    match merges with
    | [] => return (s, taken)
    | (_, m) :: _ =>
      let names ← match taken with
        | some names => pure names
        | none => reserved es
      let (s, names) ← (sourcesOf m).foldlM (fun s source => do
        unless ← isMergeable source do fail .badMerge
        visit source (walk entry depth · s)) (s, some names)
      return (s, if taken.isSome then names else none)

def entries (n : Node) (start : σ) (entry : Bool → String → Node → σ → DecodeM ε σ) :
    DecodeM ε σ := do
  return (← walk entry ((← get).depth + 1) n (start, none)).1

/-- A record: each known entry changes it. A field can be given once only. -/
def record (start : σ) (fields : List (String × (Node → σ → DecodeM ε σ))) (n : Node) :
    DecodeM ε σ := do
  let (s, _) ← entries n (start, []) fun _ name v (s, done) =>
    match fields.lookup name with
    | none => return (s, done)
    | some field => do
      if name ∈ done then
        mismatch v
        return (s, done)
      return (← field v s, name :: done)
  return s

def table [Inhabited α] (part : Node → DecodeM ε α) (n : Node) : DecodeM ε (List (String × α)) :=
  entries n [] fun merged name v s => do
    if ← isNull v then
      if merged && (s.lookup name).isSome then return s
      return insert name default s
    return insert name (← part v) s
where
  insert (name : String) (a : α) : List (String × α) → List (String × α)
    | [] => [(name, a)]
    | (k, b) :: rest => if k = name then (k, a) :: rest else (k, b) :: insert name a rest

/-- Decode a whole document. An error that is final comes before the nodes that did not fit. -/
def decode (wrap : Error → ε) (text : String) (start : α) (root : Node → DecodeM ε α) :
    Except ε α := do
  match ← (parse text).mapError wrap with
  | none => return start
  | some t =>
    let (a, d) ← ((visit t.root root).run
      { anchors := t.anchors, visits := 1, depth := text.length * text.length }).mapError
        fun | .inl e => wrap e
            | .inr e => e
    if d.mismatches.isEmpty then return a else throw (wrap (.mismatch d.mismatches))

end DecodeM

end TraceCompiler.Yaml
