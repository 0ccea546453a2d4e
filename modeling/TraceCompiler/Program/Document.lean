import TraceCompiler.Yaml.Decode
import TraceCompiler.Yaml.Style

/-! # Trace documents

A document declares descriptors by name and lists traces.
-/

namespace TraceCompiler.Program

structure FieldSpec where
  offset : Int := 0
  size : Int := 0
  kind : String := ""
  signed : Bool := false
  deriving DecidableEq

structure ArraySpec where
  baseOffset : Int := 0
  itemSize : Int := 0
  lengthOffset : Int := 0
  kind : String := ""
  signed : Bool := false
  deriving DecidableEq

structure CallSpec where
  args : List String := []
  result : String := ""
  deriving DecidableEq

/-- A declaration of a descriptor. One of the parts should be there. -/
structure DescrSpec where
  field : Option FieldSpec := none
  array : Option ArraySpec := none
  call : Option CallSpec := none
  size : Int := 0
  deriving DecidableEq, Inhabited

structure BridgeSpec where
  trace : String := ""
  guard : String := ""
  deriving DecidableEq

structure OpSpec where
  op : String := ""
  result : String := ""
  args : List String := []
  fail : List String := []
  descr : String := ""
  /-- The trace a jump goes to; the trace's own start if empty. -/
  target : String := ""
  guard : String := ""
  line : Nat := 0
  deriving DecidableEq

structure TraceSpec where
  name : String := ""
  bridge : Option BridgeSpec := none
  /-- Inputs are written as a name, a colon and a kind. -/
  inputs : List String := []
  ops : List OpSpec := []
  deriving DecidableEq

structure Document where
  version : Int := 0
  descrs : List (String × DescrSpec) := []
  traces : List TraceSpec := []

def Document.currentVersion : Int := 1

open Yaml (Node DecodeM Layout)

variable {ε : Type}

def FieldSpec.ofNode : Node → DecodeM ε FieldSpec :=
  DecodeM.record {} [
    ("offset", fun v s => return { s with offset := ← DecodeM.int v s.offset }),
    ("size", fun v s => return { s with size := ← DecodeM.int v s.size }),
    ("kind", fun v s => return { s with kind := ← DecodeM.string v s.kind }),
    ("signed", fun v s => return { s with signed := ← DecodeM.bool v s.signed })]

def ArraySpec.ofNode : Node → DecodeM ε ArraySpec :=
  DecodeM.record {} [
    ("baseOffset", fun v s => return { s with baseOffset := ← DecodeM.int v s.baseOffset }),
    ("itemSize", fun v s => return { s with itemSize := ← DecodeM.int v s.itemSize }),
    ("lengthOffset", fun v s => return { s with lengthOffset := ← DecodeM.int v s.lengthOffset }),
    ("kind", fun v s => return { s with kind := ← DecodeM.string v s.kind }),
    ("signed", fun v s => return { s with signed := ← DecodeM.bool v s.signed })]

def CallSpec.ofNode : Node → DecodeM ε CallSpec :=
  DecodeM.record {} [
    ("args", fun v s => return { s with args := ← DecodeM.strings v }),
    ("result", fun v s => return { s with result := ← DecodeM.string v s.result })]

def DescrSpec.ofNode : Node → DecodeM ε DescrSpec :=
  DecodeM.record {} [
    ("field", fun v s => return { s with field := ← DecodeM.optional FieldSpec.ofNode v }),
    ("array", fun v s => return { s with array := ← DecodeM.optional ArraySpec.ofNode v }),
    ("call", fun v s => return { s with call := ← DecodeM.optional CallSpec.ofNode v }),
    ("size", fun v s => return { s with size := ← DecodeM.int v s.size })]

def BridgeSpec.ofNode : Node → DecodeM ε BridgeSpec :=
  DecodeM.record {} [
    ("trace", fun v s => return { s with trace := ← DecodeM.string v s.trace }),
    ("guard", fun v s => return { s with guard := ← DecodeM.string v s.guard })]

def OpSpec.atLine (line : Nat) : Node → DecodeM ε OpSpec :=
  DecodeM.record { line } [
    ("op", fun v s => return { s with op := ← DecodeM.string v s.op }),
    ("result", fun v s => return { s with result := ← DecodeM.string v s.result }),
    ("args", fun v s => return { s with args := ← DecodeM.strings v }),
    ("fail", fun v s => return { s with fail := ← DecodeM.strings v }),
    ("descr", fun v s => return { s with descr := ← DecodeM.string v s.descr }),
    ("target", fun v s => return { s with target := ← DecodeM.string v s.target }),
    ("guard", fun v s => return { s with guard := ← DecodeM.string v s.guard })]

/-- An operation is decoded as if it stood alone, and knows its line. -/
def OpSpec.ofNode (n : Node) : DecodeM ε OpSpec :=
  if n.tag? = some "!!null" then OpSpec.atLine 0 n
  else DecodeM.afresh n fun n => OpSpec.atLine n.line n

def TraceSpec.ofNode : Node → DecodeM ε TraceSpec :=
  DecodeM.record {} [
    ("name", fun v s => return { s with name := ← DecodeM.string v s.name }),
    ("bridge", fun v s => return { s with bridge := ← DecodeM.optional BridgeSpec.ofNode v }),
    ("inputs", fun v s => return { s with inputs := ← DecodeM.strings v }),
    ("ops", fun v s => return { s with ops := ← DecodeM.list OpSpec.ofNode v })]

def Document.ofNode : Node → DecodeM ε Document :=
  DecodeM.record {} [
    ("version", fun v s => return { s with version := ← DecodeM.int v s.version }),
    ("descrs", fun v s => return { s with descrs := ← DecodeM.table DescrSpec.ofNode v }),
    ("traces", fun v s => return { s with traces := ← DecodeM.list TraceSpec.ofNode v })]

def Document.parse (text : String) : Except Yaml.Error Document :=
  DecodeM.decode id text {} Document.ofNode

def unlessEmpty (key s : String) : List (String × Layout) := if s.isEmpty then [] else [(key, .text s)]

def unlessNone (key : String) (items : List String) : List (String × Layout) :=
  if items.isEmpty then [] else [(key, .flow items)]

def ifSet (key : String) (b : Bool) : List (String × Layout) := if b then [(key, .bool b)] else []

def FieldSpec.layout (s : FieldSpec) : Layout :=
  .record ([("offset", .int s.offset), ("size", .int s.size), ("kind", .text s.kind)] ++
    ifSet "signed" s.signed)

def ArraySpec.layout (s : ArraySpec) : Layout :=
  .record ([("baseOffset", .int s.baseOffset), ("itemSize", .int s.itemSize),
    ("lengthOffset", .int s.lengthOffset), ("kind", .text s.kind)] ++ ifSet "signed" s.signed)

def CallSpec.layout (s : CallSpec) : Layout :=
  .record [("args", .flow s.args), ("result", .text s.result)]

def DescrSpec.layout (s : DescrSpec) : Layout :=
  .record ((s.field.map fun f => ("field", f.layout)).toList ++
    (s.array.map fun a => ("array", a.layout)).toList ++
    (s.call.map fun c => ("call", c.layout)).toList ++
    if s.size = 0 then [] else [("size", .int s.size)])

def OpSpec.layout (s : OpSpec) : Layout :=
  .record ([("op", .text s.op)] ++ unlessEmpty "result" s.result ++ unlessNone "args" s.args ++
    unlessNone "fail" s.fail ++ unlessEmpty "descr" s.descr ++ unlessEmpty "target" s.target ++
    unlessEmpty "guard" s.guard)

def TraceSpec.layout (s : TraceSpec) : Layout :=
  .record ([("name", .text s.name)] ++
    (s.bridge.map fun b =>
      ("bridge", .record [("trace", .text b.trace), ("guard", .text b.guard)])).toList ++
    [("inputs", .flow s.inputs), ("ops", .list (s.ops.map (·.layout)))])

/-- The number that the leading digits of a text append to `lead`, a signed word. A digit of any
script counts for its distance from the zero of ASCII. -/
def leadingNumber (lead : Int) (cs : List Char) : Int :=
  (cs.takeWhile Text.isDigit).foldl (fun n c => wrap64 (n * 10 + (c.toNat - '0'.toNat : Int))) lead

/-- The order of two different texts after a common part. That part ends in digits or not, and
these may all be zeros. -/
def restBefore (digits zeros : Bool) : List Char → List Char → Bool
  | [], bs => !bs.isEmpty
  | _ :: _, [] => false
  | x :: as, y :: bs =>
    if x = y then
      restBefore (Text.isDigit x) (if Text.isDigit x then zeros && x = '0' else true) as bs
    else if Text.isLetter x && Text.isLetter y then x < y
    else if Text.isLetter x || Text.isLetter y then
      if digits then Text.isLetter x else Text.isLetter y
    else
      let lead := if (x = '0' || y = '0') && digits && !zeros then 1 else 0
      let number (cs : List Char) : Int := leadingNumber lead cs
      let count (cs : List Char) : Nat := (cs.takeWhile Text.isDigit).length
      if number (x :: as) ≠ number (y :: bs) then number (x :: as) < number (y :: bs)
      else if count (x :: as) ≠ count (y :: bs) then count (x :: as) < count (y :: bs)
      else x < y

/-- The order of names: letters after digits, and numbers by their value. -/
def nameBefore (a b : String) : Bool := restBefore false true a.toList b.toList

def Document.text (d : Document) : String :=
  let version := if d.version = 0 then currentVersion else d.version
  let descrs := d.descrs.mergeSort fun a b => !nameBefore b.1 a.1
  Layout.document ([("version", .int version)] ++
    (if descrs.isEmpty then [] else
      [("descrs", .record (descrs.map fun (n, s) => (n, s.layout)))]) ++
    [("traces", .list (d.traces.map (·.layout)))])

def Document.sample : Document where
  version := currentVersion
  traces := [
    { name := "count"
      inputs := ["i:int", "n:int"]
      ops := [
        { op := "int_lt", args := ["i", "n"], result := "c" },
        { op := "guard_true", args := ["c"], fail := ["i", "n"], guard := "done" },
        { op := "int_add", args := ["i", "1"], result := "j" },
        { op := "jump", args := ["j", "n"] }] },
    { name := "extend"
      bridge := some ⟨"count", "done"⟩
      inputs := ["i:int", "n:int"]
      ops := [
        { op := "int_lt", args := ["n", "20"], result := "more" },
        { op := "guard_true", args := ["more"], fail := ["i"] },
        { op := "int_add", args := ["n", "5"], result := "m" },
        { op := "jump", args := ["i", "m"], target := "count" }] }]

end TraceCompiler.Program
