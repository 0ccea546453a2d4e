import TraceCompiler.Trace.Descriptor
import TraceCompiler.Trace.Opcode

/-! # Operations and traces

A trace is a straight line of operations over input boxes that ends with a jump or a finish.
-/

namespace TraceCompiler

/-- One operation. Fail values are what a guard hands over when it does not hold. -/
structure Op where
  opcode : Opcode
  args : List (Option Value) := []
  result : Option Box := none
  descr : Option Descr := none
  failArgs : List (Option Value) := []
  deriving DecidableEq, Inhabited

namespace Op

def make (supply : BoxSupply) (opcode : Opcode) (args : List (Option Value))
    (descr : Option Descr) (failArgs : List (Option Value)) : Op × BoxSupply :=
  if opcode.resultKind = .void then (⟨opcode, args, none, descr, failArgs⟩, supply)
  else
    let (b, supply) := supply.fresh opcode.resultKind
    (⟨opcode, args, some b, descr, failArgs⟩, supply)

/-- What is handed over when the trace is left here: the arguments of a finish, the fail values of
any other operation. -/
def exitValues (op : Op) : List (Option Value) :=
  if op.opcode = .finish then op.args else op.failArgs

def exitKinds? (op : Op) : Option (List Kind) :=
  op.exitValues.mapM fun v => v.map Value.kind

def valuesText? (vs : List (Option Value)) : Option String := do
  let texts ← vs.mapM fun v => v.map Value.text
  return Text.joined ", " texts

def text? (op : Op) : Option String := do
  let args ← valuesText? op.args
  let descr := match op.descr with
    | none => ""
    | some d => (if op.args.isEmpty then "" else ", ") ++ "descr=" ++ d.text
  let fails ← if op.opcode.isGuard then do
      let vs ← valuesText? op.failArgs
      pure (" [" ++ vs ++ "]")
    else pure ""
  let result := match op.result with
    | none => ""
    | some b => b.text ++ " = "
  return result ++ op.opcode.name ++ "(" ++ args ++ descr ++ ")" ++ fails

end Op

structure Trace where
  name : String
  inputs : List (Option Box)
  ops : List (Option Op)
  deriving DecidableEq, Inhabited

namespace Trace

def inputKinds? (t : Trace) : Option (List Kind) := t.inputs.mapM fun b => b.map Box.kind

/-- One numbered line. A missing operation is written as such. -/
def lineText? (i : Nat) (op : Option Op) : Option String := do
  let text ← match op with
    | none => some "<nil>"
    | some op => op.text?
  return Text.padLeft 4 ' ' (toString i) ++ "  " ++ text ++ "\n"

/-- The written form, unless an input or a value is missing. -/
def text? (t : Trace) : Option String := do
  let inputs ← t.inputs.mapM fun b => b.map Box.text
  let lines ← t.ops.zipIdx.mapM fun (op, i) => lineText? i op
  return "trace " ++ t.name ++ "(" ++ Text.joined ", " inputs ++ ")\n" ++ String.join lines

def exits (t : Trace) : List (Nat × Op) :=
  t.ops.zipIdx.filterMap fun (op, i) =>
    op.bind fun op => if op.opcode.exitsTrace then some (i, op) else none

end Trace

end TraceCompiler
