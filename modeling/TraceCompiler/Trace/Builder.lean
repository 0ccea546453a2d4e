import TraceCompiler.Number.Literal
import TraceCompiler.Trace.Basic

/-! # Building traces

While a trace is built, its boxes go by names. A value is written as the name of a box, as `?name:kind`
for a box that is made if there is none yet, or as a constant `kind:bits`.
-/

namespace TraceCompiler

structure Builder where
  supply : BoxSupply := {}
  names : List (String × Box) := []
  /-- The operations that made boxes, by their positions. -/
  producers : List (Box × Nat) := []

abbrev BuildM := StateM Builder

namespace BuildM

def start : BuildM Unit := modify fun b => { supply := b.supply }

def box? (name : String) : BuildM (Option Box) := return (← get).names.lookup name

def name (name : String) (x : Box) : BuildM Unit :=
  modify fun b => { b with names := (name, x) :: b.names.filter (·.1 ≠ name) }

def fresh (k : Kind) : BuildM Box :=
  modifyGet fun b =>
    let (x, supply) := b.supply.fresh k
    (x, { b with supply })

def freshNamed (n : String) (k : Kind) : BuildM Box := do
  let x ← fresh k
  name n x
  return x

def boxOrFresh (n : String) (k : Kind) : BuildM Box := do
  match ← box? n with
  | some x => return x
  | none => freshNamed n k

def op (pos : Nat) (opcode : Opcode) (args : List (Option Value)) (descr : Option Descr)
    (failArgs : List (Option Value)) : BuildM Op := do
  let (o, supply) := Op.make (← get).supply opcode args descr failArgs
  modify fun b => { b with supply, producers := (o.result.map (·, pos)).toList ++ b.producers }
  return o

end BuildM

def Word.read? (s : String) : Option Word :=
  match Literal.readSigned s with
  | .ok i => some (Word.ofInt i)
  | .error _ =>
    match Literal.readUnsigned s with
    | .ok n => some (Word.ofInt n)
    | .error _ => none

def Kind.ofText (s : String) : Kind :=
  match Kind.parse s with
  | .ok k => k
  | .error _ => Kind.ofCode (Fin.ofNat 256 (s.toNat?.getD 0))

namespace BuildM

def value (s : String) : BuildM (Option Value) := do
  match s.toList with
  | '?' :: rest =>
    let some (name, kind) := Text.cutColon? (String.ofList rest) | return none
    return some (.box (← boxOrFresh name (Kind.ofText kind)))
  | _ =>
    match Text.cutColon? s with
    | none => return (← box? s).map .box
    | some (kind, bits) => return some (.const ⟨Kind.ofText kind, (Word.read? bits).getD 0⟩)

def input (s : String) : BuildM (Option Box) := do
  match s.toList with
  | '=' :: name => box? (String.ofList name)
  | _ => (Text.cutColon? s).mapM fun (name, kind) => freshNamed name (Kind.ofText kind)

end BuildM

end TraceCompiler
