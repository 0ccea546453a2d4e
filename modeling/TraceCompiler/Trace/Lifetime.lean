import TraceCompiler.Abort
import TraceCompiler.Trace.Basic

/-! # Lifetimes

The lifetime of a box runs from the operation that makes it to the last operation that reads it.
-/

namespace TraceCompiler

structure Lifetime where
  first : Int
  last : Int

structure Lifetimes where
  spans : Table Box Lifetime := ∅
  /-- Whether an input of the trace is missing; the place of such inputs is counted once. -/
  missingInput : Bool := false

namespace Lifetimes

def get? (l : Lifetimes) (b : Box) : Option Lifetime := l.spans.get? b

def size (l : Lifetimes) : Nat := l.spans.size + if l.missingInput then 1 else 0

def lastUse (l : Lifetimes) (b : Box) : Int := ((l.get? b).map Lifetime.last).getD (-1)

def liveAfter (l : Lifetimes) (b : Box) (pos : Int) : Bool := pos < l.lastUse b

def put (l : Lifetimes) (b : Box) (s : Lifetime) : Lifetimes :=
  { l with spans := l.spans.insert b s }

def addTemp (l : Lifetimes) (b : Box) (pos : Int) : Lifetimes := l.put b ⟨pos, pos⟩

def addInput (l : Lifetimes) : Option Box → Lifetimes
  | none => { l with missingInput := true }
  | some b => l.put b ⟨-1, -1⟩

def addUse (pos : Int) (l : Lifetimes) (b : Box) : Lifetimes :=
  match l.get? b with
  | none => l.put b ⟨pos, pos⟩
  | some s => l.put b { s with last := max s.last pos }

def addOp (l : Lifetimes) (pos : Int) (op : Op) : Lifetimes :=
  let l := (boxesOf op.args ++ boxesOf op.failArgs).foldl (addUse pos) l
  match op.result with
  | none => l
  | some b => l.put b ⟨pos, pos⟩

def addOps (l : Lifetimes) (pos : Int) : List Op → Lifetimes
  | [] => l
  | op :: rest => (l.addOp pos op).addOps (pos + 1) rest

def ofOps (inputs : List (Option Box)) (ops : List Op) : Lifetimes :=
  (inputs.foldl addInput {}).addOps 0 ops

def ofTrace? (t : Trace) : Option Lifetimes := (t.ops.mapM id).map (ofOps t.inputs)

end Lifetimes

end TraceCompiler
