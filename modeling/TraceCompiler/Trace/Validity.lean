import TraceCompiler.Abort
import TraceCompiler.Trace.Basic

/-! # Well-formed traces

`Trace.validate` looks for the first flaw of a trace: in its inputs, then operation by operation.
-/

namespace TraceCompiler

inductive SignatureFlaw where
  | callDescr (got : String)
  | callArity (passes takes : Int)
  | callTarget (got : Kind)
  | callArg (i : Nat) (got want : Kind)
  | callResult (signature opcode : Kind)
  | arity (takes got : Nat)
  | argKind (i : Nat) (got want : Kind)
  | guardValueKinds (a b : Kind)
  | guardValueConst
  | fieldDescr (got : String)
  | arrayDescr (got : String)
  | sizeDescr (got : String)
  | access (kind : Kind) (size : Int)
  | fieldStore (got want : Kind)
  | fieldRead (got want : Kind)
  | itemStore (got want : Kind)
  | itemRead (got want : Kind)
  deriving DecidableEq

def SignatureFlaw.message : SignatureFlaw → String
  | callDescr got => "call needs a *CallDescr, got " ++ got
  | callArity passes takes =>
    "call passes " ++ toString passes ++ " arguments, signature takes " ++ toString takes
  | callTarget got => "call target must be int or ref, got " ++ got.text
  | callArg i got want =>
    "call argument " ++ toString i ++ " is " ++ got.text ++ ", signature wants " ++ want.text
  | callResult sig opc => "signature returns " ++ sig.text ++ ", opcode returns " ++ opc.text
  | arity takes got => "takes " ++ toString takes ++ " arguments, got " ++ toString got
  | argKind i got want => "argument " ++ toString i ++ " is " ++ got.text ++ ", want " ++ want.text
  | guardValueKinds a b => "guard_value compares " ++ a.text ++ " with " ++ b.text
  | guardValueConst => "guard_value expects a constant"
  | fieldDescr got => "needs a *FieldDescr, got " ++ got
  | arrayDescr got => "needs an *ArrayDescr, got " ++ got
  | sizeDescr got => "needs a *SizeDescr, got " ++ got
  | access kind size =>
    "unsupported " ++ kind.text ++ " access of " ++ toString size ++ " bytes"
  | fieldStore got want => "stores " ++ got.text ++ " into " ++ want.text ++ " field"
  | fieldRead got want => "reads " ++ got.text ++ " field as " ++ want.text
  | itemStore got want => "stores " ++ got.text ++ " into " ++ want.text ++ " array"
  | itemRead got want => "reads " ++ got.text ++ " item as " ++ want.text

inductive Flaw where
  | missingInput
  | voidInput (b : Box)
  | repeatedInput (b : Box)
  | noOps
  | missingOp
  | invalidOpcode
  | missingValue
  | undefined (b : Box)
  | mismatch (f : SignatureFlaw)
  | failValues
  | unexpectedResult
  | missingResult
  | resultKind (got want : Kind)
  | redefined (b : Box)
  | overflowUnguarded
  | overflowGuardAlone
  | noFinal
  | earlyFinal
  | jumpArity (passes takes : Nat)
  | jumpArg (i : Nat) (got want : Kind)
  deriving DecidableEq

def Flaw.message : Flaw → String
  | missingInput => "nil input"
  | voidInput b => "input " ++ b.text ++ " has void kind"
  | repeatedInput b => "input " ++ b.text ++ " listed twice"
  | noOps => "empty trace"
  | missingOp => "nil op"
  | invalidOpcode => "invalid opcode"
  | missingValue => "nil value"
  | undefined b => b.text ++ " used before definition"
  | mismatch f => f.message
  | failValues => "fail values on a non-guard"
  | unexpectedResult => "unexpected result box"
  | missingResult => "missing result box"
  | resultKind got want => "result kind " ++ got.text ++ ", want " ++ want.text
  | redefined b => b.text ++ " defined twice"
  | overflowUnguarded => "overflow operation not followed by an overflow guard"
  | overflowGuardAlone => "overflow guard without a preceding overflow operation"
  | noFinal => "trace does not end with jump or finish"
  | earlyFinal => "final operation before the end of the trace"
  | jumpArity passes takes =>
    "jump passes " ++ toString passes ++ " values, target takes " ++ toString takes
  | jumpArg i got want =>
    "jump argument " ++ toString i ++ " is " ++ got.text ++ ", target wants " ++ want.text

structure ValidationError where
  trace : String
  place : Option (Nat × Opcode)
  flaw : Flaw
  deriving DecidableEq

def ValidationError.message (e : ValidationError) : String :=
  "ir: trace " ++ Text.quoted e.trace ++ ": " ++
    (match e.place with
      | none => ""
      | some (i, opcode) => "op " ++ toString i ++ " (" ++ opcode.name ++ "): ") ++ e.flaw.message

instance : ToString ValidationError := ⟨ValidationError.message⟩

/-- Integers are accessed in 1, 2, 4 or 8 bytes, references and floats in 8. -/
def accessOk (kind : Kind) (size : Int) : Bool :=
  match kind with
  | .int => size = 1 || size = 2 || size = 4 || size = 8
  | .ref | .float => size = 8
  | _ => false

def firstMismatch (got want : List Kind) : Option (Nat × Kind × Kind) :=
  ((got.zip want).zipIdx.find? fun (p, _) => p.1 ≠ p.2).map fun (p, i) => (i, p.1, p.2)

namespace Op

def checkCall (op : Op) (vals : List Value) : Except SignatureFlaw Unit := do
  let some sig := op.descr.bind Descr.call?
    | throw (.callDescr (Descr.typeNameOrNil op.descr))
  match vals with
  | [] => throw (.callArity (-1) sig.args.length)
  | fn :: rest =>
    if rest.length ≠ sig.args.length then throw (.callArity rest.length sig.args.length)
    if fn.kind ≠ .int ∧ fn.kind ≠ .ref then throw (.callTarget fn.kind)
    match firstMismatch (rest.map Value.kind) sig.args with
    | some (i, got, want) => throw (.callArg i got want)
    | none =>
      if op.opcode ≠ .callN ∧ sig.result ≠ op.opcode.resultKind then
        throw (.callResult sig.result op.opcode.resultKind)

def checkField (op : Op) (vals : List Value) : Except SignatureFlaw Unit := do
  let some s := op.descr.bind Descr.field?
    | throw (.fieldDescr (Descr.typeNameOrNil op.descr))
  if !accessOk s.kind s.size then throw (.access s.kind s.size)
  match op.opcode, vals with
  | .setfield, [_, v] => if v.kind ≠ s.kind then throw (.fieldStore v.kind s.kind)
  | _, _ => if s.kind ≠ op.opcode.resultKind then throw (.fieldRead s.kind op.opcode.resultKind)

def checkArray (op : Op) (vals : List Value) : Except SignatureFlaw Unit := do
  let some s := op.descr.bind Descr.array?
    | throw (.arrayDescr (Descr.typeNameOrNil op.descr))
  if !accessOk s.kind s.item then throw (.access s.kind s.item)
  match op.opcode, vals with
  | .setarrayitem, [_, _, v] => if v.kind ≠ s.kind then throw (.itemStore v.kind s.kind)
  | .getarrayitemI, _ | .getarrayitemR, _ | .getarrayitemF, _ =>
    if s.kind ≠ op.opcode.resultKind then throw (.itemRead s.kind op.opcode.resultKind)
  | _, _ => pure ()

def checkArgs (op : Op) (vals : List Value) : Except SignatureFlaw Unit := do
  let want := op.opcode.argKinds
  if vals.length ≠ want.length then throw (.arity want.length vals.length)
  match ((vals.zip want).zipIdx.find? fun (p, _) => p.2 ≠ .any ∧ p.1.kind ≠ p.2) with
  | some ((v, k), i) => throw (.argKind i v.kind k)
  | none => pure ()

def checkSignature (op : Op) (vals : List Value) : Except SignatureFlaw Unit := do
  match op.opcode with
  | .jump | .finish => pure ()
  | .callI | .callR | .callF | .callN => op.checkCall vals
  | _ =>
    op.checkArgs vals
    match op.opcode, vals with
    | .guardValue, [a, b] =>
      if a.kind ≠ b.kind then throw (.guardValueKinds a.kind b.kind)
      if b.box?.isSome then throw .guardValueConst
    | .getfieldI, _ | .getfieldR, _ | .getfieldF, _ | .setfield, _ => op.checkField vals
    | .getarrayitemI, _ | .getarrayitemR, _ | .getarrayitemF, _ | .setarrayitem, _
    | .arraylen, _ | .newArray, _ => op.checkArray vals
    | .new, _ | .newWithVtable, _ =>
      if (op.descr.bind Descr.size?).isNone then
        throw (.sizeDescr (Descr.typeNameOrNil op.descr))
    | _, _ => pure ()

def checkUses (defined : List Box) : List (Option Value) → Except Flaw (List Value)
  | [] => pure []
  | none :: _ => throw .missingValue
  | some v :: rest => do
    match v with
    | .box b => if b ∉ defined then throw (.undefined b)
    | .const _ => pure ()
    let vs ← checkUses defined rest
    return v :: vs

def checkResult (defined : List Box) (op : Op) : Except Flaw (List Box) := do
  match op.result with
  | none => if op.opcode.resultKind ≠ .void then throw .missingResult else return defined
  | some b =>
    if op.opcode.resultKind = .void then throw .unexpectedResult
    if b.kind ≠ op.opcode.resultKind then throw (.resultKind b.kind op.opcode.resultKind)
    if b ∈ defined then throw (.redefined b)
    return b :: defined

def checkJump (op : Op) (vals : List Value) : Except Flaw Unit := do
  if op.opcode = .jump then
    if let some t := op.descr.bind Descr.target? then
      if t.kinds.length ≠ vals.length then throw (.jumpArity vals.length t.kinds.length)
      if let some (i, got, want) := firstMismatch (vals.map Value.kind) t.kinds then
        throw (.jumpArg i got want)

/-- An overflow operation is followed by an overflow guard. Looking at a missing operation is a
fault. -/
def checkOverflow (op : Op) (next : Option (Option Op)) : Except (Abort Flaw) Unit :=
  if op.opcode.isOverflow then
    match next with
    | none => .error (.error .overflowUnguarded)
    | some none => .error .missing
    | some (some g) =>
      if g.opcode.isOverflowGuard then .ok () else .error (.error .overflowUnguarded)
  else .ok ()

/-- One operation between its neighbours. The boxes that are defined after it are returned. -/
def check (defined : List Box) (prev : Option Op) (op : Op) (next : Option (Option Op)) :
    Except (Abort Flaw) (List Box) := do
  let flaw {α : Type} (r : Except Flaw α) : Except (Abort Flaw) α := r.mapError .error
  if !op.opcode.isValid then throw (.error .invalidOpcode)
  let vals ← flaw (checkUses defined op.args)
  flaw ((op.checkSignature vals).mapError .mismatch)
  if op.opcode.isGuard then discard (flaw (checkUses defined op.failArgs))
  else if !op.failArgs.isEmpty then throw (.error .failValues)
  let defined ← flaw (op.checkResult defined)
  op.checkOverflow next
  if op.opcode.isOverflowGuard && !(prev.map (·.opcode.isOverflow)).getD false then
    throw (.error .overflowGuardAlone)
  if op.opcode.isFinal && next.isSome then throw (.error .earlyFinal)
  if !op.opcode.isFinal && next.isNone then throw (.error .noFinal)
  flaw (op.checkJump vals)
  return defined

end Op

namespace Trace

def checkInputs : List Box → List (Option Box) → Except Flaw (List Box)
  | seen, [] => .ok seen
  | _, none :: _ => .error .missingInput
  | seen, some b :: rest =>
    if b.kind = .void then .error (.voidInput b)
    else if b ∈ seen then .error (.repeatedInput b)
    else checkInputs (b :: seen) rest

def checkOps (name : String) :
    Nat → List Box → Option Op → List (Option Op) → Except (Abort ValidationError) Unit
  | _, _, _, [] => .ok ()
  | _, _, _, none :: _ => .error (.error ⟨name, none, .missingOp⟩)
  | i, defined, prev, some op :: rest =>
    match op.check defined prev rest.head? with
    | .error e => .error (e.map fun f => ⟨name, some (i, op.opcode), f⟩)
    | .ok defined => checkOps name (i + 1) defined (some op) rest

def validate (t : Trace) : Except (Abort ValidationError) Unit :=
  match checkInputs [] t.inputs with
  | .error f => .error (.error ⟨t.name, none, f⟩)
  | .ok defined =>
    if t.ops.isEmpty then .error (.error ⟨t.name, none, .noOps⟩)
    else checkOps t.name 0 defined none t.ops

end Trace

end TraceCompiler
