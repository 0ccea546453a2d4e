import TraceCompiler.Eval.Step

/-! # Running traces

A run starts in one trace and follows jumps and bridges until a finish, or a guard without a bridge,
leaves the traces.
-/

namespace TraceCompiler.Eval

/-- Traces that refer to each other by their numbers. -/
structure Linked where
  traces : List Trace
  /-- The traces that jump descriptors stand for. -/
  targets : List (Descr × Nat) := []
  /-- The traces that continue guards, which are given by trace and position. -/
  bridges : List ((Nat × Nat) × Nat) := []

namespace Linked

def target? (l : Linked) (d : Descr) : Option Nat := l.targets.lookup d

def bridge? (l : Linked) (trace pos : Nat) : Option Nat := l.bridges.lookup (trace, pos)

end Linked

inductive RunError where
  | stepLimit
  | inputs (trace : String) (takes got : Nat)
  | selfBridge (trace : String)
  | noFinal (trace : String)
  | op (trace : String) (pos : Nat) (opcode : Opcode) (e : OpError)
  deriving DecidableEq

def RunError.message : RunError → String
  | stepLimit => "interp: step limit reached"
  | inputs t takes got =>
    "interp: " ++ t ++ " takes " ++ toString takes ++ " inputs, got " ++ toString got
  | selfBridge t => "interp: bridge " ++ t ++ " jumps back to itself"
  | noFinal t => "interp: " ++ t ++ " has no final operation"
  | op t pos o e =>
    "interp: " ++ t ++ " op " ++ toString pos ++ " (" ++ o.name ++ "): " ++ e.message

instance : ToString RunError := ⟨RunError.message⟩

structure Outcome where
  trace : Nat
  pos : Nat
  opcode : Opcode
  values : List Word
  kinds : List Kind
  steps : Nat
  deriving DecidableEq

def Outcome.isFinish (o : Outcome) : Bool := o.opcode = .finish

structure Point where
  id : Nat
  trace : Trace
  pos : Nat := 0
  rest : List (Option Op)
  /-- The loop that a jump without a descriptor goes back to. -/
  loop : Nat
  inBridge : Bool

inductive Control where
  | next
  | transfer (dest : Option (Nat × Bool)) (args : List Word)
  | leave (values : List Word) (kinds : List Kind)

variable {ω : Type}

def exitKinds (op : Op) : EvalM ω (List Kind) := need op.exitKinds?

def control (l : Linked) (h : Host ω) (id pos : Nat) (op : Op) : EvalM ω Control := do
  if op.opcode.isGuard then
    if ← guardHolds h op then return .next
    let vals ← words op.failArgs
    match l.bridge? id pos with
    | some b => return .transfer (some (b, true)) vals
    | none => return .leave vals (← exitKinds op)
  else if op.opcode = .finish then
    let vals ← words op.args
    return .leave vals (← exitKinds op)
  else if op.opcode = .jump then
    let vals ← words op.args
    match op.descr with
    | none => return .transfer none vals
    | some d =>
      match l.target? d with
      | some t => return .transfer (some (t, false)) vals
      | none => fail (.unknownTarget d.text)
  else
    let w ← runOp h op
    if let some b := op.result then
      modify fun m => { m with values := m.values.insert b w }
    return .next

def bindInputs (inputs : List (Option Box)) (args : List Word) : Std.HashMap Box Word :=
  (inputs.zip args).foldl (fun m (b, w) =>
    match b with
    | some b => m.insert b w
    | none => m) ∅

def enter (l : Linked) (id loop : Nat) (inBridge : Bool) (args : List Word) (m : Machine ω) :
    Except (Abort RunError) Point × Machine ω :=
  match l.traces[id]? with
  | none => (.error .missing, m)
  | some t =>
    if args.length ≠ t.inputs.length then
      (.error (.error (.inputs t.name t.inputs.length args.length)), m)
    else
      (.ok { id, trace := t, rest := t.ops, loop, inBridge },
        { m with values := bindInputs t.inputs args })

def follow (l : Linked) (p : Point) (dest : Option (Nat × Bool)) (args : List Word)
    (m : Machine ω) : Except (Abort RunError) Point × Machine ω :=
  match dest with
  | some (id, inBridge) => enter l id (if inBridge then p.loop else id) inBridge args m
  | none =>
    if p.inBridge then (.error (.error (.selfBridge p.trace.name)), m)
    else enter l p.loop p.loop false args m

def go (l : Linked) (h : Host ω) (max : Nat) (left : Nat) (p : Point) (m : Machine ω) :
    Except (Abort RunError) Outcome × Machine ω :=
  match p.rest, left with
  | [], _ => (.error (.error (.noFinal p.trace.name)), m)
  | _ :: _, 0 => (.error (.error .stepLimit), m)
  | none :: _, _ + 1 => (.error .missing, m)
  | some op :: rest, left + 1 =>
    match (control l h p.id p.pos op).run m with
    | (.error e, m) => (.error (e.map (.op p.trace.name p.pos op.opcode)), m)
    | (.ok .next, m) => go l h max left { p with pos := p.pos + 1, rest } m
    | (.ok (.leave values kinds), m) =>
      (.ok ⟨p.id, p.pos, op.opcode, values, kinds, max - left⟩, m)
    | (.ok (.transfer dest args), m) =>
      match follow l p dest args m with
      | (.error e, m) => (.error e, m)
      | (.ok p, m) => go l h max left p m

def defaultMaxSteps : Nat := 10000000

/-- Run a trace on words. The world is handed back however the run ends. -/
def run (l : Linked) (h : Host ω) (maxSteps : Int) (id : Nat) (args : List Word) (world : ω) :
    Except (Abort RunError) Outcome × ω :=
  let max := if maxSteps ≤ 0 then defaultMaxSteps else maxSteps.toNat
  match enter l id id false args ⟨∅, false, world⟩ with
  | (.error e, m) => (.error e, m.world)
  | (.ok p, m) =>
    let (r, m) := go l h max max p m
    (r, m.world)

end TraceCompiler.Eval
