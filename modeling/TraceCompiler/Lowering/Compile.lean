import TraceCompiler.Lowering.Floating
import TraceCompiler.Lowering.Heap
import TraceCompiler.Lowering.Leave

/-! # Compiling a trace

`compile` places the inputs, lowers the operations one by one and assembles the code.
-/

namespace TraceCompiler.Lowering

open Machine (Fragment)
open CompileM

/-- Place one input: a bridge finds it in a slot, a loop wants it in a free register while there
is one. -/
def placeInput (slot : Option Slot) (b : Box) : CompileM Location :=
  onKind b.kind do
    match slot with
    | some s =>
      AllocM.bindFrame b s
      return .slot s
    | none =>
      match ← AllocM.freeRegister with
      | some r =>
        AllocM.bind b r
        AllocM.regLocation r
      | none =>
        let s ← modifyGet fun a =>
          let (s, f) := a.frame.fresh
          (s, { a with frame := f })
        AllocM.bindFrame b s
        return .slot s

def placeInputs : List (Option Slot × Option Box) → CompileM (List Location)
  | [] => pure []
  | (slot, b) :: rest => do
    let l ← placeInput slot (← need b)
    return l :: (← placeInputs rest)

def inputs (t : Trace) : CompileM Unit := do
  noteValues t.inputs.length
  let entry := (← read).entry
  let slots := match entry with
    | .loop => t.inputs.map fun _ => none
    | .bridge slots => slots.map some
  let locs ← placeInputs (slots.zip t.inputs)
  modify fun s => { s with inputs := locs }
  if !entry.isBridge then emitCold (bootstrap locs)
  emit [.label bodyLabel]
  let values := t.inputs.map fun b => b.map Value.box
  onGp (values.forM (AllocM.releaseIfDead (-1)))
  onFloat (values.forM (AllocM.releaseIfDead (-1)))

def lower (pos : Nat) (op : Op) (next : Option Op) : CompileM Unit :=
  match op.opcode with
  | .intAdd | .intSub | .intMul | .intAnd | .intOr | .intXor | .intAddOvf | .intSubOvf
  | .intMulOvf => intBinary pos op
  | .intFloordiv | .intMod => division pos op
  | .intLshift | .intRshift | .uintRshift => shift pos op
  | .intNeg | .intInvert => intUnary pos op
  | .intLt | .intLe | .intEq | .intNe | .intGt | .intGe | .uintLt | .uintLe | .uintGt | .uintGe
  | .intIsTrue | .intIsZero | .ptrEq | .ptrNe => intCompare pos op next
  | .floatAdd | .floatSub | .floatMul | .floatTruediv => floatBinary pos op
  | .floatNeg | .floatAbs => floatUnary pos op
  | .floatLt | .floatLe | .floatEq | .floatNe | .floatGt | .floatGe => floatCompare pos op next
  | .castFloatToInt | .castIntToFloat => cast pos op
  | .sameAsI | .sameAsR | .sameAsF => do
    let kind := (← need op.result).kind
    let v ← arg op 0
    discard (onKind kind (AllocM.resultInSameRegister pos op.result v {}))
  | .getfieldI | .getfieldR | .getfieldF => getfield pos op
  | .setfield => setfield pos op
  | .getarrayitemI | .getarrayitemR | .getarrayitemF => getarrayitem pos op
  | .setarrayitem => setarrayitem pos op
  | .arraylen => arraylen pos op
  | .new | .newWithVtable | .newArray => new pos op
  | .callI | .callR | .callF | .callN => call pos op
  | .guardTrue | .guardFalse | .guardValue | .guardClass | .guardNonnull | .guardIsnull
  | .guardNoOverflow | .guardOverflow => guard pos op
  | .jump => jump op
  | .finish => finish op
  | .debugMergePoint => pure ()
  | .invalid | .unassigned _ => refuse (.opcode op.opcode)

def checkBank (cls : RegClass) (pos : Nat) : CompileM Unit := do
  let s ← get
  let bank := match cls with
    | .gp => s.gp
    | .float => s.float
  match bank.check s.lifetimes pos with
  | .ok () => pure ()
  | .error f => refuse (.bank f)

/-- One operation, with what follows it on the main path. -/
def compileOp (pos : Nat) (op : Op) (next : Option Op) : CompileM Unit := do
  lower pos op next
  if !op.opcode.isFinal then
    onGp (AllocM.endOp pos op)
    onFloat (AllocM.endOp pos op)
    if (← read).limits.debugChecks then
      checkBank .gp pos
      checkBank .float pos

def locate {α : Type} (trace : String) (place : Option (Nat × Opcode)) (m : CompileM α) :
    ReaderT Request (ExceptT (Abort CompileError) (StateM State)) α :=
  fun r => ExceptT.adapt (Abort.map (.failed trace place)) (m r)

def compileOps (trace : String) (pos : Nat) :
    List Op → ReaderT Request (ExceptT (Abort CompileError) (StateM State)) Unit
  | [] => pure ()
  | op :: rest => do
    locate trace (some (pos, op.opcode)) (compileOp pos op rest.head?)
    compileOps trace (pos + 1) rest

def State.fragment (s : State) : Fragment :=
  .group [.group (s.main.toList.map Item.fragment), .inSection .cold (.group s.cold.toList)]

def labelOffset (p : Machine.Program) (label what : String) : CompileM Nat :=
  match p.labels.get? label with
  | some n => pure n
  | none => refuse (.noLabel what)

def locateExit (p : Machine.Program) (e : Exit) : CompileM Exit := do
  if e.opcode = .finish then return e
  let what := "patch site for exit " ++ toString e.index ++ " missing"
  return { e with patch := some (← labelOffset p (siteLabel e.index) what) }

def assemble : CompileM Result := do
  let s ← get
  match Machine.Program.ofFragment s.fragment with
  | .error e => throw (e.map Cause.assembly)
  | .ok p =>
    let body ← labelOffset p bodyLabel "body label missing"
    let entry ←
      if (← read).entry.isBridge then pure none
      else some <$> labelOffset p entryLabel "entry label missing"
    let exits ← s.exits.toList.mapM (locateExit p)
    return ⟨p, entry, body, s.inputs, s.frame.depth, s.maxValues, exits⟩

def compileTrace (t : Trace) (ops : List Op) :
    ReaderT Request (ExceptT (Abort CompileError) (StateM State)) Result := do
  locate t.name none (inputs t)
  compileOps t.name 0 ops
  locate t.name none (emitCold epilogue)
  locate t.name none assemble

def State.start (r : Request) (lifetimes : Lifetimes) (supply : BoxSupply) : State where
  gp := .ofPool (gpPool r.limits.maxInts)
  float := .ofPool (floatPool r.limits.maxFloats)
  lifetimes := lifetimes
  frame := .startingAt r.frameStart
  supply := supply

def slotMismatch (r : Request) (t : Trace) : Option Cause :=
  match r.entry with
  | .loop => none
  | .bridge slots =>
    if slots.length = t.inputs.length then none
    else some (.inputSlots t.inputs.length slots.length)

/-- Compile a trace. Temporaries take box numbers, whether the trace is refused or not. -/
def compile (r : Request) (supply : BoxSupply) :
    Except (Abort CompileError) Result × BoxSupply :=
  match r.trace with
  | none => (.error (.error .noTrace), supply)
  | some t =>
    match slotMismatch r t with
    | some c => (.error (.error (.failed t.name none c)), supply)
    | none =>
      match t.ops.mapM id with
      | none => (.error .missing, supply)
      | some ops =>
        let start := State.start r (.ofOps t.inputs ops) supply
        let (res, s) := ((compileTrace t ops).run r).run start
        (res, s.supply)

abbrev Generator := Request → BoxSupply → Except (Abort CompileError) Result × BoxSupply

inductive LookupError where
  | unspecified
  | unknown (arch : String)

def LookupError.message : LookupError → String
  | unspecified => "backend: architecture must be specified"
  | unknown arch => "backend: no backend registered for " ++ Text.quoted arch

instance : ToString LookupError := ⟨LookupError.message⟩

structure Registry where
  generators : Table String Generator := ∅

namespace Registry

def initial : Registry := ⟨Table.empty.insert "amd64" compile⟩

/-- Add a generator. A mistake here is one of the program and not of its input. -/
def register (r : Registry) (arch : String) (g : Option Generator) :
    Except (Abort Empty) Registry :=
  if arch = "" then
    .error (.fault (some "backend: cannot register backend for empty architecture"))
  else
    match g with
    | none => .error (.fault (some "backend: backend must be non-nil"))
    | some g =>
      if r.generators.contains arch then
        .error (.fault (some ("backend: backend for " ++ arch ++ " already registered")))
      else .ok ⟨r.generators.insert arch g⟩

def lookup (r : Registry) (arch : String) : Except LookupError Generator :=
  match r.generators.get? arch with
  | some g => .ok g
  | none => .error (if arch = "" then .unspecified else .unknown arch)

def architectures (r : Registry) : List String := r.generators.keys.mergeSort (· ≤ ·)

end Registry

end TraceCompiler.Lowering
