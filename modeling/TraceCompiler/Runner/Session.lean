import TraceCompiler.Engine.Compile
import TraceCompiler.Engine.Execute
import TraceCompiler.Program.Resolve
import TraceCompiler.Runner.Files
import TraceCompiler.Runner.Options

/-! # Sessions

A session compiles the loops of a program in order, then its bridges, and executes a loop.
-/

namespace TraceCompiler.Runner

inductive Error where
  | options (e : OptionError)
  | noTraceFile
  | createSample (path : String) (e : FileError)
  | readSettings (e : FileError)
  | settings (e : Engine.Settings.ReadError)
  | createRecording (e : FileError)
  | readTrace (path : String) (e : FileError)
  | document (e : Yaml.Error)
  | program (e : Program.Error)
  | engine (e : Engine.Error)
  | bridge (name : String) (e : Engine.Error)
  | noLoop (path : String)
  | unknownLoop (name : String)
  | input (e : InputError)
  | evaluation (e : Eval.RunError)
  | exitDiffers (evaluated compiled : String)
  | valueDiffers (i : Nat) (evaluated compiled : String)

def Error.message : Error → String
  | options e => e.message
  | noTraceFile => "-trace is required"
  | createSample p e => "create " ++ p ++ ": " ++ e.message
  | readSettings e => "cpu: read config: " ++ e.message
  | settings e => e.message
  | createRecording e => "failed to create timeslice file: " ++ e.message
  | readTrace p e => "read " ++ p ++ ": " ++ e.message
  | document e => "parse trace file: " ++ e.message
  | program e => e.message
  | engine e => e.message
  | bridge n e => "bridge " ++ n ++ ": " ++ e.message
  | noLoop p => p ++ " declares no loop to execute"
  | unknownLoop n => "no loop named " ++ n
  | input e => e.message
  | evaluation e => "interpreter: " ++ e.message
  | exitDiffers a b => "interpreter left through " ++ a ++ ", compiled code through " ++ b
  | valueDiffers i a b =>
    "value " ++ toString i ++ ": interpreter " ++ a ++ ", compiled code " ++ b

instance : ToString Error := ⟨Error.message⟩

/-- How an error ends a run. A document that cannot be merged for its keys is a fault. -/
def Error.abort : Error → Abort Error
  | document .unhashableKey | settings (.yaml .unhashableKey) => .fault none
  | e => .error e

structure Session (μ : Type) where
  engine : Engine μ
  program : Program := {}
  tokens : List (String × Engine.Token) := []
  /-- The exits of guards and finishes, which are given by trace and position. -/
  exits : List ((Nat × Nat) × Nat) := []
  stdout : String := ""

variable {μ : Type}

/-- A step of a session. What it did stays when it fails. -/
abbrev SessionM (μ : Type) := ExceptT (Abort Error) (StateM (Session μ))

namespace SessionM

def fail {α : Type} (e : Error) : SessionM μ α := throw (.error e)

def ofExcept {α ε : Type} (f : ε → Error) : Except ε α → SessionM μ α
  | .ok a => return a
  | .error e => fail (f e)

def print (s : String) : SessionM μ Unit := modify fun x => { x with stdout := x.stdout ++ s }

def tell (r : Log.Record) : SessionM μ Unit :=
  modify fun x => { x with engine := { x.engine with log := r :: x.engine.log } }

def onEngine {α : Type} (f : Engine.Error → Error) (m : Engine.EngineM μ α) : SessionM μ α := do
  let s ← get
  let (r, engine) := m.run s.engine
  set { s with engine }
  match r with
  | .ok a => return a
  | .error e => throw (e.map f)

def load (d : Program.Document) : SessionM μ Unit := do
  let s ← get
  let (r, b) := (Program.resolve d {}).run { supply := s.engine.supply }
  match r with
  | .error e => throw (e.map .program)
  | .ok (program, _) => set { s with program, engine := { s.engine with supply := b.supply } }

def link (i : Nat) (p : Program.Part) : SessionM μ Program.Part := do
  let s ← get
  let (r, p) := p.link fun name =>
    match s.tokens.lookup name with
    | some t => .ok (some t.descr)
    | none => .error ("jump to " ++ name ++ ", which is not compiled yet")
  set { s with program := s.program.setPart i p }
  match r with
  | .ok _ => return p
  | .error e => throw (e.map .program)

def noteExits (i : Nat) (p : Program.Part) (exits : List Nat) : SessionM μ Unit :=
  modify fun s => { s with exits := s.exits ++ (p.exits.zip exits).map fun (pos, x) => ((i, pos), x) }

def compileLoop (name : String) : SessionM μ Unit := do
  let s ← get
  let i ← (require (s.program.index? name) : Except (Abort Error) Nat)
  let p ← (require s.program.parts[i]? : Except (Abort Error) Program.Part)
  let p ← link i p
  let t ← onEngine .engine (Engine.compileTrace p.trace)
  modify fun s => { s with tokens := s.tokens ++ [(name, t)] }
  noteExits i p t.exits

def compileBridge (name : String) : SessionM μ Unit := do
  let s ← get
  let i ← (require (s.program.index? name) : Except (Abort Error) Nat)
  let p ← (require s.program.parts[i]? : Except (Abort Error) Program.Part)
  let p ← link i p
  let x := (p.continues.bind fun g => s.exits.lookup g).bind (s.engine.exits[·]?)
  onEngine (.bridge name) (Engine.compileBridge x p.trace)
  let s ← get
  noteExits i p (((x.bind (s.engine.exits[·.index]?)).map (·.bridgeExits)).getD [])

def compile (bridges : Bool) : SessionM μ Unit := do
  let p := (← get).program
  p.loops.forM fun u => compileLoop u.trace.name
  if bridges then p.bridges.forM fun u => compileBridge u.trace.name

def loop (o : Options) : SessionM μ Program.Part := do
  let p := (← get).program
  let some first := p.loops.head? | fail (.noLoop o.trace)
  if o.loop.isEmpty then return first
  match p.part? o.loop with
  | some u => if u.isBridge then fail (.unknownLoop o.loop) else return u
  | none => fail (.unknownLoop o.loop)

def dump : SessionM μ Unit := do
  for u in (← get).program.loops do
    let s ← get
    let t ← (require (s.tokens.lookup u.trace.name) : Except (Abort Error) Engine.Token)
    let code ← MonadExcept.ofExcept ((s.engine.codeOf t).mapError (Abort.map .engine))
    print (u.trace.name ++ " (" ++ toString code.length ++ " bytes):\n" ++ Text.hexDump code)

/-- Compiled code without memory or functions of its own. The world is what is logged, the latest
record first. -/
def surroundings : Engine.Surroundings μ (List Log.Record) where
  read _ _ _ := none
  write _ _ _ := none
  call _ _ _ log := (.error .missing, log)
  onFailure := some fun _ x log => (.ok (), ⟨.debug, "guard failed",
    [("exit", x.text), ("failures", toString x.failures)]⟩ :: log)

def execute (t : Engine.Token) (words : List Word) : SessionM μ (Engine.Exit × List Word) := do
  for ((k, w), i) in (t.kinds.zip words).zipIdx do
    onEngine .engine (Engine.setValue i k w)
  let s ← get
  let (r, engine, log) := Engine.execute surroundings (some t) [] s.engine
  let engine := { engine with log := log ++ engine.log }
  set { s with engine }
  match r with
  | .error e => throw (e.map .engine)
  | .ok x =>
    let vals ← x.kinds.zipIdx.mapM fun (k, i) =>
      MonadExcept.ofExcept ((engine.value i k).mapError (Abort.map .engine))
    return (x, vals)

def executeTimes (t : Engine.Token) (words : List Word) : Nat → SessionM μ (Engine.Exit × List Word)
  | 0 => execute t words
  | n + 1 => do
    discard <| execute t words
    executeTimes t words n

/-- Compare how a loop was left with an evaluation of the traces. -/
def check (bridges : Bool) (name : String) (words : List Word) (x : Engine.Exit) (vals : List Word) :
    SessionM μ Unit := do
  let s ← get
  let i ← (require (s.program.index? name) : Except (Abort Error) Nat)
  let linked ← MonadExcept.ofExcept (s.program.linked.mapError (Abort.map nofun))
  let linked := if bridges then linked else { linked with bridges := [] }
  let host : Host Unit := {
    read := fun _ _ _ => none
    write := fun _ _ _ => none
    call := fun fn sig args w => (nativeCall (fun _ _ => .error .missing) fn sig args, w) }
  match (Eval.run linked host 0 i words ()).1 with
  | .error e => throw (e.map .evaluation)
  | .ok o =>
    if s.exits.lookup (o.trace, o.pos) ≠ some x.index then
      let op := (s.program.parts[o.trace]?).bind (·.op? o.pos)
      fail (.exitDiffers ((op.bind (·.text?)).getD "") x.text)
    for (((k, w), v), i) in ((o.kinds.zip o.values).zip vals).zipIdx do
      if w ≠ v then fail (.valueDiffers i (valueText k w) (valueText k v))
    tell ⟨.info, "interpreter agrees", [("steps", toString o.steps)]⟩

def perform (o : Options) (d : Program.Document) : SessionM μ Unit := do
  load d
  compile o.bridges
  let u ← loop o
  let s ← get
  let t ← (require (s.tokens.lookup u.trace.name) : Except (Abort Error) Engine.Token)
  if o.dump then dump
  let words ← ofExcept .input (readValues t.kinds o.input)
  let (x, vals) ← executeTimes t words (o.iterations.toNat - 1)
  print ("exit " ++ x.text ++ "\n" ++ String.join ((x.kinds.zip vals).zipIdx.map fun ((k, w), i) =>
    "  [" ++ toString i ++ "] " ++ k.text ++ " " ++ valueText k w ++ "\n"))
  tell ⟨.debug, "code memory", [("stats", (← get).engine.code.stats.text)]⟩
  if o.check then check o.bridges u.trace.name words x vals

end SessionM

end TraceCompiler.Runner
