import TraceCompiler.Engine.Settings
import TraceCompiler.Engine.Values
import TraceCompiler.Eval.Run
import TraceCompiler.Lowering.Compile
import TraceCompiler.Machine.PatchSite
import TraceCompiler.Trace.Validity

/-! # Engines

An engine compiles loops and bridges, keeps their code, and knows every exit by its number.
-/

namespace TraceCompiler.Engine

/-- A way out of compiled code: a guard or a finish. -/
structure Exit where
  index : Nat
  opcode : Opcode
  kinds : List Kind
  trace : String
  /-- How often the guard failed without a bridge. -/
  failures : Nat := 0
  /-- The address of the attached bridge, and its exits. -/
  bridge : Option (Word × List Nat) := none
  owner : Nat
  site : Option Machine.PatchSite
  /-- Where the guard leaves its fail values. -/
  slots : List Slot
  frameDepth : Int
  /-- The installed trace and the position in it. -/
  origin : Nat × Nat
  deriving DecidableEq

namespace Exit

def isFinish (x : Exit) : Bool := x.opcode = .finish

def hasBridge (x : Exit) : Bool := x.bridge.any (·.1 ≠ 0)

def bridgeExits (x : Exit) : List Nat := (x.bridge.map Prod.snd).getD []

def text (x : Exit) : String :=
  "<" ++ (if x.isFinish then "finish" else x.opcode.name) ++ " " ++ toString x.index ++ " of " ++
    x.trace ++ ">"

end Exit

structure Token where
  name : String
  owner : Nat
  number : Nat
  kinds : List Kind
  locations : List Location
  block : Block
  entry : Word
  body : Word
  frameDepth : Int
  exits : List Nat
  trace : Nat
  deriving Inhabited

namespace Token

def text (t : Token) : String := "<loop " ++ t.name ++ ">"

def descr (t : Token) : Descr :=
  .target {
    text := t.text, typeName := "*cpu.LoopToken", identity := t.owner * 0x100000000 + t.number
    kinds := t.kinds, code := some ⟨t.locations, t.body⟩ }

end Token

inductive Callback where
  | guardFailure
  | malloc
  | writeBarrier
  deriving DecidableEq

def Callback.name : Callback → String
  | guardFailure => "guard failure"
  | malloc => "malloc"
  | writeBarrier => "write barrier"

inductive Error where
  | closed
  | executing
  | invalid (e : ValidationError)
  | compile (e : Lowering.CompileError)
  | load (trace : String) (e : CodeMemory.Error)
  | misnumbered (index : Int) (want : Nat)
  | foreignExit (text : String)
  | notGuard (text : String)
  | bridgeAttached (text : String)
  | bridgeInputs (takes has : Nat)
  | bridgeInputKind (i : Nat) (takes has : Kind)
  | attach (text : String) (e : Machine.PatchError (Abort CodeMemory.Error))
  | foreignToken (text : String)
  | value (e : ValueError)
  | callback (c : Callback) (message : String)
  | code (e : CodeMemory.Error)
  deriving DecidableEq

def Error.message : Error → String
  | closed => "cpu: closed"
  | executing => "cpu: compiled code is executing"
  | invalid e => "cpu: " ++ e.message
  | compile e => e.message
  | load t e => "cpu: load " ++ t ++ ": " ++ e.message
  | misnumbered index want =>
    "compiler internal error: exit " ++ toString index ++ " registered as " ++ toString want
  | foreignExit t => "cpu: fail descriptor " ++ t ++ " belongs to another CPU"
  | notGuard t => "cpu: " ++ t ++ " is not a guard"
  | bridgeAttached t => "cpu: guard already has a bridge: " ++ t
  | bridgeInputs takes has =>
    "cpu: kind mismatch: bridge takes " ++ toString takes ++ " inputs, guard has " ++ toString has ++
      " fail values"
  | bridgeInputKind i takes has =>
    "cpu: kind mismatch: bridge input " ++ toString i ++ " is " ++ takes.text ++
      ", fail value is " ++ has.text
  | attach t e =>
    "cpu: attach bridge to " ++ t ++ ": " ++ e.message fun a =>
      match a with
      | .fault m => m.getD ""
      | .error e => e.message
  | foreignToken t => "cpu: token " ++ t ++ " belongs to another CPU"
  | value e => e.message
  | callback c m => "cpu: " ++ c.name ++ " callback panicked: " ++ m
  | code e => e.message

instance : ToString Error := ⟨Error.message⟩

inductive Activity where
  | compile
  | load
  | patch
  | execute

end Engine

structure Engine (μ : Type) where
  id : Nat
  settings : Engine.Settings
  generator : Lowering.Generator
  hooks : Lowering.Hooks
  code : CodeMemory μ
  supply : BoxSupply := {}
  exits : List Engine.Exit := []
  tokens : List Engine.Token := []
  bridges : List Block := []
  /-- The traces behind the code, and how they are linked. -/
  installed : Eval.Linked := { traces := [] }
  frame : Engine.FrameState := {}
  maxDepth : Int := 0
  maxValues : Nat := 0
  closed : Bool := false
  executing : Bool := false
  log : List Log.Record := []
  activities : List Engine.Activity := []

namespace Engine

variable {μ : Type}

/-- An operation of an engine. What it did stays when it fails. -/
abbrev EngineM (μ : Type) := ExceptT (Abort Error) (StateM (Engine μ))

def fail {α : Type} (e : Error) : EngineM μ α := throw (.error e)

def notExecuting : EngineM μ Unit := do
  if (← get).executing then fail .executing

def tell (r : Log.Record) : EngineM μ Unit := modify fun g => { g with log := r :: g.log }

def note (a : Activity) : EngineM μ Unit :=
  modify fun g => { g with activities := a :: g.activities }

def onCode {α : Type} (op : CodeMemory.CodeM μ α) (f : CodeMemory.Error → Error) :
    EngineM μ α := do
  let g ← get
  let (r, code) := op.run g.code
  set { g with code }
  match r with
  | .ok a => return a
  | .error e => throw (e.map f)

def callbackHooks (malloc barrier : Bool) : Lowering.Hooks where
  failure := 0x500000
  malloc := if malloc then 0x500010 else 0
  barrier := if barrier then 0x500020 else 0

def new (id : Nat) (settings : Settings) (malloc barrier : Bool) (mapper : Mapper μ) (pages : μ)
    (words : WordMapper) : Except Settings.Error (Engine μ) := do
  settings.validate
  return {
    id, settings, generator := Lowering.compile, hooks := callbackHooks malloc barrier
    code := CodeMemory.new mapper pages settings.codeChunkSize, frame := { mapper := words } }

end Engine

end TraceCompiler
