import TraceCompiler.Engine.Basic

/-! # Executing loops

Installed code computes what its traces compute, so an execution runs the installed traces: a failing
guard goes on in its bridge, and without one leaves through its exit. The code of a loop without bridges
is proved to do so; nothing here depends on the bytes in code memory.
-/

namespace TraceCompiler.Engine

variable {μ ω : Type}

/-- What surrounds compiled code. A callback may break off with a message. -/
structure Surroundings (μ ω : Type) where
  read : Word → Nat → ω → Option (List UInt8)
  write : Word → List UInt8 → ω → Option ω
  call : Word → Signature → List Word → ω → Except (Abort String) Word × ω
  malloc : Option (Word → ω → Except String Word × ω) := none
  barrier : Option (Word → ω → Except String Unit × ω) := none
  /-- Runs every time a guard without a bridge fails. -/
  onFailure : Option (Engine μ → Exit → ω → Except String Unit × ω) := none

structure Watched (ω : Type) where
  world : ω
  broken : Option (Callback × String) := none

def Watched.run {α : Type} (w : Watched ω) (c : Callback) (f : ω → Except String α × ω) (dflt : α) :
    α × Watched ω :=
  match f w.world with
  | (.ok a, world) => (a, { w with world })
  | (.error m, world) => (dflt, ⟨world, some (c, m)⟩)

def Surroundings.host (s : Surroundings μ ω) : Host (Watched ω) where
  read addr n w := s.read addr n w.world
  write addr bs w :=
    match w with
    | ⟨world, broken⟩ => (s.write addr bs world).map fun world => ⟨world, broken⟩
  malloc := s.malloc.map fun f size w => w.run .malloc (f size) 0
  barrier := s.barrier.map fun f obj w => (w.run .writeBarrier (f obj) ()).2
  call fn sig args w :=
    let (r, world) := s.call fn sig args w.world
    (r, { w with world })
  passNull := true

def stepLimit : Int := 0x4000000000000000

def enter (g : Engine μ) (s : Surroundings μ ω) (t : Token) (world : ω) :
    Except (Abort Eval.RunError) Eval.Outcome × Watched ω :=
  Eval.run g.installed s.host stepLimit t.trace (g.frame.inputs t.kinds.length) ⟨world, none⟩

def exitOf? (g : Engine μ) (o : Eval.Outcome) : Option Exit :=
  g.exits.find? (·.origin = (o.trace, o.pos))

/-- Leave through an exit: count the failure of a guard and tell of it. -/
def leave (s : Surroundings μ ω) (x : Exit) (w : Watched ω) (g : Engine μ) :
    Exit × Watched ω × Engine μ :=
  if x.isFinish then (x, w, g)
  else
    let x := { x with failures := x.failures + 1 }
    let g := { g with exits := g.exits.set x.index x }
    match s.onFailure with
    | none => (x, w, g)
    | some hook => (x, (w.run .guardFailure (hook g x) ()).2, g)

/-- Execute a loop with the values set before. The world is handed back however it ends. -/
def execute (s : Surroundings μ ω) (token : Option Token) (world : ω) (g : Engine μ) :
    Except (Abort Error) Exit × Engine μ × ω :=
  match token with
  | none => (.error (.error (.foreignToken "<nil>")), g, world)
  | some t =>
    if t.owner ≠ g.id then (.error (.error (.foreignToken t.text)), g, world)
    else if g.executing then (.error (.error .executing), g, world)
    else if g.closed then (.error (.error .closed), g, world)
    else
      match g.frame.checkInputs t.kinds with
      | .error e => (.error (.error (.value e)), g, world)
      | .ok () =>
        match (FrameState.reserve g.maxDepth g.maxValues).run g.frame with
        | (.error e, frame) => (.error (e.map .value), { g with frame }, world)
        | (.ok (), frame) =>
          let g := { g with frame, executing := true, activities := .execute :: g.activities }
          let (r, w) := enter g s t world
          match r.toOption.bind fun o => (g.exitOf? o).map (o, ·) with
          | none => (.error .missing, { g with executing := false }, w.world)
          | some (o, x) =>
            let (x, w, g) := leave s x w g
            let g := { g with frame := g.frame.store o.values, executing := false }
            match w.broken with
            | some (c, m) => (.error (.error (.callback c m)), g, w.world)
            | none => (.ok x, { g with frame := g.frame.settle x.kinds }, w.world)

def setValue (i : Int) (k : Kind) (w : Word) : EngineM μ Unit := do
  notExecuting
  let g ← get
  let (r, frame) := (FrameState.set i k w).run g.frame
  set { g with frame }
  match r with
  | .error e => throw (e.map .value)
  | .ok () => if g.closed then throw .missing

def value (g : Engine μ) (i : Int) (k : Kind) : Except (Abort Error) Word :=
  match g.frame.get i k with
  | .error e => .error (e.map .value)
  | .ok w => if g.closed then .error .missing else .ok w

def setSide (w : Word) : EngineM μ Unit := do
  let g ← get
  if g.closed then throw .missing
  set { g with frame := { g.frame with side := w } }

def side (g : Engine μ) : Except (Abort Error) Word :=
  if g.closed then .error .missing else .ok g.frame.side

def codeOf (g : Engine μ) (t : Token) : Except (Abort Error) (List UInt8) :=
  (g.code.read t.block.addr t.block.size).mapError (Abort.map .code)

def close : EngineM μ Unit := do
  let g ← get
  if g.closed then return
  notExecuting
  set { g with closed := true }
  onCode CodeMemory.close .code

end TraceCompiler.Engine
