import TraceCompiler.Engine.Basic

/-! # Compiling loops and bridges

A compiled trace gets a block of code memory, and its exits get the next free numbers.
-/

namespace TraceCompiler.Engine

variable {μ : Type}

structure Loaded where
  result : Lowering.Result
  block : Block
  exits : List Nat

def Loaded.address (l : Loaded) (offset : Nat) : Word := l.block.addr + offset.toUInt64

def generate (request : Lowering.Request) : EngineM μ Lowering.Result := do
  let g ← get
  let (r, supply) := g.generator request g.supply
  set { g with supply }
  match r with
  | .ok r => return r
  | .error e => throw (e.map .compile)

/-- The first exit that has another number than the next free one. -/
def misnumbered? (first : Nat) (exits : List Lowering.Exit) : Option (Int × Nat) :=
  (exits.zipIdx first).findSome? fun (x, want) =>
    if x.index = want then none else some (x.index, want)

def registered (owner traceId : Nat) (t : Trace) (block : Block) (x : Lowering.Exit) (index pos : Nat) :
    Exit where
  index := index
  opcode := x.opcode
  kinds := x.kinds
  trace := t.name
  owner := owner
  site := x.patch.map fun p => { addr := block.addr + p.toUInt64 }
  slots := x.slots
  frameDepth := x.frameDepth
  origin := (traceId, pos)

/-- The exits of loaded code. One for which the trace has no operation stands behind it. -/
def enrolled (g : Engine μ) (t : Trace) (block : Block) (res : Lowering.Result) : List Exit :=
  (res.exits.zipIdx g.exits.length).map fun (x, index) =>
    registered g.id g.installed.traces.length t block x index
      ((t.exits.map Prod.fst).getD (index - g.exits.length) t.ops.length)

def load (t : Trace) (request : Lowering.Request) : EngineM μ Loaded := do
  let g ← get
  if g.closed then fail .closed
  if let .error e := t.validate then throw (e.map .invalid)
  let first := g.exits.length
  note .compile
  let result ← generate { request with
    firstExit := first, hooks := g.hooks
    limits := ⟨g.settings.maxInts, g.settings.maxFloats, g.settings.debugChecks⟩ }
  let block ← onCode (CodeMemory.allocate result.program.code.toList) (.load t.name)
  note .load
  if let some (index, want) := misnumbered? first result.exits then
    modify fun g => { g with code := g.code.deallocate block }
    fail (.misnumbered index want)
  let exits := g.enrolled t block result
  modify fun g => { g with
    exits := g.exits ++ exits
    maxDepth := max g.maxDepth result.frameDepth
    maxValues := max g.maxValues result.maxValues }
  tell ⟨.debug, "compiled trace", [
    ("trace", t.name), ("ops", toString t.ops.length), ("code", ByteSize.text block.size),
    ("frame_depth", toString result.frameDepth), ("exits", toString result.exits.length),
    ("bridge", toString request.entry.isBridge)]⟩
  return ⟨result, block, exits.map (·.index)⟩

/-- Compile a loop. A jump without a descriptor goes back to its start. -/
def compileTrace (t : Trace) : EngineM μ Token := do
  notExecuting
  let kinds ← (require t.inputKinds? : Except (Abort Error) (List Kind))
  let g ← get
  let token : Token := {
    (default : Token) with
    name := t.name, owner := g.id, number := g.tokens.length, kinds
    trace := g.installed.traces.length }
  let l ← load t { trace := some t, self := some token.descr }
  let token := { token with
    locations := l.result.inputs
    block := l.block
    entry := l.address (l.result.entry.getD 0)
    body := l.address l.result.body
    frameDepth := l.result.frameDepth
    exits := l.exits }
  modify fun g => { g with
    tokens := g.tokens ++ [token]
    installed := { g.installed with
      traces := g.installed.traces ++ [t]
      targets := g.installed.targets ++ [(token.descr, token.trace)] } }
  return token

def compileLoop (t : Trace) : EngineM μ Token := do
  compileTrace { t with name := "loop" ++ toString (← get).tokens.length }

def checkBridgeInputs (inputs : List (Option Box)) (kinds : List Kind) : EngineM μ Unit := do
  if inputs.length ≠ kinds.length then fail (.bridgeInputs inputs.length kinds.length)
  for ((b, k), i) in (inputs.zip kinds).zipIdx do
    match b with
    | none => throw .missing
    | some b => if b.kind ≠ k then fail (.bridgeInputKind i b.kind k)

def patch (x : Exit) (site : Machine.PatchSite) (target : Word) :
    EngineM μ (Except (Machine.PatchError (Abort CodeMemory.Error)) Machine.PatchSite) := do
  let g ← get
  let write (addr : Word) (bs : List UInt8) (code : CodeMemory μ) :=
    (CodeMemory.write addr bs).run code
  let (r, site, code) := site.patch target write g.code
  set { g with code, exits := g.exits.modify x.index fun x => { x with site := some site } }
  return r.map fun _ => site

/-- Compile a bridge and attach it to a guard. Its inputs take the guard's fail values. -/
def compileBridge (exit : Option Exit) (t : Trace) : EngineM μ Unit := do
  notExecuting
  let g ← get
  let some x := exit | fail (.foreignExit "<nil>")
  if x.owner ≠ g.id then fail (.foreignExit x.text)
  let x ← (require g.exits[x.index]? : Except (Abort Error) Exit)
  let some site := x.site | fail (.notGuard x.text)
  if x.isFinish then fail (.notGuard x.text)
  if x.hasBridge ∨ site.used then fail (.bridgeAttached x.text)
  checkBridgeInputs t.inputs x.kinds
  let t := { t with name := "bridge" ++ toString x.index }
  let id := g.installed.traces.length
  let l ← load t { trace := some t, entry := .bridge x.slots, frameStart := x.frameDepth }
  let body := l.address l.result.body
  match ← patch x site body with
  | .error e =>
    modify fun g => { g with
      exits := g.exits.take (g.exits.length - l.exits.length)
      code := g.code.deallocate l.block }
    match e with
    | .write _ (.fault m) => throw (.fault m)
    | e => fail (.attach x.text e)
  | .ok _ =>
    note .patch
    modify fun g => { g with
      exits := g.exits.modify x.index fun x => { x with bridge := some (body, l.exits) }
      bridges := g.bridges ++ [l.block]
      installed := { g.installed with
        traces := g.installed.traces ++ [t]
        bridges := g.installed.bridges ++ [(x.origin, id)] } }
    tell ⟨.info, "bridge attached", [
      ("guard", toString x.index), ("opcode", x.opcode.name), ("trace", x.trace),
      ("addr", Text.hex body.toNat), ("failures", toString x.failures)]⟩

end TraceCompiler.Engine
