import TraceCompiler.Program.Basic

/-! # Resolving documents

Descriptors come first, then the inputs of every trace, because a jump needs the input kinds of a
trace that may come later, then the operations, and last the guards that bridges continue.
-/

namespace TraceCompiler.Program

/-- A step that can find a flaw. Boxes made before it stay made. -/
abbrev ResolveM := ExceptT (Abort Error) BuildM

def flaw {α : Type} (trace : String) (line : Nat) (f : Flaw) : ResolveM α := throw (.error ⟨trace, line, f⟩)

def descrKind (s : String) : Except DescrFlaw Kind := (Kind.parse s).mapError .kind

def DescrSpec.shape (s : DescrSpec) : Except DescrFlaw Shape :=
  match s.field, s.array, s.call, decide (0 < s.size) with
  | some f, none, none, false => do
    return .field ⟨f.offset, f.size, ← descrKind f.kind, f.signed⟩
  | none, some a, none, false => do
    return .array ⟨a.baseOffset, a.itemSize, a.lengthOffset, ← descrKind a.kind, a.signed⟩
  | none, none, some c, false => do
    let args ← c.args.mapM descrKind
    return .call ⟨args, ← descrKind c.result⟩
  | none, none, none, true => return .size s.size
  | _, _, _, _ => throw .notOne

def internDescrs (descrs : List (String × DescrSpec)) (cache : Descriptors) :
    Except Error (List (String × Descr) × Descriptors) :=
  descrs.foldlM (fun (named, cache) (name, s) =>
    match s.shape with
    | .error f => .error { flaw := .descr name f }
    | .ok shape =>
      let (d, cache) := cache.intern shape name
      .ok (named ++ [(name, .interned d)], cache)) ([], cache)

abbrev Scope := List (String × Box)

def resolveInputs (trace : String) : List String → Scope → ResolveM Scope
  | [], scope => return scope
  | s :: rest, scope => do
    let some (name, kind) := Text.cutColon? s | flaw trace 0 (.notNameKind s)
    let name := Text.trimmed name
    if let .error f := checkName name then flaw trace 0 (.name f)
    match Kind.parse (Text.trimmed kind) with
    | .error e => flaw trace 0 (.kind e)
    | .ok .void => flaw trace 0 (.noKind name)
    | .ok k =>
      if (scope.lookup name).isSome then flaw trace 0 (.inputTwice name)
      let b ← BuildM.fresh k
      resolveInputs trace rest (scope ++ [(name, b)])

def resolveAllInputs : Nat → List String → List TraceSpec → ResolveM (List Scope)
  | _, _, [] => return []
  | i, seen, t :: rest => do
    if t.name.isEmpty then flaw "" 0 (.unnamed i)
    if t.name ∈ seen then flaw t.name 0 .definedTwice
    let scope ← resolveInputs t.name t.inputs []
    return scope :: (← resolveAllInputs (i + 1) (t.name :: seen) rest)

def reference (name : String) (i : Nat) (scope : Scope) : Descr :=
  .target {
    text := "<trace " ++ name ++ ">", typeName := "*tracefile.Ref", identity := i
    kinds := scope.map (·.2.kind), code := none }

structure Surroundings where
  trace : String
  descrs : List (String × Descr)
  references : List (String × Descr)

def resolveValues (s : Surroundings) (line : Nat) (scope : Scope) (names : List String) :
    ResolveM (List (Option Value)) :=
  names.mapM fun n => do
    match scope.lookup n with
    | some b => return some (.box b)
    | none =>
      match readConst? n with
      | some c => return some (.const c)
      | none => flaw s.trace line (.notValue n)

def OpSpec.isForeign (o : OpSpec) (trace : String) : Bool := !o.target.isEmpty && o.target ≠ trace

def resolveDescr (s : Surroundings) (o : OpSpec) (opcode : Opcode) : ResolveM (Option Descr) := do
  if !o.descr.isEmpty then
    match s.descrs.lookup o.descr with
    | some d => return some d
    | none => flaw s.trace o.line (.unknownDescr o.descr)
  else if o.isForeign s.trace then
    if opcode ≠ .jump then flaw s.trace o.line (.targetOn opcode)
    match s.references.lookup o.target with
    | some d => return some d
    | none => flaw s.trace o.line (.unknownTarget o.target)
  else return none

def resolveFails (s : Surroundings) (o : OpSpec) (opcode : Opcode) (u : Part) (scope : Scope) :
    ResolveM (Part × List (Option Value)) := do
  if opcode.isGuard then
    let fails ← resolveValues s o.line scope o.fail
    if o.guard.isEmpty then return (u, fails)
    else if (u.guards.lookup o.guard).isSome then flaw s.trace o.line (.labelledTwice o.guard)
    else return ({ u with guards := u.guards ++ [(o.guard, u.trace.ops.length)] }, fails)
  else if !o.fail.isEmpty || !o.guard.isEmpty then flaw s.trace o.line (.notGuard opcode)
  else return (u, [])

def resolveResult (s : Surroundings) (o : OpSpec) (op : Op) (scope : Scope) : ResolveM Scope :=
  if o.result.isEmpty then return scope
  else
    match op.result, checkName o.result with
    | none, _ => flaw s.trace o.line (.noResult op.opcode)
    | some _, .error f => flaw s.trace o.line (.name f)
    | some b, .ok _ =>
      if (scope.lookup o.result).isSome then flaw s.trace o.line (.resultTwice o.result)
      else return scope ++ [(o.result, b)]

def resolveOp (s : Surroundings) (o : OpSpec) (u : Part) (scope : Scope) : ResolveM (Part × Scope) := do
  let some opcode := Opcode.find? o.op | flaw s.trace o.line (.unknownOpcode o.op)
  let pos := u.trace.ops.length
  let args ← resolveValues s o.line scope o.args
  let descr ← resolveDescr s o opcode
  let (u, fails) ← resolveFails s o opcode u scope
  let op ← BuildM.op pos opcode args (if opcode.isGuard then none else descr) fails
  let scope ← resolveResult s o op scope
  return ({ u with
      trace := { u.trace with ops := u.trace.ops ++ [some op] }
      jumps := if opcode = .jump && o.isForeign s.trace then u.jumps ++ [(pos, o.target)] else u.jumps
      exits := if opcode.exitsTrace then u.exits ++ [pos] else u.exits }, scope)

def resolveOps (s : Surroundings) : List OpSpec → Part → Scope → ResolveM Part
  | [], u, _ => return u
  | o :: rest, u, scope => do
    let (u, scope) ← resolveOp s o u scope
    resolveOps s rest u scope

def resolveTrace (descrs references : List (String × Descr)) (t : TraceSpec) (scope : Scope) :
    ResolveM Part := do
  let start : Part := { trace := ⟨t.name, scope.map (some ·.2), []⟩, bridge := t.bridge }
  let u ← resolveOps ⟨t.name, descrs, references⟩ t.ops start scope
  if let .error e := u.trace.validate then throw (e.map fun e => ⟨t.name, 0, .invalid e⟩)
  let unnamed := u.trace.ops.zipIdx.any fun (op, pos) =>
    (op.map (·.opcode)) = some .jump && (u.jumps.lookup pos).isNone
  if u.isBridge && unnamed then flaw t.name 0 .unnamedJump
  return u

def guardOf (p : Program) (name : String) (b : BridgeSpec) : Except Error (Nat × Nat) := do
  let some i := p.index? b.trace | throw ⟨name, 0, .continuesUnknown b.trace⟩
  let some owner := p.parts[i]? | throw ⟨name, 0, .continuesUnknown b.trace⟩
  match owner.guards.lookup b.guard with
  | some pos => return (i, pos)
  | none =>
    match Literal.readPlain b.guard with
    | .error _ => throw ⟨name, 0, .noGuard b.trace b.guard false⟩
    | .ok n =>
      let guards := owner.exits.filter fun pos => (owner.op? pos).any (·.opcode.isGuard)
      match if n < 0 then none else guards[n.toNat]? with
      | some pos => return (i, pos)
      | none => throw ⟨name, 0, .noGuard b.trace b.guard true⟩

def checkInputs (name : String) (guard : Op) (inputs : List (Option Box)) :
    Except (Abort Error) Unit := do
  let kinds ← require guard.exitKinds?
  let takes ← inputs.mapM fun b => require (b.map (·.kind))
  if takes.length ≠ kinds.length then
    throw (.error ⟨name, 0, .bridgeInputs takes.length guard.opcode kinds.length⟩)
  for ((k, has), i) in (takes.zip kinds).zipIdx do
    if k ≠ has then throw (.error ⟨name, 0, .bridgeInputKind i k has⟩)

def attach (p : Program) (u : Part) : Except (Abort Error) Part := do
  match u.bridge with
  | none => return u
  | some b =>
    let (i, pos) ← (guardOf p u.trace.name b).mapError .error
    let guard ← require ((p.parts[i]?).bind (·.op? pos))
    checkInputs u.trace.name guard u.trace.inputs
    return { u with continues := some (i, pos) }

/-- The program of a document, with its bridges attached in whatever order. -/
def resolveParts (d : Document) (cache : Descriptors) : ResolveM (Program × Descriptors) := do
  let version := if d.version = 0 then Document.currentVersion else d.version
  if version ≠ Document.currentVersion then flaw "" 0 (.version version)
  if d.traces.isEmpty then flaw "" 0 .noTraces
  let (descrs, cache) ← (internDescrs d.descrs cache).mapError Abort.error
  let scopes ← resolveAllInputs 0 [] d.traces
  let references := (d.traces.zip scopes).zipIdx.map fun ((t, s), i) => (t.name, reference t.name i s)
  let parts ← (d.traces.zip scopes).mapM fun (t, s) => resolveTrace descrs references t s
  let parts ← parts.mapM fun u => MonadExcept.ofExcept (attach { descrs, parts } u)
  return ({ descrs, parts }, cache)

def resolve (d : Document) (cache : Descriptors) : ResolveM (Program × Descriptors) := do
  let (p, cache) ← resolveParts d cache
  if p.bridges.length ≠ p.parts.length - p.loops.length then flaw "" 0 .cycle
  return (p, cache)

end TraceCompiler.Program
