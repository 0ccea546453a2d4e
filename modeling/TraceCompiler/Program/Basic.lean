import TraceCompiler.Eval.Run
import TraceCompiler.Program.Document
import TraceCompiler.Trace.Builder
import TraceCompiler.Trace.Validity

/-! # Programs

A program is a document with every value, descriptor and guard resolved.
-/

namespace TraceCompiler

namespace Program

def readReal? (s : String) : Option Word := (Literal.readReal s).toOption

def readConst? (s : String) : Option Const :=
  match Text.cutColon? s with
  | some ("int", digits) => (Word.read? digits).map (⟨.int, ·⟩)
  | some ("ref", digits) => (Word.read? digits).map (⟨.ref, ·⟩)
  | some ("float", digits) => (readReal? digits).map (⟨.float, ·⟩)
  | some _ => none
  | none =>
    if s = "nil" then some ⟨.ref, 0⟩
    else
      match Word.read? s with
      | some w => some ⟨.int, w⟩
      | none => (readReal? s).map (⟨.float, ·⟩)

inductive NameFlaw where
  | empty
  | constant (name : String)
  | separator (name : String)
  deriving DecidableEq

def NameFlaw.message : NameFlaw → String
  | empty => "empty value name"
  | constant n => "value name " ++ Text.quoted n ++ " reads as a constant"
  | separator n => "value name " ++ Text.quoted n ++ " contains a separator"

def checkName (name : String) : Except NameFlaw Unit :=
  if name.isEmpty then .error .empty
  else if (readConst? name).isSome then .error (.constant name)
  else if name.toList.any fun c => c = ':' || c = ' ' || c = '\t' then .error (.separator name)
  else .ok ()

end Program

namespace Program

inductive DescrFlaw where
  | notOne
  | kind (e : Kind.ParseError)
  deriving DecidableEq

def DescrFlaw.message : DescrFlaw → String
  | notOne => "declare exactly one of field, array, call or size"
  | kind e => e.message

inductive Flaw where
  | version (v : Int)
  | noTraces
  | descr (name : String) (f : DescrFlaw)
  | unnamed (i : Nat)
  | definedTwice
  | notNameKind (input : String)
  | name (f : NameFlaw)
  | kind (e : Kind.ParseError)
  | noKind (input : String)
  | inputTwice (input : String)
  | unknownOpcode (op : String)
  | notValue (name : String)
  | unknownDescr (name : String)
  | targetOn (o : Opcode)
  | unknownTarget (name : String)
  | labelledTwice (guard : String)
  | notGuard (o : Opcode)
  | noResult (o : Opcode)
  | resultTwice (name : String)
  | invalid (e : ValidationError)
  | unnamedJump
  | continuesUnknown (trace : String)
  | noGuard (trace guard : String) (isNumber : Bool)
  | bridgeInputs (takes : Nat) (guard : Opcode) (has : Nat)
  | bridgeInputKind (i : Nat) (takes has : Kind)
  | cycle
  /-- A trace could not be linked for a reason of its own. -/
  | unlinked (message : String)
  deriving DecidableEq

def Flaw.message : Flaw → String
  | version v => "unsupported version " ++ toString v
  | noTraces => "no traces"
  | descr n f => "descr " ++ n ++ ": " ++ f.message
  | unnamed i => "trace " ++ toString i ++ " has no name"
  | definedTwice => "defined twice"
  | notNameKind s => "input " ++ Text.quoted s ++ " is not name:kind"
  | name f => f.message
  | kind e => e.message
  | noKind n => "input " ++ n ++ " has no kind"
  | inputTwice n => "input " ++ n ++ " declared twice"
  | unknownOpcode o => "unknown opcode " ++ Text.quoted o
  | notValue n => Text.quoted n ++ " is neither a value nor a constant"
  | unknownDescr n => "unknown descr " ++ Text.quoted n
  | targetOn o => "target on " ++ o.name
  | unknownTarget n => "jump to unknown trace " ++ Text.quoted n
  | labelledTwice g => "guard " ++ g ++ " labelled twice"
  | notGuard o => o.name ++ " is not a guard"
  | noResult o => o.name ++ " has no result"
  | resultTwice n => n ++ " defined twice"
  | invalid e => e.message
  | unnamedJump => "a bridge must name its jump target"
  | continuesUnknown t => "continues unknown trace " ++ Text.quoted t
  | noGuard t g isNumber =>
    "trace " ++ t ++ " has no guard " ++ if isNumber then g else Text.quoted g
  | bridgeInputs takes o has =>
    "bridge takes " ++ toString takes ++ " inputs, guard " ++ o.name ++ " has " ++ toString has ++
      " fail values"
  | bridgeInputKind i takes has =>
    "bridge input " ++ toString i ++ " is " ++ takes.text ++ ", fail value is " ++ has.text
  | cycle => "bridges continue each other in a cycle"
  | unlinked m => m

/-- A flaw and where it is. An empty name stands for the whole document, and line zero for none. -/
structure Error where
  trace : String := ""
  line : Nat := 0
  flaw : Flaw
  deriving DecidableEq

def Error.message (e : Error) : String :=
  if e.trace.isEmpty then "tracefile: " ++ e.flaw.message
  else if e.line = 0 then "tracefile: " ++ e.trace ++ ": " ++ e.flaw.message
  else "tracefile: " ++ e.trace ++ " line " ++ toString e.line ++ ": " ++ e.flaw.message

instance : ToString Error := ⟨Error.message⟩

/-- A trace of a program. Operations go by their positions. -/
structure Part where
  trace : Trace
  bridge : Option BridgeSpec := none
  guards : List (String × Nat) := []
  exits : List Nat := []
  /-- The trace and the guard that the bridge continues. -/
  continues : Option (Nat × Nat) := none
  jumps : List (Nat × String) := []
  deriving Inhabited

namespace Part

def isBridge (u : Part) : Bool := u.bridge.isSome

def op? (u : Part) (pos : Nat) : Option Op := (u.trace.ops[pos]?).join

def targets (u : Part) : List String := u.jumps.map Prod.snd

def setDescr (u : Part) (pos : Nat) (d : Option Descr) : Part :=
  { u with trace := { u.trace with
      ops := u.trace.ops.modify pos fun o => o.map fun o => { o with descr := d } } }

/-- Resolve the jumps one after the other; those before a failure stay resolved. -/
def linkJumps (resolve : String → Except String (Option Descr)) :
    List (Nat × String) → Part → Except (Abort Error) Unit × Part
  | [], u => (.ok ⟨⟩, u)
  | (pos, name) :: rest, u =>
    match resolve name with
    | .error m => (.error (.error ⟨u.trace.name, 0, .unlinked m⟩), u)
    | .ok d => linkJumps resolve rest (u.setDescr pos d)

/-- Point the jumps of a trace at descriptors and check the result. -/
def link (u : Part) (resolve : String → Except String (Option Descr)) :
    Except (Abort Error) Unit × Part :=
  match linkJumps resolve u.jumps u with
  | (.error e, u) => (.error e, u)
  | (.ok _, u) =>
    match u.trace.validate with
    | .error e => (.error (e.map fun e => ⟨u.trace.name, 0, .invalid e⟩), u)
    | .ok _ => (.ok ⟨⟩, u)

end Part

end Program

structure Program where
  descrs : List (String × Descr) := []
  parts : List Program.Part := []

namespace Program

def index? (p : Program) (name : String) : Option Nat :=
  p.parts.findIdx? fun u => u.trace.name = name

def part? (p : Program) (name : String) : Option Part := p.parts.find? fun u => u.trace.name = name

def loops (p : Program) : List Part := p.parts.filter (! ·.isBridge)

def bridgesAfter (parts : List Part) : Nat → List String → List Part
  | 0, _ => []
  | rounds + 1, done =>
    let (found, done') := parts.foldl (fun (found, done) u =>
      match u.bridge with
      | some b =>
        if u.trace.name ∉ done ∧ b.trace ∈ done then (found ++ [u], u.trace.name :: done)
        else (found, done)
      | none => (found, done)) ([], done)
    if found.isEmpty then [] else found ++ bridgesAfter parts rounds done'

def bridges (p : Program) : List Part :=
  bridgesAfter p.parts p.parts.length (p.loops.map (·.trace.name))

def assign {α β : Type} [BEq α] (key : α) (value : β) (l : List (α × β)) : List (α × β) :=
  l.filter (·.1 != key) ++ [(key, value)]

/-- The traces of a program, linked by the descriptors that its jumps carry now. -/
def linked (p : Program) : Except (Abort Empty) Eval.Linked := do
  let jumps := p.parts.flatMap fun u => u.jumps.filterMap fun (pos, name) =>
    ((u.op? pos).bind (·.descr)).map (·, name)
  let targets ← jumps.foldlM (fun ts (d, name) => do
    let i ← require (p.index? name)
    return assign d i ts) []
  let bridges := p.parts.zipIdx.foldl (fun bs (u, i) =>
    match u.continues with
    | some guard => assign guard i bs
    | none => bs) []
  return { traces := p.parts.map (·.trace), targets, bridges }

def setPart (p : Program) (i : Nat) (u : Part) : Program := { p with parts := p.parts.set i u }

end Program

end TraceCompiler
