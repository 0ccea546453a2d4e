import Std.Data.HashMap
import TraceCompiler.Eval.Arith
import TraceCompiler.Eval.Host

/-! # Running one operation
-/

namespace TraceCompiler

instance : Hashable Box := ⟨fun b => hash b.id⟩

namespace Eval

inductive OpError where
  | divisionByZero
  | unknownTarget (target : String)
  | noMeaning (o : Opcode)
  | noMalloc
  | mallocFailed (size : Word)
  | call (message : String)
  deriving DecidableEq

def OpError.message : OpError → String
  | divisionByZero => "interp: division by zero"
  | unknownTarget t => "unknown jump target " ++ t
  | noMeaning o => "no interpretation for " ++ o.name
  | noMalloc => "allocation without a malloc hook"
  | mallocFailed size => "malloc of " ++ toString size.toNat ++ " bytes failed"
  | call m => m

/-- What a run changes: the values of boxes, the overflow flag and the world. -/
structure Machine (ω : Type) where
  values : Std.HashMap Box Word
  overflow : Bool
  world : ω

/-- Steps of a run. Changes stay when a step fails. -/
abbrev EvalM (ω : Type) := ExceptT (Abort OpError) (StateM (Machine ω))

variable {ω : Type}

def fail {α : Type} (e : OpError) : EvalM ω α := throw (.error e)

def fault {α : Type} : EvalM ω α := throw .missing

/-- The word of a value. A box that was never given one and a missing value are zero. -/
def Machine.word (m : Machine ω) : Option Value → Word
  | none => 0
  | some (.const c) => c.bits
  | some (.box b) => m.values.getD b 0

def word (v : Option Value) : EvalM ω Word := return (← get).word v

def words (vs : List (Option Value)) : EvalM ω (List Word) := do
  let m ← get
  return vs.map m.word

def arg (op : Op) (i : Nat) : EvalM ω Word :=
  match op.args[i]? with
  | some v => word v
  | none => fault

def accessBytes (size : Int) : Nat := if size = 1 then 1 else if size = 2 then 2
  else if size = 4 then 4 else 8

def load (h : Host ω) (addr : Word) (size : Int) (signed : Bool) : EvalM ω Word := do
  let n := accessBytes size
  match h.read addr n (← get).world with
  | none => fault
  | some bs =>
    let w := Word.ofBytes bs
    return if signed then Word.signExtend n w else w

def store (h : Host ω) (addr : Word) (size : Int) (w : Word) : EvalM ω Unit := do
  let stored ← modifyGet fun (m : Machine ω) =>
    match m with
    | ⟨values, overflow, world⟩ =>
      match h.write addr (Word.bytes (accessBytes size) w) world with
      | some world => (true, ⟨values, overflow, world⟩)
      | none => (false, ⟨values, overflow, world⟩)
  unless stored do fault

def onWorld {α : Type} (f : ω → α × ω) : EvalM ω α :=
  modifyGet fun m =>
    let (a, world) := f m.world
    (a, { m with world })

def barrier (h : Host ω) (obj : Word) : EvalM ω Unit :=
  match h.barrier with
  | none => pure ()
  | some f => onWorld fun w => ((), f obj w)

def malloc (h : Host ω) (size : Word) : EvalM ω Word := do
  match h.malloc with
  | none => fail .noMalloc
  | some f =>
    let p ← onWorld (f size)
    if p = 0 ∧ !h.passNull then fail (.mallocFailed size)
    return p

def need {α : Type} : Option α → EvalM ω α
  | some a => pure a
  | none => fault

def itemAddr (s : ArrayShape) (array index : Word) : Word :=
  array + Word.ofInt (s.itemOffset index)

def runHeap (h : Host ω) (op : Op) : EvalM ω Word := do
  match op.opcode with
  | .getfieldI | .getfieldR | .getfieldF =>
    let s ← need (op.descr.bind Descr.field?)
    load h ((← arg op 0) + Word.ofInt s.offset) s.size s.signed
  | .setfield =>
    let s ← need (op.descr.bind Descr.field?)
    if s.kind = .ref then barrier h (← arg op 0)
    store h ((← arg op 0) + Word.ofInt s.offset) s.size (← arg op 1)
    return 0
  | .getarrayitemI | .getarrayitemR | .getarrayitemF =>
    let s ← need (op.descr.bind Descr.array?)
    load h (itemAddr s (← arg op 0) (← arg op 1)) s.item s.signed
  | .setarrayitem =>
    let s ← need (op.descr.bind Descr.array?)
    if s.kind = .ref then barrier h (← arg op 0)
    store h (itemAddr s (← arg op 0) (← arg op 1)) s.item (← arg op 2)
    return 0
  | .arraylen =>
    let s ← need (op.descr.bind Descr.array?)
    load h ((← arg op 0) + Word.ofInt s.length) 8 true
  | .new =>
    let size ← need (op.descr.bind Descr.size?)
    malloc h (Word.ofInt size)
  | .newWithVtable =>
    let size ← need (op.descr.bind Descr.size?)
    let p ← malloc h (Word.ofInt size)
    store h p 8 (← arg op 0)
    return p
  | .newArray =>
    let s ← need (op.descr.bind Descr.array?)
    let n ← arg op 0
    let p ← malloc h (Word.ofInt (s.itemOffset n))
    store h (p + Word.ofInt s.length) 8 n
    return p
  | .callI | .callR | .callF | .callN =>
    let sig ← need (op.descr.bind Descr.call?)
    let fn ← arg op 0
    let args ← words (op.args.drop 1)
    match ← onWorld (h.call fn sig args) with
    | .ok w => return w
    | .error e => throw (e.map OpError.call)
  | _ => fail (.noMeaning op.opcode)

def runInt (op : Op) : EvalM ω Word := do
  let a ← arg op 0
  let b ← arg op 1
  match op.opcode with
  | .intFloordiv | .intMod =>
    if b = 0 then fail .divisionByZero
    return if op.opcode = .intFloordiv then quotient a b else remainder a b
  | _ =>
    match overflowResult? op.opcode a b with
    | some (w, overflow) =>
      modify fun m => { m with overflow }
      return w
    | none =>
      match intResult? op.opcode a b with
      | some w => return w
      | none => fail (.noMeaning op.opcode)

def runFloat (op : Op) : EvalM ω Word := do
  let a ← arg op 0
  let b ← arg op 1
  match floatResult? op.opcode a b with
  | some w => return w
  | none => fail (.noMeaning op.opcode)

def isUnary : Opcode → Bool
  | .sameAsI | .sameAsR | .sameAsF | .intNeg | .intInvert | .intIsTrue | .intIsZero | .floatNeg
  | .floatAbs | .castIntToFloat | .castFloatToInt => true
  | _ => false

/-- The result of an operation that stays on the trace. Two arguments of which the first is a float
make a float operation. -/
def runOp (h : Host ω) (op : Op) : EvalM ω Word := do
  if op.opcode = .debugMergePoint then return 0
  else if isUnary op.opcode then return (unaryResult? op.opcode (← arg op 0)).getD 0
  else if op.opcode.isCall || op.opcode.needsDescr then runHeap h op
  else
    match op.args with
    | [none, _] => fault
    | [some a, _] => if a.kind = .float then runFloat op else runInt op
    | _ => runInt op

def guardHolds (h : Host ω) (op : Op) : EvalM ω Bool := do
  match op.opcode with
  | .guardTrue | .guardNonnull => return (← arg op 0) ≠ 0
  | .guardFalse | .guardIsnull => return (← arg op 0) = 0
  | .guardValue => return (← arg op 0) = (← arg op 1)
  | .guardClass =>
    let header ← load h (← arg op 0) 8 false
    return header = (← arg op 1)
  | .guardNoOverflow => return !(← get).overflow
  | _ => return (← get).overflow

end Eval

end TraceCompiler
