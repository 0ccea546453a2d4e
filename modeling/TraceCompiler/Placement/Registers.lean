import TraceCompiler.Placement.ParallelMove
import TraceCompiler.Trace.Lifetime

/-! # Register allocation

An `Allocator` keeps track of which box occupies which register of one class.
-/

namespace TraceCompiler

structure Pool where
  cls : RegClass
  regs : List Int
  /-- The registers whose low byte can be written alone. -/
  byteRegs : List Int := []
  callerSaved : List Int := []

namespace Pool

def reg (p : Pool) (num : Int) : Reg := ⟨p.cls, num⟩

def handles (p : Pool) (k : Kind) : Bool :=
  match p.cls with
  | .float => k = .float
  | .gp => k = .int || k = .ref

end Pool

/-- What a register is held for: a box, or the result of an operation that names none. -/
abbrev Holder := Option Box

structure Constraint where
  forbidden : List Holder := []
  avoid : List Int := []
  pinned : Option Int := none
  /-- Only registers whose low byte can be written alone. -/
  byteOnly : Bool := false

namespace Constraint

def excluding (c : Constraint) (h : Holder) (avoid : List Int := []) : Constraint :=
  { c with forbidden := c.forbidden ++ [h], avoid := c.avoid ++ avoid }

/-- The same limits on other holders, but no wish for a particular register. -/
def unplaced (c : Constraint) : Constraint := { c with pinned := none, byteOnly := false }

def fits (c : Constraint) (p : Pool) (r : Int) : Bool :=
  (c.pinned.all (· = r)) && r ∉ c.avoid && (!c.byteOnly || r ∈ p.byteRegs)

end Constraint

inductive AllocError where
  | pinConflict (r : Reg) (b : Box)
  | noRegister (cls : RegClass) (bound : Nat)
  | noLocation (b : Box)
  | missingValue
  | notFree (b : Box) (r : Reg)
  | notAllocatable (r : Reg)
  | rebind (b : Holder)
  deriving DecidableEq

def AllocError.message : AllocError → String
  | pinConflict r b =>
    "regalloc: register pinned twice: " ++ r.text ++ " holds " ++ b.text
  | noRegister cls bound =>
    "regalloc: no register available (class " ++ cls.text ++ ", " ++ toString bound ++ " bound)"
  | noLocation b => "regalloc: value has no location: " ++ b.text
  | missingValue => "regalloc: unexpected value <nil>"
  | notFree b r => "regalloc: bind " ++ b.text ++ " to " ++ r.text ++ ": register not free"
  | notAllocatable r => "regalloc: " ++ r.text ++ " is not allocatable"
  | rebind b =>
    "regalloc: rebind " ++ (b.map Box.text).getD "<nil>" ++ ": not in a register"

instance : ToString AllocError := ⟨AllocError.message⟩

structure Bank where
  pool : Pool
  free : List Int
  bound : Table Holder Int := ∅
  owner : Table Int Holder := ∅
  inFrame : List Box := []
  /-- The boxes that live only during the current operation. -/
  temps : List Box := []

namespace Bank

def ofPool (p : Pool) : Bank := { pool := p, free := p.regs.eraseDups }

def ownerOf (k : Bank) (r : Int) : Option Box := (k.owner.get? r).join

def regOf (k : Bank) (h : Holder) : Option Int := k.bound.get? h

def assign (k : Bank) (h : Holder) (r : Int) : Bank :=
  { k with free := k.free.erase r, bound := k.bound.insert h r, owner := k.owner.insert r h }

def release (k : Bank) (h : Holder) : Bank :=
  match k.bound.get? h with
  | none => k
  | some r =>
    { k with
      bound := k.bound.erase h
      owner := k.owner.erase r
      free := if r ∈ k.free then k.free else k.free ++ [r] }

def firstFree (k : Bank) (c : Constraint) : Option Int :=
  k.pool.regs.find? fun r => r ∈ k.free && c.fits k.pool r

/-- The boxes that may be evicted, with their registers in allocation order. -/
def victims (k : Bank) (c : Constraint) : List (Int × Box) :=
  k.pool.regs.filterMap fun r =>
    match k.ownerOf r with
    | none => none
    | some b =>
      if c.fits k.pool r && some b ∉ c.forbidden && b ∉ k.temps then some (r, b) else none

def furthest (l : Lifetimes) (candidates : List (Int × Box)) : Option (Int × Box) :=
  let choice := candidates.foldl (fun best v =>
    if (best.map fun w => l.lastUse w.2).getD (-2) < l.lastUse v.2 then some v else best) none
  choice.filter (0 ≤ ·.1)

def bindings (k : Bank) : List (Reg × Holder) :=
  (k.bound.entries.mergeSort fun a b => a.2 ≤ b.2).map fun (h, r) => (k.pool.reg r, h)

end Bank

structure Allocator where
  bank : Bank
  lifetimes : Lifetimes
  frame : Frame
  supply : BoxSupply
  moves : Array Move := #[]

/-- A request to an allocator, at a position that is passed where it matters. -/
abbrev AllocM := ExceptT (Abort AllocError) (StateM Allocator)

namespace AllocM

def refuse {α : Type} (e : AllocError) : AllocM α := throw (.error e)

def boxOf (h : Holder) : AllocM Box :=
  match h with
  | some b => pure b
  | none => throw .missing

def modifyBank (f : Bank → Bank) : AllocM Unit := modify fun a => { a with bank := f a.bank }

def emit (dst src : Location) (kind : Kind) : AllocM Unit :=
  modify fun a => { a with moves := a.moves.push ⟨src, dst, kind⟩ }

def regLocation (r : Int) : AllocM Location := return .reg ((← get).bank.pool.reg r)

def slotOf (b : Box) : AllocM Slot :=
  modifyGet fun a =>
    let (s, f) := a.frame.slotOf b
    (s, { a with frame := f })

def assign (h : Holder) (r : Int) : AllocM Unit := modifyBank (·.assign h r)

def release (h : Holder) : AllocM Unit := modifyBank (·.release h)

def needed (pos : Int) (b : Box) : AllocM Bool := return pos ≤ (← get).lifetimes.lastUse b

def liveAfter (pos : Int) (b : Box) : AllocM Bool := return (← get).lifetimes.liveAfter b pos

def isInFrame (b : Box) : AllocM Bool := return b ∈ (← get).bank.inFrame

/-- Store the register copy of a box to its slot, unless the slot holds it already. -/
def store (b : Box) (r : Int) : AllocM Unit := do
  unless ← isInFrame b do
    let s ← slotOf b
    emit (.slot s) (← regLocation r) b.kind
    modifyBank fun k => { k with inFrame := b :: k.inFrame }

/-- Free a register; an occupant that is still needed goes to its slot. -/
def evict (pos : Int) (r : Int) : AllocM Unit := do
  match (← get).bank.ownerOf r with
  | none => pure ()
  | some b =>
    if ← needed pos b then store b r
    release (some b)

/-- The register a request for a suitable one would get: a free one, or that of the box whose last
use is furthest away. Temporaries of the current operation are left alone. -/
def choose? (c : Constraint) : AllocM (Option Int) := do
  let a ← get
  match a.bank.firstFree c with
  | some r => return some r
  | none =>
    match Bank.furthest a.lifetimes (a.bank.victims c) with
    | some (r, _) => return some r
    | none => return none

def pick (pos : Int) (c : Constraint) : AllocM Int := do
  match ← choose? c with
  | some r =>
    unless r ∈ (← get).bank.free do evict pos r
    return r
  | none =>
    let k := (← get).bank
    refuse (.noRegister k.pool.cls k.bound.size)

def releaseIfDead (pos : Int) (v : Option Value) : AllocM Unit := do
  match v.bind Value.box? with
  | none => pure ()
  | some b => unless ← liveAfter pos b do release (some b)

/-- Free the registers of what an operation leaves dead, and those of its temporaries. -/
def endOp (pos : Int) (op : Op) : AllocM Unit := do
  op.args.forM (releaseIfDead pos)
  op.failArgs.forM (releaseIfDead pos)
  releaseIfDead pos (op.result.map Value.box)
  (← get).bank.temps.forM fun t => release (some t)
  modifyBank fun k => { k with temps := [] }

def temp (pos : Int) (kind : Kind) : AllocM Box :=
  modifyGet fun a =>
    let (b, supply) := a.supply.fresh kind
    (b, { a with
      supply
      lifetimes := a.lifetimes.addTemp b pos
      bank := { a.bank with temps := a.bank.temps ++ [b] } })

/-- Where a value is now; a register is preferred to the slot. -/
def location (v : Option Value) : AllocM Location := do
  match v with
  | none => refuse .missingValue
  | some (.const c) => return .imm c.bits
  | some (.box b) =>
    match (← get).bank.regOf (some b) with
    | some r => regLocation r
    | none => if ← isInFrame b then return .slot (← slotOf b) else refuse (.noLocation b)

def bind (b : Box) (r : Int) : AllocM Unit := do
  let k := (← get).bank
  if r ∈ k.free then assign (some b) r else refuse (.notFree b (k.pool.reg r))

def bindFrame (b : Box) (s : Slot) : AllocM Unit :=
  modify fun a => { a with
    frame := a.frame.bind b s
    bank := { a.bank with inFrame := b :: a.bank.inFrame } }

def freeRegister : AllocM (Option Int) := return (← get).bank.firstFree {}

def clobber (pos : Int) (r : Int) (c : Constraint) : AllocM Unit := do
  let k := (← get).bank
  match k.ownerOf r with
  | none => pure ()
  | some b =>
    if some b ∈ c.forbidden || b ∈ k.temps then refuse (.pinConflict (k.pool.reg r) b)
    if !(← needed pos b) then release (some b)
    else
      match k.firstFree { avoid := c.avoid ++ [r] } with
      | some other =>
        emit (← regLocation other) (← regLocation r) b.kind
        release (some b)
        assign (some b) other
      | none =>
        store b r
        release (some b)

/-- Place a holder in a given register. The value of its box, if it has one, follows. -/
def force (pos : Int) (h : Holder) (r : Int) (c : Constraint) : AllocM Int := do
  let k := (← get).bank
  if r ∉ k.pool.regs then refuse (.notAllocatable (k.pool.reg r))
  if k.regOf h = some r then return r
  clobber pos r (c.excluding h [r])
  match (← get).bank.regOf h with
  | some old =>
    emit (← regLocation r) (← regLocation old) (← boxOf h).kind
    release h
  | none =>
    if let some b := h then
      if ← isInFrame b then emit (← regLocation r) (.slot (← slotOf b)) b.kind
  assign h r
  return r

/-- Give a holder a register without loading anything into it; a value it has in another register
follows. -/
def allocate (pos : Int) (h : Holder) (c : Constraint) : AllocM Int := do
  let k := (← get).bank
  match (k.regOf h).filter (c.fits k.pool) with
  | some r => return r
  | none =>
    match c.pinned with
    | some r => force pos h r c
    | none =>
      let r ← pick pos (c.excluding h)
      if let some old := (← get).bank.regOf h then
        emit (← regLocation r) (← regLocation old) (← boxOf h).kind
        release h
      assign h r
      return r

def ensure (pos : Int) (v : Option Value) (c : Constraint) : AllocM Int := do
  match v with
  | none => refuse .missingValue
  | some (.const k) =>
    let t ← temp pos k.kind
    let r ← allocate pos (some t) c
    emit (← regLocation r) (.imm k.bits) k.kind
    return r
  | some (.box b) =>
    if ((← get).bank.regOf (some b)).isSome then allocate pos (some b) c
    else if !(← isInFrame b) then refuse (.noLocation b)
    else
      let r ← allocate pos (some b) c
      emit (← regLocation r) (.slot (← slotOf b)) b.kind
      return r

/-- Put the value of an operand in a register that then belongs to a result, for instructions that
overwrite their first operand. -/
def resultInSameRegister (pos : Int) (result : Holder) (operand : Option Value) (c : Constraint) :
    AllocM Int := do
  match operand.bind Value.box? with
  | none =>
    let r ← allocate pos result c
    let loc ← location operand
    emit (← regLocation r) loc (← boxOf result).kind
    return r
  | some b =>
    let k := (← get).bank
    match (k.regOf (some b)).filter (c.fits k.pool) with
    | some r =>
      if ← liveAfter pos b then
        if !(← isInFrame b) then
          let c' := c.unplaced.excluding (some b) [r]
          if (← choose? c').isSome then
            let other ← pick pos c'
            emit (← regLocation other) (← regLocation r) b.kind
            release (some b)
            assign (some b) other
          else
            store b r
            release (some b)
        else release (some b)
      else release (some b)
      assign result r
      return r
    | none =>
      let src ← location operand
      let r ← allocate pos result (c.excluding (some b))
      emit (← regLocation r) src (← boxOf result).kind
      return r

def rebind (old new : Holder) : AllocM Unit := do
  match (← get).bank.regOf old with
  | none => refuse (.rebind old)
  | some r =>
    release old
    assign new r
    if let some b := old then modifyBank fun k => { k with temps := k.temps.erase b }

def spill (h : Holder) : AllocM Unit := do
  if let some r := (← get).bank.regOf h then store (← boxOf h) r

/-- Move everything that is read behind `pos` out of the registers that calls overwrite. What is
read for the last time now stays, so that it can be passed. -/
def spillCallerSaved (pos : Int) : AllocM Unit := do
  (← get).bank.pool.regs.forM fun r => do
    let k := (← get).bank
    if r ∈ k.pool.callerSaved then
      if let some b := k.ownerOf r then
        if ← liveAfter pos b then
          store b r
          release (some b)

def releaseCallerSaved : AllocM Unit := do
  (← get).bank.pool.regs.forM fun r => do
    let k := (← get).bank
    if r ∈ k.pool.callerSaved then
      if let some b := k.ownerOf r then release (some b)

end AllocM

inductive BankFlaw where
  | freeAndBound (r : Reg)
  | owner (r : Reg) (b : Box) (actual : Reg)
  | dead (b : Box) (r : Reg) (pos : Int)
  | count (pooled free pool : Nat)
  | inverse (bound owned : Nat)
  deriving DecidableEq

def BankFlaw.message : BankFlaw → String
  | freeAndBound r => "regalloc: " ++ r.text ++ " is both free and bound (or neither)"
  | owner r b actual =>
    "regalloc: " ++ r.text ++ " owner " ++ b.text ++ " is bound to " ++ actual.text
  | dead b r pos =>
    "regalloc: dead box " ++ b.text ++ " still holds " ++ r.text ++ " at op " ++ toString pos
  | count pooled free pool =>
    "regalloc: " ++ toString pooled ++ " bound + " ++ toString free ++ " free != pool of " ++
      toString pool
  | inverse bound owned =>
    "regalloc: " ++ toString bound ++ " boxes bound but " ++ toString owned ++ " registers owned"

instance : ToString BankFlaw := ⟨BankFlaw.message⟩

namespace Bank

/-- The first flaw of the bookkeeping after the operation at `pos`: every register of the pool is
free or held once, and no dead box holds a register. -/
def check (k : Bank) (l : Lifetimes) (pos : Int) : Except BankFlaw Unit := do
  for r in k.pool.regs do
    match k.ownerOf r with
    | none => if r ∉ k.free then throw (.freeAndBound (k.pool.reg r))
    | some b =>
      if r ∈ k.free then throw (.freeAndBound (k.pool.reg r))
      let actual := (k.regOf (some b)).getD 0
      if actual ≠ r then throw (.owner (k.pool.reg r) b (k.pool.reg actual))
      if !l.liveAfter b pos then throw (.dead b (k.pool.reg r) pos)
  let pooled := (k.pool.regs.filter fun r => (k.ownerOf r).isSome).length
  if pooled + k.free.length ≠ k.pool.regs.length then
    throw (.count pooled k.free.length k.pool.regs.length)
  if k.bound.size ≠ k.owner.size then throw (.inverse k.bound.size k.owner.size)

end Bank

end TraceCompiler
