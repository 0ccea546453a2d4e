import TraceCompiler.Lowering.Operand

/-! # The state of a compilation

While a trace is lowered, two register banks share lifetimes, frame and box numbers, and code grows
in a main and a cold part.
-/

namespace TraceCompiler.Lowering

open Machine (Fragment)
open Machine.Reg (rax rcx rdx rbx rsi rdi r8 r9 r10 r12 r13 r14 r15)

def gpOrder : List Int :=
  [rax, rcx, rdx, rbx, rsi, rdi, r8, r9, r10, r12, r13, r14, r15]

def intArgRegs : List Int :=
  [rdi, rsi, rdx, rcx, r8, r9]

def floatArgRegs : Nat := 8

def clampPool (limit : Int) (lo hi : Nat) : Nat :=
  if limit ≤ 0 ∨ (hi : Int) < limit then hi else max lo limit.toNat

def gpPool (limit : Int) : Pool where
  cls := .gp
  regs := gpOrder.take (clampPool limit 3 gpOrder.length)
  byteRegs := [rax, rcx, rdx, rbx]
  callerSaved := [rax, rcx, rdx, rsi, rdi, r8, r9, r10]

def floatPool (limit : Int) : Pool :=
  let regs : List Int := (List.range (clampPool limit 2 15)).map fun (n : Nat) => (n : Int)
  { cls := .float, regs, callerSaved := regs }

/-- A piece of the main part: a move between locations, or code of an operation. -/
inductive Item where
  | move (m : Move)
  | code (f : Fragment)

def Item.fragment : Item → Fragment
  | move m => moveCode m
  | code f => f

/-- A comparison whose flags the next guard reads. -/
structure Fused where
  result : Holder
  cond : Machine.Cond

structure State where
  gp : Bank
  float : Bank
  lifetimes : Lifetimes
  frame : Frame
  supply : BoxSupply
  main : Array Item := #[]
  cold : Array Fragment := #[]
  inputs : List Location := []
  exits : Array Exit := #[]
  maxValues : Nat := 0
  fused : Option Fused := none
  /-- The position of the last overflow operation. -/
  flagsFrom : Int := -2

/-- Steps of a compilation. Box numbers count on when it is refused. -/
abbrev CompileM := ReaderT Request (ExceptT (Abort Cause) (StateM State))

namespace CompileM

def refuse {α : Type} (c : Cause) : CompileM α := throw (.error c)

def fault {α : Type} : CompileM α := throw .missing

def need {α : Type} : Option α → CompileM α
  | some a => pure a
  | none => fault

def emit (fs : List Fragment) : CompileM Unit :=
  modify fun s => { s with main := s.main ++ fs.map Item.code }

def emitInstr (i : Machine.Instr) : CompileM Unit := emit [.instr i]

def emitMoves (ms : List Move) : CompileM Unit :=
  modify fun s => { s with main := s.main ++ ms.map Item.move }

def emitCold (fs : List Fragment) : CompileM Unit :=
  modify fun s => { s with cold := s.cold ++ fs }

def onBank {α : Type} (cls : RegClass) (m : AllocM α) : CompileM α := do
  let s ← get
  let bank := match cls with
    | .gp => s.gp
    | .float => s.float
  let start : Allocator :=
    { bank, lifetimes := s.lifetimes, frame := s.frame, supply := s.supply }
  let (r, a) := m.run start
  let s := { s with lifetimes := a.lifetimes, frame := a.frame, supply := a.supply }
  set (match cls with
    | .gp => { s with gp := a.bank }
    | .float => { s with float := a.bank })
  emitMoves a.moves.toList
  match r with
  | .ok v => pure v
  | .error e => throw (e.map Cause.alloc)

def onGp {α : Type} (m : AllocM α) : CompileM α := onBank .gp m

def onFloat {α : Type} (m : AllocM α) : CompileM α := onBank .float m

def classOf (k : Kind) : RegClass := if k = .float then .float else .gp

def onKind {α : Type} (k : Kind) (m : AllocM α) : CompileM α := onBank (classOf k) m

def bankOf (k : Kind) : CompileM Bank := do
  let s ← get
  return match classOf k with
    | .gp => s.gp
    | .float => s.float

def location (v : Option Value) : CompileM Location := do
  let k := (← need v).kind
  onKind k (AllocM.location v)

def frameSlot (b : Box) : CompileM Slot := return ((← get).frame.get? b).getD ⟨0⟩

def noteValues (n : Nat) : CompileM Unit := modify fun s => { s with maxValues := max s.maxValues n }

def releaseArgs (pos : Int) (op : Op) : CompileM Unit := do
  onGp (op.args.forM (AllocM.releaseIfDead pos))
  onFloat (op.args.forM (AllocM.releaseIfDead pos))

def arg (op : Op) (i : Nat) : CompileM (Option Value) := need op.args[i]?

def holders (vs : List (Option Value)) : List Holder := (boxesOf vs).map some

def sameBox (v w : Option Value) : Bool :=
  match v with
  | some (.box _) => v = w
  | _ => false

def isConst : Option Value → Bool
  | some (.const _) => true
  | _ => false

def isBox : Option Value → Bool
  | some (.box _) => true
  | _ => false

end CompileM

inductive IntSource where
  | reg (r : Machine.Reg)
  | mem (m : Machine.Mem)
  | imm (v : Int)

inductive FloatSource where
  | reg (x : Machine.Xmm)
  | mem (m : Machine.Mem)

namespace CompileM

/-- A value as an immediate, a register or a slot. Constants that are no immediates are loaded into
a temporary. -/
def intSource (pos : Int) (v : Option Value) (c : Constraint) : CompileM IntSource := do
  let load : CompileM IntSource := return .reg (gpOperand (← onGp (AllocM.ensure pos v c)))
  match v with
  | none => load
  | some (.const k) => if Word.fitsInt32 k.bits then return .imm (immediate k.bits) else load
  | some (.box b) =>
    let bank := (← get).gp
    match bank.regOf (some b) with
    | some r => return .reg (gpOperand r)
    | none => if b ∈ bank.inFrame then return .mem (slotMem (← frameSlot b)) else load

def floatSource (pos : Int) (v : Option Value) (c : Constraint) : CompileM FloatSource := do
  let load : CompileM FloatSource := return .reg (floatOperand (← onFloat (AllocM.ensure pos v c)))
  match v with
  | some (.box b) =>
    let bank := (← get).float
    match bank.regOf (some b) with
    | some r => return .reg (floatOperand r)
    | none => if b ∈ bank.inFrame then return .mem (slotMem (← frameSlot b)) else load
  | _ => load

def compareWith (r : Machine.Reg) : IntSource → CompileM Unit
  | .imm v => emitInstr (.aluImm .cmp r v)
  | .mem m => emitInstr (.aluLoad .cmp r m)
  | .reg s => emitInstr (.alu .cmp r s)

end CompileM

end TraceCompiler.Lowering
