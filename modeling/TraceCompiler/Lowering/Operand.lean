import TraceCompiler.Machine.Assembly
import TraceCompiler.Placement.Registers

/-! # Requests and operands

Locations become machine operands. Frames are addressed from `rbp`.
-/

namespace TraceCompiler.Lowering

/-- Addresses of native callbacks. Zero switches a callback off. -/
structure Hooks where
  /-- Called with the frame and the number of an exit; returns the address of a bridge, or zero. -/
  failure : Word := 0
  /-- Called with the frame and a size; returns zeroed memory. -/
  malloc : Word := 0
  /-- Called with the frame and an object before a reference is stored in it. -/
  barrier : Word := 0
  deriving DecidableEq

/-- Limits on the register pools. Zero means all registers. -/
structure Limits where
  maxInts : Int := 0
  maxFloats : Int := 0
  debugChecks : Bool := false
  deriving DecidableEq

inductive Entry where
  /-- From outside, with the inputs in the value array. -/
  | loop
  /-- From a guard, with the inputs in the slots that the guard stored them in. -/
  | bridge (slots : List Slot)
  deriving DecidableEq

def Entry.isBridge : Entry → Bool
  | loop => false
  | bridge _ => true

structure Request where
  trace : Option Trace
  /-- The descriptor by which a jump of the trace names the trace itself. -/
  self : Option Descr := none
  entry : Entry := .loop
  frameStart : Int := 0
  /-- The number of the first exit; the others follow in order. -/
  firstExit : Int := 0
  hooks : Hooks := {}
  limits : Limits := {}

structure Exit where
  index : Int
  opcode : Opcode
  kinds : List Kind
  slots : List Slot
  /-- The offset of the displacement of the jump to the failure path of a guard. -/
  patch : Option Nat
  /-- The number of slots in use; a bridge takes fresh slots from here on. -/
  frameDepth : Int

structure Result where
  program : Machine.Program
  /-- The offset at which a loop is entered from outside. -/
  entry : Option Nat
  body : Nat
  inputs : List Location
  frameDepth : Int
  /-- The number of entries of the value array that the code touches. -/
  maxValues : Nat
  exits : List Exit
  deriving Inhabited

inductive Cause where
  | opcode (o : Opcode)
  | notCompiled (target : String)
  | floatArgs
  | intArgs
  | noMalloc (o : Opcode)
  | selfBridge
  | inputSlots (inputs slots : Nat)
  | jumpArity (passes takes : Nat)
  | overflowGuard (o : Opcode)
  | alloc (e : AllocError)
  | moves (e : MoveError)
  | bank (f : BankFlaw)
  | noFailValue (b : Box)
  | missingFailValue
  | missingValue
  | descr (o : Opcode) (want got : String)
  | assembly (e : Machine.AsmError)
  | noLabel (what : String)
  deriving DecidableEq

namespace Cause

def isNotImplemented : Cause → Bool
  | opcode _ | notCompiled _ | floatArgs | intArgs | noMalloc _ => true
  | _ => false

def detail : Cause → String
  | opcode o => "opcode " ++ o.name
  | notCompiled t => "jump target " ++ t ++ " is not compiled code"
  | floatArgs => "more than 8 float arguments"
  | intArgs => "more than 6 integer arguments"
  | noMalloc o => o.name ++ " without a malloc hook"
  | selfBridge => "bridge jumps back to itself"
  | inputSlots inputs slots =>
    toString inputs ++ " inputs but " ++ toString slots ++ " input slots"
  | jumpArity passes takes =>
    "jump passes " ++ toString passes ++ " values to " ++ toString takes ++ " inputs"
  | overflowGuard o => o.name ++ " does not follow an overflow operation"
  | alloc e => e.message
  | moves e => e.message
  | bank f => f.message
  | noFailValue b => "regalloc: value has no location: fail value " ++ b.text
  | missingFailValue => "unexpected fail value <nil>"
  | missingValue => "unexpected value <nil>"
  | descr o want got => o.name ++ " needs " ++ want ++ " descriptor, got " ++ got
  | assembly e => e.message
  | noLabel what => what

def message (c : Cause) : String :=
  (if c.isNotImplemented then "not implemented: " else "compiler internal error: ") ++ c.detail

end Cause

inductive CompileError where
  | noTrace
  | failed (trace : String) (place : Option (Nat × Opcode)) (cause : Cause)
  deriving DecidableEq

def CompileError.message : CompileError → String
  | noTrace => "amd64: request needs a trace"
  | failed trace none cause => "compile " ++ trace ++ ": " ++ cause.message
  | failed trace (some (i, o)) cause =>
    "compile " ++ trace ++ ": op " ++ toString i ++ " (" ++ o.name ++ "): " ++ cause.message

instance : ToString CompileError := ⟨CompileError.message⟩

open Machine (Fragment Mem)

/-- The scratch register that constants and value arrays are reached through. -/
def scratch : Machine.Reg := .wide Machine.Reg.r11

def floatScratch : Machine.Xmm := ⟨15⟩

def framePointer : Machine.Reg := .wide Machine.Reg.rbp

def gpOperand (num : Int) : Machine.Reg := .wide num

def floatOperand (num : Int) : Machine.Xmm := ⟨num⟩

def headerMem (w : HeaderWord) : Mem := .based framePointer w.offset

def slotMem (s : Slot) : Mem := .based framePointer s.offset

/-- An entry of the value array, whose address is in the scratch register. -/
def valueMem (i : Nat) : Mem := .based scratch (wrap32 (i * 8))

def loadValues : Fragment := .instr (.movLoad scratch (headerMem .values))

/-- The sign-extended immediate with the low half of a word. -/
def immediate (bits : Word) : Int := wrap32 (Word.signed bits)

def storeConst (mem : Mem) (bits : Word) : Fragment :=
  if Word.fitsInt32 bits then .instr (.storeImm mem (immediate bits) 8)
  else .group [.instr (.movImm scratch bits), .instr (.movStore mem scratch)]

/-- The code of a move. Only the scratch registers and the destination change. -/
def moveCode (m : Move) : Fragment :=
  match m.dst, m.src with
  | .reg d, .reg s =>
    match d.cls, s.cls with
    | .float, .float => .instr (.movXmm (floatOperand d.num) (floatOperand s.num))
    | .float, .gp => .instr (.movqToXmm (floatOperand d.num) (gpOperand s.num))
    | .gp, .float => .instr (.movqFromXmm (gpOperand d.num) (floatOperand s.num))
    | .gp, .gp => .instr (.mov (gpOperand d.num) (gpOperand s.num))
  | .reg d, .slot s =>
    match d.cls with
    | .float => .instr (.movsdLoad (floatOperand d.num) (slotMem s))
    | .gp => .instr (.movLoad (gpOperand d.num) (slotMem s))
  | .reg d, .imm bits =>
    match d.cls with
    | .gp => .instr (.movImm (gpOperand d.num) bits)
    | .float =>
      if bits = 0 then .instr (.float .xor (floatOperand d.num) (floatOperand d.num))
      else .group [.instr (.movImm scratch bits),
        .instr (.movqToXmm (floatOperand d.num) scratch)]
  | .slot d, .reg s =>
    match s.cls with
    | .float => .instr (.movsdStore (slotMem d) (floatOperand s.num))
    | .gp => .instr (.movStore (slotMem d) (gpOperand s.num))
  | .slot d, .slot s => .moveMem (slotMem d) (slotMem s)
  | .slot d, .imm bits => storeConst (slotMem d) bits
  | dst, src =>
    .refuse ("amd64: cannot move " ++ src.text ++ " into " ++ dst.text ++ " (" ++ m.kind.text ++ ")")

def scratchLocation (k : Kind) : Location :=
  if k = .float then .reg (Reg.float floatScratch.id) else .reg (Reg.gp Machine.Reg.r11)

end TraceCompiler.Lowering
