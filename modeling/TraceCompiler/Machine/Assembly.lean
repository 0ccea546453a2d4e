import TraceCompiler.Abort
import TraceCompiler.Machine.Encode
import TraceCompiler.Table
import TraceCompiler.Text.Printable

/-! # Assembly

A `Fragment` is a tree of instructions, labels and jumps, parts of which can be put in the cold
section.
-/

namespace TraceCompiler.Machine

/-- A part of the code. Sections are numbered, and only two of them are laid out. -/
structure Section where
  number : Int
  deriving DecidableEq

namespace Section

def main : Section := ⟨0⟩

def cold : Section := ⟨1⟩

def text (s : Section) : String :=
  if s = main then "main" else if s = cold then "cold"
  else "section(" ++ toString s.number ++ ")"

end Section

inductive Fragment where
  | instr (i : Instr)
  | label (name : String)
  | jump (target : String)
  | jumpIf (cond : Cond) (target : String)
  /-- A jump whose displacement is marked, so that it can be redirected later. -/
  | jumpSite (target site : String)
  | group (body : List Fragment)
  | inSection (s : Section) (body : Fragment)
  /-- Code that cannot be written, with the reason. -/
  | refuse (message : String)
  deriving Inhabited

inductive AsmError where
  | encode (e : EncodeError)
  | redefined (label : String)
  | undefined (label : String)
  | outOfRange (label : String)
  | noJumps
  | noJumpSites
  | refused (message : String)
  deriving DecidableEq

def AsmError.message : AsmError → String
  | encode e => e.message
  | redefined l => "label " ++ Text.quoted l ++ " already defined"
  | undefined l => "undefined label " ++ Text.quoted l
  | outOfRange l => "jump to label " ++ Text.quoted l ++ " out of range"
  | noJumps => "amd64: jump requires an amd64 context"
  | noJumpSites => "amd64: jump site requires an amd64 context"
  | refused m => m

instance : ToString AsmError := ⟨AsmError.message⟩

/-- What fragments are written to. -/
class Sink (σ : Type) where
  emitBytes : List UInt8 → σ → σ
  isDefined : String → σ → Bool
  define : String → σ → σ
  current : σ → Section
  select : Section → σ → Except (Abort AsmError) σ
  /-- Reserve the displacement of a jump to a label, if the sink knows jumps. -/
  reserve? : Option (String → σ → σ)

/-- Writing to a sink. What was written stays when a fragment is refused. -/
abbrev EmitM (σ : Type) := ExceptT (Abort AsmError) (StateM σ)

namespace EmitM

variable {σ : Type} [Sink σ]

def refuse {α : Type} (e : AsmError) : EmitM σ α := throw (.error e)

def bytes (bs : List UInt8) : EmitM σ Unit := modify (Sink.emitBytes bs)

def label (l : String) : EmitM σ Unit := do
  if Sink.isDefined l (← get) then refuse (.redefined l)
  modify (Sink.define l)

def instr (i : Instr) : EmitM σ Unit :=
  match i.encode with
  | .ok bs => bytes bs
  | .error e => refuse (.encode e)

def jump (opcode : List UInt8) (target : String) : EmitM σ Unit :=
  match (Sink.reserve? : Option (String → σ → σ)) with
  | none => refuse .noJumps
  | some reserve => do
    bytes opcode
    modify (reserve target)

def jumpSite (target site : String) : EmitM σ Unit :=
  match (Sink.reserve? : Option (String → σ → σ)) with
  | none => refuse .noJumpSites
  | some reserve => do
    bytes [0xE9]
    label site
    modify (reserve target)

def select (s : Section) : EmitM σ Unit := do
  match Sink.select s (← get) with
  | .ok t => set t
  | .error e => throw e

/-- Write to another section and come back, also when the body is refused. -/
def inSection (s : Section) (body : EmitM σ Unit) : EmitM σ Unit := do
  let previous := Sink.current (← get)
  select s
  let r ← ExceptT.lift body.run
  select previous
  match r with
  | .ok () => pure ()
  | .error e => throw e

end EmitM

namespace Fragment

variable {σ : Type} [Sink σ]

mutual

def emit : Fragment → EmitM σ Unit
  | instr i => EmitM.instr i
  | label l => EmitM.label l
  | jump t => EmitM.jump [0xE9] t
  | jumpIf c t => EmitM.jump [0x0F, 0x80 + (c.code &&& 15)] t
  | jumpSite t s => EmitM.jumpSite t s
  | group body => emitAll body
  | inSection s body => EmitM.inSection s (emit body)
  | refuse m => EmitM.refuse (.refused m)

def emitAll : List Fragment → EmitM σ Unit
  | [] => pure ()
  | f :: rest => do
    emit f
    emitAll rest

end

/-- Copy a word between memory operands over the stack. -/
def moveMem (dst src : Mem) : Fragment := .group [.instr (.pushMem src), .instr (.popMem dst)]

end Fragment

structure Program where
  code : Array UInt8
  coldOffset : Nat
  labels : Table String Nat
  deriving Inhabited

structure Position where
  cold : Bool
  offset : Nat
  deriving DecidableEq

structure Assembler where
  main : Array UInt8 := #[]
  cold : Array UInt8 := #[]
  inCold : Bool := false
  labels : Table String Position := ∅
  /-- The displacements to fill in, with the labels they lead to. -/
  jumps : Array (String × Position) := #[]

namespace Assembler

def here (a : Assembler) : Position := ⟨a.inCold, if a.inCold then a.cold.size else a.main.size⟩

def emitBytes (bs : List UInt8) (a : Assembler) : Assembler :=
  if a.inCold then { a with cold := a.cold ++ bs } else { a with main := a.main ++ bs }

def define (l : String) (a : Assembler) : Assembler :=
  { a with labels := a.labels.insert l a.here }

def select (s : Section) (a : Assembler) : Except (Abort AsmError) Assembler :=
  if s = .main then .ok { a with inCold := false }
  else if s = .cold then .ok { a with inCold := true }
  else .error (.fault (some ("amd64: unknown section " ++ toString s.number)))

/-- Four bytes that are filled in by `finish`. -/
def reserve (l : String) (a : Assembler) : Assembler :=
  { a with jumps := a.jumps.push (l, a.here) }.emitBytes [0, 0, 0, 0]

instance : Sink Assembler where
  emitBytes := emitBytes
  isDefined l a := a.labels.contains l
  define := define
  current a := if a.inCold then .cold else .main
  select := select
  reserve? := some reserve

def overwrite (code : Array UInt8) (pos : Nat) (bs : List UInt8) : Array UInt8 :=
  bs.zipIdx.foldl (fun code (b, i) => code.setIfInBounds (pos + i) b) code

def padding (length : Nat) : Nat := (16 - length % 16) % 16

def resolve (coldOffset : Nat) (labels : Table String Nat) (code : Array UInt8)
    (jump : String × Position) : Except AsmError (Array UInt8) :=
  match labels.get? jump.1 with
  | none => .error (.undefined jump.1)
  | some target =>
    let pos := jump.2.offset + if jump.2.cold then coldOffset else 0
    let rel : Int := target - (pos + 4)
    if TraceCompiler.fitsInt32 rel then .ok (overwrite code pos (imm32 rel))
    else .error (.outOfRange jump.1)

def finish (a : Assembler) : Except AsmError Program := do
  let main := a.main ++ List.replicate (padding a.main.size) (0xCC : UInt8)
  let coldOffset := main.size
  let labels := a.labels.mapValues fun p => p.offset + if p.cold then coldOffset else 0
  let code ← a.jumps.toList.foldlM (resolve coldOffset labels) (main ++ a.cold)
  return ⟨code, coldOffset, labels⟩

end Assembler

def Program.ofFragment (f : Fragment) : Except (Abort AsmError) Program :=
  match (f.emit : EmitM Assembler Unit).run {} with
  | (.error e, _) => .error e
  | (.ok (), a) => a.finish.mapError .error

/-- The code that a fragment brings into the main section of an empty assembler. -/
def Fragment.mainBytes (f : Fragment) : Except (Abort AsmError) (Array UInt8) :=
  match (f.emit : EmitM Assembler Unit).run {} with
  | (.error e, _) => .error e
  | (.ok (), a) => (a.finish.mapError .error).map fun p => p.code.take a.main.size

end TraceCompiler.Machine
