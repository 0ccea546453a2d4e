import TraceCompiler.Table
import TraceCompiler.Trace.Value

/-! # Locations

Where a value lives at a point of the program: a register, a slot of the frame, or, for constants
only, in the instruction itself. A frame gives each box its slot.
-/

namespace TraceCompiler

/-- General registers and float registers are numbered apart. -/
inductive RegClass where
  | gp
  | float
  deriving DecidableEq

def RegClass.text : RegClass → String
  | gp => "gp"
  | float => "float"

structure Reg where
  cls : RegClass
  num : Int
  deriving DecidableEq

def Reg.gp (num : Int) : Reg := ⟨.gp, num⟩

def Reg.float (num : Int) : Reg := ⟨.float, num⟩

def Reg.text (r : Reg) : String :=
  match r.cls with
  | .gp => "r" ++ toString r.num
  | .float => "f" ++ toString r.num

/-- A word of the spill area of the frame. -/
structure Slot where
  index : Int
  deriving DecidableEq

def Slot.text (s : Slot) : String := "[s" ++ toString s.index ++ "]"

inductive Location where
  | reg (r : Reg)
  | slot (s : Slot)
  | imm (bits : Word)
  /-- No place: what a jump target offers that does not say where it wants an input. -/
  | unset
  deriving DecidableEq

namespace Location

def text : Location → String
  | reg r => r.text
  | slot s => s.text
  | imm bits => "$" ++ Text.hex bits.toNat
  | unset => "%!s(<nil>)"

/-- The location with a short text: a letter for its class and a number, or a dollar sign and a
word that `read?` understands. -/
def ofText (read? : String → Option Word) (s : String) : Location :=
  match s.toList with
  | [] => unset
  | c :: cs =>
    let rest := String.ofList cs
    let n := rest.toInt?.getD 0
    if c = 'r' then reg (Reg.gp n)
    else if c = 'f' then reg (Reg.float n)
    else if c = 's' then slot ⟨n⟩
    else if c = '$' then imm ((read? rest).getD 0)
    else unset

def isMemory : Location → Bool
  | slot _ => true
  | _ => false

def isImm : Location → Bool
  | imm _ => true
  | _ => false

end Location

inductive HeaderWord where
  /-- The number of the last exit. -/
  | exit
  /-- A word for the embedding program. -/
  | side
  | values
  | depth
  | owner

namespace HeaderWord

def index : HeaderWord → Nat
  | exit => 0
  | side => 1
  | values => 2
  | depth => 3
  | owner => 4

def count : Nat := 5

end HeaderWord

/-- The byte offset of a word from the frame base, a signed 32-bit displacement. -/
def wordOffset (word : Int) : Int := wrap32 (word * 8)

def HeaderWord.offset (w : HeaderWord) : Int := wordOffset w.index

def Slot.offset (s : Slot) : Int := wordOffset (HeaderWord.count + s.index)

structure Frame where
  slots : Table Box Slot := ∅
  /-- The first slot that was never handed out. -/
  next : Int := 0

namespace Frame

def startingAt (start : Int) : Frame := { next := start }

def depth (f : Frame) : Int := f.next

def get? (f : Frame) (b : Box) : Option Slot := f.slots.get? b

/-- Give a box a slot chosen elsewhere, such as the one a guard stored it in. -/
def bind (f : Frame) (b : Box) (s : Slot) : Frame :=
  { slots := f.slots.insert b s, next := if f.next ≤ s.index then wrap64 (s.index + 1) else f.next }

def fresh (f : Frame) : Slot × Frame := (⟨f.next⟩, { f with next := wrap64 (f.next + 1) })

def slotOf (f : Frame) (b : Box) : Slot × Frame :=
  match f.get? b with
  | some s => (s, f)
  | none =>
    let (s, f) := f.fresh
    (s, { f with slots := f.slots.insert b s })

end Frame

end TraceCompiler
