import TraceCompiler.Number.Literal
import TraceCompiler.Text.LetterCase

/-! # Listings of machine code

A disassembler writes an offset, a mnemonic and operands to a line.
-/

namespace TraceCompiler.Machine

structure ListedInstr where
  offset : Nat := 0
  mnemonic : String := ""
  operands : String := ""
  deriving DecidableEq

namespace ListedInstr

def text (i : ListedInstr) : String := Text.hex i.offset ++ ": " ++ i.mnemonic ++ " " ++ i.operands

def contains (i : ListedInstr) (s : String) : Bool :=
  Text.occurs s.toList (i.mnemonic ++ " " ++ i.operands).toList

end ListedInstr

namespace Listing

def readOffset? (s : String) : Option Nat :=
  if s.isEmpty then none
  else
    match Literal.readDigits 16 false 0 s.toList with
    | .ok n => if n < 0x100000000 then some n else none
    | .error _ => none

def readLine? (line : String) : Option ListedInstr := do
  let (before, rest) ← Text.cutColon? line
  let offset ← readOffset? (Text.trimmed before)
  match Text.words rest with
  | [] => none
  | mnemonic :: operands => return ⟨offset, Text.lowered mnemonic, Text.joined " " operands⟩

def read (s : String) : List ListedInstr := (s.splitOn "\n").filterMap readLine?

/-- The instruction at an offset. Offsets ascend, so the search ends behind it. -/
def find? (is : List ListedInstr) (offset : Int) : Option ListedInstr :=
  (is.takeWhile fun i => (i.offset : Int) ≤ offset).find? fun i => (i.offset : Int) = offset

/-- An expected instruction; an empty mnemonic fits all. -/
structure Expected where
  name : String
  mnemonic : String
  contains : List String

inductive Difference where
  | tooShort (has want : Nat)
  | mnemonic (name : String) (i : ListedInstr) (want : String)
  | lacks (name : String) (i : ListedInstr) (want : String)

def Difference.message : Difference → String
  | tooShort has want =>
    "decoded " ++ toString has ++ " instructions, want at least " ++ toString want
  | mnemonic n i want => n ++ ": " ++ i.text ++ ", want mnemonic " ++ want
  | lacks n i want => n ++ ": " ++ i.text ++ " does not contain " ++ Text.quoted want

instance : ToString Difference := ⟨Difference.message⟩

def compareOne (i : ListedInstr) (w : Expected) : Except Difference Unit := do
  if !w.mnemonic.isEmpty && i.mnemonic ≠ w.mnemonic then throw (.mnemonic w.name i w.mnemonic)
  w.contains.forM fun s => if i.contains s then .ok () else .error (.lacks w.name i s)

def compare (is : List ListedInstr) (want : List Expected) : Except Difference Unit := do
  if is.length < want.length then throw (.tooShort is.length want.length)
  (is.zip want).forM fun (i, w) => compareOne i w

end Listing

end TraceCompiler.Machine
