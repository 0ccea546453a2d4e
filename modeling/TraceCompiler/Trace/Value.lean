import TraceCompiler.Number.Decimal
import TraceCompiler.Text.Printable

/-! # Boxes and constants

A box is a trace variable. Its kind says how its word is read.
-/

namespace TraceCompiler

inductive Kind where
  | void
  | int
  | ref
  | float
  | any
  /-- The code `4 + n`, which names no kind. -/
  | other (n : Fin 251)
  deriving DecidableEq, Inhabited

namespace Kind

def code : Kind → Nat
  | void => 0
  | int => 1
  | ref => 2
  | float => 3
  | any => 255
  | other n => n + 4

def ofCode (n : Fin 256) : Kind :=
  if n.val = 0 then void
  else if n.val = 1 then int
  else if n.val = 2 then ref
  else if n.val = 3 then float
  else if h : n.val < 255 then other ⟨n.val - 4, by omega⟩
  else any

def text : Kind → String
  | void => "void"
  | int => "int"
  | ref => "ref"
  | float => "float"
  | any => "any"
  | other n => "Kind(" ++ toString (n.val + 4) ++ ")"

def letter : Kind → String
  | int => "i"
  | ref => "p"
  | float => "f"
  | _ => "v"

structure ParseError where
  name : String
  deriving DecidableEq

def ParseError.message (e : ParseError) : String := "ir: unknown kind " ++ Text.quoted e.name

instance : ToString ParseError := ⟨ParseError.message⟩

/-- The kind with a given name or abbreviation; the empty name is void. -/
def parse (s : String) : Except ParseError Kind :=
  if s = "int" ∨ s = "i" then .ok int
  else if s = "ref" ∨ s = "r" ∨ s = "p" then .ok ref
  else if s = "float" ∨ s = "f" then .ok float
  else if s = "void" ∨ s = "v" ∨ s = "" then .ok void
  else .error ⟨s⟩

end Kind

structure Box where
  id : Nat
  kind : Kind
  deriving DecidableEq

def Box.text (b : Box) : String := b.kind.letter ++ toString b.id

/-- A literal word of some kind. Constants never have a place of their own. -/
structure Const where
  kind : Kind
  bits : Word
  deriving DecidableEq

namespace Const

def int (i : Int) : Const := ⟨.int, Word.ofInt i⟩

def ref (address : Word) : Const := ⟨.ref, address⟩

def float (bits : Word) : Const := ⟨.float, bits⟩

def text (c : Const) : String :=
  match c.kind with
  | .float => Decimal.general.text c.bits
  | .ref => "ConstPtr(" ++ Text.hex c.bits.toNat ++ ")"
  | _ => toString (Word.signed c.bits)

end Const

inductive Value where
  | box (b : Box)
  | const (c : Const)
  deriving DecidableEq

namespace Value

def kind : Value → Kind
  | box b => b.kind
  | const c => c.kind

def text : Value → String
  | box b => b.text
  | const c => c.text

def box? : Value → Option Box
  | box b => some b
  | const _ => none

end Value

def boxesOf (vs : List (Option Value)) : List Box := vs.filterMap fun v => v.bind Value.box?

structure BoxSupply where
  made : Nat := 0

def BoxSupply.fresh (s : BoxSupply) (k : Kind) : Box × BoxSupply :=
  (⟨s.made + 1, k⟩, ⟨s.made + 1⟩)

end TraceCompiler
