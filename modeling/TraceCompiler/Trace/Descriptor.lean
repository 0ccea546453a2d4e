import TraceCompiler.Placement.Location

/-! # Descriptors

A descriptor is the static part of an operation: the layout of a field or array, the signature of a
callee, the size of an object, or the code a jump goes to.
-/

namespace TraceCompiler

structure FieldShape where
  offset : Int
  size : Int
  kind : Kind
  signed : Bool
  deriving DecidableEq, Inhabited

/-- The layout of an array object: a length word, and items from `base` on. -/
structure ArrayShape where
  base : Int
  item : Int
  length : Int
  kind : Kind
  signed : Bool
  deriving DecidableEq

def ArrayShape.itemOffset (s : ArrayShape) (index : Word) : Int :=
  wrap64 (s.base + Word.signed index * s.item)

structure Signature where
  args : List Kind
  result : Kind
  deriving DecidableEq

def Signature.text (s : Signature) : String :=
  "(" ++ Text.joined "," (s.args.map Kind.text) ++ ")->" ++ s.result.text

/-- What interned descriptors are told apart by. -/
inductive Shape where
  | field (s : FieldShape)
  | array (s : ArrayShape)
  | call (s : Signature)
  | size (bytes : Int)
  deriving DecidableEq, Inhabited

/-- What a store files a shape under: a signature under its text. -/
inductive Shape.Key where
  | field (s : FieldShape)
  | array (s : ArrayShape)
  | call (text : String)
  | size (bytes : Int)
  deriving DecidableEq

def Shape.key : Shape → Shape.Key
  | field s => .field s
  | array s => .array s
  | call s => .call s.text
  | size n => .size n

/-- Whether stores through a layout have to be announced to the memory manager. -/
def Shape.isPointer : Shape → Bool
  | field s => s.kind = .ref
  | array s => s.kind = .ref
  | _ => false

/-- An interned shape. Only fields have a name, that of their first request. -/
structure Interned where
  shape : Shape
  name : String
  index : Nat
  deriving DecidableEq, Inhabited

def Interned.text (d : Interned) : String :=
  match d.shape with
  | .field s =>
    "<" ++ (if d.name = "" then "field" else d.name) ++ " " ++ s.kind.text ++ "@" ++
      toString s.offset ++ "/" ++ toString s.size ++ ">"
  | .array s =>
    "<array " ++ s.kind.text ++ " base=" ++ toString s.base ++ " item=" ++ toString s.item ++
      " len@" ++ toString s.length ++ ">"
  | .call s => "<call " ++ s.text ++ ">"
  | .size n => "<size " ++ toString n ++ ">"

/-- The name of a descriptor's type, as messages about a wrong one give it. -/
def Shape.typeName : Shape → String
  | field _ => "*ir.FieldDescr"
  | array _ => "*ir.ArrayDescr"
  | call _ => "*ir.CallDescr"
  | size _ => "*ir.SizeDescr"

/-- Compiled code that a jump can enter: where it wants its inputs, and its address. -/
structure CodeEntry where
  locations : List Location
  address : Word
  deriving DecidableEq

structure JumpTarget where
  text : String
  typeName : String
  identity : Nat
  kinds : List Kind
  code : Option CodeEntry
  deriving DecidableEq

/-- The static part of an operation. A descriptor is whole: one that lacks its own record, at which a check
would break off, cannot be written. -/
inductive Descr where
  | interned (d : Interned)
  | target (t : JumpTarget)
  | plain (text typeName : String)
  deriving DecidableEq, Inhabited

namespace Descr

def text : Descr → String
  | interned d => d.text
  | target t => t.text
  | plain s _ => s

def typeName : Descr → String
  | interned d => d.shape.typeName
  | target t => t.typeName
  | plain _ n => n

def textOrNil (d : Option Descr) : String := (d.map text).getD "<nil>"

def typeNameOrNil (d : Option Descr) : String := (d.map typeName).getD "<nil>"

def field? : Descr → Option FieldShape
  | interned d => match d.shape with
    | .field s => some s
    | _ => none
  | _ => none

def array? : Descr → Option ArrayShape
  | interned d => match d.shape with
    | .array s => some s
    | _ => none
  | _ => none

def call? : Descr → Option Signature
  | interned d => match d.shape with
    | .call s => some s
    | _ => none
  | _ => none

def size? : Descr → Option Int
  | interned d => match d.shape with
    | .size n => some n
    | _ => none
  | _ => none

def target? : Descr → Option JumpTarget
  | target t => some t
  | _ => none

end Descr

/-- The interned descriptors of one compiler, in the order of their indices. -/
structure Descriptors where
  all : List Interned := []
  deriving Inhabited

namespace Descriptors

def size (c : Descriptors) : Nat := c.all.length

def find? (c : Descriptors) (s : Shape) : Option Interned := c.all.find? fun d => d.shape.key = s.key

/-- The descriptor of a shape, made on its first request. The name is only kept then. -/
def intern (c : Descriptors) (s : Shape) (name : String) : Interned × Descriptors :=
  match c.find? s with
  | some d => (d, c)
  | none =>
    let d : Interned := ⟨s, name, c.size⟩
    (d, ⟨c.all ++ [d]⟩)

def lookup (c : Descriptors) (i : Int) : Option Interned :=
  if i < 0 then none else c.all[i.toNat]?

end Descriptors

end TraceCompiler
