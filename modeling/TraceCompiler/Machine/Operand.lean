import TraceCompiler.Number.Word
import TraceCompiler.Text.Basic

/-! # Machine operands

Registers, memory operands and conditions of the x86-64 instructions that the compiler uses.
-/

namespace TraceCompiler.Machine

/-- The part of a general register that an instruction works on. -/
inductive Width where
  /-- The width of a register operand that was not given one. -/
  | unsized
  | w8
  | w16
  | w32
  | w64
  deriving DecidableEq

namespace Width

def bytes : Width → Nat
  | unsized => 0
  | w8 => 1
  | w16 => 2
  | w32 => 4
  | w64 => 8

def ofBytes? (n : Int) : Option Width :=
  if n = 1 then some w8
  else if n = 2 then some w16
  else if n = 4 then some w32
  else if n = 8 then some w64
  else none

end Width

/-- A general register viewed at a width. Registers are numbered in the order of `Reg.names`. -/
structure Reg where
  id : Int
  width : Width
  deriving DecidableEq

namespace Reg

def names : List String :=
  ["rax", "rbx", "rcx", "rdx", "rsi", "rdi", "rsp", "rbp", "r8", "r9", "r10", "r11", "r12", "r13",
    "r14", "r15"]

def rax : Int := 0
def rbx : Int := 1
def rcx : Int := 2
def rdx : Int := 3
def rsi : Int := 4
def rdi : Int := 5
def rsp : Int := 6
def rbp : Int := 7
def r8 : Int := 8
def r9 : Int := 9
def r10 : Int := 10
def r11 : Int := 11
def r12 : Int := 12
def r13 : Int := 13
def r14 : Int := 14
def r15 : Int := 15

def wide (id : Int) : Reg := ⟨id, .w64⟩

def dword (id : Int) : Reg := ⟨id, .w32⟩

def low (id : Int) : Reg := ⟨id, .w8⟩

/-- The register with a name and a width in bits, such as `rax.32`; without a width it has all
bits. A number behind a hash stands for a name, and no bits for no register. -/
def ofText (s : String) : Reg :=
  let name := s.toList.takeWhile (· ≠ '.')
  let id : Int := match name with
    | '#' :: rest => (String.ofList rest).toInt?.getD 0
    | _ => (names.idxOf (String.ofList name) : Nat)
  match String.ofList (s.toList.drop (name.length + 1)) with
  | "32" => ⟨id, .w32⟩
  | "16" => ⟨id, .w16⟩
  | "8" => ⟨id, .w8⟩
  | "0" => ⟨0, .unsized⟩
  | _ => ⟨id, .w64⟩

def text (r : Reg) : String :=
  match (if r.id < 0 then none else names[r.id.toNat]?) with
  | none => "reg" ++ toString r.id
  | some name => name ++ match r.width with
    | .w32 => "d"
    | .w16 => "w"
    | .w8 => "b"
    | _ => ""

end Reg

structure Xmm where
  id : Int
  deriving DecidableEq

def Xmm.text (x : Xmm) : String := "xmm" ++ toString x.id

/-- A memory operand: a base, possibly a scaled index, and a displacement. -/
structure Mem where
  base : Option Reg
  index : Option (Reg × Nat) := none
  disp : Int := 0
  deriving DecidableEq

namespace Mem

def based (base : Reg) (disp : Int := 0) : Mem := { base := some base, disp }

/-- The memory at a base register and an index; scale zero is read as one. -/
def indexed (base index : Reg) (scale : Nat) (disp : Int := 0) : Mem :=
  { base := some base, index := some (index, if scale = 0 then 1 else scale), disp }

def text (m : Mem) : String :=
  "[" ++ (m.base.getD ⟨0, .unsized⟩).text ++
    (match m.index with
      | none => ""
      | some (i, scale) => "+" ++ i.text ++ "*" ++ toString scale) ++
    (if m.disp = 0 then "" else Text.signedDecimal m.disp) ++ "]"

end Mem

/-- A condition on the flags. Only the low four bits of the code count. -/
structure Cond where
  code : UInt8
  deriving DecidableEq

namespace Cond

def o : Cond := ⟨0⟩
def no : Cond := ⟨1⟩
def b : Cond := ⟨2⟩
def ae : Cond := ⟨3⟩
def e : Cond := ⟨4⟩
def ne : Cond := ⟨5⟩
def be : Cond := ⟨6⟩
def a : Cond := ⟨7⟩
def p : Cond := ⟨10⟩
def np : Cond := ⟨11⟩
def l : Cond := ⟨12⟩
def ge : Cond := ⟨13⟩
def le : Cond := ⟨14⟩
def g : Cond := ⟨15⟩

def negate (c : Cond) : Cond := ⟨c.code ^^^ 1⟩

def names : List String :=
  ["o", "no", "b", "ae", "e", "ne", "be", "a", "s", "ns", "p", "np", "l", "ge", "le", "g"]

def text (c : Cond) : String := (names[(c.code &&& 15).toNat]?).getD ""

end Cond

end TraceCompiler.Machine
