import TraceCompiler.Machine.Operand

/-! # Instructions

The instruction forms that the compiler emits, with the causes for which one cannot be encoded.
-/

namespace TraceCompiler.Machine

inductive AluOp where
  | add
  | or
  | and
  | sub
  | xor
  | cmp
  deriving DecidableEq

namespace AluOp

def digit : AluOp → Nat
  | add => 0
  | or => 1
  | and => 4
  | sub => 5
  | xor => 6
  | cmp => 7

def text : AluOp → String
  | add => "add"
  | or => "or"
  | and => "and"
  | sub => "sub"
  | xor => "xor"
  | cmp => "cmp"

def all : List AluOp := [add, or, and, sub, xor, cmp]

def find? (name : String) : Option AluOp := all.find? (·.text = name)

def ofDigit? (n : Int) : Option AluOp := all.find? fun o => (o.digit : Int) = n

end AluOp

/-- The one-operand integer instructions; `idiv` divides `rdx:rax`. -/
inductive UnaryOp where
  | not
  | neg
  | idiv
  deriving DecidableEq

def UnaryOp.digit : UnaryOp → Nat
  | not => 2
  | neg => 3
  | idiv => 7

inductive ShiftOp where
  | shl
  | shr
  | sar
  deriving DecidableEq

def ShiftOp.digit : ShiftOp → Nat
  | shl => 4
  | shr => 5
  | sar => 7

inductive FloatOp where
  | add
  | sub
  | mul
  | div
  | xor
  | and
  deriving DecidableEq

def FloatOp.ofCode (n : Int) : FloatOp :=
  if n = 1 then sub
  else if n = 2 then mul
  else if n = 3 then div
  else if n = 4 then xor
  else if n = 5 then and
  else add

inductive Instr where
  /-- Load a constant in the shortest way. -/
  | movImm (dst : Reg) (value : Word)
  | movAbs (dst : Reg) (value : Word)
  | mov (dst src : Reg)
  | movStore (mem : Mem) (src : Reg)
  | movLoad (dst : Reg) (mem : Mem)
  /-- Store the low bytes of a sign-extended constant. -/
  | storeImm (mem : Mem) (value : Int) (bytes : Int)
  | movzxLoad (dst : Reg) (mem : Mem) (two : Bool)
  /-- Fill a register with zeros above the low byte of another one. -/
  | movzx (dst src : Reg)
  /-- Load bytes into a whole register, extending them. -/
  | load (dst : Reg) (mem : Mem) (bytes : Int) (signed : Bool)
  | store (mem : Mem) (src : Reg) (bytes : Int)
  | lea (dst : Reg) (mem : Mem)
  | alu (op : AluOp) (dst src : Reg)
  | aluImm (op : AluOp) (dst : Reg) (value : Int)
  | aluLoad (op : AluOp) (dst : Reg) (mem : Mem)
  | aluStore (op : AluOp) (mem : Mem) (src : Reg)
  | aluMemImm (op : AluOp) (mem : Mem) (bytes : Int) (value : Int)
  | test (dst src : Reg)
  | imul (dst src : Reg)
  | imulLoad (dst : Reg) (mem : Mem)
  | imulImm (dst src : Reg) (value : Int)
  | unary (op : UnaryOp) (reg : Reg)
  /-- Extend the sign of `rax` into `rdx`. -/
  | cqo
  | shiftImm (op : ShiftOp) (reg : Reg) (count : UInt8)
  | shiftCl (op : ShiftOp) (reg : Reg)
  | setcc (cond : Cond) (dst : Reg)
  | callReg (target : Reg)
  | jumpReg (target : Reg)
  | push (reg : Reg)
  | pop (reg : Reg)
  | pushMem (mem : Mem)
  | popMem (mem : Mem)
  | ret
  | hlt
  | float (op : FloatOp) (dst src : Xmm)
  | floatLoad (op : FloatOp) (dst : Xmm) (mem : Mem)
  | movsdLoad (dst : Xmm) (mem : Mem)
  | movsdStore (mem : Mem) (src : Xmm)
  | movXmm (dst src : Xmm)
  | movqToXmm (dst : Xmm) (src : Reg)
  | movqFromXmm (dst : Reg) (src : Xmm)
  | ucomisd (a b : Xmm)
  | cvtsi2sd (dst : Xmm) (src : Reg)
  | cvttsd2si (dst : Reg) (src : Xmm)

/-- Why an instruction cannot be encoded. Widths are given in bytes. -/
inductive EncodeError where
  | register (id : Int)
  | xmm (id : Int)
  | noBase
  | baseWidth
  | indexWidth
  | scale (n : Nat)
  | indexRegister
  | registerWidth (bytes : Nat)
  | accessWidth (bytes : Int)
  | movAbsWidth
  | mismatch (dst src : Nat)
  | storeWidth (bytes : Int)
  | loadWidth (bytes : Int)
  | loadDestination
  | operandWidth (bytes : Int)
  | aluWidth (bytes : Nat)
  | extendDestination (bytes : Nat)
  | leaDestination
  | imulWidth (bytes : Nat)
  | imulMismatch
  | shiftCount
  | setccWidth
  | callWidth
  | jumpWidth
  | movqWidth
  | truncateWidth
  deriving DecidableEq

def EncodeError.message : EncodeError → String
  | register id => "unsupported register " ++ toString id
  | xmm id => "unsupported xmm register " ++ toString id
  | noBase => "memory operand requires base register"
  | baseWidth => "base register must be 64-bit"
  | indexWidth => "index register must be 64-bit"
  | scale n => "invalid index scale " ++ toString n
  | indexRegister => "rsp cannot be used as index register"
  | registerWidth n => "unsupported register width " ++ toString n
  | accessWidth n => "amd64: unsupported register width " ++ toString n
  | movAbsWidth => "movabs requires a 64-bit register"
  | mismatch d s => "mismatched register widths: " ++ toString d ++ " vs " ++ toString s
  | storeWidth n => "amd64: unsupported store width " ++ toString n
  | loadWidth n => "amd64: unsupported load width " ++ toString n
  | loadDestination => "amd64: load requires a 64-bit destination"
  | operandWidth n => "amd64: unsupported operand width " ++ toString n
  | aluWidth n => "unsupported width " ++ toString n
  | extendDestination n =>
    "extension requires 32- or 64-bit destination, got " ++ toString (n * 8)
  | leaDestination => "lea requires a 64-bit destination"
  | imulWidth n => "imul unsupported width " ++ toString (n * 8)
  | imulMismatch => "imul requires matching operand widths"
  | shiftCount => "shift count must be non-zero"
  | setccWidth => "setcc requires an 8-bit register"
  | callWidth => "call target must be a 64-bit register"
  | jumpWidth => "jump target must be a 64-bit register"
  | movqWidth => "movq requires a 64-bit register"
  | truncateWidth => "cvttsd2si requires a 64-bit destination"

instance : ToString EncodeError := ⟨EncodeError.message⟩

def Reg.sized (id : Int) (bytes : Int) : Except EncodeError Reg :=
  match Width.ofBytes? bytes with
  | some w => .ok ⟨id, w⟩
  | none => .error (.accessWidth bytes)

end TraceCompiler.Machine
