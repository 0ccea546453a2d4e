import TraceCompiler.Machine.Instr

/-! # Instruction encoding

Most instructions have the shape of a `Form`: a legacy byte, a REX byte, an opcode, a ModRM byte with
an address, and an immediate.
-/

namespace TraceCompiler.Machine

/-- The number of a register as fields of an instruction hold it: three bits, and a fourth that goes
to the REX byte. The low bytes of some registers can only be named with a REX byte. -/
structure RegCode where
  code : Nat
  high : Bool := false
  byteRex : Bool := false
  deriving DecidableEq

def lowCodes : List RegCode :=
  [⟨0, false, false⟩, ⟨3, false, false⟩, ⟨1, false, false⟩, ⟨2, false, false⟩,
    ⟨6, false, true⟩, ⟨7, false, true⟩, ⟨4, false, true⟩, ⟨5, false, true⟩]

def Reg.code (r : Reg) : Except EncodeError RegCode :=
  if 0 ≤ r.id ∧ r.id < 8 then .ok ((lowCodes[r.id.toNat]?).getD ⟨0, false, false⟩)
  else if 8 ≤ r.id ∧ r.id < 16 then .ok ⟨(r.id - 8).toNat, true, false⟩
  else .error (.register r.id)

def Xmm.code (x : Xmm) : Except EncodeError RegCode :=
  if 0 ≤ x.id ∧ x.id < 16 then .ok ⟨x.id.toNat % 8, 8 ≤ x.id, false⟩ else .error (.xmm x.id)

structure Address where
  modrm : Nat
  sib : List UInt8
  disp : List UInt8
  rexX : Bool
  rexB : Bool
  deriving DecidableEq

/-- The operand that the ModRM byte names besides a register. -/
inductive RegMem where
  | reg (c : RegCode)
  | mem (a : Address)
  deriving DecidableEq

def imm8 (v : Int) : List UInt8 := bytesOfInt 1 v
def imm16 (v : Int) : List UInt8 := bytesOfInt 2 v
def imm32 (v : Int) : List UInt8 := bytesOfInt 4 v

namespace Mem

def check (m : Mem) : Except EncodeError Reg := do
  let some base := m.base | throw .noBase
  if base.width ≠ .w64 then throw .baseWidth
  if let some (i, scale) := m.index then
    if i.width ≠ .w64 then throw .indexWidth
    if scale ≠ 1 ∧ scale ≠ 2 ∧ scale ≠ 4 ∧ scale ≠ 8 then throw (.scale scale)
  return base

def scaleBits (n : Nat) : Nat :=
  if n = 2 then 1 else if n = 4 then 2 else if n = 8 then 3 else 0

/-- The shortest address: without a displacement, with one byte of it, or with four. Some bases
need a displacement or a SIB byte all the same. -/
def address (m : Mem) : Except EncodeError Address := do
  let base ← (← m.check).code
  let index ← match m.index with
    | none => pure none
    | some (i, scale) =>
      let c ← i.code
      if c.code = 4 ∧ !c.high then throw .indexRegister
      pure (some (c, scale))
  let (mode, disp) :=
    if m.disp = 0 ∧ base.code ≠ 5 then (0, [])
    else if fitsInt8 m.disp then (0x40, imm8 m.disp)
    else (0x80, imm32 m.disp)
  let rexX := (index.map fun p => p.1.high).getD false
  if index.isSome ∨ base.code = 4 then
    let (i, s) := match index with
      | none => (4, 0)
      | some (c, scale) => (c.code, scaleBits scale)
    return ⟨mode + 4, [(s * 64 + i * 8 + base.code).toUInt8], disp, rexX, base.high⟩
  else return ⟨mode + base.code, [], disp, rexX, base.high⟩

def operand (m : Mem) : Except EncodeError RegMem := .mem <$> m.address

end Mem

/-- The REX byte, left out when it says nothing. -/
def rexByte (w r x b force : Bool) : List UInt8 :=
  if w || r || x || b || force then
    [(0x40 + (if w then 8 else 0) + (if r then 4 else 0) + (if x then 2 else 0) +
      if b then 1 else 0 : Nat).toUInt8]
  else []

structure Form where
  legacy : List UInt8 := []
  wide : Bool := false
  /-- Both operands are bytes. -/
  byteOp : Bool := false
  /-- The register-or-memory operand is a byte, the other one is not. -/
  byteSource : Bool := false
  opcode : List UInt8
  reg : RegCode
  rm : RegMem
  imm : List UInt8 := []

namespace Form

def bytes (f : Form) : List UInt8 :=
  let regForce := f.byteOp && f.reg.byteRex
  let tail := match f.rm with
    | .mem a =>
      rexByte f.wide f.reg.high a.rexX a.rexB regForce ++ f.opcode ++
        [(a.modrm + f.reg.code * 8).toUInt8] ++ a.sib ++ a.disp
    | .reg c =>
      rexByte f.wide f.reg.high false c.high (regForce || ((f.byteOp || f.byteSource) && c.byteRex)) ++
        f.opcode ++ [(0xC0 + f.reg.code * 8 + c.code).toUInt8]
  f.legacy ++ tail ++ f.imm

def sized (w : Width) (opcode byteOpcode : Nat) (reg : RegCode) (rm : RegMem)
    (imm : List UInt8 := []) : Form where
  legacy := if w = .w16 then [0x66] else []
  wide := w = .w64
  byteOp := w = .w8
  opcode := [(if w = .w8 then byteOpcode else opcode).toUInt8]
  reg := reg
  rm := rm
  imm := imm

def sse (legacy opcode : Nat) (wide : Bool) (reg : RegCode) (rm : RegMem) : Form where
  legacy := [legacy.toUInt8]
  wide := wide
  opcode := [0x0F, opcode.toUInt8]
  reg := reg
  rm := rm

end Form

def opcodeRegister (wide : Bool) (opcode : Nat) (c : RegCode) (byteOp : Bool) (imm : List UInt8) :
    List UInt8 :=
  rexByte wide false false c.high (byteOp && c.byteRex) ++ [(opcode + c.code).toUInt8] ++ imm

/-- The reg field when it extends the opcode. -/
def digitCode (d : Nat) : RegCode := ⟨d, false, false⟩

def FloatOp.opcode : FloatOp → Nat × Nat
  | add => (0xF2, 0x58)
  | sub => (0xF2, 0x5C)
  | mul => (0xF2, 0x59)
  | div => (0xF2, 0x5E)
  | xor => (0x66, 0x57)
  | and => (0x66, 0x54)

namespace Encode

/-- Load a constant: a zero-extended half word, a sign-extended one, or a whole word. -/
def movImm (dst : Reg) (value : Word) : Except EncodeError (List UInt8) := do
  let c ← dst.code
  let v := Word.signed value
  match dst.width with
  | .w64 =>
    if 0 ≤ v ∧ v < 0x100000000 then return opcodeRegister false 0xB8 c false (imm32 v)
    else if TraceCompiler.fitsInt32 v then
      return { wide := true, opcode := [0xC7], reg := digitCode 0, rm := .reg c,
               imm := imm32 v : Form }.bytes
    else return opcodeRegister true 0xB8 c false (Word.bytes 8 value)
  | .w32 => return opcodeRegister false 0xB8 c false (imm32 v)
  | .w16 => return [0x66] ++ opcodeRegister false 0xB8 c false (imm16 v)
  | .w8 => return opcodeRegister false 0xB0 c true (imm8 v)
  | .unsized => throw (.registerWidth 0)

def sameWidth (dst src : Reg) : Except EncodeError (RegCode × RegCode) := do
  if dst.width ≠ src.width then throw (.mismatch dst.width.bytes src.width.bytes)
  return (← dst.code, ← src.code)

def checkWidth (r : Reg) : Except EncodeError Unit :=
  if r.width = .unsized then .error (.registerWidth 0) else .ok ()

def movStore (mem : Mem) (src : Reg) : Except EncodeError (List UInt8) := do
  checkWidth src
  let c ← src.code
  return (Form.sized src.width 0x89 0x88 c (← mem.operand)).bytes

def movLoad (dst : Reg) (mem : Mem) : Except EncodeError (List UInt8) := do
  checkWidth dst
  let c ← dst.code
  return (Form.sized dst.width 0x8B 0x8A c (← mem.operand)).bytes

def immOf (w : Width) (value : Int) : List UInt8 :=
  match w with
  | .w8 => imm8 value
  | .w16 => imm16 value
  | _ => imm32 value

def extend (dst : Reg) (opcode : List UInt8) (byteSource : Bool) (rm : RegMem) :
    Except EncodeError (List UInt8) := do
  if dst.width ≠ .w32 ∧ dst.width ≠ .w64 then throw (.extendDestination dst.width.bytes)
  let c ← dst.code
  return { wide := dst.width = .w64, byteSource, opcode, reg := c, rm : Form }.bytes

def load (dst : Reg) (mem : Mem) (bytes : Int) (signed : Bool) :
    Except EncodeError (List UInt8) := do
  if dst.width ≠ .w64 then throw .loadDestination
  if bytes = 8 then movLoad dst mem
  else if bytes = 4 ∧ !signed then movLoad (.dword dst.id) mem
  else if bytes = 4 then extend dst [0x63] false (← mem.operand)
  else if bytes = 2 then
    let rm ← mem.operand
    if signed then extend dst [0x0F, 0xBF] false rm
    else extend (.dword dst.id) [0x0F, 0xB7] false rm
  else if bytes = 1 then
    let rm ← mem.operand
    if signed then extend dst [0x0F, 0xBE] true rm
    else extend (.dword dst.id) [0x0F, 0xB6] true rm
  else throw (.loadWidth bytes)

def aluImm (op : AluOp) (w : Width) (rm : RegMem) (value : Int) :
    Except EncodeError (List UInt8) := do
  let reg := digitCode op.digit
  match w with
  | .unsized => throw (.aluWidth 0)
  | .w8 => return (Form.sized w 0x80 0x80 reg rm (imm8 value)).bytes
  | _ =>
    if fitsInt8 value then return (Form.sized w 0x83 0x83 reg rm (imm8 value)).bytes
    else return (Form.sized w 0x81 0x81 reg rm (immOf w value)).bytes

def imul (dst : Reg) (rm : RegMem) : Except EncodeError (List UInt8) := do
  if dst.width ≠ .w32 ∧ dst.width ≠ .w64 then throw (.imulWidth dst.width.bytes)
  let c ← dst.code
  return { wide := dst.width = .w64, opcode := [0x0F, 0xAF], reg := c, rm : Form }.bytes

def imulImm (dst src : Reg) (value : Int) : Except EncodeError (List UInt8) := do
  if dst.width ≠ src.width then throw .imulMismatch
  if dst.width ≠ .w32 ∧ dst.width ≠ .w64 then throw (.imulWidth dst.width.bytes)
  let d ← dst.code
  let s ← src.code
  let (opcode, imm) := if fitsInt8 value then ([0x6B], imm8 value) else ([0x69], imm32 value)
  return { wide := dst.width = .w64, opcode, reg := d, rm := .reg s, imm : Form }.bytes

def indirect (digit : Nat) (e : EncodeError) (target : Reg) : Except EncodeError (List UInt8) := do
  if target.width ≠ .w64 then throw e
  let c ← target.code
  return { opcode := [0xFF], reg := digitCode digit, rm := .reg c : Form }.bytes

def sseRegs (legacy opcode : Nat) (dst src : Xmm) : Except EncodeError (List UInt8) := do
  let d ← dst.code
  let s ← src.code
  return (Form.sse legacy opcode false d (.reg s)).bytes

def sseMem (legacy opcode : Nat) (x : Xmm) (mem : Mem) : Except EncodeError (List UInt8) := do
  let c ← x.code
  return (Form.sse legacy opcode false c (← mem.operand)).bytes

def movq (opcode : Nat) (x : Xmm) (r : Reg) : Except EncodeError (List UInt8) := do
  if r.width ≠ .w64 then throw .movqWidth
  let c ← x.code
  return (Form.sse 0x66 opcode true c (.reg (← r.code))).bytes

end Encode

open Encode in
def Instr.encode : Instr → Except EncodeError (List UInt8)
  | movImm dst value => Encode.movImm dst value
  | movAbs dst value => do
    if dst.width ≠ .w64 then throw .movAbsWidth
    return opcodeRegister true 0xB8 (← dst.code) false (Word.bytes 8 value)
  | mov dst src => do
    let (d, s) ← sameWidth dst src
    return (Form.sized dst.width 0x89 0x88 s (.reg d)).bytes
  | movStore mem src => Encode.movStore mem src
  | movLoad dst mem => Encode.movLoad dst mem
  | storeImm mem value bytes => do
    let some w := Width.ofBytes? bytes | throw (.storeWidth bytes)
    return (Form.sized w 0xC7 0xC6 (digitCode 0) (← mem.operand) (immOf w value)).bytes
  | movzxLoad dst mem two => do
    let rm ← mem.operand
    extend dst [0x0F, if two then 0xB7 else 0xB6] (!two) rm
  | movzx dst src => do
    let c ← src.code
    extend dst [0x0F, 0xB6] true (.reg c)
  | load dst mem bytes signed => Encode.load dst mem bytes signed
  | store mem src bytes => do Encode.movStore mem (← Reg.sized src.id bytes)
  | lea dst mem => do
    if dst.width ≠ .w64 then throw .leaDestination
    let c ← dst.code
    return { wide := true, opcode := [0x8D], reg := c, rm := ← mem.operand : Form }.bytes
  | alu op dst src => do
    let (d, s) ← sameWidth dst src
    return (Form.sized dst.width (op.digit * 8 + 1) (op.digit * 8) s (.reg d)).bytes
  | aluImm op dst value => do
    let c ← dst.code
    Encode.aluImm op dst.width (.reg c) value
  | aluLoad op dst mem => do
    let c ← dst.code
    return (Form.sized dst.width (op.digit * 8 + 3) (op.digit * 8 + 2) c (← mem.operand)).bytes
  | aluStore op mem src => do
    let c ← src.code
    return (Form.sized src.width (op.digit * 8 + 1) (op.digit * 8) c (← mem.operand)).bytes
  | aluMemImm op mem bytes value => do
    let some w := Width.ofBytes? bytes | throw (.operandWidth bytes)
    Encode.aluImm op w (← mem.operand) value
  | test dst src => do
    let (d, s) ← sameWidth dst src
    return (Form.sized dst.width 0x85 0x84 s (.reg d)).bytes
  | imul dst src => do Encode.imul dst (.reg (← src.code))
  | imulLoad dst mem => do Encode.imul dst (← mem.operand)
  | imulImm dst src value => Encode.imulImm dst src value
  | unary op reg => do
    return (Form.sized reg.width 0xF7 0xF6 (digitCode op.digit) (.reg (← reg.code))).bytes
  | cqo => return [0x48, 0x99]
  | shiftImm op reg count => do
    if count = 0 then throw .shiftCount
    return (Form.sized reg.width 0xC1 0xC0 (digitCode op.digit) (.reg (← reg.code)) [count]).bytes
  | shiftCl op reg => do
    return (Form.sized reg.width 0xD3 0xD2 (digitCode op.digit) (.reg (← reg.code))).bytes
  | setcc cond dst => do
    if dst.width ≠ .w8 then throw .setccWidth
    let c ← dst.code
    return { byteOp := true, opcode := [0x0F, 0x90 + (cond.code &&& 15)], reg := digitCode 0,
             rm := .reg c : Form }.bytes
  | callReg target => indirect 2 .callWidth target
  | jumpReg target => indirect 4 .jumpWidth target
  | push reg => return opcodeRegister false 0x50 (← reg.code) false []
  | pop reg => return opcodeRegister false 0x58 (← reg.code) false []
  | pushMem mem => do
    return { opcode := [0xFF], reg := digitCode 6, rm := ← mem.operand : Form }.bytes
  | popMem mem => do
    return { opcode := [0x8F], reg := digitCode 0, rm := ← mem.operand : Form }.bytes
  | ret => return [0xC3]
  | hlt => return [0xF4]
  | float op dst src => sseRegs op.opcode.1 op.opcode.2 dst src
  | floatLoad op dst mem => sseMem op.opcode.1 op.opcode.2 dst mem
  | movsdLoad dst mem => sseMem 0xF2 0x10 dst mem
  | movsdStore mem src => sseMem 0xF2 0x11 src mem
  | movXmm dst src => sseRegs 0x66 0x28 dst src
  | movqToXmm dst src => movq 0x6E dst src
  | movqFromXmm dst src => movq 0x7E src dst
  | ucomisd a b => sseRegs 0x66 0x2E a b
  | cvtsi2sd dst src => do
    let s ← src.code
    let d ← dst.code
    return (Form.sse 0xF2 0x2A true d (.reg s)).bytes
  | cvttsd2si dst src => do
    let s ← src.code
    if dst.width ≠ .w64 then throw .truncateWidth
    let d ← dst.code
    return (Form.sse 0xF2 0x2C true d (.reg s)).bytes

end TraceCompiler.Machine
