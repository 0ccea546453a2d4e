import TraceCompiler.Lowering.State

/-! # Integer operations

Two-operand instructions overwrite their first operand, so the result takes over its register.
-/

namespace TraceCompiler.Lowering

open Machine (Fragment)
open CompileM

def isCommutative : Opcode → Bool
  | .intAdd | .intAddOvf | .intMul | .intMulOvf | .intAnd | .intOr | .intXor | .floatAdd
  | .floatMul => true
  | _ => false

/-- Put a constant on the right where that is allowed, so that it can become an immediate. -/
def constRight (o : Opcode) (a b : Option Value) : Option Value × Option Value :=
  if isCommutative o && isConst a && isBox b then (b, a) else (a, b)

/-- The instruction of a two-operand operation. Multiplication has none of this form. -/
def aluOf : Opcode → Option Machine.AluOp
  | .intAdd | .intAddOvf => some .add
  | .intSub | .intSubOvf => some .sub
  | .intAnd => some .and
  | .intOr => some .or
  | .intXor => some .xor
  | _ => none

def binaryInstr (o : Opcode) (dst : Machine.Reg) (src : IntSource) : Machine.Instr :=
  match aluOf o, src with
  | some op, .imm v => .aluImm op dst v
  | some op, .mem m => .aluLoad op dst m
  | some op, .reg r => .alu op dst r
  | none, .imm v => .imulImm dst dst v
  | none, .mem m => .imulLoad dst m
  | none, .reg r => .imul dst r

def intBinary (pos : Nat) (op : Op) : CompileM Unit := do
  let (a, b) := constRight op.opcode (← arg op 0) (← arg op 1)
  let r ← onGp (AllocM.resultInSameRegister pos op.result a { forbidden := holders [b] })
  let dst := gpOperand r
  let src ←
    if sameBox b a then pure (.reg dst)
    else intSource pos b { forbidden := holders [a] ++ [op.result] }
  emitInstr (binaryInstr op.opcode dst src)
  if op.opcode.isOverflow then modify fun s => { s with flagsFrom := pos }

def divisionCode (pos : Nat) (divisor : Machine.Reg) : List Fragment :=
  let normal := "div" ++ toString pos ++ "_normal"
  let done := "div" ++ toString pos ++ "_done"
  let low := Machine.Reg.dword Machine.Reg.rdx
  [.instr (.aluImm .cmp divisor (-1)), .jumpIf .ne normal,
    .instr (.unary .neg (.wide Machine.Reg.rax)), .instr (.alu .xor low low), .jump done,
    .label normal, .instr .cqo, .instr (.unary .idiv divisor), .label done]

/-- Division: the dividend goes to `rax`, and `rdx` is needed besides. -/
def division (pos : Nat) (op : Op) : CompileM Unit := do
  let a ← arg op 0
  let b ← arg op 1
  let rax := Machine.Reg.rax
  let rdx := Machine.Reg.rdx
  onGp (AllocM.clobber pos rdx {})
  let high ← onGp (AllocM.temp pos .int)
  onGp (AllocM.bind high rdx)
  let divisor ← onGp (AllocM.ensure pos b { forbidden := [some high], avoid := [rax, rdx] })
  let low ← onGp (AllocM.temp pos .int)
  let _ ← onGp (AllocM.resultInSameRegister pos (some low) a
    { pinned := some rax, forbidden := holders [b] ++ [some high] })
  emit (divisionCode pos (gpOperand divisor))
  onGp (AllocM.rebind (some (if op.opcode = .intMod then high else low)) op.result)

def shiftOf : Opcode → Machine.ShiftOp
  | .intLshift => .shl
  | .intRshift => .sar
  | _ => .shr

/-- Shifts: a constant count is taken modulo 64, any other goes to `rcx`. -/
def shift (pos : Nat) (op : Op) : CompileM Unit := do
  let a ← arg op 0
  let b ← arg op 1
  match b with
  | some (.const k) =>
    let r ← onGp (AllocM.resultInSameRegister pos op.result a {})
    let n := (k.bits &&& 63).toUInt8
    if n ≠ 0 then emitInstr (.shiftImm (shiftOf op.opcode) (gpOperand r) n)
  | some (.box count) =>
    let rcx := Machine.Reg.rcx
    let _ ← onGp (AllocM.force pos (some count) rcx {})
    let r ← onGp (AllocM.resultInSameRegister pos op.result a
      { forbidden := [some count], avoid := [rcx] })
    emitInstr (.shiftCl (shiftOf op.opcode) (gpOperand r))
  | none => fault

def intUnary (pos : Nat) (op : Op) : CompileM Unit := do
  let r ← onGp (AllocM.resultInSameRegister pos op.result (← arg op 0) {})
  emitInstr (.unary (if op.opcode = .intNeg then .neg else .not) (gpOperand r))

def condOf : Opcode → Machine.Cond
  | .intLt => .l
  | .intLe => .le
  | .intNe | .intIsTrue | .ptrNe => .ne
  | .intGt => .g
  | .intGe => .ge
  | .uintLt => .b
  | .uintLe => .be
  | .uintGt => .a
  | .uintGe => .ae
  | _ => .e

def swapCond (c : Machine.Cond) : Machine.Cond :=
  if c = .l then .g
  else if c = .g then .l
  else if c = .le then .ge
  else if c = .ge then .le
  else if c = .b then .a
  else if c = .a then .b
  else if c = .be then .ae
  else if c = .ae then .be
  else c

def testValue (pos : Nat) (v : Option Value) : CompileM Unit := do
  let test (r : Int) : CompileM Unit := emitInstr (.test (gpOperand r) (gpOperand r))
  let bank := (← get).gp
  match v with
  | some (.box b) =>
    match bank.regOf (some b) with
    | some r => test r
    | none =>
      if b ∈ bank.inFrame then emitInstr (.aluMemImm .cmp (slotMem (← frameSlot b)) 8 0)
      else test (← onGp (AllocM.ensure pos v {}))
  | _ => test (← onGp (AllocM.ensure pos v {}))

/-- Whether the next operation is a guard on the result, and nothing else reads it. -/
def fusable (pos : Nat) (op : Op) (next : Option Op) : CompileM Bool := do
  match next with
  | none => return false
  | some next =>
    if op.opcode = .floatEq ∨ op.opcode = .floatNe then return false
    if next.opcode ≠ .guardTrue ∧ next.opcode ≠ .guardFalse then return false
    let v ← arg next 0
    let result := op.result.map Value.box
    match op.result with
    | none => return false
    | some b =>
      return sameBox v result && (← get).lifetimes.lastUse b = pos + 1 &&
        !next.failArgs.any (sameBox · result)

/-- A register whose low byte is written, extended to a word. -/
def widenByte (r : Int) : Machine.Instr := .movzx (.dword r) (.low r)

/-- Turn flags into a result, or leave them for the next guard. -/
def finishCompare (pos : Nat) (op : Op) (next : Option Op) (cond : Machine.Cond) :
    CompileM Unit := do
  if ← fusable pos op next then modify fun s => { s with fused := some ⟨op.result, cond⟩ }
  else
    releaseArgs pos op
    let r ← onGp (AllocM.allocate pos op.result { byteOnly := true })
    emit [.instr (.setcc cond (.low r)), .instr (widenByte r)]

def intCompare (pos : Nat) (op : Op) (next : Option Op) : CompileM Unit := do
  let cond := condOf op.opcode
  match op.args with
  | [v] =>
    testValue pos v
    finishCompare pos op next cond
  | _ =>
    let a ← arg op 0
    let b ← arg op 1
    let swap := isConst a && isBox b
    let (a, b) := if swap then (b, a) else (a, b)
    let r ← onGp (AllocM.ensure pos a { forbidden := holders [b] })
    let src ←
      if sameBox b a then pure (.reg (gpOperand r))
      else intSource pos b { forbidden := holders [a] }
    compareWith (gpOperand r) src
    finishCompare pos op next (if swap then swapCond cond else cond)

end TraceCompiler.Lowering
