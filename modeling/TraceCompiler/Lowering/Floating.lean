import TraceCompiler.Lowering.Integer

/-! # Float operations

Ordered comparisons are arranged so that they test for above, which unordered operands never are.
-/

namespace TraceCompiler.Lowering

open Machine (Fragment)
open CompileM

def floatOf : Opcode → Machine.FloatOp
  | .floatSub => .sub
  | .floatMul => .mul
  | .floatTruediv => .div
  | _ => .add

def floatBinary (pos : Nat) (op : Op) : CompileM Unit := do
  let (a, b) := constRight op.opcode (← arg op 0) (← arg op 1)
  let r ← onFloat (AllocM.resultInSameRegister pos op.result a { forbidden := holders [b] })
  let dst := floatOperand r
  let f := floatOf op.opcode
  if sameBox b a then emitInstr (.float f dst dst)
  else
    match ← floatSource pos b { forbidden := holders [a] ++ [op.result] } with
    | .mem m => emitInstr (.floatLoad f dst m)
    | .reg x => emitInstr (.float f dst x)

def floatUnary (pos : Nat) (op : Op) : CompileM Unit := do
  let r ← onFloat (AllocM.resultInSameRegister pos op.result (← arg op 0) {})
  let (mask, f) : Word × Machine.FloatOp :=
    if op.opcode = .floatAbs then (0x7FFFFFFFFFFFFFFF, .and) else (0x8000000000000000, .xor)
  emit [.instr (.movImm scratch mask), .instr (.movqToXmm floatScratch scratch),
    .instr (.float f (floatOperand r) floatScratch)]

def floatCompare (pos : Nat) (op : Op) (next : Option Op) : CompileM Unit := do
  let a ← arg op 0
  let b ← arg op 1
  let xa := floatOperand (← onFloat (AllocM.ensure pos a { forbidden := holders [b] }))
  let xb := floatOperand (← onFloat (AllocM.ensure pos b { forbidden := holders [a] }))
  match op.opcode with
  | .floatLt =>
    emitInstr (.ucomisd xb xa)
    finishCompare pos op next .a
  | .floatLe =>
    emitInstr (.ucomisd xb xa)
    finishCompare pos op next .ae
  | .floatGt =>
    emitInstr (.ucomisd xa xb)
    finishCompare pos op next .a
  | .floatGe =>
    emitInstr (.ucomisd xa xb)
    finishCompare pos op next .ae
  | _ =>
    -- Unordered operands look equal, so equality asks for the parity flag as well.
    emitInstr (.ucomisd xa xb)
    releaseArgs pos op
    let r ← onGp (AllocM.allocate pos op.result { byteOnly := true })
    let low := Machine.Reg.low r
    let other := Machine.Reg.low Machine.Reg.r11
    if op.opcode = .floatEq then
      emit [.instr (.setcc .e low), .instr (.setcc .np other), .instr (.alu .and low other)]
    else
      emit [.instr (.setcc .ne low), .instr (.setcc .p other), .instr (.alu .or low other)]
    emitInstr (widenByte r)

def cast (pos : Nat) (op : Op) : CompileM Unit := do
  let v ← arg op 0
  if op.opcode = .castFloatToInt then
    let src ← onFloat (AllocM.ensure pos v {})
    releaseArgs pos op
    let dst ← onGp (AllocM.allocate pos op.result {})
    emitInstr (.cvttsd2si (gpOperand dst) (floatOperand src))
  else
    let src ← onGp (AllocM.ensure pos v {})
    releaseArgs pos op
    let dst ← onFloat (AllocM.allocate pos op.result {})
    emitInstr (.cvtsi2sd (floatOperand dst) (gpOperand src))

end TraceCompiler.Lowering
