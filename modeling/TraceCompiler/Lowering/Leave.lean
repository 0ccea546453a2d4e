import TraceCompiler.Lowering.Call
import TraceCompiler.Lowering.Guard

/-! # Entering and leaving a trace

A loop is entered through code that saves registers and loads the inputs from the value array.
-/

namespace TraceCompiler.Lowering

open Machine (Fragment)
open CompileM

/-- The registers that a native caller wants back. -/
def calleeSaved : List Int :=
  [Machine.Reg.rbx, Machine.Reg.rbp, Machine.Reg.r12, Machine.Reg.r13, Machine.Reg.r14,
    Machine.Reg.r15]

def entryLabel : String := "entry"

def bodyLabel : String := "body"

def loadSlotInput (input : Location × Nat) : List Fragment :=
  match input with
  | (.slot s, i) => [.moveMem (slotMem s) (valueMem i)]
  | _ => []

def loadRegInput (input : Location × Nat) : List Fragment :=
  match input with
  | (.reg r, i) =>
    match r.cls with
    | .float => [.instr (.movsdLoad (floatOperand r.num) (valueMem i))]
    | .gp => [.instr (.movLoad (gpOperand r.num) (valueMem i))]
  | _ => []

/-- The way in: save registers, align the stack, take the frame and load the inputs. -/
def bootstrap (inputs : List Location) : List Fragment :=
  [.label entryLabel] ++ calleeSaved.map (fun r => .instr (.push (.wide r))) ++
    [.instr (.aluImm .add (.wide Machine.Reg.rsp) (-8)),
      .instr (.mov framePointer (.wide Machine.Reg.rdi)), loadValues] ++
    inputs.zipIdx.flatMap loadSlotInput ++ inputs.zipIdx.flatMap loadRegInput ++
    [.jump bodyLabel]

def epilogue : List Fragment :=
  [.label exitLabel, .instr (.aluImm .add (.wide Machine.Reg.rsp) 8)] ++
    calleeSaved.reverse.map (fun r => .instr (.pop (.wide r))) ++ [.instr .ret]

def jumpTarget (op : Op) : CompileM (List Location × Option Word) := do
  let req ← read
  if op.descr.isNone || op.descr = req.self then
    if req.entry.isBridge then refuse .selfBridge
    return ((← get).inputs, none)
  else
    match (op.descr.bind Descr.target?).bind JumpTarget.code with
    | some code => return (code.locations, some code.address)
    | none => refuse (.notCompiled (Descr.textOrNil op.descr))

def jump (op : Op) : CompileM Unit := do
  let (locs, address) ← jumpTarget op
  if locs.length ≠ op.args.length then refuse (.jumpArity op.args.length locs.length)
  let moves ← (op.args.zip locs).mapM fun (v, dst) => do
    let src ← location v
    return (⟨src, dst, (← need v).kind⟩ : Move)
  emitMoves (← sequenced moves)
  match address with
  | none => emit [.jump bodyLabel]
  | some a => emit [.instr (.movAbs scratch a), .instr (.jumpReg scratch)]

def finishBox (v : Option Value) (j : Nat) : CompileM Unit := do
  if isBox v then
    match ← location v with
    | .reg r =>
      match r.cls with
      | .float => emitInstr (.movsdStore (valueMem j) (floatOperand r.num))
      | .gp => emitInstr (.movStore (valueMem j) (gpOperand r.num))
    | .slot s => emit [.moveMem (valueMem j) (slotMem s)]
    | _ => pure ()

def finishConst (v : Option Value) (j : Nat) : CompileM Unit := do
  if let some (.const k) := v then
    let rax := Machine.Reg.wide Machine.Reg.rax
    if Word.fitsInt32 k.bits then emitInstr (.storeImm (valueMem j) (immediate k.bits) 8)
    else emit [.instr (.movImm rax k.bits), .instr (.movStore (valueMem j) rax)]

/-- Write the results to the value array and leave. Boxes come first, since a constant may take
`rax`. -/
def finish (op : Op) : CompileM Unit := do
  let k := wrap64 ((← read).firstExit + (← get).exits.size)
  noteValues op.args.length
  emit [loadValues]
  op.args.zipIdx.forM fun (v, j) => finishBox v j
  op.args.zipIdx.forM fun (v, j) => finishConst v j
  emit (leave k)
  let kinds ← need op.exitKinds?
  modify fun s => { s with
    exits := s.exits.push ⟨k, .finish, kinds, [], none, s.frame.depth⟩ }

end TraceCompiler.Lowering
