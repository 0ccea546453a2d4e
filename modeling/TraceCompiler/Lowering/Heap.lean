import TraceCompiler.Lowering.Call

/-! # Fields, arrays and allocation
-/

namespace TraceCompiler.Lowering

open Machine (Mem)
open CompileM

/-- Store the low bytes of a value. The address does not depend on the scratch register. -/
def storeValue (mem : Mem) (v : Option Value) (size : Int) : CompileM Unit := do
  match v with
  | none => refuse .missingValue
  | some (.const k) =>
    if size < 8 || Word.fitsInt32 k.bits then emitInstr (.storeImm mem (immediate k.bits) size)
    else emit [.instr (.movImm scratch k.bits), .instr (.movStore mem scratch)]
  | some (.box b) =>
    let bank ← bankOf b.kind
    match bank.regOf (some b) with
    | some r =>
      if b.kind = .float then emitInstr (.movsdStore mem (floatOperand r))
      else emitInstr (.store mem (gpOperand r) size)
    | none =>
      if b ∈ bank.inFrame then
        emit [.instr (.movLoad scratch (slotMem (← frameSlot b))), .instr (.store mem scratch size)]
      else refuse (.alloc (.noLocation b))

def loadResult (pos : Nat) (result : Option Box) (mem : Mem) (size : Int) (signed : Bool) :
    CompileM Unit := do
  if (← need result).kind = .float then
    emitInstr (.movsdLoad (floatOperand (← onFloat (AllocM.allocate pos result {}))) mem)
  else
    emitInstr (.load (gpOperand (← onGp (AllocM.allocate pos result {}))) mem size signed)

def fieldShape (op : Op) : CompileM FieldShape :=
  match op.descr.bind Descr.field? with
  | some s => pure s
  | none => refuse (.descr op.opcode "a field" (Descr.textOrNil op.descr))

def arrayShape (op : Op) : CompileM ArrayShape :=
  match op.descr.bind Descr.array? with
  | some s => pure s
  | none => refuse (.descr op.opcode "an array" (Descr.textOrNil op.descr))

def fieldMem (base : Int) (offset : Int) : Mem := .based (gpOperand base) (wrap32 offset)

def getfield (pos : Nat) (op : Op) : CompileM Unit := do
  let s ← fieldShape op
  let obj ← onGp (AllocM.ensure pos (← arg op 0) {})
  releaseArgs pos op
  loadResult pos op.result (fieldMem obj s.offset) s.size s.signed

/-- Announce a store of a reference. The values that are kept can be read afterwards. -/
def writeBarrier (pos : Nat) (obj : Option Value) (keep : List (Option Value)) :
    CompileM Unit := do
  let hook := (← read).hooks.barrier
  if hook ≠ 0 then
    keepAcrossCall (keep ++ [obj])
    nativeCall pos (.word hook) [.frame, .value (← need obj)] none

def setfield (pos : Nat) (op : Op) : CompileM Unit := do
  let s ← fieldShape op
  let obj ← arg op 0
  let val ← arg op 1
  if s.kind = .ref then writeBarrier pos obj [val]
  let r ← onGp (AllocM.ensure pos obj { forbidden := holders [val] })
  storeValue (fieldMem r s.offset) val s.size

/-- The memory of an array item. A constant index goes to the displacement where it fits. -/
def itemMem (pos : Nat) (s : ArrayShape) (array index : Option Value) : CompileM Mem := do
  let base ← onGp (AllocM.ensure pos array { forbidden := holders [index] })
  let indexed : CompileM Mem := do
    let i ← onGp (AllocM.ensure pos index { forbidden := holders [array] })
    return .indexed (gpOperand base) (gpOperand i) (s.item % 256).toNat (wrap32 s.base)
  match index with
  | some (.const k) =>
    let offset := s.itemOffset k.bits
    if TraceCompiler.fitsInt32 offset then return fieldMem base offset else indexed
  | _ => indexed

def getarrayitem (pos : Nat) (op : Op) : CompileM Unit := do
  let s ← arrayShape op
  let mem ← itemMem pos s (← arg op 0) (← arg op 1)
  releaseArgs pos op
  loadResult pos op.result mem s.item s.signed

def setarrayitem (pos : Nat) (op : Op) : CompileM Unit := do
  let s ← arrayShape op
  let array ← arg op 0
  let index ← arg op 1
  let val ← arg op 2
  if s.kind = .ref then writeBarrier pos array [index, val]
  let mem ← itemMem pos s array index
  storeValue mem val s.item

def arraylen (pos : Nat) (op : Op) : CompileM Unit := do
  let s ← arrayShape op
  let array ← onGp (AllocM.ensure pos (← arg op 0) {})
  releaseArgs pos op
  loadResult pos op.result (fieldMem array s.length) 8 true

/-- Write a header word of a new object. A box is brought to a register first. -/
def storeHeader (pos : Nat) (op : Op) (offset : Int) (v : Option Value) : CompileM Unit := do
  let r := ((← get).gp.regOf op.result).getD 0
  if isBox v then discard (onGp (AllocM.ensure pos v { forbidden := [op.result] }))
  storeValue (fieldMem r offset) v 8

/-- The size of a new array as an argument, computed at run time unless the length is constant. -/
def arraySize (pos : Nat) (s : ArrayShape) (length : Option Value) : CompileM CallArg := do
  match length with
  | some (.const k) => return .word (Word.ofInt (s.itemOffset k.bits))
  | _ =>
    keepAcrossCall [length]
    let rl ← onGp (AllocM.ensure pos length {})
    let t ← onGp (AllocM.temp pos .int)
    let rt ← onGp (AllocM.allocate pos (some t) { forbidden := holders [length] })
    emit [.instr (.imulImm (gpOperand rt) (gpOperand rl) (wrap32 s.item)),
      .instr (.aluImm .add (gpOperand rt) (wrap32 s.base))]
    return .value (.box t)

/-- Allocation through the callback, which returns zeroed memory. -/
def new (pos : Nat) (op : Op) : CompileM Unit := do
  let hook := (← read).hooks.malloc
  if hook = 0 then refuse (.noMalloc op.opcode)
  let malloc (size : CallArg) : CompileM Unit :=
    nativeCall pos (.word hook) [.frame, size] op.result
  if op.opcode = .newArray then
    let s ← arrayShape op
    let length ← arg op 0
    malloc (← arraySize pos s length)
    storeHeader pos op s.length length
  else
    let some size := op.descr.bind Descr.size?
      | refuse (.descr op.opcode "a size" (Descr.textOrNil op.descr))
    if op.opcode = .new then malloc (.word (Word.ofInt size))
    else
      let vtable ← arg op 0
      keepAcrossCall [vtable]
      malloc (.word (Word.ofInt size))
      storeHeader pos op 0 vtable

end TraceCompiler.Lowering
