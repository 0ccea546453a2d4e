import TraceCompiler.Lowering.Integer

/-! # Guards

A guard is a check on the main path and a recovery stub in the cold part.
-/

namespace TraceCompiler.Lowering

open Machine (Fragment)
open CompileM

inductive Branch where
  | never
  | always
  | when (c : Machine.Cond)

def siteLabel (k : Int) : String := "site" ++ toString k

def exitLabel : String := "exit"

def zeroTest (pos : Nat) (v : Option Value) (failOnZero : Bool) : CompileM Branch := do
  match v with
  | some (.const k) => return if (k.bits == 0) == failOnZero then .always else .never
  | _ =>
    testValue pos v
    return .when (if failOnZero then .e else .ne)

/-- Compare the bits of a float with a constant or another float, through the scratch register. -/
def compareFloat (pos : Nat) (b : Box) (want : Option Value) : CompileM Branch := do
  let bank := (← get).float
  match bank.regOf (some b) with
  | some r => emitInstr (.movqFromXmm scratch (floatOperand r))
  | none =>
    if b ∈ bank.inFrame then emitInstr (.movLoad scratch (slotMem (← frameSlot b)))
    else refuse (.alloc (.noLocation b))
  match want with
  | none => fault
  | some (.const w) =>
    if Word.fitsInt32 w.bits then emitInstr (.aluImm .cmp scratch (immediate w.bits))
    else
      let r ← onGp (AllocM.ensure pos (some (.const ⟨.int, w.bits⟩)) {})
      emitInstr (.alu .cmp scratch (gpOperand r))
  | some (.box _) =>
    match ← floatSource pos want { forbidden := [some b] } with
    | .mem m => emitInstr (.aluLoad .cmp scratch m)
    | .reg x =>
      let t ← onGp (AllocM.temp pos .int)
      let r ← onGp (AllocM.allocate pos (some t) {})
      emit [.instr (.movqFromXmm (gpOperand r) x), .instr (.alu .cmp scratch (gpOperand r))]
  return .when .ne

def compareValue (pos : Nat) (v want : Option Value) : CompileM Branch := do
  let (v, want) := if isConst v then (want, v) else (v, want)
  match v, want with
  | some (.const a), some (.const b) => return if a.bits = b.bits then .never else .always
  | some (.box b), _ =>
    if b.kind = .float then compareFloat pos b want
    else
      let r ← onGp (AllocM.ensure pos v { forbidden := holders [want] })
      compareWith (gpOperand r) (← intSource pos want { forbidden := [some b] })
      return .when .ne
  | _, _ => fault

def compareClass (pos : Nat) (obj cls : Option Value) : CompileM Branch := do
  let r ← onGp (AllocM.ensure pos obj { forbidden := holders [cls] })
  let header := Machine.Mem.based (gpOperand r)
  match cls with
  | some (.const k) =>
    if Word.fitsInt32 k.bits then emitInstr (.aluMemImm .cmp header 8 (immediate k.bits))
    else emit [.instr (.movImm scratch k.bits), .instr (.aluLoad .cmp scratch header)]
  | _ =>
    let rc ← onGp (AllocM.ensure pos cls { forbidden := holders [obj] })
    emitInstr (.aluLoad .cmp (gpOperand rc) header)
  return .when .ne

def guardBranch (pos : Nat) (op : Op) : CompileM Branch := do
  match op.opcode with
  | .guardTrue | .guardFalse =>
    let v ← arg op 0
    match (← get).fused with
    | some f =>
      if sameBox v (f.result.map Value.box) then
        modify fun s => { s with fused := none }
        return .when (if op.opcode = .guardTrue then f.cond.negate else f.cond)
      else zeroTest pos v (op.opcode = .guardTrue)
    | none => zeroTest pos v (op.opcode = .guardTrue)
  | .guardNonnull => zeroTest pos (← arg op 0) true
  | .guardIsnull => zeroTest pos (← arg op 0) false
  | .guardNoOverflow | .guardOverflow =>
    if (← get).flagsFrom ≠ pos - 1 then refuse (.overflowGuard op.opcode)
    return .when (if op.opcode = .guardNoOverflow then .o else .no)
  | .guardValue => compareValue pos (← arg op 0) (← arg op 1)
  | _ => compareClass pos (← arg op 0) (← arg op 1)

def leave (k : Int) : List Fragment :=
  [.instr (.storeImm (headerMem .exit) (wrap32 k) 8),
    .instr (.movImm (.dword Machine.Reg.rax) (Word.ofInt k)), .jump exitLabel]

/-- The slots of fail values, and the code that brings them there. The banks do not learn of it,
since it happens off the main path. -/
def failSlots : List (Option Value) → CompileM (List (Slot × List Fragment))
  | [] => pure []
  | v :: rest => do
    let first ← match v with
      | none => refuse .missingFailValue
      | some (.const k) =>
        let s ← onGp (modifyGet fun a =>
          let (s, f) := a.frame.fresh
          (s, { a with frame := f }))
        pure (s, [storeConst (slotMem s) k.bits])
      | some (.box b) =>
        let bank ← bankOf b.kind
        let r := bank.regOf (some b)
        let stored : Bool := b ∈ bank.inFrame
        if r.isNone && !stored then refuse (.noFailValue b)
        let s ← onKind b.kind (AllocM.slotOf b)
        match r, stored with
        | some r, false => pure (s, [moveCode ⟨.reg (bank.pool.reg r), .slot s, b.kind⟩])
        | _, _ => pure (s, [])
    return first :: (← failSlots rest)

def askForBridge (k : Int) (hook : Word) : List Fragment :=
  let rax := Machine.Reg.wide Machine.Reg.rax
  let noBridge := "nobridge" ++ toString k
  [.instr (.mov (.wide Machine.Reg.rdi) framePointer),
    .instr (.movImm (.dword Machine.Reg.rsi) (Word.ofInt k)), .instr (.movAbs scratch hook),
    .instr (.callReg scratch), .instr (.test rax rax), .jumpIf .e noBridge,
    .instr (.jumpReg rax), .label noBridge]

def guardStub (op : Op) (k : Int) (stub : String) : CompileM Unit := do
  noteValues op.failArgs.length
  let fails ← failSlots op.failArgs
  let slots := fails.map Prod.fst
  let hook := (← read).hooks.failure
  let fail := "fail" ++ toString k
  emitCold ([.label stub] ++ fails.flatMap Prod.snd ++
    [.jumpSite fail (siteLabel k), .label fail] ++
    (if hook = 0 then [] else askForBridge k hook) ++ [loadValues] ++
    slots.zipIdx.map (fun (s, j) => .moveMem (valueMem j) (slotMem s)) ++ leave k)
  let kinds ← need op.exitKinds?
  modify fun s => { s with
    exits := s.exits.push ⟨k, op.opcode, kinds, slots, none, s.frame.depth⟩ }

def guard (pos : Nat) (op : Op) : CompileM Unit := do
  let k := wrap64 ((← read).firstExit + (← get).exits.size)
  let stub := "stub" ++ toString k
  match ← guardBranch pos op with
  | .never => pure ()
  | .always => emit [.jump stub]
  | .when c => emit [.jumpIf c stub]
  guardStub op k stub

end TraceCompiler.Lowering
