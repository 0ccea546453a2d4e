import TraceCompiler.Lowering.State

/-! # Native calls

Arguments are placed with one parallel move after everything that is read later has left the
registers that a call overwrites.
-/

namespace TraceCompiler.Lowering

open CompileM

inductive CallArg where
  | value (v : Value)
  | fixed (l : Location) (k : Kind)

namespace CallArg

def kind : CallArg → Kind
  | value v => v.kind
  | fixed _ k => k

def word (bits : Word) : CallArg := fixed (.imm bits) .int

def frame : CallArg := fixed (.reg (Reg.gp Machine.Reg.rbp)) .ref

def location : CallArg → CompileM Location
  | value v => CompileM.location (some v)
  | fixed l _ => pure l

end CallArg

def keepAcrossCall (vs : List (Option Value)) : CompileM Unit :=
  (boxesOf vs).forM fun b => onKind b.kind (AllocM.spill (some b))

def argMoves (ints floats : Nat) : List CallArg → CompileM (List Move)
  | [] => pure []
  | a :: rest => do
    let src ← a.location
    if a.kind = .float then
      if floatArgRegs ≤ floats then refuse .floatArgs
      let ms ← argMoves ints (floats + 1) rest
      return ⟨src, .reg (Reg.float floats), a.kind⟩ :: ms
    else
      match intArgRegs[ints]? with
      | none => refuse .intArgs
      | some r =>
        let ms ← argMoves (ints + 1) floats rest
        return ⟨src, .reg (Reg.gp r), a.kind⟩ :: ms

def sequenced (ms : List Move) : CompileM (List Move) :=
  match Move.sequence ms scratchLocation with
  | .ok out => pure out
  | .error e => refuse (.moves e)

/-- Call a native function. The result, if there is one, is in `rax` or `xmm0`. -/
def nativeCall (pos : Nat) (fn : CallArg) (args : List CallArg) (result : Option Box) :
    CompileM Unit := do
  onGp (AllocM.spillCallerSaved pos)
  onFloat (AllocM.spillCallerSaved pos)
  let ms ← argMoves 0 0 args
  let rax := Machine.Reg.rax
  let fnMove : Move := ⟨← fn.location, .reg (Reg.gp rax), .int⟩
  emitMoves (← sequenced (ms ++ [fnMove]))
  emitInstr (.callReg (.wide rax))
  onGp AllocM.releaseCallerSaved
  onFloat AllocM.releaseCallerSaved
  match result with
  | none => pure ()
  | some b => if b.kind = .float then onFloat (AllocM.bind b 0) else onGp (AllocM.bind b rax)

def call (pos : Nat) (op : Op) : CompileM Unit := do
  if (op.descr.bind Descr.call?).isNone then
    refuse (.descr op.opcode "a call" (Descr.textOrNil op.descr))
  match op.args with
  | [] => fault
  | fn :: args =>
    let args ← args.mapM need
    nativeCall pos (.value (← need fn)) (args.map .value) op.result

end TraceCompiler.Lowering
