import TraceCompiler.Abort
import TraceCompiler.Eval.Memory
import TraceCompiler.Trace.Basic

/-! # What traces run in

A `Host` gives a trace its memory, its callbacks and its native functions.
-/

namespace TraceCompiler

structure Host (ω : Type) where
  read : Word → Nat → ω → Option (List UInt8)
  write : Word → List UInt8 → ω → Option ω
  /-- Allocate zeroed memory; a zero address stands for failure. -/
  malloc : Option (Word → ω → Word × ω) := none
  /-- Hear of an object before a reference is stored in it. -/
  barrier : Option (Word → ω → ω) := none
  call : Word → Signature → List Word → ω → Except (Abort String) Word × ω
  /-- Whether a zero address from `malloc` is handed on like any other. -/
  passNull : Bool := false

inductive NativeCallError where
  | floatResult
  | floatArgument (i : Nat)

def NativeCallError.message : NativeCallError → String
  | floatResult => "native call returning float needs Env.Call"
  | floatArgument i => "native call with float argument " ++ toString i ++ " needs Env.Call"

/-- The first obstacle to passing words to a native function. A signature with fewer arguments than
are passed is a fault. -/
def checkNativeArgs : Nat → List Kind → List Word → Except (Abort NativeCallError) Unit
  | _, _, [] => .ok ()
  | _, [], _ :: _ => .error .missing
  | i, k :: ks, _ :: ws =>
    if k = .float then .error (.error (.floatArgument i)) else checkNativeArgs (i + 1) ks ws

def maxNativeArgs : Nat := 15

/-- Call a native function that takes and returns words. A call of no function and one with too many
words are faults. -/
def nativeCall (fns : Word → List Word → Except (Abort String) Word) (fn : Word) (sig : Signature)
    (args : List Word) : Except (Abort String) Word := do
  if sig.result = .float then throw (.error NativeCallError.floatResult.message)
  (checkNativeArgs 0 sig.args args).mapError (Abort.map NativeCallError.message)
  if fn = 0 then throw (.fault (some "purego: fn is nil"))
  if maxNativeArgs < args.length then
    throw (.fault (some "purego: too many arguments to SyscallN"))
  fns fn args

structure Sandbox where
  memory : Memory
  base : Word
  size : Nat
  next : Nat
  mallocs : Array Word := #[]
  barriers : Array Word := #[]
  notes : List String := []

namespace Sandbox

def zeroed (base : Word) (size : Nat) : Sandbox where
  memory := ⟨[⟨base, size, #[]⟩]⟩
  base := base
  size := size
  next := base.toNat + size / 2

def fill (s : Sandbox) (offset : Int) (bs : List UInt8) : Sandbox :=
  { s with memory := (s.memory.write? (s.base + Word.ofInt offset) bs).getD s.memory }

def bytesAt (s : Sandbox) (offset : Int) (n : Nat) : List UInt8 :=
  (s.memory.read? (s.base + Word.ofInt offset) n).getD []

def write? (s : Sandbox) (addr : Word) (bs : List UInt8) : Option Sandbox :=
  match s with
  | { memory, base, size, next, mallocs, barriers, notes } =>
    (memory.write? addr bs).map fun memory => { memory, base, size, next, mallocs, barriers, notes }

/-- Hand out memory in multiples of 16 bytes; a zero address if it does not fit. -/
def malloc (size : Word) (s : Sandbox) : Word × Sandbox :=
  let s := { s with mallocs := s.mallocs.push size }
  let n := if size = 0 then 16 else (size.toNat + 15) / 16 * 16
  if s.size < size.toNat ∨ s.base.toNat + s.size < s.next + n then (0, s)
  else (s.next.toUInt64, { s with next := s.next + n })

def announce (obj : Word) (s : Sandbox) : Sandbox := { s with barriers := s.barriers.push obj }

def unlogged (s : Sandbox) : Sandbox := { s with mallocs := #[], barriers := #[], notes := [] }

def host (malloc barrier : Bool)
    (call : Word → Signature → List Word → Except (Abort String) Word) : Host Sandbox where
  read addr n s := s.memory.read? addr n
  write addr bs s := s.write? addr bs
  malloc := if malloc then some Sandbox.malloc else none
  barrier := if barrier then some announce else none
  call fn sig args s := (call fn sig args, s)

end Sandbox

end TraceCompiler
