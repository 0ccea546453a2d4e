/-! # Broken-off computations

Ill-formed data can ask for something that is not there: the kind of a missing value, an argument
beyond the end of a list, a byte outside of memory.
-/

namespace TraceCompiler

/-- How a computation breaks off. Some faults carry a message of their own. -/
inductive Abort (ε : Type) where
  | fault (message : Option String)
  | error (e : ε)
  deriving DecidableEq

namespace Abort

variable {ε ε' : Type}

def map (f : ε → ε') : Abort ε → Abort ε'
  | fault m => fault m
  | error e => error (f e)

def missing : Abort ε := fault none

end Abort

def require {α ε : Type} : Option α → Except (Abort ε) α
  | some a => .ok a
  | none => .error .missing

end TraceCompiler
