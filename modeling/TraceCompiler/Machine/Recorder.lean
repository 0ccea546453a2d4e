import TraceCompiler.Machine.Assembly

/-! # Recording sinks

A recorder keeps the bytes, the labels and the sections that fragments ask for.
-/

namespace TraceCompiler.Machine

structure Recorder where
  code : List UInt8 := []
  labels : List String := []
  current : Section := .main
  sections : List Section := []

instance : Sink Recorder where
  emitBytes bs r := { r with code := r.code ++ bs }
  isDefined l r := l ∈ r.labels
  define l r := { r with labels := l :: r.labels }
  current r := r.current
  select s r := .ok { r with current := s, sections := r.sections ++ [s] }
  reserve? := none

end TraceCompiler.Machine
