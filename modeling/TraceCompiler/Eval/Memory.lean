import TraceCompiler.Number.Word

/-! # Memory

Memory consists of regions of bytes.
-/

namespace TraceCompiler

/-- Consecutive bytes at an address; those past the stored ones are zero. -/
structure Region where
  base : Word
  size : Nat
  stored : Array UInt8 := #[]

namespace Region

def byte (r : Region) (offset : Nat) : UInt8 := r.stored.getD offset 0

def bytes (r : Region) (offset n : Nat) : List UInt8 :=
  (List.range n).map fun i => r.byte (offset + i)

def offset? (r : Region) (addr : Word) (n : Nat) : Option Nat :=
  if r.base ≤ addr ∧ addr.toNat - r.base.toNat + n ≤ r.size then
    some (addr.toNat - r.base.toNat)
  else none

def overwrite (r : Region) (offset : Nat) (bs : List UInt8) : Region :=
  match r with
  | ⟨base, size, stored⟩ =>
    let stored := stored ++ Array.replicate (offset + bs.length - stored.size) 0
    ⟨base, size, (bs.foldl (fun (a, i) b => (a.setIfInBounds i b, i + 1)) (stored, offset)).1⟩

end Region

structure Memory where
  regions : List Region := []

namespace Memory

def read? (m : Memory) (addr : Word) (n : Nat) : Option (List UInt8) :=
  m.regions.findSome? fun r => (r.offset? addr n).map fun o => r.bytes o n

def writeTo (addr : Word) (bs : List UInt8) : List Region → Option (List Region)
  | [] => none
  | r :: rest =>
    match r.offset? addr bs.length with
    | some o => some (r.overwrite o bs :: rest)
    | none => (writeTo addr bs rest).map (r :: ·)

def write? (m : Memory) (addr : Word) (bs : List UInt8) : Option Memory :=
  (writeTo addr bs m.regions).map (⟨·⟩)

def map (m : Memory) (r : Region) : Memory := ⟨m.regions ++ [r]⟩

end Memory

end TraceCompiler
