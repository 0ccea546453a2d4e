import TraceCompiler.Abort
import TraceCompiler.Placement.Location

/-! # The frame of an engine

Compiled code runs against a frame: a header, spill slots, and an array of values that carries
inputs in and exit values out.
-/

namespace TraceCompiler.Engine

/-- Where the words of a frame come from: whether a call, told by its number, maps so many bytes or gives
a mapping back. -/
structure WordMapper where
  map : Nat → Int → Except String Unit := fun _ _ => .ok ()
  unmap : Nat → Except String Unit := fun _ => .ok ()

/-- The frame, as far as it can be seen from outside of compiled code. -/
structure FrameState where
  words : Nat := HeaderWord.count
  /-- The header word that belongs to the embedding program. -/
  side : Word := 0
  values : Array Word := #[0]
  kinds : Array Kind := #[]
  mapper : WordMapper := {}
  /-- The calls of the mapper so far. -/
  calls : Nat := 0

inductive ValueError where
  | negativeIndex (i : Int)
  | growFrame (depth : Int) (cause : String)
  | growValues (n : Int) (cause : String)
  | unmap (cause : String)
  | noValue (i : Int)
  | kind (i : Int) (holds asked : Kind)
  | inputUnset (i : Nat) (kind : Kind)
  | inputKind (i : Nat) (holds expected : Kind)
  deriving DecidableEq

def ValueError.message : ValueError → String
  | negativeIndex i => "cpu: negative value index " ++ toString i
  | growFrame depth cause => "cpu: grow frame to " ++ toString depth ++ " slots: " ++ cause
  | growValues n cause => "cpu: grow value array to " ++ toString n ++ ": " ++ cause
  | unmap cause => cause
  | noValue i => "cpu: no value at index " ++ toString i
  | kind i holds asked =>
    "cpu: kind mismatch: value " ++ toString i ++ " is " ++ holds.text ++ ", read as " ++ asked.text
  | inputUnset i k =>
    "cpu: kind mismatch: input " ++ toString i ++ " (" ++ k.text ++ ") not set"
  | inputKind i holds expected =>
    "cpu: kind mismatch: input " ++ toString i ++ " is " ++ holds.text ++ ", loop expects " ++
      expected.text

/-- An operation of a frame. What it did stays when it fails. -/
abbrev FrameM := ExceptT (Abort ValueError) (StateM FrameState)

namespace FrameState

def depth (f : FrameState) : Nat := f.words - HeaderWord.count

def padded {α : Type} (a : Array α) (d : α) (n : Nat) : Array α :=
  a ++ Array.replicate (n - a.size) d

/-- The bytes of an array of words. Their number wraps. -/
def byteSize (n : Int) : Int := wrap64 (max n 1 * 8)

def call (c : FrameState → Except String Unit) (f : String → ValueError) : FrameM Unit := do
  let s ← getThe FrameState
  modify fun s => { s with calls := s.calls + 1 }
  if let .error e := c s then throw (.error (f e))

/-- Map an array of words, of which `least` are needed, put it in the place of an old one and give that
back. -/
def replace (n : Int) (least : Nat) (f : String → ValueError) (put : Nat → FrameState → FrameState) :
    FrameM Unit := do
  if byteSize n ≤ 0 then throw (.error (f "invalid argument"))
  call (fun s => s.mapper.map s.calls (byteSize n)) f
  let words := (byteSize n).toNat / 8
  if words < least then throw .missing
  modify (put words)
  call (fun s => s.mapper.unmap s.calls) .unmap

def growFrame (depth : Int) : FrameM Unit := do
  let need := wrap64 (HeaderWord.count + depth)
  if (← getThe FrameState).words < need then
    replace need HeaderWord.count (.growFrame depth) fun words s => { s with words }

def growValues (n : Int) : FrameM Unit := do
  let size := (← getThe FrameState).values.size
  if size < n then
    replace (max n (2 * size)) 0 (.growValues n) fun words s =>
      { s with values := padded (s.values.extract 0 words) 0 words }

/-- No list of kinds is longer than this. -/
def maxKinds : Nat := 0x1000000000000

def growKinds (n : Int) : FrameM Unit := do
  if (← getThe FrameState).kinds.size < n then
    if maxKinds < n then throw .missing
    modify fun s => { s with kinds := padded s.kinds .void n.toNat }

/-- Make room for so many slots and values. -/
def reserve (depth n : Int) : FrameM Unit := do
  growFrame depth
  growValues n
  growKinds n

def set (i : Int) (k : Kind) (w : Word) : FrameM Unit := do
  if i < 0 then throw (.error (.negativeIndex i))
  reserve 0 (wrap64 (i + 1))
  let s ← getThe FrameState
  if s.values.size ≤ i.toNat ∨ s.kinds.size ≤ i.toNat then throw .missing
  modify fun s => { s with
    values := s.values.setIfInBounds i.toNat w
    kinds := s.kinds.setIfInBounds i.toNat k }

def kindAt (f : FrameState) (i : Nat) : Kind := f.kinds.getD i .void

def get (f : FrameState) (i : Int) (k : Kind) : Except (Abort ValueError) Word :=
  if i < 0 ∨ f.kindAt i.toNat = .void then .error (.error (.noValue i))
  else if f.kindAt i.toNat ≠ k then .error (.error (.kind i (f.kindAt i.toNat) k))
  else require f.values[i.toNat]?

def checkFrom (f : FrameState) : Nat → List Kind → Except ValueError Unit
  | _, [] => .ok ()
  | i, k :: ks =>
    if f.kindAt i = .void then .error (.inputUnset i k)
    else if f.kindAt i ≠ k then .error (.inputKind i (f.kindAt i) k)
    else f.checkFrom (i + 1) ks

def checkInputs (f : FrameState) (kinds : List Kind) : Except ValueError Unit := f.checkFrom 0 kinds

def inputs (f : FrameState) (n : Nat) : List Word := (List.range n).map fun i => f.values.getD i 0

def store (f : FrameState) (ws : List Word) : FrameState :=
  { f with values := ws.zipIdx.foldl (fun a (w, i) => a.setIfInBounds i w) f.values }

/-- The kinds that an exit leaves behind, and none beyond them. -/
def settle (f : FrameState) (kinds : List Kind) : FrameState :=
  { f with kinds := Array.ofFn (n := f.kinds.size) fun i => kinds.getD i .void }

end FrameState

end TraceCompiler.Engine
