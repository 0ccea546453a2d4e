import TraceCompiler.Json.Reader
import TraceCompiler.Number.Word

/-! # Recordings

A recording starts with a header and the table of kinds, filled up with zeros to a multiple of 4096
bytes.
-/

namespace TraceCompiler.Profile

structure Flags where
  bits : UInt32
  deriving DecidableEq

namespace Flags

def native : Flags := ⟨1⟩

def compile : Flags := ⟨2⟩

def init : Flags := ⟨4⟩

def has (f g : Flags) : Bool := f.bits &&& g.bits ≠ 0

def text (f : Flags) : String :=
  Text.joined "," (([(native, "native"), (compile, "compile"), (init, "init")].filter
    (f.has ·.1)).map Prod.snd)

end Flags

structure Kind where
  name : String := ""
  flags : Flags := ⟨0⟩
  deriving DecidableEq

/-- The registered kinds; the first has number one. -/
structure Kinds where
  list : List Kind

namespace Kinds

def standard : Kinds := ⟨[
  ⟨"init", .init⟩, ⟨"cpu::compile", .compile⟩, ⟨"cpu::load", .compile⟩, ⟨"cpu::patch", .compile⟩,
  ⟨"cpu::execute", .native⟩]⟩

def register (ks : Kinds) (k : Kind) : Nat × Kinds := (ks.list.length + 1, ⟨ks.list ++ [k]⟩)

def numbered (ks : Kinds) : List (Nat × Kind) := (ks.list.zipIdx 1).map fun (k, i) => (i, k)

/-- The table of the kinds, ordered by the digits of their numbers. -/
def json (ks : Kinds) : String :=
  let entry (e : String × Kind) : String :=
    Json.quoted e.1 ++ ":\x7b\"Name\":" ++ Json.quoted e.2.name ++ ",\"Flags\":" ++
      toString e.2.flags.bits.toNat ++ "\x7d"
  let entries := (ks.numbered.map fun (i, k) => (toString i, k)).mergeSort fun a b => a.1 ≤ b.1
  "\x7b" ++ Text.joined "," (entries.map entry) ++ "\x7d"

end Kinds

/-- A table of kinds by their numbers, as it is read. A later entry hides an earlier one. -/
abbrev KindTable := List (Word × Kind)

namespace KindTable

def readNat? (bound : Nat) (s : String) : Option Nat :=
  if s.isEmpty || !s.toList.all Json.isDigit then none
  else
    let n := s.toList.foldl (fun n c => n * 10 + (c.toNat - 48)) 0
    if n < bound then some n else none

/-- A field name with the case of its letters ignored; the long s is a small s. -/
def folded (s : String) : String :=
  String.ofList (s.toList.map fun c => if c = '\u017f' then 's' else c.toLower)

def readField (k : Kind) (name : String) (v : Json.Value) : Option Kind :=
  match folded name, v with
  | "name", .string s => some { k with name := s }
  | "name", .null | "flags", .null => some k
  | "flags", .number n => (readNat? 0x100000000 n).map fun n => { k with flags := ⟨n.toUInt32⟩ }
  | "name", _ | "flags", _ => none
  | _, _ => some k

def readKind : Json.Value → Option Kind
  | .null => some {}
  | .object fields => fields.foldlM (fun k (name, v) => readField k name v) {}
  | _ => none

/-- The number of a kind. The word for nothing stands for zero. -/
def readId? (key : String) : Option Nat := if key = "null" then some 0 else readNat? 0x10000000000000000 key

def ofJson : Json.Value → Option KindTable
  | .null => some []
  | .object fields => fields.foldlM (fun table (key, v) => do
      let id ← readId? key
      return (id.toUInt64, ← readKind v) :: table) []
  | _ => none

end KindTable

structure Record where
  id : Word
  /-- Nanoseconds, in the range of signed words. -/
  duration : Int

structure Entry where
  kind : Kind
  duration : Int

namespace Recording

def magic : UInt32 := 0x54534c46
def version : UInt32 := 3

/-- The bytes of the header, and what records are aligned to. -/
def headerSize : Nat := 12
def alignment : Nat := 4096

def recordSize : Nat := 16

def paddingAfter (size : Nat) : Nat :=
  if size % alignment = 0 then 0 else alignment - size % alignment

def bytes32 (n : UInt32) : List UInt8 := Word.bytes 4 n.toUInt64

def header (tableSize : Nat) : List UInt8 :=
  bytes32 magic ++ bytes32 version ++ bytes32 tableSize.toUInt32

def recordBytes (r : Record) : List UInt8 := Word.bytes 8 r.id ++ bytesOfInt 8 r.duration

inductive Part where
  | header
  | table
  | padding
  deriving DecidableEq

def Part.name : Part → String
  | header => "header"
  | table => "slices"
  | padding => "padding"

/-- What opens a recording, part by part. -/
def opening (ks : Kinds) : List (Part × List UInt8) :=
  let table := Text.bytesOf ks.json
  let zeros := paddingAfter (headerSize + table.length)
  [(.header, header table.length), (.table, table)] ++
    if zeros = 0 then [] else [(.padding, List.replicate zeros 0)]

def blockSize : Nat := alignment / recordSize

def blocks (rs : List Record) : List (List Record) :=
  match rs with
  | [] => []
  | r :: rest => (r :: rest.take (blockSize - 1)) :: blocks (rest.drop (blockSize - 1))
termination_by rs.length
decreasing_by simp only [List.length_cons, List.length_drop]; omega

def bytes (ks : Kinds) (rs : List Record) : List UInt8 :=
  (opening ks).flatMap Prod.snd ++ rs.flatMap recordBytes

end Recording

inductive RecordError where
  | alreadyOpen
  | alreadyClosed
  | opening (p : Recording.Part) (message : String)
  | records (message : String)

def RecordError.message : RecordError → String
  | alreadyOpen => "timeslice: already open"
  | alreadyClosed => "timeslice: already closed"
  | opening p m => "timeslice: write " ++ p.name ++ ": " ++ m
  | records m => "timeslice: write thread: " ++ m

instance : ToString RecordError := ⟨RecordError.message⟩

structure Recorder where
  kinds : Kinds := .standard
  isOpen : Bool := false
  /-- The records that wait to be written, the latest first. -/
  pending : List Record := []

namespace Recorder

variable {σ : Type}

/-- How bytes are put out; an output may refuse them. -/
abbrev Write (σ : Type) := List UInt8 → σ → Except String σ

def writeAll {α : Type} (write : Write σ) : List (α × List UInt8) → σ → Except (α × String) Unit × σ
  | [], out => (.ok (), out)
  | (a, bs) :: rest, out =>
    match write bs out with
    | .ok out => writeAll write rest out
    | .error m => (.error (a, m), out)

def start (write : Write σ) (out : σ) (r : Recorder) : Except RecordError Unit × σ × Recorder :=
  if r.isOpen then (.error .alreadyOpen, out, r)
  else
    match writeAll write (Recording.opening r.kinds) out with
    | (.error (p, m), out) => (.error (.opening p m), out, r)
    | (.ok _, out) => (.ok (), out, { r with isOpen := true, pending := [] })

def add (x : Record) (r : Recorder) : Recorder :=
  if r.isOpen then { r with pending := x :: r.pending } else r

def close (write : Write σ) (out : σ) (r : Recorder) : Except RecordError Unit × σ × Recorder :=
  if !r.isOpen then (.error .alreadyClosed, out, r)
  else
    let blocks := (Recording.blocks r.pending.reverse).map fun b =>
      ((), b.flatMap Recording.recordBytes)
    let (result, out) := writeAll write blocks out
    (result.mapError fun e => .records e.2, out, { r with isOpen := false, pending := [] })

end Recorder

end TraceCompiler.Profile
