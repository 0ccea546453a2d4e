import TraceCompiler.Profile.Recording

/-! # Playback and summaries

A summary puts the records of one kind together.
-/

namespace TraceCompiler.Profile

namespace Recording

inductive ReadError where
  | ended
  | cutOff
  | magic
  | version
  | table
  | unknownKind (id : Word)
  deriving DecidableEq

def ReadError.message : ReadError → String
  | ended => "EOF"
  | cutOff => "unexpected EOF"
  | magic => "timeslice: invalid magic"
  | version => "timeslice: invalid version"
  | table => "timeslice: invalid kinds"
  | unknownKind id => "timeslice: unknown kind: " ++ toString id.toNat

instance : ToString ReadError := ⟨ReadError.message⟩

structure Intake where
  /-- The bytes that are left, and how many of them are at hand. -/
  left : Nat
  ready : Nat

def Intake.request (i : Intake) (want : Nat) : Nat × Intake :=
  if i.ready = 0 ∧ alignment ≤ want then
    let got := min want i.left
    (got, ⟨i.left - got, 0⟩)
  else
    let ready := if i.ready = 0 then min alignment i.left else i.ready
    let got := min want ready
    (got, ⟨i.left - got, ready - got⟩)

def firstRoom : Nat := 64

/-- How many bytes of at most `limit` are taken by the time that `needed` of them are there. The
room for them doubles once three quarters of it are used. -/
def taken (limit needed : Nat) : Nat → Nat → Nat → Intake → Nat
  | 0, have', _, _ => have'
  | fuel + 1, have', room, i =>
    if needed ≤ have' then have'
    else
      let room := if 3 * room / 4 ≤ have' then 2 * room else room
      let (got, i) := i.request (min (room - have') (limit - have'))
      if got = 0 then have' else taken limit needed fuel (have' + got) room i

def readRecord (bs : List UInt8) : Record :=
  ⟨Word.ofBytes (bs.take 8), Word.signed (Word.ofBytes ((bs.drop 8).take 8))⟩

def readRecords (table : KindTable) (bs : List UInt8) : List Entry × Except ReadError Unit :=
  if bs.isEmpty then ([], .ok ())
  else if _h : (bs.take recordSize).length < recordSize then ([], .error .cutOff)
  else
    let r := readRecord bs
    match table.lookup r.id with
    | none => ([], .error (.unknownKind r.id))
    | some k =>
      let (entries, result) := readRecords table (bs.drop recordSize)
      (⟨k, r.duration⟩ :: entries, result)
termination_by bs.length
decreasing_by
  simp only [recordSize, List.length_take, List.length_drop] at *
  omega

def number32 (bs : List UInt8) (offset : Nat) : Nat :=
  (Word.ofBytes ((bs.drop offset).take 4)).toNat

def readTable (size : Nat) (bs : List UInt8) : Except ReadError (KindTable × List UInt8) := do
  let (value, needed) ← (Json.read (bs.take size)).mapError fun e =>
    match e with
    | .nothing => .ended
    | .unfinished => .cutOff
    | .malformed => .table
  let some table := KindTable.ofJson value | throw .table
  let intake : Intake := ⟨bs.length, min alignment (headerSize + bs.length) - headerSize⟩
  let rest := bs.drop (taken size needed (needed + 1) 0 firstRoom intake)
  let padding := paddingAfter (headerSize + size)
  if rest.length < padding then throw .ended
  return (table, rest.drop padding)

def readOpening (bs : List UInt8) : Except ReadError (KindTable × List UInt8) := do
  if bs.isEmpty then throw .ended
  if bs.length < headerSize then throw .cutOff
  if number32 bs 0 ≠ magic.toNat then throw .magic
  if number32 bs 4 ≠ version.toNat then throw .version
  readTable (number32 bs 8) (bs.drop headerSize)

/-- The entries of a recording, as far as it can be read, and how reading ends. -/
def read (bs : List UInt8) : List Entry × Except ReadError Unit :=
  match readOpening bs with
  | .error e => ([], .error e)
  | .ok (table, rest) => readRecords table rest

end Recording

/-- The records of one kind. Durations are in nanoseconds, and their sum wraps around. -/
structure Summary where
  kind : Kind
  count : Int := 0
  sum : Int := 0
  least : Int := 0
  greatest : Int := 0

namespace Summary

def add (s : Summary) (d : Int) : Summary :=
  { s with
    count := s.count + 1
    sum := wrap64 (s.sum + d)
    least := if s.least = 0 ∨ d < s.least then d else s.least
    greatest := if d > s.greatest then d else s.greatest }

def mean (s : Summary) : Int := if s.count = 0 then 0 else wrap64 (s.sum.tdiv s.count)

/-- A number with a blank in the place of a plus sign. -/
def spaced (i : Int) : String := if i < 0 then toString i else " " ++ toString i

def text (s : Summary) : String :=
  let time (label : String) (ns : Int) : String :=
    " " ++ label ++ "=" ++ Text.padLeft 16 ' ' (Duration.text ns)
  Text.padLeft 40 ' ' s.kind.name ++ " flags=" ++ Text.padLeft 10 ' ' s.kind.flags.text ++
    " count=" ++ Text.padLeft 8 ' ' (spaced s.count) ++ time "sum" s.sum ++ time "min" s.least ++
    time "max" s.greatest ++ time "avg" s.mean

def insert (e : Entry) : List Summary → List Summary
  | [] => [Summary.add { kind := e.kind } e.duration]
  | s :: rest =>
    if s.kind.name = e.kind.name then s.add e.duration :: rest else s :: insert e rest

def ofEntries (es : List Entry) : List Summary := es.foldl (fun ss e => insert e ss) []

end Summary

def summarize (bs : List UInt8) : Except Recording.ReadError (List Summary) :=
  match Recording.read bs with
  | (es, .ok _) => .ok (Summary.ofEntries es)
  | (_, .error e) => .error e

end TraceCompiler.Profile
