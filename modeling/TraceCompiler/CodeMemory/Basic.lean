import TraceCompiler.Abort
import TraceCompiler.Eval.Memory
import TraceCompiler.Text.ByteSize

/-! # Code memory

Installed code lives in blocks that are carved from mapped chunks.
-/

namespace TraceCompiler

structure Span where
  addr : Word
  size : Int
  deriving DecidableEq, Inhabited

namespace Span

def stop (s : Span) : Word := s.addr + Word.ofInt s.size

/-- Smaller spans first, and of two equally large ones the lower. -/
def sizeBefore (a b : Span) : Bool := a.size < b.size || (a.size = b.size && a.addr < b.addr)

def addrBefore (a b : Span) : Bool := a.addr < b.addr

def insertBy (before : Span → Span → Bool) (s : Span) : List Span → List Span
  | [] => [s]
  | t :: rest =>
    if before t s then t :: insertBy before s rest
    else if before s t then s :: t :: rest
    else s :: rest

def eraseBy (before : Span → Span → Bool) (s : Span) (spans : List Span) : List Span :=
  spans.filter fun t => before t s || before s t

end Span

/-- The free spans in both orders. -/
structure FreeSpans where
  bySize : List Span := []
  byAddr : List Span := []

namespace FreeSpans

def insert (f : FreeSpans) (s : Span) : FreeSpans where
  bySize := Span.insertBy Span.sizeBefore s f.bySize
  byAddr := Span.insertBy Span.addrBefore s f.byAddr

def erase (f : FreeSpans) (s : Span) : FreeSpans where
  bySize := Span.eraseBy Span.sizeBefore s f.bySize
  byAddr := Span.eraseBy Span.addrBefore s f.byAddr

def size (f : FreeSpans) : Nat := f.byAddr.length

/-- The smallest span of at least the given size, and of those the lowest. -/
def bestFit? (f : FreeSpans) (size : Int) : Option Span := f.bySize.find? (size ≤ ·.size)

def before? (f : FreeSpans) (s : Span) : Option Span :=
  (f.byAddr.filter (·.addr ≤ s.addr)).getLast?.filter (·.stop = s.addr)

def after? (f : FreeSpans) (s : Span) : Option Span :=
  (f.byAddr.find? (s.stop ≤ ·.addr)).filter (·.addr = s.stop)

/-- Give a span back, merged with its free neighbours as far as `mayJoin` allows. -/
def release (f : FreeSpans) (s : Span) (mayJoin : Span → Bool) : FreeSpans :=
  let prev := (f.before? s).filter mayJoin
  let next := (f.after? s).filter mayJoin
  let joined : Span :=
    { addr := (prev.map (·.addr)).getD s.addr
      size := wrap64 ((prev.map (·.size)).getD 0 + s.size + (next.map (·.size)).getD 0) }
  ((prev.toList ++ next.toList).foldl erase f).insert joined

end FreeSpans

/-- A source of pages with a state `μ`. Its errors are texts. -/
structure Mapper (μ : Type) where
  pageSize : Nat
  map : Int → μ → Except String Region × μ
  unmap : Word → Nat → μ → Except String Unit × μ
  /-- Make a number of bytes writable and not executable, or the reverse. -/
  protect : Word → Nat → Bool → μ → Except String Unit × μ

structure Block where
  addr : Word := 0
  size : Int := 0
  deriving DecidableEq, Inhabited

namespace Block

def span (b : Block) : Span := ⟨b.addr, b.size⟩

def stop (b : Block) : Word := b.span.stop

end Block

/-- Whether `n` bytes at an address are in a chunk, with end addresses that wrap around. -/
def Region.holds (c : Region) (addr : Word) (n : Int) : Bool :=
  c.base ≤ addr && addr + Word.ofInt n ≤ c.base + Word.ofInt c.size

structure CodeMemory (μ : Type) where
  mapper : Mapper μ
  pages : μ
  chunkSize : Int
  chunks : List Region := []
  free : FreeSpans := {}
  inUse : Int := 0
  closed : Bool := false

namespace CodeMemory

variable {μ : Type}

def defaultChunkSize : Int := 256 * 1024

def alignment : Nat := 16

def alignUp (n : Int) (unit : Nat) : Int :=
  wrap64 (Int.tdiv (wrap64 (n + unit - 1)) unit * unit)

def new (mapper : Mapper μ) (pages : μ) (chunkSize : Int) : CodeMemory μ where
  mapper := mapper
  pages := pages
  chunkSize := alignUp (if chunkSize ≤ 0 then defaultChunkSize else chunkSize) mapper.pageSize

inductive Error where
  | empty
  | closed
  | outOfRange (addr : Word) (n : Int)
  | noSpan (size : Int)
  | map (size : Int) (cause : String)
  | makeWritable (cause : String)
  | makeExecutable (cause : String)
  | unmap (causes : List String)
  deriving DecidableEq

def Error.message : Error → String
  | empty => "codemem: empty code"
  | closed => "codemem: closed"
  | outOfRange addr n =>
    "codemem: address outside mapped code: " ++ Text.hex addr.toNat ++ "+" ++ toString n
  | noSpan size => "codemem: no span for " ++ toString size ++ " bytes after growing"
  | map size cause => "codemem: map " ++ ByteSize.text size ++ ": " ++ cause
  | makeWritable cause => "codemem: make writable: " ++ cause
  | makeExecutable cause => "codemem: make executable: " ++ cause
  | unmap causes => Text.joined "\n" causes

instance : ToString Error := ⟨Error.message⟩

/-- An operation on code memory, which keeps what it did before it failed. -/
abbrev CodeM (μ : Type) := ExceptT (Abort Error) (StateM (CodeMemory μ))

def fail {α : Type} (e : Error) : CodeM μ α := throw (.error e)

def chunkOf? (m : CodeMemory μ) (addr : Word) (n : Int) : Option Region :=
  m.chunks.find? (·.holds addr n)

def onPages {α : Type} (op : Mapper μ → μ → Except String α × μ) (cause : String → Error) :
    CodeM μ α := do
  let m ← get
  let (r, pages) := op m.mapper m.pages
  set { m with pages }
  match r with
  | .ok a => return a
  | .error e => fail (cause e)

def overwriteIn (addr : Word) (data : List UInt8) : List Region → List Region
  | [] => []
  | c :: rest =>
    if c.holds addr data.length then c.overwrite (addr - c.base).toNat data :: rest
    else c :: overwriteIn addr data rest

/-- Write code, opening the pages that it touches for the time of the copy. -/
def writePages (addr : Word) (data : List UInt8) : CodeM μ Unit := do
  let m ← get
  let some c := m.chunkOf? addr data.length | fail (.outOfRange addr data.length)
  let page := m.mapper.pageSize
  let offset := (addr - c.base).toNat
  let first := offset / page * page
  let last := (offset + data.length + page - 1) / page * page
  if c.size < last then throw .missing
  let start := if first = c.size then c.base else c.base + first.toUInt64
  onPages (·.protect start (last - first) true) .makeWritable
  modify fun m =>
    match m with
    | { mapper, pages, chunkSize, chunks, free, inUse, closed } =>
      { mapper, pages, chunkSize, free, inUse, closed, chunks := overwriteIn addr data chunks }
  onPages (·.protect start (last - first) false) .makeExecutable

def grow (size : Int) : CodeM μ Unit := do
  let m ← get
  let n := if m.chunkSize < size then alignUp size m.mapper.pageSize else m.chunkSize
  let c ← onPages (·.map n) (.map n)
  -- a chunk is known by its first byte
  if c.size = 0 then throw .missing
  modify fun m => { m with chunks := m.chunks ++ [c], free := m.free.insert ⟨c.base, c.size⟩ }

def release (b : Block) (m : CodeMemory μ) : CodeMemory μ :=
  let mayJoin (s : Span) : Bool :=
    match m.chunkOf? b.addr b.size with
    | some owner => owner.holds s.addr s.size
    | none => false
  { m with inUse := wrap64 (m.inUse - b.size), free := m.free.release b.span mayJoin }

/-- The best fit, in a new chunk if there is none yet. -/
def takeSpan (size : Int) : CodeM μ Span := do
  match (← get).free.bestFit? size with
  | some s => return s
  | none =>
    grow size
    match (← get).free.bestFit? size with
    | some s => return s
    | none => fail (.noSpan size)

def carve (s : Span) (size : Int) (m : CodeMemory μ) : CodeMemory μ :=
  let free := m.free.erase s
  let rest := wrap64 (s.size - size)
  { m with
    free := if 0 < rest then free.insert ⟨s.addr + Word.ofInt size, rest⟩ else free
    inUse := wrap64 (m.inUse + size) }

def allocate (code : List UInt8) : CodeM μ Block := do
  if code.isEmpty then fail .empty
  if (← get).closed then fail .closed
  let size := alignUp code.length alignment
  let s ← takeSpan size
  modify (carve s size)
  let b : Block := ⟨s.addr, size⟩
  tryCatch (writePages b.addr code) fun e => do
    if let .error _ := e then modify (release b)
    throw e
  return b

/-- Give a block back, unless it is empty or everything is given back already. -/
def deallocate (b : Block) (m : CodeMemory μ) : CodeMemory μ :=
  if m.closed ∨ b.size = 0 then m else m.release b

def write (addr : Word) (data : List UInt8) : CodeM μ Unit := do
  if (← get).closed then fail .closed
  writePages addr data

def read (m : CodeMemory μ) (addr : Word) (n : Int) : Except (Abort Error) (List UInt8) := do
  let some c := m.chunkOf? addr n | throw (.error (.outOfRange addr n))
  let offset := (addr - c.base).toNat
  if n < 0 ∨ c.size < offset + n.toNat then throw .missing
  return c.bytes offset n.toNat

structure Stats where
  chunks : Nat
  mapped : Nat
  inUse : Int
  freeSpans : Nat

def Stats.text (s : Stats) : String :=
  toString s.chunks ++ " chunks, " ++ ByteSize.text s.mapped ++ " mapped, " ++
    ByteSize.text s.inUse ++ " in use, " ++ toString s.freeSpans ++ " free spans"

def stats (m : CodeMemory μ) : Stats where
  chunks := m.chunks.length
  mapped := (m.chunks.map (·.size)).foldl (· + ·) 0
  inUse := m.inUse
  freeSpans := m.free.size

def unmapAll (mapper : Mapper μ) : List Region → μ → List String × μ
  | [], pages => ([], pages)
  | c :: rest, pages =>
    let (r, pages) := mapper.unmap c.base c.size pages
    let (causes, pages) := unmapAll mapper rest pages
    match r with
    | .ok () => (causes, pages)
    | .error e => (e :: causes, pages)

def close : CodeM μ Unit := do
  let m ← get
  if m.closed then return
  let (causes, pages) := unmapAll m.mapper m.chunks m.pages
  set { m with pages, chunks := [], free := {}, closed := true }
  unless causes.isEmpty do fail (.unmap causes)

end CodeMemory

inductive PageCall where
  | map
  | unmap
  | protect
  deriving DecidableEq

def PageCall.name : PageCall → String
  | map => "map"
  | unmap => "unmap"
  | protect => "protect"

structure PageRules where
  pageSize : Nat := 4096
  gap : Nat := 0
  /-- Whether chunks are taken from the upper end. -/
  downward : Bool := false
  full : String := "cannot allocate memory"
  /-- The calls to refuse, each counted from one among its kind. -/
  refused : List (PageCall × Nat) := []

/-- The addresses not handed out yet, and the calls so far. -/
structure Pages where
  low : Word
  high : Word
  calls : List PageCall := []
  /-- The calls that were not refused: what was done, and to which bytes. -/
  log : List (String × Word × Nat) := []

namespace Pages

def call {α : Type} (rules : PageRules) (kind : PageCall) (label : String) (size : Nat)
    (body : Pages → Option (Word × α × Pages)) (p : Pages) : Except String α × Pages :=
  let p := { p with calls := kind :: p.calls }
  if rules.refused.contains (kind, p.calls.count kind) then (.error (kind.name ++ " refused"), p)
  else
    match body p with
    | none => (.error rules.full, p)
    | some (addr, a, p) => (.ok a, { p with log := p.log ++ [(label, addr, size)] })

/-- Take a chunk off the range. It has its pages to itself. -/
def take? (rules : PageRules) (size : Nat) (p : Pages) : Option (Word × Region × Pages) :=
  let room := (size + rules.pageSize - 1) / rules.pageSize * rules.pageSize
  let taken := (room + rules.gap).toUInt64
  if p.high.toNat - p.low.toNat < room + rules.gap then none
  else if rules.downward then
    let base := p.high - room.toUInt64
    some (base, ⟨base, size, #[]⟩, { p with high := p.high - taken })
  else some (p.low, ⟨p.low, size, #[]⟩, { p with low := p.low + taken })

def mapper (rules : PageRules) : Mapper Pages where
  pageSize := rules.pageSize
  map size := call rules .map "map" size.toNat (take? rules size.toNat)
  unmap addr size := call rules .unmap "unmap" size fun p => some (addr, (), p)
  protect addr size writable :=
    call rules .protect (if writable then "rw" else "rx") size fun p => some (addr, (), p)

end Pages

end TraceCompiler
