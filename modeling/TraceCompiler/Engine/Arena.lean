import TraceCompiler.CodeMemory.Basic

/-! # Arenas

An arena hands out zeroed memory from the front of mapped chunks and frees nothing until it is
closed.
-/

namespace TraceCompiler

/-- A bump allocator over a mapper. -/
structure Arena (μ : Type) where
  mapper : Mapper μ
  pages : μ
  chunkSize : Int
  chunks : List Region := []
  current : Option Region := none
  offset : Int := 0
  allocated : Int := 0

namespace Arena

variable {μ : Type}

def defaultChunkSize : Int := 64 * 1024

def new (mapper : Mapper μ) (pages : μ) (chunkSize : Int) : Arena μ where
  mapper := mapper
  pages := pages
  chunkSize := if chunkSize ≤ 0 then defaultChunkSize else chunkSize

/-- The bytes that a request takes: a multiple of 16, and not none. -/
def rounded (size : Word) : Int :=
  let n := Word.signed ((size + 15) &&& ~~~(15 : Word))
  if n = 0 then 16 else n

def grow (a : Arena μ) (n : Int) : Except String Unit × Arena μ :=
  match a.mapper.map (max n a.chunkSize) a.pages with
  | (.error e, pages) => (.error e, { a with pages })
  | (.ok c, pages) =>
    (.ok (), { a with pages, chunks := a.chunks ++ [c], current := some c, offset := 0 })

def makeRoom (a : Arena μ) (n : Int) : Except String Unit × Arena μ :=
  match a.current with
  | some c => if wrap64 (a.offset + n) ≤ c.size then (.ok (), a) else a.grow n
  | none => a.grow n

/-- Memory for a request; a zero address if none can be mapped. -/
def malloc (a : Arena μ) (size : Word) : Except (Abort Empty) (Word × Arena μ) :=
  let n := rounded size
  match a.makeRoom n with
  | (.error _, a) => .ok (0, a)
  | (.ok (), a) => do
    let c ← require a.current
    if a.offset < 0 ∨ c.size ≤ a.offset then throw .missing
    return (c.base + Word.ofInt a.offset,
      { a with offset := wrap64 (a.offset + n), allocated := wrap64 (a.allocated + n) })

/-- A size near the last word wraps around: it is granted with 16 bytes. -/
theorem malloc_wraps :
    let M : Mapper Unit := ⟨0x1000, fun n _ => (.ok ⟨0x10000, n.toNat, #[]⟩, ()), fun _ _ _ => (.ok (), ()),
      fun _ _ _ _ => (.ok (), ())⟩
    ((new M () 0).malloc 0xFFFFFFFFFFFFFFFE).toOption.map (fun (w, a) => (w, a.allocated)) =
      some (0x10000, 16) := by
  decide +kernel

def memory (a : Arena μ) : Memory := ⟨a.chunks⟩

def close (a : Arena μ) : List String × Arena μ :=
  let (causes, pages) := CodeMemory.unmapAll a.mapper a.chunks a.pages
  (causes, { a with pages, chunks := [], current := none, offset := 0 })

end Arena

end TraceCompiler
