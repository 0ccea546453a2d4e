import TraceCompiler.Text.Utf8

/-! # Files

The files that a run can see, and those that it makes.
-/

namespace TraceCompiler.Runner

inductive FileCause where
  | notFound
  | isFolder
  | notFolder
  | invalid
  | tooLong
  deriving DecidableEq

structure FileError where
  action : String
  path : String
  cause : FileCause
  deriving DecidableEq

def FileError.message (e : FileError) : String :=
  e.action ++ " " ++ e.path ++ ": " ++
    match e.cause with
    | .notFound => "no such file or directory"
    | .isFolder => "is a directory"
    | .notFolder => "not a directory"
    | .invalid => "invalid argument"
    | .tooLong => "file name too long"

abbrev Path := List String

namespace Path

def step (p : Path) (name : String) : Path :=
  if name = "" ∨ name = "." then p
  else if name = ".." then if p.all (· = "..") then p ++ [name] else if p = ["/"] then p else p.dropLast
  else p ++ [name]

def split (s : String) : Path × List String := (if s.startsWith "/" then ["/"] else [], s.splitOn "/")

def ofString (s : String) : Path :=
  let (start, names) := split s
  names.foldl step start

def maxBytes : Nat := 4095

def maxNameBytes : Nat := 255

def void : Path := ["/", "dev", "null"]

def fault? (s : String) : Option FileCause :=
  if s.isEmpty then some .notFound
  else if s.contains '\x00' then some .invalid
  else if maxBytes < s.utf8ByteSize then some .tooLong
  else none

end Path

structure Files where
  entries : List (Path × List UInt8) := []
  /-- Folders that are there even without files. The folders on the way to them are there too. -/
  folders : List Path := [["/", "dev"], ["/", "tmp"]]

namespace Files

def ofTexts (texts : List (String × String)) : Files where
  entries := texts.map fun (p, s) => (Path.ofString p, Text.bytesOf s)

def bytes? (fs : Files) (p : Path) : Option (List UInt8) :=
  if p = Path.void then some [] else fs.entries.lookup p

def get? (fs : Files) (path : String) : Option (List UInt8) := fs.bytes? (Path.ofString path)

def isFolder (fs : Files) (p : Path) : Bool :=
  p.all (· = "..") || p = ["/"] || fs.folders.any p.isPrefixOf ||
    fs.entries.any fun (q, _) => p.isPrefixOf q && p.length < q.length

def follow (fs : Files) : Path → List String → Except FileCause Path
  | p, [] => .ok p
  | p, n :: rest =>
    if !fs.isFolder p then .error (if (fs.bytes? p).isSome then .notFolder else .notFound)
    else if Path.maxNameBytes < n.utf8ByteSize then .error .tooLong
    else follow fs (p.step n) rest

/-- Find what a path leads to. A slash at its end is there only behind a folder. -/
def locate (fs : Files) (path : String) : Except FileCause Path := do
  if let some c := Path.fault? path then throw c
  let (start, names) := Path.split path
  fs.follow start names

def read (fs : Files) (path : String) : Except FileError (List UInt8) := do
  let p ← (fs.locate path).mapError (⟨"open", path, ·⟩)
  match fs.bytes? p with
  | some bs => return bs
  | none => throw (if fs.isFolder p then ⟨"read", path, .isFolder⟩ else ⟨"open", path, .notFound⟩)

def readText (fs : Files) (path : String) : Except FileError String :=
  (fs.read path).map fun bs => String.ofList (Text.charsOfBytes bs)

/-- Find where a file can be made. A path that ends in a slash is one of a folder, whatever is
there. -/
def place (fs : Files) (path : String) : Except FileCause Path := do
  if let some c := Path.fault? path then throw c
  let (start, names) := Path.split path
  let named := (names.reverse.dropWhile (·.isEmpty)).reverse
  -- The empty name stands for the folder itself.
  let folder ← fs.follow start (named.dropLast ++ [""])
  let name := named.getLast?.getD ""
  if named.length < names.length && name ∉ ["", ".", ".."] then throw .isFolder
  let p ← fs.follow folder [name]
  if fs.isFolder p then throw .isFolder
  return p

def write (fs : Files) (path : String) (bs : List UInt8) : Except FileError Files := do
  let p ← (fs.place path).mapError (⟨"open", path, ·⟩)
  if p = Path.void then return fs
  return { fs with entries := (p, bs) :: fs.entries.filter (·.1 ≠ p) }

end Files

end TraceCompiler.Runner
