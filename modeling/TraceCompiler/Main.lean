import TraceCompiler.Runner.Basic

/-! # The command line

Reads the files that the options name, does the run, and writes what it made.
-/

namespace TraceCompiler.Runner

/-- Add a file and its folder as they are on the disk. -/
def Files.load (fs : Files) (path : String) : IO Files := do
  let parent := Text.joined "/" (path.splitOn "/").dropLast
  let found ← [parent, path].filterM fun p => (System.mkFilePath [p]).isDir
  let fs := { fs with folders := found.map Path.ofString ++ fs.folders }
  let .ok bs ← (IO.FS.readBinFile path).toBaseIO | return fs
  return { fs with entries := (Path.ofString path, bs.toList) :: fs.entries }

def paths (args : List String) : List String :=
  match Options.parse args with
  | .ok (some o) => [o.trace, o.config, o.sample, o.recording].filter (!·.isEmpty)
  | _ => []

/-- Tell of an error. The result is the exit code. -/
def conclude : Except (Abort Error) Unit → IO UInt32
  | .ok () => return 0
  | .error (.error e) => do
    IO.eprintln ("tracerun: " ++ Text.shown e.message)
    return 1
  | .error (.fault m) => do
    IO.eprintln ("tracerun: " ++ Text.shown (m.getD "fault"))
    return 2

end TraceCompiler.Runner

open TraceCompiler Runner in
def main (args : List String) : IO UInt32 := do
  let files ← (paths args).foldlM Files.load {}
  let report := run args files
  for path in paths args do
    if let some bs := report.files.get? path then
      if files.get? path ≠ some bs then IO.FS.writeBinFile path ⟨bs.toArray⟩
  IO.print (Text.shown report.stdout)
  for r in report.log do
    IO.eprintln (Text.shown r.line)
  if report.usage then
    if let .error (.error (.options e)) := report.result then IO.eprintln e.message
    IO.eprint Options.usage
  conclude report.result
