import TraceCompiler.Profile.Recording
import TraceCompiler.Runner.Session

/-! # Runs

A run does what a command line says, on the files that it can see.
-/

namespace TraceCompiler.Runner

structure Report where
  result : Except (Abort Error) Unit
  files : Files
  stdout : String := ""
  /-- The log, as far as the log level lets it through. -/
  log : List Log.Record := []
  usage : Bool := false

def activityKind : Engine.Activity → Word
  | .compile => 2
  | .load => 3
  | .patch => 4
  | .execute => 5

/-- The recording of activities, whose durations are not measured. -/
def recordingOf (as : List Engine.Activity) : List UInt8 :=
  Profile.Recording.bytes .standard (as.map fun a => ⟨activityKind a, 0⟩)

def settingsOf (o : Options) (files : Files) : Except Error Engine.Settings := do
  let settings ←
    if o.config.isEmpty then pure Engine.Settings.standard
    else
      let text ← (files.readText o.config).mapError .readSettings
      (Engine.Settings.parse text).mapError .settings
  return if o.verbose then { settings with logLevel := "debug" } else settings

def documentOf (o : Options) (files : Files) : Except Error Program.Document := do
  let text ← (files.readText o.trace).mapError (.readTrace o.trace)
  (Program.Document.parse text).mapError .document

def codePages : Pages := ⟨0x010000000000, 0x7f0000000000, [], []⟩

def frameWords : Engine.WordMapper where
  map _ size := if size ≤ 0x400000000 then .ok () else .error "cannot allocate memory"

def runSession (o : Options) (settings : Engine.Settings) (files : Files) : Report × List Engine.Activity :=
  let made := do
    let level ← settings.level
    return (level, ← Engine.new 1 settings false false (Pages.mapper {}) codePages frameWords)
  match made with
  | .error e => ({ result := .error (.error (.settings (.invalid e))), files }, [])
  | .ok (level, engine) =>
    match documentOf o files with
    | .error e => ({ result := .error e.abort, files }, [])
    | .ok d =>
      let (result, s) := (SessionM.perform o d).run { engine }
      ({ result, files, stdout := s.stdout
         log := s.engine.log.reverse.filter fun r => level.value ≤ r.level.value },
        s.engine.activities.reverse)

def runOptions (o : Options) (files : Files) : Report :=
  if !o.sample.isEmpty then
    match files.write o.sample (Text.bytesOf Program.Document.sample.text) with
    | .ok files => { result := .ok (), files }
    | .error e => { result := .error (.error (.createSample o.sample e)), files }
  else if o.trace.isEmpty then { result := .error (.error .noTraceFile), files, usage := true }
  else
    match settingsOf o files with
    | .error e => { result := .error e.abort, files }
    | .ok settings =>
      if o.recording.isEmpty then (runSession o settings files).1
      else
        match files.write o.recording (recordingOf []) with
        | .error e => { result := .error (.error (.createRecording e)), files }
        | .ok files =>
          let (report, activities) := runSession o settings files
          match report.files.write o.recording (recordingOf activities) with
          | .ok files => { report with files }
          | .error _ => report

def run (args : List String) (files : Files) : Report :=
  match Options.parse args with
  | .error e => { result := .error (.error (.options e)), files, usage := true }
  | .ok none => { result := .ok (), files, usage := true }
  | .ok (some o) => runOptions o files

end TraceCompiler.Runner
