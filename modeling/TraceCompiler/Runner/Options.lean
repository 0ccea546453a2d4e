import TraceCompiler.Number.Literal
import TraceCompiler.Trace.Value

/-! # Command-line options

An option is a name behind one or two dashes; the inputs of a program are given as values.
-/

namespace TraceCompiler.Runner

inductive InputError where
  | count (takes got : Nat)
  | value (i : Nat) (e : Literal.Error)
  deriving DecidableEq

def InputError.message : InputError → String
  | count takes got => "trace takes " ++ toString takes ++ " inputs, got " ++ toString got
  | value i e => "input " ++ toString i ++ ": " ++ e.message

instance : ToString InputError := ⟨InputError.message⟩

def readValue (k : Kind) (s : String) : Except Literal.Error Word :=
  match k with
  | .float => Literal.readReal s
  | .ref => (Literal.readUnsigned s).map fun n => Word.ofInt n
  | _ => (Literal.readSigned s).map Word.ofInt

def readValuesFrom : Nat → List (Kind × String) → Except InputError (List Word)
  | _, [] => .ok []
  | i, (k, s) :: rest => do
    let w ← (readValue k (Text.trimmed s)).mapError (.value i)
    return w :: (← readValuesFrom (i + 1) rest)

def readValues (kinds : List Kind) (s : String) : Except InputError (List Word) :=
  let parts := if s.isEmpty then [] else (s.toList.splitOn ',').map String.ofList
  if parts.length ≠ kinds.length then .error (.count kinds.length parts.length)
  else readValuesFrom 0 (kinds.zip parts)

def valueText (k : Kind) (w : Word) : String :=
  match k with
  | .float => Decimal.general.text w
  | .ref => Text.hex w.toNat
  | _ => toString (Word.signed w)

structure Options where
  trace : String := ""
  config : String := ""
  loop : String := ""
  input : String := ""
  bridges : Bool := true
  iterations : Int := 1
  dump : Bool := false
  check : Bool := false
  recording : String := ""
  sample : String := ""
  verbose : Bool := false

inductive OptionError where
  | malformed (arg : String)
  | unknown (name : String)
  | noValue (name : String)
  | switch (name value : String)
  | count (name value : String) (fault : Literal.Fault)
  deriving DecidableEq

def OptionError.message : OptionError → String
  | malformed a => "bad flag syntax: " ++ a
  | unknown n => "flag provided but not defined: -" ++ n
  | noValue n => "flag needs an argument: -" ++ n
  | switch n v => "invalid boolean value " ++ Text.quoted v ++ " for -" ++ n ++ ": parse error"
  | count n v f =>
    "invalid value " ++ Text.quoted v ++ " for flag -" ++ n ++ ": " ++
      match f with
      | .malformed => "parse error"
      | .outOfRange => "value out of range"

namespace Options

inductive Setter where
  | text (set : String → Options → Options)
  | count (set : Int → Options → Options)
  | switch (set : Bool → Options → Options)

/-- The options by their names, with what they are for. -/
def setters : List (String × Setter × String) := [
  ("bridges", .switch fun b o => { o with bridges := b },
    "Attach the bridges declared in the trace file (default true)"),
  ("check", .switch fun b o => { o with check := b },
    "Compare the result with the reference interpreter"),
  ("config", .text fun s o => { o with config := s }, "YAML CPU configuration"),
  ("dump", .switch fun b o => { o with dump := b },
    "Print the machine code of every compiled loop"),
  ("example", .text fun s o => { o with sample := s },
    "Write an example trace file to this path and exit"),
  ("input", .text fun s o => { o with input := s }, "Comma separated input values"),
  ("iterations", .count fun i o => { o with iterations := i },
    "Number of times to execute the loop (default 1)"),
  ("loop", .text fun s o => { o with loop := s },
    "Loop to execute (default: the first loop in the file)"),
  ("timeslice", .text fun s o => { o with recording := s },
    "Record compile and execution timeslices to this file"),
  ("trace", .text fun s o => { o with trace := s }, "YAML trace file to compile"),
  ("v", .switch fun b o => { o with verbose := b }, "Log every compiled trace")]

def readBool? (s : String) : Option Bool :=
  if s ∈ ["1", "t", "T", "TRUE", "true", "True"] then some true
  else if s ∈ ["0", "f", "F", "FALSE", "false", "False"] then some false
  else none

def split? (arg : String) : Option (Except OptionError (String × Option String)) :=
  let name? (cs : List Char) : Except OptionError (String × Option String) :=
    match cs with
    | [] | '-' :: _ | '=' :: _ => .error (.malformed arg)
    | c :: rest =>
      let name := String.ofList (c :: rest.takeWhile (· ≠ '='))
      match rest.dropWhile (· ≠ '=') with
      | [] => .ok (name, none)
      | _ :: value => .ok (name, some (String.ofList value))
  match arg.toList with
  | '-' :: '-' :: rest => if rest.isEmpty then none else some (name? rest)
  | '-' :: c :: rest => some (name? (c :: rest))
  | _ => none

def apply (o : Options) (name value : String) : Setter → Except OptionError Options
  | .text set => .ok (set value o)
  | .count set =>
    match Literal.readSigned value with
    | .ok i => .ok (set i o)
    | .error e => .error (.count name value e.fault)
  | .switch set =>
    match readBool? value with
    | some b => .ok (set b o)
    | none => .error (.switch name value)

def parseFrom (o : Options) : List String → Except OptionError (Option Options)
  | [] => .ok (some o)
  | arg :: rest =>
    match split? arg with
    | none => .ok (some o)
    | some (.error e) => .error e
    | some (.ok (name, value)) =>
      match setters.lookup name, value, rest with
      | none, _, _ => if name = "help" ∨ name = "h" then .ok none else .error (.unknown name)
      | some (.switch set, _), none, rest => parseFrom (set true o) rest
      | some (s, _), some value, rest => o.apply name value s >>= (parseFrom · rest)
      | some (s, _), none, value :: rest => o.apply name value s >>= (parseFrom · rest)
      | some _, none, [] => .error (.noValue name)

def parse (args : List String) : Except OptionError (Option Options) := parseFrom {} args

def usage : String :=
  "Usage of tracerun:\n" ++ String.join (setters.map fun (name, s, what) =>
    let kind := match s with
      | .text _ => " string"
      | .count _ => " int"
      | .switch _ => ""
    "  -" ++ name ++ kind ++ (if name.length = 1 then "\t" else "\n    \t") ++ what ++ "\n")

end Options

end TraceCompiler.Runner
