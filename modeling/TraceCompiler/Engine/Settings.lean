import TraceCompiler.CodeMemory.Basic
import TraceCompiler.Log.Record
import TraceCompiler.Yaml.Decode
import TraceCompiler.Yaml.Style

/-! # Engine settings

Settings are read on top of the standard ones.
-/

namespace TraceCompiler.Engine

structure Settings where
  /-- The bytes to map at a time for code; zero for the default. -/
  codeChunkSize : Int := 0
  /-- How many registers to use; zero for all of them. -/
  maxInts : Int := 0
  maxFloats : Int := 0
  debugChecks : Bool := false
  logLevel : String := ""

namespace Settings

def standard : Settings where
  codeChunkSize := CodeMemory.defaultChunkSize
  logLevel := "info"

inductive Error where
  | negativeChunkSize (n : Int)
  | negativeRegisters
  | level (e : Log.Level.Error)
  deriving DecidableEq

def Error.message : Error → String
  | negativeChunkSize n => "cpu: negative code_chunk_size " ++ toString n
  | negativeRegisters => "cpu: register limits must not be negative"
  | level e => "cpu: log_level: " ++ e.message

instance : ToString Error := ⟨Error.message⟩

/-- The log level; no text stands for messages of interest. -/
def level (s : Settings) : Except Error Log.Level :=
  if s.logLevel.isEmpty then .ok .info else (Log.Level.parse s.logLevel).mapError .level

def validate (s : Settings) : Except Error Unit := do
  if s.codeChunkSize < 0 then throw (.negativeChunkSize s.codeChunkSize)
  if s.maxInts < 0 ∨ s.maxFloats < 0 then throw .negativeRegisters
  discard s.level

end Settings

namespace Settings

inductive ReadError where
  | yaml (e : Yaml.Error)
  | size (text : String) (e : ByteSize.Error)
  | invalid (e : Error)
  deriving DecidableEq

def ReadError.message : ReadError → String
  | yaml e => "cpu: parse config: " ++ e.message
  | size s e => "cpu: parse config: invalid size " ++ Text.quoted s ++ ": " ++ e.message
  | invalid e => e.message

instance : ToString ReadError := ⟨ReadError.message⟩

open Yaml (Node DecodeM)

def sizeOf (n : Node) (default : Int) : DecodeM ReadError Int := do
  if ← DecodeM.isNull n then return default
  let s ← DecodeM.afresh n (DecodeM.string · "")
  if s.isEmpty then return default
  match ByteSize.parse s with
  | .ok i => return i
  | .error e => throw (.inr (.size s e))

def ofNode : Node → DecodeM ReadError Settings :=
  DecodeM.record standard [
    ("code_chunk_size", fun v s => return { s with codeChunkSize := ← sizeOf v s.codeChunkSize }),
    ("max_int_registers", fun v s => return { s with maxInts := ← DecodeM.int v s.maxInts }),
    ("max_float_registers", fun v s => return { s with maxFloats := ← DecodeM.int v s.maxFloats }),
    ("debug_checks", fun v s => return { s with debugChecks := ← DecodeM.bool v s.debugChecks }),
    ("log_level", fun v s => return { s with logLevel := ← DecodeM.string v s.logLevel })]

def parse (text : String) : Except ReadError Settings := do
  let s ← DecodeM.decode .yaml text standard ofNode
  s.validate.mapError .invalid
  return s

def text (s : Settings) : String :=
  Yaml.Layout.document [
    ("code_chunk_size", .text (ByteSize.text s.codeChunkSize)), ("max_int_registers", .int s.maxInts),
    ("max_float_registers", .int s.maxFloats), ("debug_checks", .bool s.debugChecks),
    ("log_level", .text s.logLevel)]

end Settings

end TraceCompiler.Engine
