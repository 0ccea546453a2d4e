import TraceCompiler.Engine.Compile
import TraceCompiler.Engine.Execute

/-! # Groups of engines

Several engines can share a supply of boxes and a sandbox.
-/

namespace TraceCompiler

namespace Engine

variable {μ : Type}

structure Group (μ : Type) where
  engines : List (Engine μ)
  tokens : List Token := []
  supply : BoxSupply := {}
  sandbox : Sandbox

abbrev GroupM (μ : Type) := StateM (Group μ)

namespace GroupM

/-- An operation of one engine, on the boxes of all. -/
def on {α : Type} (k : Nat) (m : EngineM μ α) : GroupM μ (Except (Abort Error) α) :=
  modifyGet fun c =>
    match c.engines[k]? with
    | none => (.error .missing, c)
    | some g =>
      let (r, g) := m.run { g with supply := c.supply }
      (r, { c with engines := c.engines.set k g, supply := g.supply })

/-- Set the inputs of a loop, as far as the engine takes them, up to one that is a fault. -/
def setInputs (k : Nat) : List ((Kind × Word) × Nat) → GroupM μ (Except (Abort Error) Unit)
  | [] => return .ok ()
  | ((kind, w), i) :: rest => do
    match ← on k (setValue i kind w) with
    | .error (.fault m) => return .error (.fault m)
    | _ => setInputs k rest

def execute (s : Surroundings μ Sandbox) (k : Nat) (token : Option Token) :
    GroupM μ (Except (Abort Error) Exit) :=
  modifyGet fun c =>
    match c.engines[k]? with
    | none => (.error .missing, c)
    | some g =>
      let (r, g, sandbox) := Engine.execute s token c.sandbox g
      (r, { c with engines := c.engines.set k g, sandbox })

end GroupM

end Engine

def Sandbox.surroundings {μ : Type} (call : Word → List Word → Except (Abort String) Word) :
    Engine.Surroundings μ Sandbox where
  read addr n s := s.memory.read? addr n
  write addr bs s := s.write? addr bs
  call fn _ args s := (call fn args, s)

end TraceCompiler
