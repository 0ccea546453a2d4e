import TraceCompiler.Number.Word
import TraceCompiler.Text.Basic

/-! # Patch sites

A patch site is the address of the displacement of an installed jump.
-/

namespace TraceCompiler.Machine

inductive PatchError (ε : Type) where
  | used
  | outOfRange (target site : Word)
  | write (site : Word) (e : ε)
  deriving DecidableEq

def PatchError.message {ε : Type} (write : ε → String) : PatchError ε → String
  | used => "asm: patch site already used"
  | outOfRange target site =>
    "asm: target " ++ Text.hex target.toNat ++ " out of rel32 range from " ++ Text.hex site.toNat
  | .write site e => "asm: patch " ++ Text.hex site.toNat ++ ": " ++ write e

instance {ε : Type} [ToString ε] : ToString (PatchError ε) := ⟨PatchError.message toString⟩

def displacement {ε : Type} (site target : Word) : Except (PatchError ε) Int :=
  let rel := Word.signed (target - (site + 4))
  if TraceCompiler.fitsInt32 rel then .ok rel else .error (.outOfRange target site)

structure PatchSite where
  addr : Word
  used : Bool := false
  deriving DecidableEq

def PatchSite.patch {γ ε : Type} (p : PatchSite) (target : Word)
    (write : Word → List UInt8 → γ → Except ε Unit × γ) (code : γ) :
    Except (PatchError ε) Unit × PatchSite × γ :=
  if p.used then (.error .used, p, code)
  else
    match displacement p.addr target with
    | .error e => (.error e, p, code)
    | .ok rel =>
      match write p.addr (bytesOfInt 4 rel) code with
      | (.error e, code) => (.error (.write p.addr e), p, code)
      | (.ok (), code) => (.ok (), { p with used := true }, code)

end TraceCompiler.Machine
