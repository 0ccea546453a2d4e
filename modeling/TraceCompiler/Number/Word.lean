/-! # Machine words

Every value of a trace is one 64-bit word.
-/

namespace TraceCompiler

abbrev Word := UInt64

namespace Word

def signed (w : Word) : Int := w.toBitVec.toInt

def ofInt (i : Int) : Word := ⟨BitVec.ofInt 64 i⟩

theorem toNat_ofInt (i : Int) : ((ofInt i).toNat : Int) = i % 0x10000000000000000 := by
  unfold ofInt
  rw [UInt64.toNat, BitVec.toNat_ofInt]
  omega

def ofBool (b : Bool) : Word := if b then 1 else 0

/-- Whether the signed reading fits a sign-extended 32-bit immediate. -/
def fitsInt32 (w : Word) : Bool := -0x80000000 ≤ signed w ∧ signed w < 0x80000000

def bytes (n : Nat) (w : Word) : List UInt8 :=
  (List.range n).map fun i => (w.toNat / Nat.pow 256 i % 256).toUInt8

def ofBytes (bs : List UInt8) : Word :=
  (bs.foldr (fun (b : UInt8) acc => b.toNat + 256 * acc) 0).toUInt64

/-- Read the low `n` bytes as a signed number and extend it to a word. -/
def signExtend (n : Nat) (w : Word) : Word := ofInt (Int.bmod (w.toNat % Nat.pow 256 n) (Nat.pow 256 n))

end Word

def wrap32 (i : Int) : Int := Int.bmod i 0x100000000

def wrap64 (i : Int) : Int := Int.bmod i 0x10000000000000000

theorem wrap64_of_lt {i : Int} (h0 : -0x8000000000000000 ≤ i) (h1 : i < 0x8000000000000000) :
    wrap64 i = i := by
  unfold wrap64
  rw [Int.bmod_def]
  omega

theorem wrap64_range (i : Int) : -0x8000000000000000 ≤ wrap64 i ∧ wrap64 i < 0x8000000000000000 := by
  unfold wrap64
  rw [Int.bmod_def]
  omega

theorem wrap64_add (a b : Int) : wrap64 (wrap64 a + b) = wrap64 (a + b) := Int.bmod_add_bmod

def fitsInt8 (i : Int) : Bool := -128 ≤ i ∧ i ≤ 127

def fitsInt32 (i : Int) : Bool := -0x80000000 ≤ i ∧ i < 0x80000000

def bytesOfInt (n : Nat) (i : Int) : List UInt8 := Word.bytes n (Word.ofInt i)

end TraceCompiler
