/-! # Characters and bytes

Bytes are read as UTF-8.
-/

namespace TraceCompiler.Text

/-- What is shown for a byte that is no part of a character. -/
def replacement : Char := '\ufffd'

/-- The code that stray bytes are counted from. The characters there are for private use. -/
def strayBase : Nat := 0x10f700

def strayChar (b : UInt8) : Char := Char.ofNat (strayBase + b.toNat)

/-- The stray byte that a character holds. Stray bytes lie outside of ASCII. -/
def strayByte? (c : Char) : Option UInt8 :=
  if strayBase + 0x80 ≤ c.toNat && c.toNat ≤ strayBase + 0xff then some (c.toNat - strayBase).toUInt8
  else none

def shown (s : String) : String := s.map fun c => if (strayByte? c).isSome then replacement else c

def isTail (b : UInt8) : Bool := 0x80 ≤ b && b ≤ 0xbf

def tailBits (b : UInt8) : Nat := b.toNat % 64

/-- The character that starts with a byte, and how many more bytes it takes. `stray` tells what
becomes of a byte that starts none. -/
def charFrom (stray : UInt8 → Char) (a : UInt8) (rest : List UInt8) : Char × Nat :=
  let n := a.toNat
  let c (i : Nat) : UInt8 := (rest[i]?).getD 0
  if n < 0x80 then (Char.ofNat n, 0)
  else if 0xc2 ≤ n && n ≤ 0xdf && isTail (c 0) then (Char.ofNat ((n % 32) * 64 + tailBits (c 0)), 1)
  else if 0xe0 ≤ n && n ≤ 0xef && isTail (c 0) && isTail (c 1) &&
      (n ≠ 0xe0 || 0xa0 ≤ c 0) && (n ≠ 0xed || c 0 ≤ 0x9f) then
    (Char.ofNat ((n % 16) * 4096 + tailBits (c 0) * 64 + tailBits (c 1)), 2)
  else if 0xf0 ≤ n && n ≤ 0xf4 && isTail (c 0) && isTail (c 1) && isTail (c 2) &&
      (n ≠ 0xf0 || 0x90 ≤ c 0) && (n ≠ 0xf4 || c 0 ≤ 0x8f) then
    (Char.ofNat ((n % 8) * 262144 + tailBits (c 0) * 4096 + tailBits (c 1) * 64 + tailBits (c 2)), 3)
  else (stray a, 0)

def decoded (stray : UInt8 → Char) : List UInt8 → List Char
  | [] => []
  | a :: rest =>
    let (c, more) := charFrom stray a rest
    c :: decoded stray (rest.drop more)
termination_by bs => bs.length
decreasing_by simp only [List.length_cons, List.length_drop]; omega

def charsOfBytes (bs : List UInt8) : List Char := decoded (fun _ => replacement) bs

def ofBytes (bs : List UInt8) : String := String.ofList (decoded strayChar bs)

def byteCount (s : String) : Nat :=
  (s.toList.map fun c => if (strayByte? c).isSome then 1 else c.utf8Size).foldl (· + ·) 0

def bytesOf (s : String) : List UInt8 := s.toUTF8.data.toList

end TraceCompiler.Text
