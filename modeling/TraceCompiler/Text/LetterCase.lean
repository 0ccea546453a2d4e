import TraceCompiler.Text.Utf8

/-! # Lower case

Every capital of the Unicode character database that has a single small letter is paired with it.
-/

namespace TraceCompiler.Text

/-- Where every second code point is a capital and the next one its small letter: the first capital,
and how many there are. -/
def neighbours : List (Nat × Nat) := [
  (0x100,24),(0x132,3),(0x139,8),(0x14a,23),(0x179,3),(0x182,2),(0x187,1),(0x18b,1),(0x191,1),
  (0x198,1),(0x1a0,3),(0x1a7,1),(0x1ac,1),(0x1af,1),(0x1b3,2),(0x1b8,1),(0x1bc,1),(0x1c5,1),
  (0x1c8,1),(0x1cb,9),(0x1de,9),(0x1f2,2),(0x1f8,20),(0x222,9),(0x23b,1),(0x241,1),(0x246,5),
  (0x370,2),(0x376,1),(0x3d8,12),(0x3f7,1),(0x3fa,1),(0x460,17),(0x48a,27),(0x4c1,7),(0x4d0,48),
  (0x1c89,1),(0x1e00,75),(0x1ea0,48),(0x2183,1),(0x2c60,1),(0x2c67,3),(0x2c72,1),(0x2c75,1),
  (0x2c80,50),(0x2ceb,2),(0x2cf2,1),(0xa640,23),(0xa680,14),(0xa722,7),(0xa732,31),(0xa779,2),
  (0xa77e,5),(0xa78b,1),(0xa790,2),(0xa796,10),(0xa7b4,8),(0xa7c7,2),(0xa7cc,8),(0xa7f5,1)]

/-- Other runs of capitals outside ASCII: the first one, their number and the first small letter. -/
def capitalRuns : List (Nat × Nat × Nat) := [
  (0xc0,23,0xe0),(0xd8,7,0xf8),(0x130,1,0x69),(0x178,1,0xff),(0x181,1,0x253),(0x186,1,0x254),
  (0x189,2,0x256),(0x18e,1,0x1dd),(0x18f,1,0x259),(0x190,1,0x25b),(0x193,1,0x260),(0x194,1,0x263),
  (0x196,1,0x269),(0x197,1,0x268),(0x19c,1,0x26f),(0x19d,1,0x272),(0x19f,1,0x275),(0x1a6,1,0x280),
  (0x1a9,1,0x283),(0x1ae,1,0x288),(0x1b1,2,0x28a),(0x1b7,1,0x292),(0x1c4,1,0x1c6),(0x1c7,1,0x1c9),
  (0x1ca,1,0x1cc),(0x1f1,1,0x1f3),(0x1f6,1,0x195),(0x1f7,1,0x1bf),(0x220,1,0x19e),(0x23a,1,0x2c65),
  (0x23d,1,0x19a),(0x23e,1,0x2c66),(0x243,1,0x180),(0x244,1,0x289),(0x245,1,0x28c),(0x37f,1,0x3f3),
  (0x386,1,0x3ac),(0x388,3,0x3ad),(0x38c,1,0x3cc),(0x38e,2,0x3cd),(0x391,17,0x3b1),(0x3a3,9,0x3c3),
  (0x3cf,1,0x3d7),(0x3f4,1,0x3b8),(0x3f9,1,0x3f2),(0x3fd,3,0x37b),(0x400,16,0x450),(0x410,32,0x430),
  (0x4c0,1,0x4cf),(0x531,38,0x561),(0x10a0,38,0x2d00),(0x10c7,1,0x2d27),(0x10cd,1,0x2d2d),
  (0x13a0,80,0xab70),(0x13f0,6,0x13f8),(0x1c90,43,0x10d0),(0x1cbd,3,0x10fd),(0x1e9e,1,0xdf),
  (0x1f08,8,0x1f00),(0x1f18,6,0x1f10),(0x1f28,8,0x1f20),(0x1f38,8,0x1f30),(0x1f48,6,0x1f40),
  (0x1f59,1,0x1f51),(0x1f5b,1,0x1f53),(0x1f5d,1,0x1f55),(0x1f5f,1,0x1f57),(0x1f68,8,0x1f60),
  (0x1f88,8,0x1f80),(0x1f98,8,0x1f90),(0x1fa8,8,0x1fa0),(0x1fb8,2,0x1fb0),(0x1fba,2,0x1f70),
  (0x1fbc,1,0x1fb3),(0x1fc8,4,0x1f72),(0x1fcc,1,0x1fc3),(0x1fd8,2,0x1fd0),(0x1fda,2,0x1f76),
  (0x1fe8,2,0x1fe0),(0x1fea,2,0x1f7a),(0x1fec,1,0x1fe5),(0x1ff8,2,0x1f78),(0x1ffa,2,0x1f7c),
  (0x1ffc,1,0x1ff3),(0x2126,1,0x3c9),(0x212a,1,0x6b),(0x212b,1,0xe5),(0x2132,1,0x214e),
  (0x2160,16,0x2170),(0x24b6,26,0x24d0),(0x2c00,48,0x2c30),(0x2c62,1,0x26b),(0x2c63,1,0x1d7d),
  (0x2c64,1,0x27d),(0x2c6d,1,0x251),(0x2c6e,1,0x271),(0x2c6f,1,0x250),(0x2c70,1,0x252),
  (0x2c7e,2,0x23f),(0xa77d,1,0x1d79),(0xa78d,1,0x265),(0xa7aa,1,0x266),(0xa7ab,1,0x25c),
  (0xa7ac,1,0x261),(0xa7ad,1,0x26c),(0xa7ae,1,0x26a),(0xa7b0,1,0x29e),(0xa7b1,1,0x287),
  (0xa7b2,1,0x29d),(0xa7b3,1,0xab53),(0xa7c4,1,0xa794),(0xa7c5,1,0x282),(0xa7c6,1,0x1d8e),
  (0xa7cb,1,0x264),(0xa7dc,1,0x19b),(0xff21,26,0xff41),(0x10400,40,0x10428),(0x104b0,36,0x104d8),
  (0x10570,11,0x10597),(0x1057c,15,0x105a3),(0x1058c,7,0x105b3),(0x10594,2,0x105bb),
  (0x10c80,51,0x10cc0),(0x10d50,22,0x10d70),(0x118a0,32,0x118c0),(0x16e40,32,0x16e60),
  (0x16ea0,25,0x16ebb),(0x1e900,34,0x1e922)]

def smallOf? (n : Nat) : Option Nat :=
  if neighbours.any fun (first, count) => first ≤ n && n < first + 2 * count && (n - first) % 2 == 0
  then some (n + 1)
  else (capitalRuns.find? fun (first, count, _) => first ≤ n && n < first + count).map
    fun (first, _, small) => n - first + small

/-- The small letter of a capital; any other character is its own. A stray byte is replaced. -/
def lower (c : Char) : Char :=
  if c.toNat < 128 then c.toLower
  else if (strayByte? c).isSome then replacement
  else ((smallOf? c.toNat).map Char.ofNat).getD c

def lowered (s : String) : String := s.map lower

end TraceCompiler.Text
