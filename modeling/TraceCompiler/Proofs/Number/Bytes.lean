import Mathlib.Algebra.Group.Nat.Defs
import Mathlib.Logic.Function.Basic
import TraceCompiler.Number.Word

/-! # Numbers and their bytes

Reading back the bytes of a number gives the number, as far as the bytes go: `bytesOfInt` keeps an
integer modulo `256 ^ n`, and its two's complement reading is the balanced remainder.
-/

namespace TraceCompiler

open List

namespace Word

theorem foldr_bytes (k n : Nat) : ((range n).map fun i => (k / Nat.pow 256 i % 256).toUInt8).foldr
      (fun (b : UInt8) acc => b.toNat + 256 * acc) 0 = k % 256 ^ n := by
  induction n generalizing k with
  | zero =>
    rw [Nat.pow_zero, Nat.mod_one]
    rfl
  | succ n ih =>
    -- the later bytes of `k` are the bytes of `k / 256`
    have ht : (fun i => (k / Nat.pow 256 (i + 1) % 256).toUInt8) =
        fun i => (k / 256 / Nat.pow 256 i % 256).toUInt8 := by
      funext i
      rw [Nat.div_div_eq_div_mul, Nat.mul_comm]
      rfl
    have hh : (k / Nat.pow 256 0 % 256).toUInt8.toNat = k % 256 := by
      rw [Nat.toUInt8, UInt8.toNat_ofNat']
      change k / 1 % 256 % 256 = _
      omega
    rw [range_succ_eq_map, map_cons, map_map, foldr_cons]
    change _ + 256 * ((range n).map fun i => (k / Nat.pow 256 (i + 1) % 256).toUInt8).foldr _ 0 = _
    rw [ht, ih, hh, Nat.pow_succ, Nat.mul_comm (256 ^ n), Nat.mod_mul]

theorem toNat_ofBytes_bytes (n : Nat) (w : Word) : (ofBytes (bytes n w)).toNat = w.toNat % 256 ^ n := by
  have hlt : w.toNat % 256 ^ n < 2 ^ 64 := Nat.lt_of_le_of_lt (Nat.mod_le _ _) w.toNat_lt
  unfold ofBytes bytes
  rw [foldr_bytes, Nat.toUInt64, UInt64.toNat_ofNat', Nat.mod_eq_of_lt hlt]

end Word

@[simp] theorem length_bytesOfInt (n : Nat) (i : Int) : (bytesOfInt n i).length = n := by
  simp [bytesOfInt, Word.bytes]

/-- The number whose bytes are given, least significant first. -/
def unsignedOfBytes (bs : List UInt8) : Nat := (Word.ofBytes bs).toNat

/-- The number whose bytes are given in two's complement, least significant first. -/
def signedOfBytes (bs : List UInt8) : Int := Int.bmod (unsignedOfBytes bs) (256 ^ bs.length)

theorem unsignedOfBytes_bytesOfInt (hn : n ≤ 8) (i : Int) :
    (unsignedOfBytes (bytesOfInt n i) : Int) = i % (256 ^ n : Nat) := by
  have hd : ((256 ^ n : Nat) : Int) ∣ 0x10000000000000000 :=
    Int.natCast_dvd_natCast.mpr (Nat.pow_dvd_pow 256 hn)
  unfold unsignedOfBytes bytesOfInt
  rw [Word.toNat_ofBytes_bytes, Int.natCast_emod, Word.toNat_ofInt, Int.emod_emod_of_dvd _ hd]

theorem signedOfBytes_bytesOfInt (hn : n ≤ 8) (i : Int) :
    signedOfBytes (bytesOfInt n i) = Int.bmod i (256 ^ n) := by
  unfold signedOfBytes
  rw [length_bytesOfInt, unsignedOfBytes_bytesOfInt hn, Int.emod_bmod]

/-! ## Decimal numerals -/

theorem repr_injective {m n : Nat} (h : m.repr = n.repr) : m = n := by
  rw [← Nat.toString_eq_repr, ← Nat.toString_eq_repr, Nat.toString_eq_ofList_toDigits,
    Nat.toString_eq_ofList_toDigits, String.ofList_inj] at h
  rw [← Nat.ofDigitChars_ten_toDigits (n := m), h, Nat.ofDigitChars_ten_toDigits]

theorem repr_ne_minus (m : Nat) (s : String) : m.repr ≠ "-" ++ s := by
  intro h
  have hm : '-' ∈ Nat.toDigits 10 m := by
    rw [← Nat.toString_eq_repr, Nat.toString_eq_ofList_toDigits] at h
    have hl := congrArg String.toList h
    simp at hl
    simp [hl]
  exact absurd (Nat.isDigit_of_mem_toDigits (by decide) (by decide) hm) (by decide)

theorem toString_injective : Function.Injective (toString : Int → String) := by
  intro a b h
  rw [Int.toString_eq_repr, Int.toString_eq_repr] at h
  cases a with
  | ofNat m =>
    cases b with
    | ofNat n => exact congrArg Int.ofNat (repr_injective h)
    | negSucc n => exact absurd h (repr_ne_minus m _)
  | negSucc m =>
    cases b with
    | ofNat n => exact absurd h.symm (repr_ne_minus n _)
    | negSucc n =>
      exact congrArg Int.negSucc (Nat.succ.inj (repr_injective ((String.append_right_inj "-").mp h)))

end TraceCompiler
