import Mathlib.Data.Nat.Bitwise

/-!
# `Lib.BigEndian` — 16-bit words as two bytes, most significant first

`be16` assembles a word the way C code does (`hi << 8 | lo`), `hi8`/`lo8` take it apart. The value lemmas
move to `Nat`, where `omega` decides everything that is left; `be16_hi8_lo8` says that nothing is lost.
-/

namespace BigEndian

/-- `(hi << 8) | lo`. -/
def be16 (hi lo : UInt8) : UInt16 := (hi.toUInt16 <<< 8) ||| lo.toUInt16

/-- `v >> 8`, truncated to a byte. -/
def hi8 (v : UInt16) : UInt8 := (v >>> 8).toUInt8

/-- `v & 0xff`, truncated to a byte. -/
def lo8 (v : UInt16) : UInt8 := (v &&& 0xff).toUInt8

theorem toNat_be16 (hi lo : UInt8) : (be16 hi lo).toNat = hi.toNat * 256 + lo.toNat := by
  have hhi : hi.toNat < 256 := hi.toNat_lt
  have hlo : lo.toNat < 2 ^ 8 := lo.toNat_lt
  -- the shifted byte still fits into 16 bits, and the two bytes do not overlap
  have hshift : hi.toNat <<< 8 % 2 ^ 16 = hi.toNat <<< 8 := by
    rw [Nat.shiftLeft_eq]; omega
  simp only [be16, UInt16.toNat_or, UInt16.toNat_shiftLeft, UInt8.toNat_toUInt16]
  rw [show (8 : UInt16).toNat % 16 = 8 from rfl, hshift, ← Nat.shiftLeft_add_eq_or_of_lt hlo,
      Nat.shiftLeft_eq]

theorem toNat_hi8 (v : UInt16) : (hi8 v).toNat = v.toNat / 256 := by
  have hv : v.toNat < 65536 := v.toNat_lt
  simp only [hi8, UInt16.toNat_toUInt8, UInt16.toNat_shiftRight]
  rw [show (8 : UInt16).toNat % 16 = 8 from rfl, Nat.shiftRight_eq_div_pow]
  omega

theorem toNat_lo8 (v : UInt16) : (lo8 v).toNat = v.toNat % 256 := by
  simp only [lo8, UInt16.toNat_toUInt8, UInt16.toNat_and]
  rw [show (0xff : UInt16).toNat = 2 ^ 8 - 1 from rfl, Nat.and_two_pow_sub_one_eq_mod]
  omega

/-- Taking a word apart and assembling it again is the identity. -/
@[simp] theorem be16_hi8_lo8 (v : UInt16) : be16 (hi8 v) (lo8 v) = v := by
  apply UInt16.toNat_inj.mp
  rw [toNat_be16, toNat_hi8, toNat_lo8]; omega

end BigEndian
