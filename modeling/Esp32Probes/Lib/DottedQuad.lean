import Esp32Probes.Lib.Decimal

/-!
# `Lib.DottedQuad` — IPv4 addresses in text

An address is a 32-bit word whose bytes, in memory order, are the four parts of its dotted notation. On a
little-endian machine the first part is the low byte. `dottedQuad` writes an address, `readQuad` reads it back
(`readQuad_dottedQuad`), and no address takes more than fifteen characters.
-/

namespace DottedQuad

open Decimal

/-- Byte `i` of an address in memory, lowest address first. -/
def octet (a : UInt32) (i : Nat) : Nat := a.toNat / 256 ^ i % 256

/-- The address with these bytes in memory. -/
def ofOctets (a b c d : Nat) : UInt32 := UInt32.ofNat (a + 256 * b + 65536 * c + 16777216 * d)

def dottedQuad (a : UInt32) : List Char :=
  Nat.toDigits 10 (octet a 0) ++ '.' :: (Nat.toDigits 10 (octet a 1) ++
    '.' :: (Nat.toDigits 10 (octet a 2) ++ '.' :: Nat.toDigits 10 (octet a 3)))

/-- A numeral and the dot behind it. -/
def scanPart (cs : List Char) : Option (Nat × List Char) := do
  let (n, rest) ← scanNat cs
  match rest with
  | '.' :: rest => return (n, rest)
  | _ => none

/-- Read a text that is one address. -/
def readQuad (cs : List Char) : Option UInt32 := do
  let (a, cs) ← scanPart cs
  let (b, cs) ← scanPart cs
  let (c, cs) ← scanPart cs
  let (d, cs) ← scanNat cs
  if cs = [] ∧ a < 256 ∧ b < 256 ∧ c < 256 ∧ d < 256 then return ofOctets a b c d else none

theorem octet_lt (a : UInt32) (i : Nat) : octet a i < 256 := Nat.mod_lt _ (by omega)

/-- An address is determined by its bytes. -/
theorem ofOctets_octet (a : UInt32) : ofOctets (octet a 0) (octet a 1) (octet a 2) (octet a 3) = a := by
  have ha : a.toNat < 4294967296 := a.toNat_lt
  apply UInt32.toNat_inj.mp
  unfold ofOctets octet
  rw [UInt32.toNat_ofNat']
  simp only [Nat.pow_zero, Nat.div_one, Nat.pow_one, show 256 ^ 2 = 65536 from rfl,
    show 256 ^ 3 = 16777216 from rfl]
  omega

theorem scanPart_octet (n : Nat) (rest : List Char) :
    scanPart (Nat.toDigits 10 n ++ '.' :: rest) = some (n, rest) := by
  have hdot : NoDigit ('.' :: rest) := noDigit_cons (by decide) rest
  simp only [scanPart, scanNat_toDigits n hdot, Option.bind_eq_bind, Option.bind_some, Option.pure_def]

/-- **An address is read back.** -/
theorem readQuad_dottedQuad (a : UInt32) : readQuad (dottedQuad a) = some a := by
  have hlast : scanNat (Nat.toDigits 10 (octet a 3)) = some (octet a 3, []) := by
    have h := scanNat_toDigits (octet a 3) noDigit_nil
    rwa [List.append_nil] at h
  have hlt := octet_lt a
  simp only [readQuad, dottedQuad, scanPart_octet, hlast, Option.bind_eq_bind, Option.bind_some]
  rw [if_pos ⟨trivial, hlt 0, hlt 1, hlt 2, hlt 3⟩, ofOctets_octet]
  rfl

theorem length_dottedQuad_le (a : UInt32) : (dottedQuad a).length ≤ 15 := by
  have hlen : ∀ i, (Nat.toDigits 10 (octet a i)).length ≤ 3 := fun i =>
    length_toDigits_le (by omega) (by have := octet_lt a i; omega)
  have h0 := hlen 0
  have h1 := hlen 1
  have h2 := hlen 2
  have h3 := hlen 3
  simp only [dottedQuad, List.length_append, List.length_cons]
  omega

/-- The characters of an address are digits and dots. -/
theorem mem_dottedQuad {a : UInt32} {c : Char} (h : c ∈ dottedQuad a) : c = '.' ∨ c.isDigit = true := by
  unfold dottedQuad at h
  simp only [List.mem_append, List.mem_cons] at h
  rcases h with h | rfl | h | rfl | h | rfl | h
  · exact Or.inr (isDigit_of_mem h)
  · exact Or.inl rfl
  · exact Or.inr (isDigit_of_mem h)
  · exact Or.inl rfl
  · exact Or.inr (isDigit_of_mem h)
  · exact Or.inl rfl
  · exact Or.inr (isDigit_of_mem h)

end DottedQuad
