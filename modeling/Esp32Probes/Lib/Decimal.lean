import Mathlib.Algebra.Ring.Nat

/-!
# `Lib.Decimal` — decimal numerals in text

Numerals are written by `Nat.toDigits 10` and, with a sign, by `signed`; `scanNat` and `scanInt` read one
from the front of a text. A numeral is read back whatever follows it, as long as that is not another digit
(`NoDigit`), so numerals can be embedded in any text that separates them.
-/

namespace Decimal

/-- The numeral of an integer, with a minus sign if it is negative. -/
def signed (i : Int) : List Char :=
  if i < 0 then '-' :: Nat.toDigits 10 i.natAbs else Nat.toDigits 10 i.natAbs

theorem signed_natCast (n : Nat) : signed (n : Int) = Nat.toDigits 10 n := by
  unfold signed
  rw [if_neg (by omega), Int.natAbs_natCast]

/-- Read a numeral: the longest run of digits at the front, which must not be empty. -/
def scanNat (cs : List Char) : Option (Nat × List Char) :=
  match cs.takeWhile Char.isDigit with
  | [] => none
  | d :: ds => some (Nat.ofDigitChars 10 (d :: ds) 0, cs.dropWhile Char.isDigit)

def scanInt : List Char → Option (Int × List Char)
  | '-' :: cs => (scanNat cs).map (fun r => (-(r.1 : Int), r.2))
  | cs => (scanNat cs).map (fun r => ((r.1 : Int), r.2))

/-- The text does not begin with a digit. -/
def NoDigit (rest : List Char) : Prop := ∀ c, rest.head? = some c → c.isDigit = false

theorem noDigit_cons {c : Char} (h : c.isDigit = false) (rest : List Char) : NoDigit (c :: rest) := by
  rintro _ ⟨⟩
  exact h

theorem noDigit_nil : NoDigit [] := by
  rintro _ ⟨⟩

/-! ## Digits -/

theorem isDigit_of_mem {n : Nat} {c : Char} (h : c ∈ Nat.toDigits 10 n) : c.isDigit = true :=
  Nat.isDigit_of_mem_toDigits (by omega) (by omega) h

/-- A numeral that is not `0` does not begin with `0`. Induction on the number, digit by digit. -/
theorem head_toDigits {n : Nat} (h : 0 < n) : (Nat.toDigits 10 n).head? ≠ some '0' := by
  induction n using Nat.strongRecOn with
  | _ n ih =>
      rw [Nat.toDigits_eq_if (by omega)]
      split
      · next hlt =>
        have hdigit : n.digitChar.toNat = 48 + n := Nat.toNat_digitChar_of_lt_ten hlt
        rw [List.head?_cons]
        intro heq
        rw [Option.some.inj heq] at hdigit
        have hzero : '0'.toNat = 48 := rfl
        omega
      · next hge =>
        -- the first digit is that of the number without its last digit
        have hih := ih (n / 10) (by omega) (by omega)
        rw [List.head?_append]
        cases hh : (Nat.toDigits 10 (n / 10)).head? with
        | none => exact absurd (List.head?_eq_none_iff.mp hh) Nat.toDigits_ne_nil
        | some c =>
            rw [hh] at hih
            exact hih

theorem length_toDigits_le {n k : Nat} (hk : 0 < k) (h : n < 10 ^ k) : (Nat.toDigits 10 n).length ≤ k :=
  (Nat.length_toDigits_le_iff (by omega) hk).mpr h

theorem length_signed_le {i : Int} {k : Nat} (hk : 0 < k) (h : i.natAbs < 10 ^ k) :
    (signed i).length ≤ k + 1 := by
  have hd := length_toDigits_le hk h
  unfold signed
  split
  · rw [List.length_cons]; omega
  · omega

/-! ## Reading numerals back -/

theorem takeWhile_digits {ds rest : List Char} (hd : ∀ c ∈ ds, c.isDigit = true) (hr : NoDigit rest) :
    (ds ++ rest).takeWhile Char.isDigit = ds := by
  have htake : rest.takeWhile Char.isDigit = [] := by
    cases rest with
    | nil => rfl
    | cons c rest => rw [List.takeWhile_cons, hr c rfl]; rfl
  rw [List.takeWhile_append_of_pos hd, htake, List.append_nil]

theorem dropWhile_digits {ds rest : List Char} (hd : ∀ c ∈ ds, c.isDigit = true) (hr : NoDigit rest) :
    (ds ++ rest).dropWhile Char.isDigit = rest := by
  rw [List.dropWhile_append_of_pos hd]
  cases rest with
  | nil => rfl
  | cons c rest => rw [List.dropWhile_cons, hr c rfl]; rfl

/-- **A numeral is read back.** -/
theorem scanNat_toDigits (n : Nat) {rest : List Char} (hr : NoDigit rest) :
    scanNat (Nat.toDigits 10 n ++ rest) = some (n, rest) := by
  have hd : ∀ c ∈ Nat.toDigits 10 n, c.isDigit = true := fun c hc => isDigit_of_mem hc
  unfold scanNat
  rw [takeWhile_digits hd hr, dropWhile_digits hd hr]
  cases h : Nat.toDigits 10 n with
  | nil => exact absurd h Nat.toDigits_ne_nil
  | cons d ds =>
      show some (Nat.ofDigitChars 10 (d :: ds) 0, rest) = some (n, rest)
      rw [← h, Nat.ofDigitChars_ten_toDigits]

/-- **A signed numeral is read back.** -/
theorem scanInt_signed (i : Int) {rest : List Char} (hr : NoDigit rest) :
    scanInt (signed i ++ rest) = some (i, rest) := by
  unfold signed
  split
  · next hneg =>
    rw [List.cons_append]
    show (scanNat (Nat.toDigits 10 i.natAbs ++ rest)).map _ = _
    rw [scanNat_toDigits _ hr, Option.map_some]
    congr 2
    omega
  · next hpos =>
    have hscan : scanInt (Nat.toDigits 10 i.natAbs ++ rest)
        = (scanNat (Nat.toDigits 10 i.natAbs ++ rest)).map (fun r => ((r.1 : Int), r.2)) := by
      -- a numeral begins with a digit, so it is not taken for a sign
      cases hd : Nat.toDigits 10 i.natAbs with
      | nil => exact absurd hd Nat.toDigits_ne_nil
      | cons c cs =>
          have hc : c.isDigit = true := isDigit_of_mem (by rw [hd]; exact List.mem_cons_self)
          have hne : c ≠ '-' := by
            rintro rfl
            exact absurd hc (by decide)
          rw [List.cons_append]
          unfold scanInt
          split
          · next heq => cases heq; exact absurd rfl hne
          · rfl
    rw [hscan, scanNat_toDigits _ hr, Option.map_some]
    congr 2
    omega

end Decimal
