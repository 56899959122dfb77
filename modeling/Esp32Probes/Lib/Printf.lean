import Esp32Probes.Lib.Decimal

/-!
# `Lib.Printf` — formatted output into a fixed buffer

`format` interprets a format string with the conversions `%s`, `%d` and `%u`; it is defined only if the
conversions fit the arguments, one by one and in type. A format string is usually written in pieces, and
`format_append` formats it piece by piece. `snprintf` stores the text in a buffer, cut off where it does not
fit, and `cString` is what a reader of the buffer takes for the text: everything before the first NUL. The two
agree exactly as far as the text fits and has no NUL of its own (`cString_snprintf`).
-/

namespace Printf

open Decimal

/-- The arguments that the conversions take. -/
inductive Arg
  | str (s : List Char)
  | int (i : Int32)
  | uint (n : UInt32)

/-- One conversion. -/
def convert : Char → Arg → Option (List Char)
  | 's', .str s => some s
  | 'd', .int i => some (signed i.toInt)
  | 'u', .uint n => some (Nat.toDigits 10 n.toNat)
  | _, _ => none

/-- The text that a format string and its arguments make. -/
def format : List Char → List Arg → Option (List Char)
  | [], [] => some []
  | [], _ :: _ => none
  | c :: f, as =>
    if c = '%' then
      match f, as with
      | d :: f, a :: as => do
        let s ← convert d a
        let t ← format f as
        return s ++ t
      | _, _ => none
    else (format f as).map (c :: ·)

theorem format_char {c : Char} (hc : c ≠ '%') (f : List Char) (as : List Arg) :
    format (c :: f) as = (format f as).map (c :: ·) := by
  rw [format.eq_def]
  exact if_neg hc

theorem format_conversion (d : Char) (f : List Char) (a : Arg) (as : List Arg) :
    format ('%' :: d :: f) (a :: as) = (do let s ← convert d a; let t ← format f as; return s ++ t) := by
  rw [format, if_pos rfl]

/-- A piece without conversions is copied. -/
theorem format_literal {f : List Char} (h : '%' ∉ f) : format f [] = some f := by
  induction f with
  | nil => rfl
  | cons c f ih =>
      have hc : c ≠ '%' := by
        rintro rfl
        exact h List.mem_cons_self
      have hf : '%' ∉ f := fun hm => h (List.mem_cons_of_mem c hm)
      rw [format_char hc, ih hf, Option.map_some]

/-- **Formatting goes piece by piece.** -/
theorem format_append {f g : List Char} {as bs : List Arg} {s t : List Char} (hf : format f as = some s)
    (hg : format g bs = some t) : format (f ++ g) (as ++ bs) = some (s ++ t) := by
  fun_induction format f as generalizing s with
  | case1 =>
      cases hf
      exact hg
  | case2 => cases hf
  | case3 d f a as ih =>
      obtain ⟨u, hu, hf⟩ := Option.bind_eq_some_iff.mp hf
      obtain ⟨v, hv, hf⟩ := Option.bind_eq_some_iff.mp hf
      cases hf
      show format ('%' :: d :: (f ++ g)) (a :: (as ++ bs)) = _
      rw [format_conversion]
      simp only [hu, ih hv, Option.bind_eq_bind, Option.bind_some, Option.pure_def, List.append_assoc]
  | case4 => cases hf
  | case5 c f as hc ih =>
      obtain ⟨u, hu, rfl⟩ := Option.map_eq_some_iff.mp hf
      show format (c :: (f ++ g)) (as ++ bs) = _
      rw [format_char hc, ih hu]
      rfl

/-- A piece with one conversion. -/
theorem format_one {f g s : List Char} {d : Char} {a : Arg} (hf : '%' ∉ f) (hg : '%' ∉ g)
    (h : convert d a = some s) : format (f ++ '%' :: d :: g) [a] = some (f ++ (s ++ g)) := by
  have hconv : format ('%' :: d :: g) [a] = some (s ++ g) := by
    simp only [format_conversion, h, format_literal hg, Option.bind_eq_bind, Option.bind_some,
      Option.pure_def]
  exact format_append (format_literal hf) hconv

/-! ## The buffer -/

/-- `snprintf(body, sizeof(body), …)`: at most `sizeof(body) - 1` characters and a NUL behind them. -/
def snprintf (body text : List Char) : List Char :=
  let kept := text.take (body.length - 1)
  (kept ++ '\x00' :: body.drop (kept.length + 1)).take body.length

/-- The string that a buffer holds. -/
def cString (m : List Char) : List Char := m.takeWhile (fun c => c ≠ '\x00')

/-- A text that fits is stored whole. -/
theorem snprintf_fits {body text : List Char} (h : text.length < body.length) :
    snprintf body text = text ++ '\x00' :: body.drop (text.length + 1) := by
  unfold snprintf
  have hkept : text.take (body.length - 1) = text := List.take_of_length_le (by omega)
  rw [hkept]
  apply List.take_of_length_le
  rw [List.length_append, List.length_cons, List.length_drop]
  omega

/-- **A reader of the buffer gets the text**, if it fits and contains no NUL. -/
theorem cString_snprintf {body text : List Char} (h : text.length < body.length) (hnul : '\x00' ∉ text) :
    cString (snprintf body text) = text := by
  rw [snprintf_fits h, cString, List.takeWhile_append_of_pos]
  · rw [List.takeWhile_cons]
    simp
  · intro c hc
    apply decide_eq_true
    rintro rfl
    exact hnul hc

end Printf
