import Esp32Probes.Lib.Decimal

/-!
# `Lib.Json` — the JSON grammar, and flat objects

## Contents
- **Grammar.** `IsObject` and `IsValue` say which character sequences are JSON objects and values, with white
  space, escapes, fractions, arrays and nesting.
- **Flat objects.** `FlatObject` is what a small device reports: a list of members whose values are truth
  values, integers and texts. A `Text` consists of characters that stand for themselves in a string, by
  construction. `print` writes an object without white space, and `isObject_print` says that this is JSON.
- **Parser.** `parse` reads such an object back, whatever follows it (`parse_print`); so the printed form
  determines the object.
-/

namespace Json

open Decimal

/-! ## Grammar -/

/-- White space. -/
def Ws (s : List Char) : Prop := ∀ c ∈ s, c = ' ' ∨ c = '\t' ∨ c = '\n' ∨ c = '\r'

/-- A digit of an escape `\uXXXX`. -/
def IsHex (c : Char) : Prop := c.isDigit = true ∨ ('a' ≤ c ∧ c ≤ 'f') ∨ ('A' ≤ c ∧ c ≤ 'F')

/-- What may stand between the quotes of a string. -/
inductive IsStringBody : List Char → Prop
  | nil : IsStringBody []
  | unescaped {c : Char} {s : List Char} : 0x20 ≤ c.toNat → c ≠ '"' → c ≠ '\\' → IsStringBody s →
      IsStringBody (c :: s)
  | escape {c : Char} {s : List Char} : c ∈ ['"', '\\', '/', 'b', 'f', 'n', 'r', 't'] → IsStringBody s →
      IsStringBody ('\\' :: c :: s)
  | unicode {a b c d : Char} {s : List Char} : IsHex a → IsHex b → IsHex c → IsHex d → IsStringBody s →
      IsStringBody ('\\' :: 'u' :: a :: b :: c :: d :: s)

/-- A string: its body between two quotation marks. -/
def IsString (s : List Char) : Prop := ∃ body, IsStringBody body ∧ s = '"' :: body ++ ['"']

/-- One digit or more. -/
def IsDigits (s : List Char) : Prop := s ≠ [] ∧ ∀ c ∈ s, c.isDigit = true

/-- The integral part of a number has no leading zero. -/
def IsIntPart (s : List Char) : Prop := IsDigits s ∧ (s.head? = some '0' → s = ['0'])

/-- The part after the decimal point, which may be missing. -/
def IsFraction (s : List Char) : Prop := s = [] ∨ ∃ ds, IsDigits ds ∧ s = '.' :: ds

/-- The exponent, which may be missing. -/
def IsExponent (s : List Char) : Prop :=
  s = [] ∨ ∃ e sign ds, (e = 'e' ∨ e = 'E') ∧ (sign = [] ∨ sign = ['+'] ∨ sign = ['-']) ∧ IsDigits ds ∧
    s = e :: sign ++ ds

/-- A number: sign, integer part, fraction, exponent. -/
def IsNumber (s : List Char) : Prop :=
  ∃ sign int frac exp, (sign = [] ∨ sign = ['-']) ∧ IsIntPart int ∧ IsFraction frac ∧ IsExponent exp ∧
    s = sign ++ int ++ frac ++ exp

mutual

/-- A value. -/
inductive IsValue : List Char → Prop
  | null : IsValue ['n', 'u', 'l', 'l']
  | true : IsValue ['t', 'r', 'u', 'e']
  | false : IsValue ['f', 'a', 'l', 's', 'e']
  | number {s : List Char} : IsNumber s → IsValue s
  | string {s : List Char} : IsString s → IsValue s
  | emptyArray {w : List Char} : Ws w → IsValue ('[' :: w ++ [']'])
  | array {s : List Char} : IsElements s → IsValue ('[' :: s ++ [']'])
  | object {s : List Char} : IsObject s → IsValue s

/-- The elements of an array, separated by commas. -/
inductive IsElements : List Char → Prop
  | last {w v w' : List Char} : Ws w → IsValue v → Ws w' → IsElements (w ++ v ++ w')
  | more {w v w' rest : List Char} : Ws w → IsValue v → Ws w' → IsElements rest →
      IsElements (w ++ v ++ w' ++ ',' :: rest)

/-- A name and its value. -/
inductive IsMember : List Char → Prop
  | mk {w k w' u v u' : List Char} : Ws w → IsString k → Ws w' → Ws u → IsValue v → Ws u' →
      IsMember (w ++ k ++ w' ++ ':' :: (u ++ v ++ u'))

/-- The members of an object, separated by commas. -/
inductive IsMembers : List Char → Prop
  | last {m : List Char} : IsMember m → IsMembers m
  | more {m rest : List Char} : IsMember m → IsMembers rest → IsMembers (m ++ ',' :: rest)

/-- An object. -/
inductive IsObject : List Char → Prop
  | empty {w : List Char} : Ws w → IsObject ('{' :: w ++ ['}'])
  | members {s : List Char} : IsMembers s → IsObject ('{' :: s ++ ['}'])

end

/-! ## Flat objects -/

/-- A character that stands for itself in a string. -/
def Plain (c : Char) : Prop := 0x20 ≤ c.toNat ∧ c.toNat < 0x7f ∧ c ≠ '"' ∧ c ≠ '\\'

instance (c : Char) : Decidable (Plain c) := by unfold Plain; infer_instance

-- decided by going through the list, not through all characters
instance (cs : List Char) : Decidable (∀ c ∈ cs, Plain c) := List.decidableBAll Plain cs

/-- A text that needs no escapes. -/
structure Text where
  chars : List Char
  plain : ∀ c ∈ chars, Plain c
  deriving DecidableEq

/-- The values that the printer writes. -/
inductive Scalar
  | bool (b : Bool)
  | int (i : Int)
  | text (t : Text)
  deriving DecidableEq

/-- An object without nesting, as a list of its members in order. -/
abbrev FlatObject := List (Text × Scalar)

/-- A text between quotation marks; it has nothing to escape. -/
def quote (t : Text) : List Char := '"' :: (t.chars ++ ['"'])

/-- The text of a value. -/
def printScalar : Scalar → List Char
  | .bool true => ['t', 'r', 'u', 'e']
  | .bool false => ['f', 'a', 'l', 's', 'e']
  | .int i => signed i
  | .text t => quote t

@[simp] theorem printScalar_int (i : Int) : printScalar (.int i) = signed i := rfl

@[simp] theorem printScalar_text (t : Text) : printScalar (.text t) = quote t := rfl

/-- A name, a colon and the value, without blanks. -/
def printMember (m : Text × Scalar) : List Char := quote m.1 ++ ':' :: printScalar m.2

/-- The members with commas between them. -/
def printMembers : FlatObject → List Char
  | [] => []
  | [m] => printMember m
  | m :: n :: ms => printMember m ++ ',' :: printMembers (n :: ms)

/-- The text of an object. -/
def print (o : FlatObject) : List Char := '{' :: (printMembers o ++ ['}'])

/-! ## Printed objects are JSON -/

/-- A quoted text is a string of the grammar. -/
theorem isString_quote (t : Text) : IsString (quote t) := by
  refine ⟨t.chars, ?_, rfl⟩
  obtain ⟨chars, plain⟩ := t
  induction chars with
  | nil => exact .nil
  | cons c s ih =>
      obtain ⟨hlow, _, hquote, hback⟩ := plain c List.mem_cons_self
      exact .unescaped hlow hquote hback (ih (fun d hd => plain d (List.mem_cons_of_mem c hd)))

/-- Decimal digits have no leading zero. -/
theorem isIntPart_toDigits (n : Nat) : IsIntPart (Nat.toDigits 10 n) := by
  refine ⟨⟨Nat.toDigits_ne_nil, fun c hc => isDigit_of_mem hc⟩, ?_⟩
  intro hzero
  cases Nat.eq_zero_or_pos n with
  | inl h => rw [h, Nat.toDigits_zero]
  | inr h => exact absurd hzero (head_toDigits h)

/-- A printed integer is a number of the grammar. -/
theorem isNumber_signed (i : Int) : IsNumber (signed i) := by
  have hint : IsIntPart (Nat.toDigits 10 i.natAbs) := isIntPart_toDigits i.natAbs
  unfold signed
  split
  · exact ⟨['-'], _, [], [], Or.inr rfl, hint, Or.inl rfl, Or.inl rfl, by simp⟩
  · exact ⟨[], _, [], [], Or.inl rfl, hint, Or.inl rfl, Or.inl rfl, by simp⟩

/-- A printed scalar is a value of the grammar. -/
theorem isValue_printScalar (v : Scalar) : IsValue (printScalar v) := by
  cases v with
  | bool b => cases b with
    | true => exact .true
    | false => exact .false
  | int i => exact .number (isNumber_signed i)
  | text t => exact .string (isString_quote t)

theorem ws_nil : Ws [] := by
  intro c hc
  cases hc

/-- A printed member is a member of the grammar. -/
theorem isMember_printMember (m : Text × Scalar) : IsMember (printMember m) := by
  have h := IsMember.mk ws_nil (isString_quote m.1) ws_nil ws_nil (isValue_printScalar m.2) ws_nil
  simpa only [printMember, List.nil_append, List.append_nil] using h

/-- **A printed object is JSON.** -/
theorem isObject_print (o : FlatObject) : IsObject (print o) := by
  cases o with
  | nil => exact .empty ws_nil
  | cons m ms =>
      apply IsObject.members
      induction ms generalizing m with
      | nil => exact .last (isMember_printMember m)
      | cons n ms ih => exact .more (isMember_printMember m) (ih n)

/-! ## The characters of a printed object -/

/-- Printable ASCII. -/
def Printable (c : Char) : Prop := 0x20 ≤ c.toNat ∧ c.toNat < 0x7f

instance (c : Char) : Decidable (Printable c) := inferInstanceAs (Decidable (_ ∧ _))

instance (cs : List Char) : Decidable (∀ c ∈ cs, Printable c) := List.decidableBAll Printable cs

theorem printable_of_isDigit {c : Char} (h : c.isDigit = true) : Printable c := by
  rw [Char.isDigit_iff_toNat] at h
  obtain ⟨hlow, hhigh⟩ := h
  have h0 : '0'.toNat = 48 := rfl
  have h9 : '9'.toNat = 57 := rfl
  constructor <;> omega

theorem printable_quote (t : Text) : ∀ c ∈ quote t, Printable c := by
  intro c hc
  rcases List.mem_cons.mp hc with rfl | hc
  · decide
  · rcases List.mem_append.mp hc with hc | hc
    · exact ⟨(t.plain c hc).1, (t.plain c hc).2.1⟩
    · rw [List.mem_singleton.mp hc]; decide

/-- A printed scalar has printable characters only. -/
theorem printable_printScalar (v : Scalar) : ∀ c ∈ printScalar v, Printable c := by
  cases v with
  | bool b => cases b <;> decide
  | int i =>
      have hdigits : ∀ c ∈ Nat.toDigits 10 i.natAbs, Printable c := fun c hc =>
        printable_of_isDigit (isDigit_of_mem hc)
      show ∀ c ∈ signed i, Printable c
      unfold signed
      split
      · exact List.forall_mem_cons.mpr ⟨by decide, hdigits⟩
      · exact hdigits
  | text t => exact printable_quote t

theorem printable_printMember (m : Text × Scalar) : ∀ c ∈ printMember m, Printable c :=
  List.forall_mem_append.mpr ⟨printable_quote m.1,
    List.forall_mem_cons.mpr ⟨by decide, printable_printScalar m.2⟩⟩

/-- **A printed object is printable ASCII**; in particular it contains no NUL and no line break. -/
theorem printable_print (o : FlatObject) : ∀ c ∈ print o, Printable c := by
  suffices h : ∀ c ∈ printMembers o, Printable c from
    List.forall_mem_cons.mpr ⟨by decide, List.forall_mem_append.mpr ⟨h, by decide⟩⟩
  induction o with
  | nil => exact fun c hc => absurd hc List.not_mem_nil
  | cons m ms ih =>
      cases ms with
      | nil => exact printable_printMember m
      | cons n ms =>
          exact List.forall_mem_append.mpr ⟨printable_printMember m, List.forall_mem_cons.mpr ⟨by decide, ih⟩⟩

/-! ## The parser -/

/-- Read a string without escapes. -/
def scanText : List Char → Option (Text × List Char)
  | '"' :: cs =>
    match cs.dropWhile (fun c => Plain c) with
    | '"' :: rest =>
      some (⟨cs.takeWhile (fun c => Plain c), fun c hc =>
        of_decide_eq_true (List.all_eq_true.mp List.all_takeWhile c hc)⟩, rest)
    | _ => none
  | _ => none

/-- Read a scalar, by its first character. -/
def scanScalar (cs : List Char) : Option (Scalar × List Char) :=
  match cs with
  | '"' :: _ => (scanText cs).map (fun r => (.text r.1, r.2))
  | 't' :: 'r' :: 'u' :: 'e' :: rest => some (.bool true, rest)
  | 'f' :: 'a' :: 'l' :: 's' :: 'e' :: rest => some (.bool false, rest)
  | _ => (scanInt cs).map (fun r => (.int r.1, r.2))

/-- Read a name, a colon and a scalar. -/
def scanMember (cs : List Char) : Option ((Text × Scalar) × List Char) := do
  let (k, rest) ← scanText cs
  match rest with
  | ':' :: rest =>
    let (v, rest) ← scanScalar rest
    return ((k, v), rest)
  | _ => none

/-- Read members up to the closing brace, at most `n` of them. -/
def scanMembers : Nat → List Char → Option (FlatObject × List Char)
  | 0, _ => none
  | n + 1, cs => do
    let (m, rest) ← scanMember cs
    match rest with
    | '}' :: rest => return ([m], rest)
    | ',' :: rest =>
      let (ms, rest) ← scanMembers n rest
      return (m :: ms, rest)
    | _ => none

/-- Read an object from the front of a text. -/
def parse : List Char → Option (FlatObject × List Char)
  | '{' :: '}' :: rest => some ([], rest)
  | '{' :: cs => scanMembers cs.length cs
  | _ => none

/-- Reading a quoted text gives it back, and leaves the rest. -/
theorem scanText_quote (t : Text) (rest : List Char) : scanText (quote t ++ rest) = some (t, rest) := by
  have hplain : ∀ c ∈ t.chars, decide (Plain c) = true := fun c hc => decide_eq_true (t.plain c hc)
  have hquote : ¬ Plain '"' := by decide
  have htake : (t.chars ++ '"' :: rest).takeWhile (fun c => Plain c) = t.chars := by
    rw [List.takeWhile_append_of_pos hplain, List.takeWhile_cons]
    simp [hquote]
  have hdrop : (t.chars ++ '"' :: rest).dropWhile (fun c => Plain c) = '"' :: rest := by
    rw [List.dropWhile_append_of_pos hplain, List.dropWhile_cons]
    simp [hquote]
  have hshape : quote t ++ rest = '"' :: (t.chars ++ '"' :: rest) := by simp [quote]
  rw [hshape]
  simp only [scanText, hdrop, htake]

/-- What follows a member: a comma or the closing brace. -/
def EndsMember (rest : List Char) : Prop := ∃ c cs, rest = c :: cs ∧ (c = ',' ∨ c = '}')

/-- What ends a member does not go on with a number. -/
theorem EndsMember.noDigit {rest : List Char} (h : EndsMember rest) : NoDigit rest := by
  obtain ⟨c, cs, rfl, rfl | rfl⟩ := h
  · exact noDigit_cons (by decide) cs
  · exact noDigit_cons (by decide) cs

/-- A numeral begins with a digit or a minus sign. -/
theorem signed_cons (i : Int) : ∃ c cs, signed i = c :: cs ∧ (c = '-' ∨ c.isDigit = true) := by
  unfold signed
  split
  · exact ⟨_, _, rfl, Or.inl rfl⟩
  · cases h : Nat.toDigits 10 i.natAbs with
    | nil => exact absurd h Nat.toDigits_ne_nil
    | cons c cs => exact ⟨c, cs, rfl, Or.inr (isDigit_of_mem (by rw [h]; exact List.mem_cons_self))⟩

/-- Reading a printed scalar gives it back, if the text does not go on with a number. -/
theorem scanScalar_print (v : Scalar) {rest : List Char} (hr : EndsMember rest) :
    scanScalar (printScalar v ++ rest) = some (v, rest) := by
  cases v with
  | bool b => cases b <;> rfl
  | text t =>
      have hscan := scanText_quote t rest
      have hshape : quote t ++ rest = '"' :: (t.chars ++ '"' :: rest) := by simp [quote]
      show scanScalar (quote t ++ rest) = _
      rw [hshape] at hscan ⊢
      simp only [scanScalar, hscan, Option.map_some]
  | int i =>
      have hscan := scanInt_signed i hr.noDigit
      obtain ⟨c, cs, hcons, hc⟩ := signed_cons i
      show scanScalar (signed i ++ rest) = _
      rw [hcons] at hscan ⊢
      rw [List.cons_append] at hscan ⊢
      -- the first character excludes the other kinds of values
      unfold scanScalar
      split
      · next heq => rw [(List.cons.inj heq).1] at hc; rcases hc with h | h <;> exact absurd h (by decide)
      · next heq => rw [(List.cons.inj heq).1] at hc; rcases hc with h | h <;> exact absurd h (by decide)
      · next heq => rw [(List.cons.inj heq).1] at hc; rcases hc with h | h <;> exact absurd h (by decide)
      · rw [hscan, Option.map_some]

/-- Reading a printed member gives it back. -/
theorem scanMember_print (m : Text × Scalar) {rest : List Char} (hr : EndsMember rest) :
    scanMember (printMember m ++ rest) = some (m, rest) := by
  have hkey := scanText_quote m.1 (':' :: (printScalar m.2 ++ rest))
  have hshape : printMember m ++ rest = quote m.1 ++ ':' :: (printScalar m.2 ++ rest) := by
    simp [printMember]
  unfold scanMember
  rw [hshape, hkey]
  simp only [Option.bind_eq_bind, Option.bind_some, scanScalar_print m.2 hr, Option.pure_def]

/-- Reading printed members gives them back, up to the closing brace. -/
theorem scanMembers_print {m : Text × Scalar} {ms : FlatObject} {n : Nat} (hn : ms.length < n)
    (rest : List Char) :
    scanMembers n (printMembers (m :: ms) ++ '}' :: rest) = some (m :: ms, rest) := by
  induction ms generalizing m n with
  | nil =>
      obtain ⟨k, rfl⟩ : ∃ k, n = k + 1 := ⟨n - 1, by omega⟩
      have hends : EndsMember ('}' :: rest) := ⟨_, _, rfl, Or.inr rfl⟩
      have hm := scanMember_print m hends
      simp only [scanMembers, printMembers, hm, Option.bind_eq_bind, Option.bind_some, Option.pure_def]
  | cons m' ms ih =>
      obtain ⟨k, rfl⟩ : ∃ k, n = k + 1 := ⟨n - 1, by omega⟩
      rw [List.length_cons] at hn
      have hends : EndsMember (',' :: (printMembers (m' :: ms) ++ '}' :: rest)) := ⟨_, _, rfl, Or.inl rfl⟩
      have hm := scanMember_print m hends
      have hms := ih (m := m') (n := k) (by omega)
      simp only [scanMembers, printMembers, List.append_assoc, List.cons_append, hm, hms,
        Option.bind_eq_bind, Option.bind_some, Option.pure_def]

/-- Every member takes up at least one character. -/
theorem length_le_printMembers (m : Text × Scalar) (ms : FlatObject) :
    ms.length < (printMembers (m :: ms)).length := by
  induction ms generalizing m with
  | nil => simp [printMembers, printMember, quote]
  | cons n ms ih =>
      have h := ih n
      simp only [printMembers, List.length_append, List.length_cons] at h ⊢
      omega

/-- **A printed object is read back**, whatever follows it. -/
theorem parse_print (o : FlatObject) (rest : List Char) : parse (print o ++ rest) = some (o, rest) := by
  cases o with
  | nil => rfl
  | cons m ms =>
      have hshape : print (m :: ms) ++ rest = '{' :: (printMembers (m :: ms) ++ '}' :: rest) := by
        simp [print]
      have hlen : ms.length < (printMembers (m :: ms) ++ '}' :: rest).length := by
        have h := length_le_printMembers m ms
        rw [List.length_append]
        omega
      have hscan := scanMembers_print hlen (m := m) rest
      rw [hshape]
      unfold parse
      split
      · next heq =>
        -- a member does not begin with a brace
        cases ms <;> cases heq
      · next heq => cases heq; exact hscan
      · next hne => exact absurd rfl (hne _)

end Json
