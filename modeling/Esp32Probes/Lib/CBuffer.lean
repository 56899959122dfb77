import Mathlib.Data.List.Basic

/-!
# `Lib.CBuffer` — checked access to fixed-size C arrays

A C array is a list of cells. Every access is checked: `load`, `store`, `copyFront` (a `memcpy` to the
start of an array) and `front` (the first `n` cells, as handed to an output call) return `none` when they
would touch a cell that does not exist. A computation over buffers that returns `some` has therefore
stayed in bounds.

Code that serialises a record usually writes an array from its first cell on. `Fills n pre m` says that
`m` has `n` cells and that the first ones are `pre`, whatever the others hold; each write at position
`pre.length` extends `pre` (`Fills.store`), and `Fills.front` reads the finished prefix back. Chaining
these gives the exact bytes produced from an array with arbitrary initial contents.
-/

namespace CBuffer

variable {α : Type*}

/-! ## Checked accesses -/

/-- Read cell `i`. -/
def load (m : List α) (i : Nat) : Option α := m[i]?

/-- Overwrite cell `i`. -/
def store (m : List α) (i : Nat) (v : α) : Option (List α) :=
  if i < m.length then some (m.set i v) else none

/-- `memcpy(dst, src, n)`. -/
def copyFront (dst src : List α) (n : Nat) : Option (List α) :=
  if n ≤ dst.length ∧ n ≤ src.length then some (src.take n ++ dst.drop n) else none

/-- The first `n` cells. -/
def front (m : List α) (n : Nat) : Option (List α) :=
  if n ≤ m.length then some (m.take n) else none

theorem load_lt {m : List α} {i : Nat} (h : i < m.length) : load m i = some m[i] :=
  List.getElem?_eq_getElem h

/-- A read below the length of the first part does not see the second part. -/
theorem load_append {m : List α} (tail : List α) {i : Nat} (h : i < m.length) :
    load (m ++ tail) i = load m i := List.getElem?_append_left h

theorem front_append {m : List α} (tail : List α) {n : Nat} (h : n ≤ m.length) :
    front (m ++ tail) n = some (m.take n) := by
  have hle : n ≤ (m ++ tail).length := by rw [List.length_append]; omega
  rw [front, if_pos hle, List.take_append_of_le_length h]

/-! ## Arrays filled from the front -/

/-- `m` has `n` cells, and its first cells are `pre`. -/
def Fills (n : Nat) (pre m : List α) : Prop := m.length = n ∧ pre <+: m

theorem Fills.nil {m : List α} : Fills m.length [] m := ⟨rfl, List.nil_prefix⟩

theorem Fills.copyFront {n k : Nat} {dst : List α} (src : List α) (hdst : dst.length = n) (hn : k ≤ n)
    (hsrc : k ≤ src.length) :
    ∃ m, copyFront dst src k = some m ∧ Fills n (src.take k) m := by
  refine ⟨src.take k ++ dst.drop k, ?_, ?_, List.prefix_append _ _⟩
  · rw [CBuffer.copyFront, if_pos ⟨by omega, hsrc⟩]
  · rw [List.length_append, List.length_take, List.length_drop]; omega

/-- Writing the cell right after the filled part extends it. -/
theorem Fills.store {n : Nat} {pre m : List α} (h : Fills n pre m) (hlt : pre.length < n) (v : α) :
    ∃ m', store m pre.length v = some m' ∧ Fills n (pre ++ [v]) m' := by
  obtain ⟨hlen, rest, rfl⟩ := h
  have hin : pre.length < (pre ++ rest).length := by omega
  refine ⟨(pre ++ rest).set pre.length v, by rw [CBuffer.store, if_pos hin], ?_, ?_⟩
  · rw [List.length_set]; exact hlen
  · -- the cell that is written is the first one behind the filled part
    rw [List.set_append_right _ _ (Nat.le_refl _), Nat.sub_self]
    cases rest with
    | nil => simp at hin
    | cons x xs =>
        show pre ++ [v] <+: pre ++ v :: xs
        exact ⟨xs, by simp⟩

theorem Fills.front {n : Nat} {pre m : List α} (h : Fills n pre m) :
    front m pre.length = some pre := by
  obtain ⟨_, rest, rfl⟩ := h
  rw [CBuffer.front, if_pos (by rw [List.length_append]; omega), List.take_left]

end CBuffer
