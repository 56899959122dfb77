import Mathlib.Data.Finset.Card
import Mathlib.Logic.Function.Basic

/-!
# `Lib.CHeap` — blocks of one type from `malloc`

The heap of a C program restricted to the blocks of one type: the addresses that are allocated and what the
block at each of them contains. Every access goes through `load`, `store` or `free`, which answer `none` at an
address that is not allocated, so that a computation that ends in `some` has neither used nor freed a block
after `free`.

`malloc` is told which block the system picks. A pick that is still allocated cannot happen; it counts as a
failed allocation, so that the picks range over everything a correct allocator may do.
-/

namespace CHeap

abbrev Addr := Nat

/-- The allocated blocks and the contents of memory. A free block keeps its contents, whatever they are. -/
structure Heap (ε : Type*) where
  live : Finset Addr
  cell : Addr → ε

variable {ε : Type*}

/-- Reading a block through a pointer; a block that is not allocated cannot be read. -/
def Heap.load (h : Heap ε) (p : Addr) : Option ε := if p ∈ h.live then some (h.cell p) else none

/-- Writing a block through a pointer. -/
def Heap.store (h : Heap ε) (p : Addr) (e : ε) : Option (Heap ε) :=
  if p ∈ h.live then some { h with cell := Function.update h.cell p e } else none

/-- The block the system picks, `none` if it has no memory left. -/
def Heap.malloc (h : Heap ε) (pick : Option Addr) : Option Addr × Heap ε :=
  match pick with
  | none => (none, h)
  | some p => if p ∈ h.live then (none, h) else (some p, { h with live := insert p h.live })

/-- Freeing a block, which must be allocated: no block is freed twice. -/
def Heap.free (h : Heap ε) (p : Addr) : Option (Heap ε) :=
  if p ∈ h.live then some { h with live := h.live.erase p } else none

theorem load_eq {h : Heap ε} {p : Addr} (hp : p ∈ h.live) : h.load p = some (h.cell p) := if_pos hp

theorem store_eq {h : Heap ε} {p : Addr} (hp : p ∈ h.live) (e : ε) :
    h.store p e = some { h with cell := Function.update h.cell p e } := if_pos hp

theorem free_eq {h : Heap ε} {p : Addr} (hp : p ∈ h.live) :
    h.free p = some { h with live := h.live.erase p } := if_pos hp

theorem malloc_eq {h : Heap ε} {p : Addr} (hp : p ∉ h.live) :
    h.malloc (some p) = (some p, { h with live := insert p h.live }) := if_neg hp

/-- A list of distinct allocated blocks is no longer than the heap. -/
theorem length_le_card {h : Heap ε} {l : List Addr} (hn : l.Nodup) (hl : ∀ a ∈ l, a ∈ h.live) :
    l.length ≤ h.live.card := by
  have hsub : l.toFinset ⊆ h.live := fun a ha => hl a (List.mem_toFinset.mp ha)
  calc l.length = l.toFinset.card := (List.toFinset_card_of_nodup hn).symm
    _ ≤ h.live.card := Finset.card_le_card hsub

end CHeap
