import Esp32Probes.Lib.CHeap
import Esp32Probes.Lib.ZipTree
import Mathlib.Algebra.Ring.Nat
import Mathlib.Data.Prod.Lex

/-!
# Open62541.ZipTree — the zip trees of `deps/ziptree.c`, on the heap

The functions behind `ZIP_FUNCTIONS` as `ziptree.c` computes them: on elements in memory whose `left` and
`right` pointers they overwrite, with pointers to pointers (`prev_edge`, `fix_edge`) that remember where the
next element has to be hooked in. An access to an element that is not allocated, a null pointer that is
followed and a loop that runs longer than there are elements all end in `none`.

Two pairs of loops of the source are mirror images (`…_MOVE_LEFT` and `…_MOVE_RIGHT`); they are one loop here,
with the side on which it walks as a parameter.

## Contents
- **Elements and edges.** `ZipEntry`, `ZipFunctions`, `Edge`, `readEdge`, `writeEdge`.
- **The functions of `ziptree.c` and `ziptree.h`.**
-/

namespace Esp32Probes
namespace Open62541

open CHeap (Addr Heap)

/-! ## Elements and edges -/

/-- `enum ZIP_CMP` -/
inductive ZipCmp
  | less
  | eq
  | more
deriving DecidableEq, Repr

/-- `ZIP_ENTRY`: the two pointers of an element; `none` is `NULL`. -/
structure ZipEntry where
  left  : Option Addr
  right : Option Addr
deriving DecidableEq, Repr

/-- What `ZIP_FUNCTIONS(name, type, field, keytype, keyfield, cmp)` is given: where in an element the
    pointers (`fieldoffset`) and the key (`keyoffset`) are, and the comparison. -/
structure ZipFunctions (ε κ : Type) where
  field             : ε → ZipEntry
  setField          : ε → ZipEntry → ε
  keyfield          : ε → κ
  cmp               : κ → κ → ZipCmp
  field_setField    : ∀ e z, field (setField e z) = z
  setField_setField : ∀ e z z', setField (setField e z) z' = setField e z'
  setField_field    : ∀ e, setField e (field e) = e
  keyfield_setField : ∀ e z, keyfield (setField e z) = keyfield e

/-- The two pointers of an element, `left` and `right`. -/
inductive Side
  | left
  | right
deriving DecidableEq, Repr

/-- The other side. -/
def Side.flip : Side → Side
  | .left => .right
  | .right => .left

/-- A place that holds a pointer to an element: `&head->root` (or a local `root`), `&p->left`, `&p->right`. -/
inductive Edge
  | root
  | child (side : Side) (p : Addr)
deriving DecidableEq, Repr

/-- The elements and one root pointer. -/
structure Mem (ε : Type) where
  heap : Heap ε
  root : Option Addr

/-- The pointer on a side. -/
def ZipEntry.get (z : ZipEntry) : Side → Option Addr
  | .left => z.left
  | .right => z.right

/-- The pointer on a side is written. -/
def ZipEntry.set (z : ZipEntry) (s : Side) (v : Option Addr) : ZipEntry :=
  match s with
  | .left => { z with left := v }
  | .right => { z with right := v }

variable {ε κ : Type}

/-- `*edge` -/
def readEdge (Z : ZipFunctions ε κ) (m : Mem ε) : Edge → Option (Option Addr)
  | .root => some m.root
  | .child s p => do
    let e ← m.heap.load p
    return (Z.field e).get s

/-- `*edge = v` -/
def writeEdge (Z : ZipFunctions ε κ) (m : Mem ε) (edge : Edge) (v : Option Addr) : Option (Mem ε) :=
  match edge with
  | .root => some { m with root := v }
  | .child s p => do
    let e ← m.heap.load p
    let h ← m.heap.store p (Z.setField e ((Z.field e).set s v))
    return { m with heap := h }

/-! ## `ziptree.c` -/

/-- `data[i]` of `__ZIP_PTR_HASH`: a byte of the pointer itself, on a little-endian machine. -/
def ptrByte (p : Addr) (i : Nat) : UInt32 := UInt32.ofNat (p / 256 ^ i % 256)

/-- `__ZIP_PTR_HASH`; `sizeof(void*)` is 4. -/
def zipPtrHash (p : Addr) : UInt32 :=
  (List.range 4).foldl (fun h i => ptrByte p i + (h <<< 6) + (h <<< 16) - h) 0

/-- `__ZIP_RANK_CMP` -/
def zipRankCmp (p1 p2 : Addr) : ZipCmp :=
  let h1 := zipPtrHash p1
  let h2 := zipPtrHash p2
  if h1 = h2 then (if p1 < p2 then .less else .more)
  else if h1 < h2 then .less else .more

/-- `__ZIP_UNIQUE_CMP`, of the keys of two elements. -/
def zipUniqueCmp (Z : ZipFunctions ε κ) (h : Heap ε) (p1 p2 : Addr) : Option ZipCmp :=
  if p1 = p2 then some .eq
  else do
    let e1 ← h.load p1
    let e2 ← h.load p2
    let order := Z.cmp (Z.keyfield e1) (Z.keyfield e2)
    return if order = .eq then (if p1 < p2 then .less else .more) else order

/-- `cmp(key, ZIP_KEY_PTR(p))` -/
def cmpKey (Z : ZipFunctions ε κ) (h : Heap ε) (key : κ) (p : Addr) : Option ZipCmp := do
  let e ← h.load p
  return Z.cmp key (Z.keyfield e)

/-- The loop of the four `…_MOVE_…` functions: walk down from `cur` on one side, leave the elements that stay
    and hook the others, one below the other, to `fix_edge`. -/
def moveLoop (Z : ZipFunctions ε κ) (s : Side) (stays : Mem ε → Addr → Option Bool)
    (relink : Mem ε → Edge → Addr → Addr → Option (Mem ε)) :
    Nat → Mem ε → Edge → Addr → Option (Mem ε)
  | 0, _, _, _ => none
  | n + 1, m, fixEdge, cur => do
    match ← readEdge Z m (.child s cur) with
    | none => return m
    | some cand =>
      if ← stays m cand then moveLoop Z s stays relink n m fixEdge cand
      else
        let m ← relink m fixEdge cur cand
        moveLoop Z s stays relink n m (.child s.flip cand) cur

/-- The body of the loops of `__ZIP_INSERT_MOVE_RIGHT` and `…_LEFT` for an element that moves. -/
def insertRelink (Z : ZipFunctions ε κ) (s : Side) (m : Mem ε) (fixEdge : Edge) (cur cand : Addr) :
    Option (Mem ε) := do
  let m ← writeEdge Z m (.child s cur) (← readEdge Z m (.child s.flip cand))
  let m ← writeEdge Z m (.child s.flip cand) none
  writeEdge Z m fixEdge (some cand)

/-- The same for `__ZIP_UNZIP_MOVE_LEFT` and `…_RIGHT`, which write `*fix_edge` first. -/
def unzipRelink (Z : ZipFunctions ε κ) (s : Side) (m : Mem ε) (fixEdge : Edge) (cur next : Addr) :
    Option (Mem ε) := do
  let m ← writeEdge Z m fixEdge (some next)
  let m ← writeEdge Z m (.child s cur) (← readEdge Z m (.child s.flip next))
  writeEdge Z m (.child s.flip next) none

/-- An upper bound for the rounds of a loop that visits an element at most once. -/
def Mem.fuel (m : Mem ε) : Nat := m.heap.live.card + 1

/-- The two `__ZIP_INSERT_MOVE_…`: an element stays if `x` compares to it as `keep` says. -/
def zipInsertMove (Z : ZipFunctions ε κ) (s : Side) (keep : ZipCmp) (x : Addr) (m : Mem ε) (fixEdge : Edge)
    (cur : Addr) : Option (Mem ε) :=
  moveLoop Z s (fun m cand => (zipUniqueCmp Z m.heap x cand).map (· == keep)) (insertRelink Z s)
    m.fuel m fixEdge cur

/-- `__ZIP_INSERT_MOVE_RIGHT` -/
def zipInsertMoveRight (Z : ZipFunctions ε κ) := zipInsertMove Z .right .more

/-- `__ZIP_INSERT_MOVE_LEFT` -/
def zipInsertMoveLeft (Z : ZipFunctions ε κ) := zipInsertMove Z .left .less

/-- The variables of `__ZIP_INSERT` after its search. -/
structure Descent where
  prev      : Option Addr
  prevOrder : ZipCmp
  cur       : Option Addr
  curOrder  : ZipCmp

/-- The search of `__ZIP_INSERT` for the top element of a smaller rank; an inner `none` if it meets `x`. -/
def insertDescend (Z : ZipFunctions ε κ) (m : Mem ε) (x : Addr) :
    Nat → Option Addr → ZipCmp → Addr → Option (Option Descent)
  | 0, _, _, _ => none
  | n + 1, prev, prevOrder, cur => do
    let curOrder ← zipUniqueCmp Z m.heap x cur
    if curOrder = .eq then return none
    else if zipRankCmp cur x = .less then return some ⟨prev, prevOrder, some cur, curOrder⟩
    else
      match ← readEdge Z m (.child (if curOrder = .more then .right else .left) cur) with
      | none => return some ⟨some cur, curOrder, none, curOrder⟩
      | some next => insertDescend Z m x n (some cur) curOrder next

/-- The end of `__ZIP_INSERT`: `cur` is re-inserted under `x`. -/
def insertReinsert (Z : ZipFunctions ε κ) (x : Addr) (curOrder : ZipCmp) (m : Mem ε) :
    Option Addr → Option (Mem ε)
  | none => some m
  | some cur =>
    if curOrder = .more then do
      let m ← writeEdge Z m (.child .left x) (some cur)
      zipInsertMoveRight Z x m (.child .right x) cur
    else do
      let m ← writeEdge Z m (.child .right x) (some cur)
      zipInsertMoveLeft Z x m (.child .left x) cur

/-- `__ZIP_INSERT` from the end of its search: `x` takes the place of `cur` under its parent `prev`. -/
def insertLink (Z : ZipFunctions ε κ) (m : Mem ε) (x : Addr) (d : Descent) : Option (Mem ε) := do
  let m ←
    if d.cur = m.root then writeEdge Z m .root (some x)
    else do
      let prev ← d.prev
      if d.prevOrder = .more then writeEdge Z m (.child .right prev) (some x)
      else writeEdge Z m (.child .left prev) (some x)
  insertReinsert Z x d.curOrder m d.cur

/-- `__ZIP_INSERT` -/
def zipInsert (Z : ZipFunctions ε κ) (m : Mem ε) (x : Addr) : Option (Mem ε) := do
  let m ← writeEdge Z m (.child .left x) none
  let m ← writeEdge Z m (.child .right x) none
  match m.root with
  | none => writeEdge Z m .root (some x)
  | some cur =>
    match ← insertDescend Z m x m.fuel none .eq cur with
    | none => return m
    | some d => insertLink Z m x d

/-- The loop of `__ZIP_ZIP`. -/
def zipLoop (Z : ZipFunctions ε κ) : Nat → Mem ε → Edge → Option Addr → Option Addr → Option (Mem ε)
  | 0, _, _, _, _ => none
  | n + 1, m, prevEdge, l, r =>
    match l, r with
    | some l, some r =>
      if zipRankCmp l r = .less then do
        let m ← writeEdge Z m prevEdge (some r)
        zipLoop Z n m (.child .left r) (some l) (← readEdge Z m (.child .left r))
      else do
        let m ← writeEdge Z m prevEdge (some l)
        zipLoop Z n m (.child .right l) (← readEdge Z m (.child .right l)) (some r)
    | some l, none => writeEdge Z m prevEdge (some l)
    | none, r => writeEdge Z m prevEdge r

/-- `__ZIP_ZIP`; the root of the memory that is returned is the result. -/
def zipZip (Z : ZipFunctions ε κ) (h : Heap ε) (left right : Option Addr) : Option (Mem ε) :=
  match left, right with
  | none, right => some ⟨h, right⟩
  | some l, none => some ⟨h, some l⟩
  | some l, some r => zipLoop Z (h.live.card + 1) ⟨h, none⟩ .root (some l) (some r)

/-- The search of `__ZIP_REMOVE`: the edge to the element, an inner `none` if it is not in the tree. -/
def removeDescend (Z : ZipFunctions ε κ) (m : Mem ε) (x : Addr) :
    Nat → Edge → Addr → Option (Option (Edge × Addr))
  | 0, _, _ => none
  | n + 1, prevEdge, cur => do
    let curOrder ← zipUniqueCmp Z m.heap x cur
    if curOrder = .eq then return some (prevEdge, cur)
    else
      let edge := Edge.child (if curOrder = .less then .left else .right) cur
      match ← readEdge Z m edge with
      | none => return none
      | some next => removeDescend Z m x n edge next

/-- The last assignment of `__ZIP_REMOVE`: `*prev_edge = __ZIP_ZIP(cur->left, cur->right)`. -/
def removeUnhook (Z : ZipFunctions ε κ) (m : Mem ε) (prevEdge : Edge) (cur : Addr) : Option (Mem ε) := do
  let zipped ← zipZip Z m.heap (← readEdge Z m (.child .left cur)) (← readEdge Z m (.child .right cur))
  writeEdge Z { m with heap := zipped.heap } prevEdge zipped.root

/-- `__ZIP_REMOVE`: the memory and the pointer that is returned. -/
def zipRemove (Z : ZipFunctions ε κ) (m : Mem ε) (x : Addr) : Option (Mem ε × Option Addr) :=
  match m.root with
  | none => some (m, none)
  | some cur => do
    match ← removeDescend Z m x m.fuel .root cur with
    | none => return (m, none)
    | some (prevEdge, cur) => return (← removeUnhook Z m prevEdge cur, some cur)

/-- The two `__ZIP_UNZIP_MOVE_…`: an element stays if the comparison with the key says so. -/
def zipUnzipMove (Z : ZipFunctions ε κ) (s : Side) (keep : ZipCmp → Bool) (key : κ) (m : Mem ε)
    (fixEdge : Edge) (cur : Addr) : Option (Mem ε) :=
  moveLoop Z s (fun m next => (cmpKey Z m.heap key next).map keep) (unzipRelink Z s) m.fuel m fixEdge cur

/-- `__ZIP_UNZIP_MOVE_LEFT` -/
def zipUnzipMoveLeft (Z : ZipFunctions ε κ) := zipUnzipMove Z .left (· == .less)

/-- `__ZIP_UNZIP_MOVE_RIGHT` -/
def zipUnzipMoveRight (Z : ZipFunctions ε κ) := zipUnzipMove Z .right (· != .less)

/-- The `do` loops of `__ZIP_UNZIP`: down one side while the comparison says so. The last element of the
    walk (`prev`) and the one below it (`cur`), if any. -/
def unzipWalk (Z : ZipFunctions ε κ) (m : Mem ε) (s : Side) (go : ZipCmp → Bool) (key : κ) :
    Nat → Addr → Option (Addr × Option Addr)
  | 0, _ => none
  | n + 1, prev => do
    match ← readEdge Z m (.child s prev) with
    | none => return (prev, none)
    | some cur =>
      if go (← cmpKey Z m.heap key cur) then unzipWalk Z m s go key n cur
      else return (prev, some cur)

/-- `__ZIP_UNZIP`: the elements, the root of the left part, the root of the right part. -/
def zipUnzip (Z : ZipFunctions ε κ) (m : Mem ε) (key : κ) : Option (Heap ε × Option Addr × Option Addr) :=
  match m.root with
  | none => some (m.heap, none, none)
  | some root => do
    if (← cmpKey Z m.heap key root) ≠ .less then
      match ← unzipWalk Z m .right (· != .less) key m.fuel root with
      | (_, none) => return (m.heap, some root, none)
      | (prev, some cur) =>
        let m ← writeEdge Z m (.child .right prev) none
        let m ← zipUnzipMoveLeft Z key m (.child .right prev) cur
        return (m.heap, some root, some cur)
    else
      match ← unzipWalk Z m .left (· == .less) key m.fuel root with
      | (_, none) => return (m.heap, none, some root)
      | (prev, some cur) =>
        let m ← writeEdge Z m (.child .left prev) none
        let m ← zipUnzipMoveRight Z key m (.child .left prev) cur
        return (m.heap, some cur, some root)

/-- `__ZIP_ITER`. The callback may change the whole state; the pointers of an element are read before it
    runs. The first pointer other than `NULL` that it returns ends the iteration. -/
def zipIter {σ ω : Type} (entry : σ → Addr → Option ZipEntry) (cb : σ → Addr → Option (σ × Option ω)) :
    Nat → σ → Option Addr → Option (σ × Option ω)
  | _, st, none => some (st, none)
  | 0, _, some _ => none
  | n + 1, st, some elm => do
    let z ← entry st elm
    match ← zipIter entry cb n st z.left with
    | (st, some res) => return (st, some res)
    | (st, none) =>
      match ← cb st elm with
      | (st, some res) => return (st, some res)
      | (st, none) => zipIter entry cb n st z.right

/-- `__ZIP_ITER_KEY`, for a comparison `cmp(key, ·)` and a callback that leaves the elements alone. -/
def zipIterKey {σ ω : Type} (Z : ZipFunctions ε κ) (h : Heap ε) (cmp : κ → ZipCmp)
    (cb : σ → Addr → Option (σ × Option ω)) : Nat → σ → Option Addr → Option (σ × Option ω)
  | _, st, none => some (st, none)
  | 0, _, some _ => none
  | n + 1, st, some elm => do
    let e ← h.load elm
    let order := cmp (Z.keyfield e)
    match ← if order ≠ .more then zipIterKey Z h cmp cb n st (Z.field e).left else some (st, none) with
    | (st, some res) => return (st, some res)
    | (st, none) =>
      match ← if order = .eq then cb st elm else some (st, none) with
      | (st, some res) => return (st, some res)
      | (st, none) => if order ≠ .less then zipIterKey Z h cmp cb n st (Z.field e).right else some (st, none)

/-- `name##_ZIP_FIND` -/
def zipFind (Z : ZipFunctions ε κ) (h : Heap ε) (key : κ) : Nat → Option Addr → Option (Option Addr)
  | _, none => some none
  | 0, some _ => none
  | n + 1, some cur => do
    let e ← h.load cur
    match Z.cmp key (Z.keyfield e) with
    | .eq => return some cur
    | .less => zipFind Z h key n (Z.field e).left
    | .more => zipFind Z h key n (Z.field e).right

/-- `name##_ZIP_MIN`: the loop goes left as long as it can. -/
def zipMinLoop (Z : ZipFunctions ε κ) (h : Heap ε) : Nat → Addr → Option Addr
  | 0, _ => none
  | n + 1, cur => do
    let e ← h.load cur
    match (Z.field e).left with
    | none => return cur
    | some next => zipMinLoop Z h n next

/-- `ZIP_MIN`: the leftmost element. -/
def zipMin (Z : ZipFunctions ε κ) (m : Mem ε) : Option (Option Addr) :=
  match m.root with
  | none => some none
  | some cur => (zipMinLoop Z m.heap m.fuel cur).map some

end Open62541
end Esp32Probes
