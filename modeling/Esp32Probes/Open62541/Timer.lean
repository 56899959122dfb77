import Esp32Probes.Open62541.ZipTree

/-!
# Open62541.Timer — the timer of the event loop

`arch/common/timer.c`: timer entries from `malloc`, each in a tree sorted by its next time and in a tree
sorted by its id. `UA_Timer_process` moves the entries that are due to a tree of its own and runs their
callbacks from there; a callback may add, modify and remove timers, also the ones that are still to be
processed.

Times and intervals are `UA_DateTime` values, that is `int64_t`: every operation on them is checked, since a
signed overflow is undefined. Ids are `UA_UInt64` values and wrap. Where the source computes
`(UA_DateTime)(interval_ms * UA_DATETIME_MSEC)` the functions take the result. An overflow, a division by
zero, a failed `UA_assert` and every use of memory that is not allocated end in `none`.
-/

namespace Esp32Probes
namespace Open62541

open CHeap (Addr Heap)

/-! ## Data -/

/-- `UA_TimerPolicy` -/
inductive TimerPolicy
  | once
  | currentTime
  | baseTime
deriving DecidableEq, Repr

/-- A `UA_Callback` other than `NULL`. -/
abbrev Callback := Nat

/-- `UA_TimerEntry` -/
structure TimerEntry where
  treeEntry   : ZipEntry
  timerPolicy : TimerPolicy
  nextTime    : Int
  interval    : Int
  cb          : Option Callback
  application : Nat
  data        : Nat
  idTreeEntry : ZipEntry
  id          : Nat

/-- `UA_Timer` -/
structure Timer where
  heap      : Heap TimerEntry
  tree      : Option Addr
  idTree    : Option Addr
  idCounter : Nat

/-- The status codes that `timer.c` answers with. -/
inductive TimerStatus
  | good
  | badInternalError
  | badOutOfMemory
  | badNotFound
deriving DecidableEq, Repr

def cmpDateTime (a b : Int) : ZipCmp := if a = b then .eq else if a < b then .less else .more

def cmpId (a b : Nat) : ZipCmp := if a = b then .eq else if a < b then .less else .more

/-- `ZIP_FUNCTIONS(UA_TimerTree, UA_TimerEntry, treeEntry, UA_DateTime, nextTime, cmpDateTime)` -/
def timerTree : ZipFunctions TimerEntry Int where
  field := (·.treeEntry)
  setField e z := { e with treeEntry := z }
  keyfield := (·.nextTime)
  cmp := cmpDateTime
  field_setField _ _ := rfl
  setField_setField _ _ _ := rfl
  setField_field _ := rfl
  keyfield_setField _ _ := rfl

/-- `ZIP_FUNCTIONS(UA_TimerIdTree, UA_TimerEntry, idTreeEntry, UA_UInt64, id, cmpId)` -/
def timerIdTree : ZipFunctions TimerEntry Nat where
  field := (·.idTreeEntry)
  setField e z := { e with idTreeEntry := z }
  keyfield := (·.id)
  cmp := cmpId
  field_setField _ _ := rfl
  setField_setField _ _ _ := rfl
  setField_field _ := rfl
  keyfield_setField _ _ := rfl

/-- `&t->tree` -/
def Timer.treeMem (t : Timer) : Mem TimerEntry := ⟨t.heap, t.tree⟩

/-- `&t->idTree` -/
def Timer.idTreeMem (t : Timer) : Mem TimerEntry := ⟨t.heap, t.idTree⟩

/-- The timer after an operation on the time-sorted tree. -/
def Timer.setTree (t : Timer) (m : Mem TimerEntry) : Timer := { t with heap := m.heap, tree := m.root }

/-- The timer after an operation on the id-sorted tree. -/
def Timer.setIdTree (t : Timer) (m : Mem TimerEntry) : Timer := { t with heap := m.heap, idTree := m.root }

/-- Bounds the depth of the trees. -/
def Timer.fuel (t : Timer) : Nat := t.heap.live.card + 1

/-- Assignments to the fields of an entry. -/
def Timer.update (t : Timer) (te : Addr) (f : TimerEntry → TimerEntry) : Option Timer := do
  let e ← t.heap.load te
  return { t with heap := ← t.heap.store te (f e) }

/-! ## Times -/

/-- `UA_DATETIME_SEC`, in units of 100 ns -/
def datetimeSec : Int := 10000000

/-- `UA_INT64_MAX` -/
def int64Max : Int := 9223372036854775807

/-- `UA_INT64_MIN` -/
def int64Min : Int := -9223372036854775808

/-- The result of an operation on `UA_DateTime` values, which must not overflow. -/
def dateTime (x : Int) : Option Int := if int64Min ≤ x ∧ x ≤ int64Max then some x else none

/-- `a % b` is undefined when `b` is zero and when `a / b` overflows. -/
def remainder (a b : Int) : Option Int :=
  if b = 0 then none else (dateTime (a.tdiv b)).map fun _ => a.tmod b

/-- `calculateNextTime` -/
def calculateNextTime (currentTime baseTime interval : Int) : Option Int := do
  let diffCurrentTimeBaseTime ← dateTime (currentTime - baseTime)
  let cycleDelay ← remainder diffCurrentTimeBaseTime interval
  let cycleDelay ← if cycleDelay < 0 then dateTime (cycleDelay + interval) else some cycleDelay
  dateTime ((← dateTime (currentTime + interval)) - cycleDelay)

/-- The interval and the base time with which `UA_Timer_add` and `UA_Timer_modify` go on; an inner `none` is
    `UA_STATUSCODE_BADINTERNALERROR`. -/
def checkInterval (interval now : Int) (baseTime : Option Int) (timerPolicy : TimerPolicy) :
    Option (Option (Int × Option Int)) :=
  if interval ≤ 0 then
    if timerPolicy ≠ .once then some none
    else
      match baseTime with
      | some base => (dateTime (base - now)).map fun interval => some (interval, none)
      | none => some (some (interval, none))
  else some (some (interval, baseTime))

/-- `(baseTime == NULL) ? now + interval : calculateNextTime(now, *baseTime, interval)` -/
def initialTime (interval now : Int) : Option Int → Option Int
  | none => dateTime (now + interval)
  | some base => calculateNextTime now base interval

/-! ## Batching -/

/-- `cmpBatchWindow(start, nextTime)`, with the global `latest`. -/
def cmpBatchWindow (start latest nextTime : Int) : ZipCmp :=
  if nextTime < start then .less else if nextTime > latest then .more else .eq

/-- The two tests of `findTimer2Batch`: one interval is a multiple of the other. -/
def intervalsFit (te compare : Int) : Option Bool :=
  if te < compare then (remainder compare te).map fun r => decide (r = 0)
  else if te > compare then (remainder te compare).map fun r => decide (r = 0)
  else some true

/-- `findTimer2Batch`, on the global `adjustedNextTime`. -/
def findTimer2Batch (h : Heap TimerEntry) (earliest latest : Int) (interval : Int) (adjusted : Int)
    (compare : Addr) : Option (Int × Option Unit) := do
  let c ← h.load compare
  if earliest ≤ c.nextTime ∧ c.nextTime ≤ latest then
    if interval = 0 ∨ c.interval = 0 then return (adjusted, none)
    else if (← intervalsFit interval c.interval) = false then return (adjusted, none)
    else return (c.nextTime, if interval = c.interval then some () else none)
  else none

/-- `batchTimerEntry` -/
def batchTimerEntry (t : Timer) (te : Addr) : Option Timer := do
  let e ← t.heap.load te
  if e.timerPolicy ≠ .currentTime then return t
  else
    let deviate := e.interval.tdiv 4
    let deviate := if deviate > datetimeSec then datetimeSec else deviate
    let earliest ← dateTime (e.nextTime - deviate)
    let latest ← dateTime (e.nextTime + deviate)
    let (adjusted, _) ← zipIterKey timerTree t.heap (cmpBatchWindow earliest latest)
      (findTimer2Batch t.heap earliest latest e.interval) t.fuel e.nextTime t.tree
    t.update te fun e => { e with nextTime := adjusted }

/-! ## The functions of the interface -/

/-- `UA_Timer_init` -/
def timerInit (h : Heap TimerEntry) : Timer := ⟨h, none, none, 0⟩

/-- `UA_Timer_add`; `pick` is what `UA_malloc` does, the third component is `*callbackId`. -/
def timerAdd (t : Timer) (callback : Option Callback) (application data : Nat) (interval now : Int)
    (baseTime : Option Int) (timerPolicy : TimerPolicy) (pick : Option Addr) :
    Option (Timer × TimerStatus × Option Nat) :=
  match callback with
  | none => some (t, .badInternalError, none)
  | some cb => do
    match ← checkInterval interval now baseTime timerPolicy with
    | none => return (t, .badInternalError, none)
    | some (interval, baseTime) =>
      let nextTime ← initialTime interval now baseTime
      match t.heap.malloc pick with
      | (none, _) => return (t, .badOutOfMemory, none)
      | (some te, h) =>
        let t := { t with heap := h }
        let t ← t.update te fun e =>
          { e with interval := interval, cb := some cb, application := application, data := data,
                   nextTime := nextTime, timerPolicy := timerPolicy }
        let t ← batchTimerEntry t te
        let t := { t with idCounter := (t.idCounter + 1) % 2 ^ 64 }
        let t ← t.update te fun e => { e with id := t.idCounter }
        let t := t.setTree (← zipInsert timerTree t.treeMem te)
        let t := t.setIdTree (← zipInsert timerIdTree t.idTreeMem te)
        return (t, .good, some t.idCounter)

/-- `UA_Timer_modify` -/
def timerModify (t : Timer) (callbackId : Nat) (interval now : Int) (baseTime : Option Int)
    (timerPolicy : TimerPolicy) : Option (Timer × TimerStatus) := do
  match ← checkInterval interval now baseTime timerPolicy with
  | none => return (t, .badInternalError)
  | some (interval, baseTime) =>
    match ← zipFind timerIdTree t.heap callbackId t.fuel t.idTree with
    | none => return (t, .badNotFound)
    | some te =>
      let (m, removed) ← zipRemove timerTree t.treeMem te
      let t := t.setTree m
      let processing := removed.isNone
      let nextTime ← initialTime interval now baseTime
      let t ← t.update te fun e =>
        { e with nextTime := nextTime, interval := interval, timerPolicy := timerPolicy }
      let t ← batchTimerEntry t te
      if processing then
        let nextTime ← dateTime ((← t.heap.load te).nextTime - interval)
        return (← t.update te fun e => { e with nextTime := nextTime }, .good)
      else return (t.setTree (← zipInsert timerTree t.treeMem te), .good)

/-- `UA_Timer_remove` -/
def timerRemove (t : Timer) (callbackId : Nat) : Option Timer := do
  match ← zipFind timerIdTree t.heap callbackId t.fuel t.idTree with
  | none => return t
  | some te =>
    let (m, removed) ← zipRemove timerTree t.treeMem te
    let t := t.setTree m
    if removed.isSome then
      let (m, _) ← zipRemove timerIdTree t.idTreeMem te
      let t := t.setIdTree m
      return { t with heap := ← t.heap.free te }
    else t.update te fun e => { e with cb := none }

/-! ## Processing -/

/-- A call to the timer. -/
inductive TimerCall
  | add (callback : Option Callback) (application data : Nat) (interval now : Int) (baseTime : Option Int)
      (timerPolicy : TimerPolicy) (pick : Option Addr)
  | modify (callbackId : Nat) (interval now : Int) (baseTime : Option Int) (timerPolicy : TimerPolicy)
  | remove (callbackId : Nat)
deriving Repr

/-- A callback that has been executed. -/
structure Fired where
  id          : Nat
  cb          : Callback
  application : Nat
  data        : Nat
deriving DecidableEq, Repr

/-- What the callbacks do: the calls of the one executed last, given all that have been executed. They may
    depend on anything that has happened, so every behaviour of the callbacks is one of these. -/
abbrev Script := List Fired → List TimerCall

/-- A call and what it answers, with the id that `UA_Timer_add` hands out. -/
def Timer.call (t : Timer) : TimerCall → Option (Timer × TimerStatus × Option Nat)
  | .add cb application data interval now baseTime policy pick =>
    timerAdd t cb application data interval now baseTime policy pick
  | .modify id interval now baseTime policy => do
    let (t, status) ← timerModify t id interval now baseTime policy
    return (t, status, none)
  | .remove id => do return (← timerRemove t id, .good, none)

/-- The calls of one callback, one after the other. -/
def Timer.calls (t : Timer) : List TimerCall → Option Timer
  | [] => some t
  | c :: cs => do
    let (t, _) ← t.call c
    t.calls cs

/-- A timer and the callbacks executed so far. -/
structure Running where
  timer : Timer
  fired : List Fired

/-- `if(te->cb) te->cb(te->application, te->data)` -/
def executeCallback (script : Script) (st : Running) (e : TimerEntry) : Option Running :=
  match e.cb with
  | none => some st
  | some cb =>
    let fired := st.fired ++ [⟨e.id, cb, e.application, e.data⟩]
    (st.timer.calls (script fired)).map fun t => ⟨t, fired⟩

/-- The time for the next regular execution. If the window was missed it depends on the policy. -/
def nextExecution (now nextTime interval : Int) (timerPolicy : TimerPolicy) : Option Int := do
  let next ← dateTime (nextTime + interval)
  if next < now then
    if timerPolicy = .currentTime then dateTime (now + interval) else calculateNextTime now next interval
  else return next

/-- `processEntryCallback` -/
def processEntryCallback (script : Script) (now : Int) (st : Running) (te : Addr) :
    Option (Running × Option Unit) := do
  let st ← executeCallback script st (← st.timer.heap.load te)
  let t := st.timer
  let e ← t.heap.load te
  if e.cb = none ∨ e.timerPolicy = .once then
    let (m, _) ← zipRemove timerIdTree t.idTreeMem te
    let t := t.setIdTree m
    return (⟨{ t with heap := ← t.heap.free te }, st.fired⟩, none)
  else
    let next ← nextExecution now e.nextTime e.interval e.timerPolicy
    let t ← t.update te fun e => { e with nextTime := next }
    let t := t.setTree (← zipInsert timerTree t.treeMem te)
    return (⟨t, st.fired⟩, none)

/-- The next time of the first entry, `UA_INT64_MAX` if there is none. -/
def firstNextTime (t : Timer) : Option Int := do
  match ← zipMin timerTree t.treeMem with
  | none => return int64Max
  | some first => return (← t.heap.load first).nextTime

/-- The consistency check of `UA_Timer_process`: the smallest entry that is not processed is not ready. -/
def noneReady (t : Timer) (now : Int) : Option Bool := do
  match ← zipMin timerTree t.treeMem with
  | none => return true
  | some first => return decide ((← t.heap.load first).nextTime > now)

/-- `UA_Timer_process` -/
def timerProcess (script : Script) (st : Running) (now : Int) : Option (Running × Int) := do
  let (h, processTree, tree) ← zipUnzip timerTree st.timer.treeMem now
  let t := { st.timer with heap := h, tree := tree }
  if ← noneReady t now then
    let (st, _) ← zipIter (fun (st : Running) p => (st.timer.heap.load p).map (·.treeEntry))
      (processEntryCallback script now) t.fuel ⟨t, st.fired⟩ processTree
    return (st, ← firstNextTime st.timer)
  else none

/-- `UA_Timer_next` -/
def timerNext (t : Timer) : Option Int := firstNextTime t

/-- `UA_Timer_clear` -/
def timerClear (t : Timer) : Option Timer := do
  let (h, _) ← zipIter (fun (h : Heap TimerEntry) p => (h.load p).map (·.idTreeEntry))
    (fun h p => (h.free p).map fun h => (h, (none : Option Unit))) t.fuel t.heap t.idTree
  return ⟨h, none, none, 0⟩

end Open62541
end Esp32Probes
