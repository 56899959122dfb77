import Esp32Probes.Open62541.Timer

/-!
# Open62541.DelayedQueue — the delayed callbacks of the event loop

`eventloop_lwip.c` queues delayed callbacks without a lock, for many producers and one consumer. The queue
is a linked list with two heads, one of them in use and the other one marked with the value 1. A producer
exchanges the tail for its own element and then writes the link to it. The consumer takes the whole list at
once by changing over to the other head, and waits where a link is still missing.

A step of the machine is one access to the shared memory by one thread: any number of threads add callbacks
while the holder of `elMutex` processes the queue or removes a callback from it. This is the queue of a
build with `UA_MULTITHREADING >= 100`: `UA_atomic_xchg` is one access, accesses are sequentially consistent,
and `UA_LOCK` takes a real mutex. The mutex is recursive, so that a callback that is executed may call both
functions again; the calls then form a stack. The firmware is built with `UA_MULTITHREADING` 0, where the
exchange is a read and a write and the locks are empty: `DelayedPlain` is about that build.

A use of memory that is not allocated, or a write through a pointer that is none, is seen as a `fault`. The
fields of an element other than `next` are read together with it: the program leaves an element alone while it
is handed over (`Owns`).
-/

namespace Esp32Probes
namespace Open62541

open CHeap (Addr Heap)

/-! ## Memory -/

/-- A value of type `UA_DelayedCallback *` or `UA_DelayedCallback **`: `NULL`, `0x01`, the address of a
    head, or of an element. The first field of an element is its `next`, so that `dc` and `&dc->next` are
    one address. -/
inductive Ptr
  | null
  | sentinel
  | head1
  | head2
  | element (dc : Addr)
deriving DecidableEq, Repr

/-- `p <= (UA_DelayedCallback *)0x01` -/
def Ptr.small (p : Ptr) : Bool := decide (p = .null ∨ p = .sentinel)

/-- `UA_DelayedCallback` -/
structure DelayedCallback where
  next        : Ptr
  callback    : Option Callback
  application : Nat
  context     : Nat

/-- The elements, and the three pointers of the event loop. -/
structure DelayedMem where
  heap         : Heap DelayedCallback
  delayedHead1 : Ptr
  delayedHead2 : Ptr
  delayedTail  : Ptr

/-- Read the pointer at `p`. -/
def DelayedMem.load (m : DelayedMem) : Ptr → Option Ptr
  | .head1 => some m.delayedHead1
  | .head2 => some m.delayedHead2
  | .element dc => (m.heap.load dc).map (·.next)
  | _ => none

/-- Write the pointer at `p`. -/
def DelayedMem.store (m : DelayedMem) (p v : Ptr) : Option DelayedMem :=
  match p with
  | .head1 => some { m with delayedHead1 := v }
  | .head2 => some { m with delayedHead2 := v }
  | .element dc => do
    let e ← m.heap.load dc
    let h ← m.heap.store dc { e with next := v }
    return { m with heap := h }
  | _ => none

/-- `&el->delayedHead1` or `&el->delayedHead2` -/
def headPtr (first : Bool) : Ptr := if first then .head1 else .head2

/-- `UA_EventLoop_new_LWIP` -/
def eventLoopNew (h : Heap DelayedCallback) : DelayedMem := ⟨h, .null, .sentinel, .head1⟩

/-! ## Adding -/

/-- The statements of `UA_EventLoopLWIP_addDelayedCallback`. -/
inductive AddPc
  | clear (dc : Addr)
  | swing (dc : Addr)
  | link (dc : Addr) (oldtail : Ptr)
deriving DecidableEq, Repr

/-- The element that an add is about. -/
def AddPc.dc : AddPc → Addr
  | .clear dc => dc
  | .swing dc => dc
  | .link dc _ => dc

/-- One statement of `UA_EventLoopLWIP_addDelayedCallback`, and the next one. -/
def addStep (m : DelayedMem) : AddPc → Option (DelayedMem × Option AddPc)
  | .clear dc => do
    let m ← m.store (.element dc) .null
    return (m, some (.swing dc))
  | .swing dc => some ({ m with delayedTail := .element dc }, some (.link dc m.delayedTail))
  | .link dc oldtail => do
    let m ← m.store oldtail (.element dc)
    return (m, none)

/-! ## Processing and removing -/

/-- `processDelayed`, or `UA_EventLoopLWIP_removeDelayedCallback` of an element. -/
inductive Job
  | process
  | remove (dc : Addr)
deriving DecidableEq, Repr

/-- The statements of the two functions. Both begin with `resetDelayedQueue`: its two comparisons, the
    choice of the active head, and the three exchanges. -/
inductive LoopPc
  | test1
  | test2
  | choose
  | activate (active1 : Bool)
  | take (active1 : Bool)
  | retail (active1 : Bool) (oldHead : Ptr)
  -- the head of the loop, inside `dc->callback(..)`, and inside the call that adds an element again
  | walk (cur tail : Ptr)
  | calling (next tail : Ptr)
  | readd (next tail : Ptr)
deriving DecidableEq, Repr

/-- A call on the stack, and the statement it has come to. -/
structure Frame where
  job : Job
  pc  : LoopPc
deriving DecidableEq, Repr

/-- What a step is seen to do. -/
inductive Seen
  | quiet
  -- the exchange of the tail by a thread
  | queued (dc : Addr)
  -- `resetDelayedQueue` returns early, or exchanges the tail
  | nothing
  | checkedOut
  -- what becomes of an element of the list that was taken
  | executed (dc : Addr) (callback : Callback) (application context : Nat)
  | skipped (dc : Addr)
  | removed (dc : Addr)
  | picked (dc : Addr)
  | requeued (dc : Addr)
  | finished
  | fault
deriving DecidableEq, Repr

/-- The body of the loop for the element at `cur`, once its `next` has been read. -/
def visitElement (m : DelayedMem) (job : Job) (cur next tail : Ptr) : Option (Option AddPc × LoopPc × Seen) :=
  match cur with
  | .element dc =>
    match job with
    | .process => do
      let e ← m.heap.load dc
      match e.callback with
      | none => return (none, .walk next tail, .skipped dc)
      | some callback => return (none, .calling next tail, .executed dc callback e.application e.context)
    | .remove target =>
      if dc = target then some (none, .walk next tail, .removed dc)
      else some (some (.clear dc), .readd next tail, .picked dc)
  | _ => none

/-- One statement of a job, `add` being its own call of `UA_EventLoopLWIP_addDelayedCallback`. No next
    statement means that the function returns. -/
def jobStep (m : DelayedMem) (add : Option AddPc) (job : Job) :
    LoopPc → Option (DelayedMem × Option AddPc × Option LoopPc × Seen)
  | .test1 => some (m, add, some (if m.delayedHead1.small then .test2 else .choose), .quiet)
  | .test2 =>
    if m.delayedHead2.small then some (m, add, some (.walk .null .null), .nothing)
    else some (m, add, some .choose, .quiet)
  | .choose => some (m, add, some (.activate (decide (m.delayedHead1 ≠ .sentinel))), .quiet)
  | .activate active1 => do
    let m ← m.store (headPtr !active1) .null
    return (m, add, some (.take active1), .quiet)
  | .take active1 => do
    let oldHead ← m.load (headPtr active1)
    let m ← m.store (headPtr active1) .sentinel
    return (m, add, some (.retail active1 oldHead), .quiet)
  | .retail active1 oldHead =>
    some ({ m with delayedTail := headPtr !active1 }, add, some (.walk oldHead m.delayedTail), .checkedOut)
  | .walk cur tail =>
    if cur = .null then some (m, add, none, .finished)
    else do
      let next ← m.load cur
      -- the spin loop
      if next = .null ∧ cur ≠ tail then return (m, add, some (.walk cur tail), .quiet)
      else
        let (add, pc, seen) ← visitElement m job cur next tail
        return (m, add, some pc, seen)
  | .calling _ _ => none
  | .readd next tail =>
    match add with
    | none => none
    | some pc => do
      let (m, add) ← addStep m pc
      let seen := match pc with
        | .swing dc => .requeued dc
        | _ => .quiet
      return (m, add, some (if add = none then .walk next tail else .readd next tail), seen)

/-- `el->delayedHead1 != NULL && el->delayedHead2 != NULL`, the condition of `checkClosed` and of
    `UA_EventLoopLWIP_run`. -/
def DelayedMem.occupied (m : DelayedMem) : Bool := decide (m.delayedHead1 ≠ .null ∧ m.delayedHead2 ≠ .null)

/-- `UA_EventLoopLWIP_nextTimer`, at the time `now`. -/
def nextTimer (m : DelayedMem) (t : Timer) (now : Int) : Option Int :=
  if m.delayedHead1.small = false ∨ m.delayedHead2.small = false then some now else timerNext t

/-! ## The machine -/

/-- The queue and the calls that are being executed: `add (some t)` by the thread `t`, `add none` by
    `UA_EventLoopLWIP_removeDelayedCallback`; `frames` is the stack of the holder of `elMutex`. The last field
    records which elements have been handed over and not come back; no statement reads it. -/
structure DelayedQueue (ι : Type) where
  mem    : DelayedMem
  add    : Option ι → Option AddPc
  frames : List Frame
  lent   : Finset Addr

variable {ι : Type}

/-- Before the first call. -/
def DelayedQueue.start (h : Heap DelayedCallback) : DelayedQueue ι := ⟨eventLoopNew h, fun _ => none, [], ∅⟩

/-- What happens next: a thread calls `UA_EventLoopLWIP_addDelayedCallback` or continues in it, the holder
    of the mutex calls one of the two functions or continues, the callback it executes returns, or the
    program allocates an element, sets its fields or frees it. -/
inductive DelayedEvent (ι : Type)
  | add (t : ι) (dc : Addr)
  | adding (t : ι)
  | enter (job : Job)
  | loop
  | callbackReturns
  | malloc (pick : Option Addr)
  | assign (dc : Addr) (callback : Option Callback) (application context : Nat)
  | free (dc : Addr)
deriving DecidableEq, Repr

/-- The element that a step gives back to the program. -/
def Seen.givenBack : Seen → Option Addr
  | .executed dc _ _ _ => some dc
  | .skipped dc => some dc
  | .removed dc => some dc
  | _ => none

/-- The elements lent to the queue after what was seen. -/
def Seen.settle (seen : Seen) (lent : Finset Addr) : Finset Addr :=
  match seen.givenBack with
  | some dc => lent.erase dc
  | none => lent

/-- The program's own accesses to an element. -/
def assignElement (m : DelayedMem) (dc : Addr) (callback : Option Callback) (application context : Nat) :
    Option DelayedMem := do
  let e ← m.heap.load dc
  let h ← m.heap.store dc { e with callback := callback, application := application, context := context }
  return { m with heap := h }

/-- One step; `none` if the event cannot happen in this state. -/
def DelayedQueue.step [DecidableEq ι] (s : DelayedQueue ι) : DelayedEvent ι → Option (DelayedQueue ι × Seen)
  | .add t dc =>
    match s.add (some t) with
    | some _ => none
    | none =>
      some ({ s with add := Function.update s.add (some t) (some (.clear dc)), lent := insert dc s.lent },
        .quiet)
  | .adding t =>
    match s.add (some t) with
    | none => none
    | some pc =>
      match addStep s.mem pc with
      | none => some (s, .fault)
      | some (m, add) =>
        some ({ s with mem := m, add := Function.update s.add (some t) add }, match pc with
          | .swing dc => .queued dc
          | _ => .quiet)
  | .enter job =>
    match s.frames with
    | [] => some ({ s with frames := [⟨job, .test1⟩] }, .quiet)
    | ⟨job', .calling next tail⟩ :: frames =>
      some ({ s with frames := ⟨job, .test1⟩ :: ⟨job', .calling next tail⟩ :: frames }, .quiet)
    | _ => none
  | .loop =>
    match s.frames with
    | [] => none
    | ⟨_, .calling _ _⟩ :: _ => none
    | ⟨job, pc⟩ :: frames =>
      match jobStep s.mem (s.add none) job pc with
      | none => some (s, .fault)
      | some (m, add, next, seen) =>
        some (⟨m, Function.update s.add none add, match next with
          | none => frames
          | some pc => ⟨job, pc⟩ :: frames, seen.settle s.lent⟩, seen)
  | .callbackReturns =>
    match s.frames with
    | ⟨job, .calling next tail⟩ :: frames =>
      some ({ s with frames := ⟨job, .walk next tail⟩ :: frames }, .quiet)
    | _ => none
  | .malloc pick => some ({ s with mem := { s.mem with heap := (s.mem.heap.malloc pick).2 } }, .quiet)
  | .assign dc callback application context =>
    match assignElement s.mem dc callback application context with
    | none => some (s, .fault)
    | some m => some ({ s with mem := m }, .quiet)
  | .free dc =>
    match s.mem.heap.free dc with
    | none => some (s, .fault)
    | some h => some ({ s with mem := { s.mem with heap := h } }, .quiet)

/-- What the program owes the queue: the elements that it hands over, changes or frees are allocated and not
    handed over already. -/
def Owns (s : DelayedQueue ι) : DelayedEvent ι → Prop
  | .add _ dc => dc ∈ s.mem.heap.live ∧ dc ∉ s.lent
  | .assign dc _ _ _ => dc ∈ s.mem.heap.live ∧ dc ∉ s.lent
  | .free dc => dc ∈ s.mem.heap.live ∧ dc ∉ s.lent
  | _ => True

instance (s : DelayedQueue ι) (e : DelayedEvent ι) : Decidable (Owns s e) :=
  match e with
  | .add _ dc => inferInstanceAs (Decidable (dc ∈ s.mem.heap.live ∧ dc ∉ s.lent))
  | .assign dc _ _ _ => inferInstanceAs (Decidable (dc ∈ s.mem.heap.live ∧ dc ∉ s.lent))
  | .free dc => inferInstanceAs (Decidable (dc ∈ s.mem.heap.live ∧ dc ∉ s.lent))
  | .adding _ => isTrue trivial
  | .enter _ => isTrue trivial
  | .loop => isTrue trivial
  | .callbackReturns => isTrue trivial
  | .malloc _ => isTrue trivial

end Open62541
end Esp32Probes
