import Esp32Probes.Open62541.Timer
import Esp32Probes.Open62541.ZipTraverse

/-!
# Open62541.TimerSchedule — what the timer is for

The timer without memory and without overflow: a queue of entries in the order of their next times and,
during a round of processing, the entries of the round that are still to be visited. A call changes the
queue or, if it names an entry of the round, that entry's data; a visit runs one callback and puts a cyclic
entry back. Times are integers and ids natural numbers, both without a bound.

Two things of the memory remain. Entries of one next time stand in the order of their addresses, and the
batching of a new entry looks only at the part of the queue that the time-sorted tree shows it (`windowOf`).

## Contents
- **Times.** `gridTime`, `firstTime`, `following`: what the functions of `timer.c` compute, when they
  compute it.
- **Entries and schedules.** `Item`, `Schedule`, its calls, `visit`, `round`.
- **Well-formed schedules.** `Schedule.Ok` and that every call and every visit keeps it.
-/

namespace Esp32Probes
namespace Open62541

open CHeap (Addr Heap)
open ZipTree (inorder IsZip)

/-! ## Times -/

/-- The first time after `now` that is a whole number of intervals away from the base time. -/
def gridTime (now base interval : Int) : Int := now + interval - (now - base) % interval

/-- The interval and the next time of a timer that is asked for, if it may be. -/
def firstTime (interval now : Int) (baseTime : Option Int) (timerPolicy : TimerPolicy) : Option (Int × Int) :=
  if interval ≤ 0 then
    if timerPolicy ≠ .once then none
    else
      match baseTime with
      | some base => some (base - now, base)
      | none => some (interval, now + interval)
  else
    match baseTime with
    | some base => some (interval, gridTime now base interval)
    | none => some (interval, now + interval)

/-- The next time after an execution at `now`. -/
def following (now nextTime interval : Int) (timerPolicy : TimerPolicy) : Int :=
  if nextTime + interval < now then
    if timerPolicy = .currentTime then now + interval else gridTime now (nextTime + interval) interval
  else nextTime + interval

/-- One interval is a multiple of the other. -/
def fits (te compare : Int) : Bool := if te < compare then decide (te ∣ compare) else decide (compare ∣ te)

/-! ## Entries and schedules -/

/-- A timer entry without its pointers. -/
structure Item where
  addr        : Addr
  id          : Nat
  timerPolicy : TimerPolicy
  nextTime    : Int
  interval    : Int
  cb          : Option Callback
  application : Nat
  data        : Nat
deriving DecidableEq, Repr

/-- The order of the queue: the next time, and the address between equal times. -/
def Item.key (i : Item) : ℤ ×ₗ ℕ := toLex (i.nextTime, i.addr)

/-- The queue in its order, the entries of the round that are still to be visited, and the last id handed
    out. -/
structure Schedule where
  queue     : List Item
  pending   : List Item
  idCounter : Nat

/-- All entries. -/
def Schedule.items (s : Schedule) : List Item := s.queue ++ s.pending

/-- An entry in its place. -/
def enqueue (q : List Item) (i : Item) : List Item := q.orderedInsert (fun a b => a.key < b.key) i

/-- The entries of the window that the tree of the queue shows to `ZIP_ITER_KEY`. -/
def windowOf (q : List Item) (earliest latest : Int) : List Item :=
  visits (fun c => cmpBatchWindow earliest latest c.nextTime)
    (ZipTree.build Item.key (fun c => rank c.addr) q)

/-- The next time after a look at these candidates: the last one that fits, up to the first perfect match. -/
def batchScan (interval adjusted : Int) : List Item → Int
  | [] => adjusted
  | c :: cs =>
    if interval = 0 ∨ c.interval = 0 then batchScan interval adjusted cs
    else if fits interval c.interval = false then batchScan interval adjusted cs
    else if interval = c.interval then c.nextTime
    else batchScan interval c.nextTime cs

/-- How far a batched time may be from the original one. -/
def deviation (interval : Int) : Int := if interval.tdiv 4 > datetimeSec then datetimeSec else interval.tdiv 4

/-- The next time of an entry after batching. -/
def batchTime (q : List Item) (i : Item) : Int :=
  if i.timerPolicy ≠ .currentTime then i.nextTime
  else batchScan i.interval i.nextTime
    (windowOf q (i.nextTime - deviation i.interval) (i.nextTime + deviation i.interval))

namespace Schedule

/-- After `UA_Timer_init`, and after `UA_Timer_clear`. -/
def start : Schedule := ⟨[], [], 0⟩

/-- `UA_Timer_add`, with the id that it hands out. -/
def add (s : Schedule) (callback : Option Callback) (application data : Nat) (interval now : Int)
    (baseTime : Option Int) (timerPolicy : TimerPolicy) (pick : Option Addr) :
    Schedule × TimerStatus × Option Nat :=
  match callback, firstTime interval now baseTime timerPolicy, pick with
  | none, _, _ => (s, .badInternalError, none)
  | some _, none, _ => (s, .badInternalError, none)
  | some _, some _, none => (s, .badOutOfMemory, none)
  | some cb, some (interval, nextTime), some addr =>
    if addr ∈ s.items.map Item.addr then (s, .badOutOfMemory, none)
    else
      let i : Item := ⟨addr, s.idCounter + 1, timerPolicy, nextTime, interval, some cb, application, data⟩
      let i := { i with nextTime := batchTime s.queue i }
      ({ s with queue := enqueue s.queue i, idCounter := s.idCounter + 1 }, .good, some (s.idCounter + 1))

/-- The data of the entry of the round with this id changes. -/
def change (s : Schedule) (id : Nat) (g : Item → Item) : Schedule :=
  { s with pending := s.pending.map fun i => if i.id = id then g i else i }

/-- An entry with a new interval, batched with the others. -/
def rearm (q : List Item) (interval nextTime : Int) (timerPolicy : TimerPolicy) (i : Item) : Item :=
  let i := { i with nextTime := nextTime, interval := interval, timerPolicy := timerPolicy }
  { i with nextTime := batchTime q i }

/-- `UA_Timer_modify` -/
def modify (s : Schedule) (id : Nat) (interval now : Int) (baseTime : Option Int)
    (timerPolicy : TimerPolicy) :
    Schedule × TimerStatus :=
  match firstTime interval now baseTime timerPolicy with
  | none => (s, .badInternalError)
  | some (interval, nextTime) =>
    match s.queue.find? (fun i => i.id = id) with
    | some i =>
      let rest := s.queue.filter (fun i => i.id ≠ id)
      ({ s with queue := enqueue rest (rearm rest interval nextTime timerPolicy i) }, .good)
    | none =>
      if id ∈ s.pending.map Item.id then
        -- adjusted for the interval that is added after the execution
        let late (i : Item) : Item :=
          let i := rearm s.queue interval nextTime timerPolicy i
          { i with nextTime := i.nextTime - interval }
        (s.change id late, .good)
      else (s, .badNotFound)

/-- An entry of the round loses its callback, which marks it for deletion. -/
def remove (s : Schedule) (id : Nat) : Schedule :=
  { s with queue := s.queue.filter (fun i => i.id ≠ id) }.change id fun i => { i with cb := none }

/-- One call and its answers. -/
def call (s : Schedule) : TimerCall → Schedule × TimerStatus × Option Nat
  | .add cb application data interval now baseTime policy pick =>
    s.add cb application data interval now baseTime policy pick
  | .modify id interval now baseTime policy =>
    ((s.modify id interval now baseTime policy).1, (s.modify id interval now baseTime policy).2, none)
  | .remove id => (s.remove id, .good, none)

/-- The calls of a callback, one after the other. -/
def calls (s : Schedule) (cs : List TimerCall) : Schedule := cs.foldl (fun s c => (s.call c).1) s

/-- An entry after its execution. -/
def again (now : Int) (i : Item) : Item :=
  { i with nextTime := following now i.nextTime i.interval i.timerPolicy }

/-- The first entry of the round runs, unless it has been removed. -/
def execute (script : Script) (s : Schedule) (fired : List Fired) (i : Item) : Schedule × List Fired :=
  match i.cb with
  | none => (s, fired)
  | some cb =>
    let fired := fired ++ [⟨i.id, cb, i.application, i.data⟩]
    (s.calls (script fired), fired)

/-- The first entry of the round, which its own callback may have changed, leaves the round. -/
def settle (now : Int) (s : Schedule) : Schedule :=
  match s.pending with
  | [] => s
  | i :: rest =>
    if i.cb = none ∨ i.timerPolicy = .once then { s with pending := rest }
    else { s with pending := rest, queue := enqueue s.queue (again now i) }

/-- The first entry of the round is executed and leaves the round. -/
def visit (script : Script) (now : Int) (s : Schedule) (fired : List Fired) : Schedule × List Fired :=
  match s.pending with
  | [] => (s, fired)
  | i :: _ =>
    let r := s.execute script fired i
    (r.1.settle now, r.2)

/-- The visits of a round, as many as it has entries at its start. -/
def visits (script : Script) (now : Int) : Nat → Schedule → List Fired → Schedule × List Fired
  | 0, s, fired => (s, fired)
  | n + 1, s, fired =>
    let r := s.visit script now fired
    r.1.visits script now n r.2

/-- The entries that are due become the entries of the round. -/
def startRound (s : Schedule) (now : Int) : Schedule :=
  { s with queue := s.queue.filter fun i => !decide (i.nextTime ≤ now)
           pending := s.queue.filter fun i => decide (i.nextTime ≤ now) }

/-- `UA_Timer_next` -/
def next (s : Schedule) : Int := match s.queue with
  | [] => int64Max
  | i :: _ => i.nextTime

/-- `UA_Timer_process` -/
def process (script : Script) (s : Schedule) (fired : List Fired) (now : Int) :
    (Schedule × List Fired) × Int :=
  let s := s.startRound now
  let r := s.visits script now s.pending.length fired
  (r, r.1.next)

end Schedule

/-! ## The queue -/

theorem mem_enqueue {q : List Item} {i j : Item} : j ∈ enqueue q i ↔ j = i ∨ j ∈ q := List.mem_orderedInsert _

theorem perm_enqueue (q : List Item) (i : Item) : (enqueue q i).Perm (i :: q) := List.perm_orderedInsert _ i q

/-- The queue stays in order if the entry has a key of its own. -/
theorem enqueue_sorted {q : List Item} {i : Item} (h : q.Pairwise fun a b => a.key < b.key)
    (hi : ∀ j ∈ q, j.key ≠ i.key) : (enqueue q i).Pairwise fun a b => a.key < b.key := by
  induction q with
  | nil => exact List.pairwise_singleton _ _
  | cons a q ih =>
      obtain ⟨ha, hq⟩ := List.pairwise_cons.mp h
      unfold enqueue
      rw [List.orderedInsert_cons]
      split_ifs with hlt
      · refine List.pairwise_cons.mpr ⟨fun b hb => ?_, h⟩
        rcases List.mem_cons.mp hb with hba | hb
        · exact hba ▸ hlt
        · exact lt_trans hlt (ha b hb)
      · refine List.pairwise_cons.mpr ⟨fun b hb => ?_, ih hq fun j hj => hi j (List.mem_cons_of_mem _ hj)⟩
        rcases mem_enqueue.mp hb with hbi | hb
        · exact hbi ▸ lt_of_le_of_ne (not_lt.mp hlt) (hi a List.mem_cons_self)
        · exact ha b hb

/-- A sorted list with the elements of another one and `i` is that list with `i` in its place. -/
theorem eq_enqueue {q l : List Item} {i : Item} (hl : l.Pairwise fun a b => a.key < b.key)
    (hq : q.Pairwise fun a b => a.key < b.key) (hi : ∀ j ∈ q, j.key ≠ i.key) (h : l.Perm (i :: q)) :
    l = enqueue q i :=
  (h.trans (perm_enqueue q i).symm).eq_of_pairwise (fun _ _ _ _ hab hba => absurd hab (lt_asymm hba)) hl
    (enqueue_sorted hq hi)

/-! ## First times -/

/-- The time on the grid is after `now`, by at most one interval. -/
theorem gridTime_bounds (now base : Int) {interval : Int} (h : 0 < interval) :
    now < gridTime now base interval ∧ gridTime now base interval ≤ now + interval := by
  have hnonneg := Int.emod_nonneg (now - base) (Int.ne_of_gt h)
  have hlt := Int.emod_lt_of_pos (now - base) h
  unfold gridTime
  omega

/-- What can be asked for. -/
theorem firstTime_cases {interval now : Int} {baseTime : Option Int} {timerPolicy : TimerPolicy} {iv nt : Int}
    (h : firstTime interval now baseTime timerPolicy = some (iv, nt)) :
    (interval ≤ 0 ∧ timerPolicy = .once ∧ ((∃ base, baseTime = some base ∧ iv = base - now ∧ nt = base) ∨
      baseTime = none ∧ iv = interval ∧ nt = now + interval)) ∨
    0 < interval ∧ iv = interval ∧ now < nt ∧ nt ≤ now + interval := by
  unfold firstTime at h
  by_cases hpos : interval ≤ 0
  · rw [if_pos hpos] at h
    split_ifs at h with hp
    refine .inl ⟨hpos, not_not.mp hp, ?_⟩
    cases baseTime with
    | none =>
        cases h
        exact .inr ⟨rfl, rfl, rfl⟩
    | some base =>
        cases h
        exact .inl ⟨_, rfl, rfl, rfl⟩
  · rw [if_neg hpos] at h
    have hpos : 0 < interval := not_le.mp hpos
    refine .inr ⟨hpos, ?_⟩
    cases baseTime with
    | none =>
        cases h
        exact ⟨rfl, by omega, le_refl _⟩
    | some base =>
        cases h
        exact ⟨rfl, gridTime_bounds now base hpos⟩

/-- Only a timer that executes once may have an interval that is not positive. -/
theorem firstTime_interval {interval now : Int} {baseTime : Option Int} {timerPolicy : TimerPolicy}
    {iv nt : Int} (h : firstTime interval now baseTime timerPolicy = some (iv, nt))
    (hp : timerPolicy ≠ .once) : 0 < iv := by
  rcases firstTime_cases h with ⟨-, honce, -⟩ | ⟨hpos, rfl, -⟩
  · exact absurd honce hp
  · exact hpos

/-! ## Well-formed schedules -/

/-- The entries have addresses and ids of their own, the queue is in order, its entries have a callback, and
    cyclic entries have a positive interval. -/
structure Schedule.Ok (s : Schedule) : Prop where
  sorted : s.queue.Pairwise fun a b => a.key < b.key
  addrs  : (s.items.map Item.addr).Nodup
  ids    : (s.items.map Item.id).Nodup
  bound  : ∀ i ∈ s.items, i.id ≤ s.idCounter
  armed  : ∀ i ∈ s.queue, i.cb ≠ none
  cyclic : ∀ i ∈ s.items, i.timerPolicy ≠ .once → 0 < i.interval

/-- Entries at different addresses have different keys. -/
theorem Item.key_ne {a b : Item} (h : a.addr ≠ b.addr) : a.key ≠ b.key := fun he =>
  h (congrArg (fun k => (ofLex k).2) he)

/-- The queue is the one of the entry with this id and the rest. -/
theorem perm_cons_filter {q : List Item} (hn : (q.map Item.id).Nodup) {i : Item} (hi : i ∈ q) :
    q.Perm (i :: q.filter (fun j => j.id ≠ i.id)) := by
  induction q with
  | nil => cases hi
  | cons a q ih =>
      obtain ⟨ha, hq⟩ := List.nodup_cons.mp hn
      rcases List.mem_cons.mp hi with hia | hi
      · subst hia
        have hrest : q.filter (fun j => decide (j.id ≠ i.id)) = q := by
          refine List.filter_eq_self.mpr fun j hj => decide_eq_true fun he => ha ?_
          exact he ▸ List.mem_map_of_mem hj
        rw [List.filter_cons_of_neg (by simp), hrest]
      · have hai : a.id ≠ i.id := fun he => ha (he ▸ List.mem_map_of_mem hi)
        rw [List.filter_cons_of_pos (by simpa using hai)]
        exact ((ih hq hi).cons a).trans (List.Perm.swap _ _ _)

namespace Schedule

variable {s : Schedule}

/-- A schedule whose entries are, up to their order and their times, those of a well-formed one. -/
theorem Ok.of_items {s' : Schedule} (h : s.Ok) (hsorted : s'.queue.Pairwise fun a b => a.key < b.key)
    (haddr : (s'.items.map Item.addr).Perm (s.items.map Item.addr))
    (hid : (s'.items.map Item.id).Perm (s.items.map Item.id)) (hcounter : s'.idCounter = s.idCounter)
    (harmed : ∀ i ∈ s'.queue, i.cb ≠ none)
    (hcyclic : ∀ i ∈ s'.items, i.timerPolicy ≠ .once → 0 < i.interval) :
    s'.Ok := by
  refine ⟨hsorted, haddr.nodup_iff.mpr h.addrs, hid.nodup_iff.mpr h.ids, fun i hi => ?_, harmed, hcyclic⟩
  have hmem := hid.mem_iff.mp (List.mem_map_of_mem hi)
  obtain ⟨j, hj, hji⟩ := List.mem_map.mp hmem
  rw [← hji, hcounter]
  exact h.bound j hj

/-- An entry of the queue is not at the address of an entry of the round. -/
theorem Ok.addr_ne (h : s.Ok) {i j : Item} (hi : i ∈ s.queue) (hj : j ∈ s.pending) : i.addr ≠ j.addr := by
  have hn := h.addrs
  unfold items at hn
  rw [List.map_append] at hn
  exact fun he => (List.nodup_append.mp hn).2.2 _ (List.mem_map_of_mem hi) _ (List.mem_map_of_mem hj) he

/-- The ids in the queue are different. -/
theorem Ok.queue_ids (h : s.Ok) : (s.queue.map Item.id).Nodup := by
  have hn := h.ids
  unfold items at hn
  rw [List.map_append] at hn
  exact (List.nodup_append.mp hn).1

/-- `add` refuses and changes nothing, or puts one entry with a new id into the queue. -/
theorem add_cases (s : Schedule) (cb : Option Callback) (application data : Nat) (interval now : Int)
    (baseTime : Option Int) (timerPolicy : TimerPolicy) (pick : Option Addr) :
    (∃ status, s.add cb application data interval now baseTime timerPolicy pick = (s, status, none) ∧
      status ≠ .good) ∨
    ∃ c iv nt a i, cb = some c ∧ firstTime interval now baseTime timerPolicy = some (iv, nt) ∧
      pick = some a ∧ a ∉ s.items.map Item.addr ∧
      i = { (⟨a, s.idCounter + 1, timerPolicy, nt, iv, some c, application, data⟩ : Item) with
        nextTime := batchTime s.queue ⟨a, s.idCounter + 1, timerPolicy, nt, iv, some c, application, data⟩ } ∧
      s.add cb application data interval now baseTime timerPolicy pick =
        ({ s with queue := enqueue s.queue i, idCounter := s.idCounter + 1 }, .good,
          some (s.idCounter + 1)) := by
  unfold add
  cases cb with
  | none => exact .inl ⟨_, rfl, by decide⟩
  | some c =>
      cases hfirst : firstTime interval now baseTime timerPolicy with
      | none => exact .inl ⟨_, rfl, by decide⟩
      | some times =>
          obtain ⟨iv, nt⟩ := times
          cases pick with
          | none => exact .inl ⟨_, rfl, by decide⟩
          | some a =>
              by_cases ha : a ∈ s.items.map Item.addr
              · exact .inl ⟨_, if_pos ha, by decide⟩
              · exact .inr ⟨c, iv, nt, a, _, rfl, rfl, rfl, ha, rfl, if_neg ha⟩

/-- A new entry has an address and an id of its own. -/
theorem Ok.add (h : s.Ok) (cb : Option Callback) (application data : Nat) (interval now : Int)
    (baseTime : Option Int) (timerPolicy : TimerPolicy) (pick : Option Addr) :
    (s.add cb application data interval now baseTime timerPolicy pick).1.Ok := by
  rcases add_cases s cb application data interval now baseTime timerPolicy pick with
    ⟨status, heq, -⟩ | ⟨c, iv, nt, a, i, -, hfirst, -, ha, hi, heq⟩
  · rw [heq]
    exact h
  · rw [heq]
    have haddr : i.addr = a := by rw [hi]
    have hid : i.id = s.idCounter + 1 := by rw [hi]
    have hmem : ∀ j ∈ s.items, j.addr ≠ i.addr := fun j hj he => ha (haddr ▸ he ▸ List.mem_map_of_mem hj)
    have hperm : (enqueue s.queue i ++ s.pending).Perm (i :: s.items) := (perm_enqueue _ _).append_right _
    refine ⟨enqueue_sorted h.sorted fun j hj => Item.key_ne (hmem j (List.mem_append_left _ hj)), ?_, ?_, ?_,
      ?_, ?_⟩
    · refine (hperm.map Item.addr).nodup_iff.mpr (List.nodup_cons.mpr ⟨haddr ▸ ha, h.addrs⟩)
    · refine (hperm.map Item.id).nodup_iff.mpr (List.nodup_cons.mpr ⟨fun hm => ?_, h.ids⟩)
      obtain ⟨j, hj, hji⟩ := List.mem_map.mp hm
      have hb := h.bound j hj
      omega
    · intro j hj
      show j.id ≤ s.idCounter + 1
      rcases List.mem_cons.mp (hperm.mem_iff.mp hj) with hji | hj
      · rw [hji, hid]
      · exact Nat.le_succ_of_le (h.bound j hj)
    · intro j hj
      rcases mem_enqueue.mp hj with hji | hj
      · rw [hji, hi]
        simp
      · exact h.armed j hj
    · intro j hj hp
      rcases List.mem_cons.mp (hperm.mem_iff.mp hj) with hji | hj
      · subst hji
        rw [hi] at hp ⊢
        exact firstTime_interval hfirst hp
      · exact h.cyclic j hj hp

theorem find_queue {q : List Item} {id : Nat} {i : Item} (h : q.find? (fun i => i.id = id) = some i) :
    i ∈ q ∧ i.id = id := ⟨List.mem_of_find?_eq_some h, by simpa using List.find?_some h⟩

/-- An id that is not in the queue is not filtered out of it. -/
theorem filter_of_find_none {q : List Item} {id : Nat} (h : q.find? (fun i => i.id = id) = none) :
    q.filter (fun i => i.id ≠ id) = q := by
  refine List.filter_eq_self.mpr fun i hi => ?_
  simpa using List.find?_eq_none.mp h i hi

/-- An entry of the queue is replaced by one with the same address and id. -/
theorem Ok.replace (h : s.Ok) {i j : Item} (hi : i ∈ s.queue) (haddr : j.addr = i.addr) (hid : j.id = i.id)
    (hcb : j.cb = i.cb) (hcyclic : j.timerPolicy ≠ .once → 0 < j.interval) :
    ({ s with queue := enqueue (s.queue.filter (fun k => k.id ≠ i.id)) j } : Schedule).Ok := by
  have hperm := perm_cons_filter h.queue_ids hi
  have hsub : ∀ k ∈ s.queue.filter (fun k => decide (k.id ≠ i.id)), k ∈ s.queue := fun k hk =>
    (List.mem_filter.mp hk).1
  have hne : ∀ k ∈ s.queue.filter (fun k => decide (k.id ≠ i.id)), k.key ≠ j.key := by
    have hn := h.addrs
    unfold items at hn
    rw [List.map_append] at hn
    have hq := ((hperm.map Item.addr).nodup_iff.mp (List.nodup_append.mp hn).1)
    rw [List.map_cons] at hq
    intro k hk
    refine Item.key_ne fun he => (List.nodup_cons.mp hq).1 ?_
    rw [← haddr, ← he]
    exact List.mem_map_of_mem hk
  have hitems : ∀ f : Item → Nat, f j = f i →
      ((enqueue (s.queue.filter fun k => decide (k.id ≠ i.id)) j ++ s.pending).map f).Perm
      (s.items.map f) := by
    intro f hf
    unfold items
    rw [List.map_append, List.map_append]
    refine List.Perm.append_right _ ?_
    refine ((perm_enqueue _ _).map f).trans ?_
    rw [List.map_cons, hf, ← List.map_cons]
    exact (hperm.map f).symm
  refine h.of_items (enqueue_sorted (h.sorted.filter _) hne) (hitems _ haddr) (hitems _ hid) rfl ?_ ?_
  · intro k hk
    rcases mem_enqueue.mp hk with hkj | hk
    · rw [hkj, hcb]
      exact h.armed i hi
    · exact h.armed k (hsub k hk)
  · intro k hk hp
    rcases List.mem_append.mp hk with hk | hk
    · rcases mem_enqueue.mp hk with hkj | hk
      · exact hkj ▸ hcyclic (hkj ▸ hp)
      · exact h.cyclic k (List.mem_append_left _ (hsub k hk)) hp
    · exact h.cyclic k (List.mem_append_right _ hk) hp

/-- What a change leaves alone. -/
theorem map_change {g : Item → Item} (s : Schedule) (id : Nat) (f : Item → Nat) (hf : ∀ i, f (g i) = f i) :
    (s.change id g).pending.map f = s.pending.map f := by
  unfold change
  rw [List.map_map]
  refine List.map_congr_left fun i _ => ?_
  show f (if i.id = id then g i else i) = f i
  split_ifs
  · exact hf i
  · rfl

/-- Two changes of one entry are one change. -/
theorem change_change {g g' : Item → Item} (s : Schedule) (id : Nat) (hg : ∀ i, (g i).id = i.id) :
    (s.change id g).change id g' = s.change id (g' ∘ g) := by
  unfold change
  simp only [List.map_map]
  congr 1
  refine List.map_congr_left fun i _ => ?_
  show (if (if i.id = id then g i else i).id = id then g' (if i.id = id then g i else i)
    else if i.id = id then g i else i) = if i.id = id then g' (g i) else i
  by_cases hid : i.id = id
  · simp only [hg, hid, if_true]
  · simp only [if_neg hid]

/-- Without an entry of this id nothing changes. -/
theorem change_of_notMem {s : Schedule} {id : Nat} (g : Item → Item) (h : id ∉ s.pending.map Item.id) :
    s.change id g = s := by
  unfold change
  have hsame : s.pending.map (fun i => if i.id = id then g i else i) = s.pending := by
    refine (List.map_congr_left fun i hi => if_neg fun he => h ?_).trans (List.map_id _)
    exact he ▸ List.mem_map_of_mem hi
  rw [hsame]

/-- The address and the id of an entry stay. -/
theorem Ok.change (h : s.Ok) {g : Item → Item} (haddr : ∀ i, (g i).addr = i.addr) (hid : ∀ i, (g i).id = i.id)
    (hcyclic : ∀ i ∈ s.pending, (g i).timerPolicy ≠ .once → 0 < (g i).interval) (id : Nat) :
    (s.change id g).Ok := by
  have hmap : ∀ f : Item → Nat, (∀ i, f (g i) = f i) →
    ((s.change id g).items.map f).Perm (s.items.map f) := by
    intro f hf
    unfold items
    rw [List.map_append, List.map_append, map_change s id f hf]
    rfl
  refine h.of_items h.sorted (hmap _ haddr) (hmap _ hid) rfl h.armed fun i hi hp => ?_
  rcases List.mem_append.mp hi with hi | hi
  · exact h.cyclic i (List.mem_append_left _ hi) hp
  · obtain ⟨j, hj, hji⟩ := List.mem_map.mp hi
    have hji : (if j.id = id then g j else j) = i := hji
    split_ifs at hji
    · rw [← hji] at hp ⊢
      exact hcyclic j hj hp
    · exact hji ▸ h.cyclic j (List.mem_append_right _ hj) (hji ▸ hp)

/-- A modified entry keeps its address and its id. -/
theorem Ok.modify (h : s.Ok) (id : Nat) (interval now : Int) (baseTime : Option Int)
    (timerPolicy : TimerPolicy) :
    (s.modify id interval now baseTime timerPolicy).1.Ok := by
  unfold Schedule.modify
  cases hfirst : firstTime interval now baseTime timerPolicy with
  | none => exact h
  | some times =>
      obtain ⟨iv, nt⟩ := times
      have hcyclic : timerPolicy ≠ .once → 0 < iv := firstTime_interval hfirst
      cases hfind : s.queue.find? (fun i => i.id = id) with
      | some i =>
          obtain ⟨hi, rfl⟩ := find_queue hfind
          exact h.replace hi rfl rfl rfl hcyclic
      | none =>
          dsimp only
          split_ifs
          · refine h.change ?_ ?_ ?_ id
            · exact fun _ => rfl
            · exact fun _ => rfl
            · exact fun _ _ => hcyclic
          · exact h

/-- Entries may leave the queue. -/
theorem Ok.filter_queue (h : s.Ok) (p : Item → Bool) :
    ({ s with queue := s.queue.filter p } : Schedule).Ok := by
  have hsub : (s.queue.filter p ++ s.pending).Sublist s.items := (List.filter_sublist).append_right _
  refine ⟨h.sorted.filter _, h.addrs.sublist (hsub.map _), h.ids.sublist (hsub.map _), fun i hi => ?_,
    fun i hi => h.armed i (List.mem_filter.mp hi).1, fun i hi => h.cyclic i (hsub.subset hi)⟩
  exact h.bound i (hsub.subset hi)

/-- What is removed leaves the queue, or loses its callback in the round. -/
theorem Ok.remove (h : s.Ok) (id : Nat) : (s.remove id).Ok := by
  refine (h.filter_queue fun i => decide (i.id ≠ id)).change ?_ ?_ ?_ id
  · exact fun _ => rfl
  · exact fun _ => rfl
  · exact fun i hi => h.cyclic i (List.mem_append_right _ hi)

/-- **One call** keeps a schedule well-formed. -/
theorem Ok.call (h : s.Ok) (c : TimerCall) : (s.call c).1.Ok := by
  cases c with
  | add cb application data interval now baseTime policy pick =>
      exact h.add cb application data interval now baseTime policy pick
  | modify id interval now baseTime policy => exact h.modify id interval now baseTime policy
  | remove id => exact h.remove id

theorem Ok.calls (h : s.Ok) (cs : List TimerCall) : (s.calls cs).Ok := by
  induction cs generalizing s with
  | nil => exact h
  | cons c cs ih => exact ih (h.call c)

/-! ## Visits -/

/-- Calls change the data of the entries of the round only. -/
theorem call_pending (s : Schedule) (c : TimerCall) :
    (s.call c).1.pending.map Item.addr = s.pending.map Item.addr ∧
      (s.call c).1.pending.map Item.id = s.pending.map Item.id := by
  cases c with
  | add cb application data interval now baseTime policy pick =>
      show (s.add cb application data interval now baseTime policy pick).1.pending.map _ = _ ∧
        (s.add cb application data interval now baseTime policy pick).1.pending.map _ = _
      rcases add_cases s cb application data interval now baseTime policy pick with
        ⟨status, heq, -⟩ | ⟨c, iv, nt, a, i, -, -, -, -, -, heq⟩ <;> rw [heq] <;> exact ⟨rfl, rfl⟩
  | modify id interval now baseTime policy =>
      show (s.modify id interval now baseTime policy).1.pending.map _ = _ ∧
        (s.modify id interval now baseTime policy).1.pending.map _ = _
      unfold Schedule.modify
      cases firstTime interval now baseTime policy with
      | none => exact ⟨rfl, rfl⟩
      | some times =>
          cases s.queue.find? (fun i => i.id = id) with
          | some i => exact ⟨rfl, rfl⟩
          | none =>
              dsimp only
              split_ifs
              · exact ⟨map_change _ _ _ fun _ => rfl, map_change _ _ _ fun _ => rfl⟩
              · exact ⟨rfl, rfl⟩
  | remove id =>
      exact ⟨map_change { s with queue := s.queue.filter (fun i => i.id ≠ id) } id Item.addr fun _ => rfl,
        map_change { s with queue := s.queue.filter (fun i => i.id ≠ id) } id Item.id fun _ => rfl⟩

/-- Calls neither add to the round nor take from it. -/
theorem calls_pending (s : Schedule) (cs : List TimerCall) :
    (s.calls cs).pending.map Item.addr = s.pending.map Item.addr ∧
      (s.calls cs).pending.map Item.id = s.pending.map Item.id := by
  induction cs generalizing s with
  | nil => exact ⟨rfl, rfl⟩
  | cons c cs ih =>
      have hc := call_pending s c
      have hcs := ih (s.call c).1
      exact ⟨hcs.1.trans hc.1, hcs.2.trans hc.2⟩

/-- An execution neither adds to the round nor takes from it. -/
theorem execute_pending (script : Script) (s : Schedule) (fired : List Fired) (i : Item) :
    (s.execute script fired i).1.pending.map Item.addr = s.pending.map Item.addr ∧
      (s.execute script fired i).1.pending.map Item.id = s.pending.map Item.id := by
  unfold execute
  cases i.cb with
  | none => exact ⟨rfl, rfl⟩
  | some cb => exact calls_pending s _

/-- The calls of a callback keep a schedule well-formed. -/
theorem Ok.execute (h : s.Ok) (script : Script) (fired : List Fired) (i : Item) :
    (s.execute script fired i).1.Ok := by
  unfold Schedule.execute
  cases i.cb with
  | none => exact h
  | some cb => exact h.calls _

/-- An entry that is put back has its own key again, since it was not in the queue. -/
theorem Ok.settle (h : s.Ok) (now : Int) : (s.settle now).Ok := by
  unfold Schedule.settle
  cases hp : s.pending with
  | nil => exact h
  | cons i rest =>
      have hi : i ∈ s.items := List.mem_append_right _ (hp ▸ List.mem_cons_self)
      dsimp only
      split_ifs with hdone
      · have hsub : (s.queue ++ rest).Sublist s.items := by
          unfold items
          rw [hp]
          exact (List.sublist_cons_self _ _).append_left _
        exact ⟨h.sorted, h.addrs.sublist (hsub.map _), h.ids.sublist (hsub.map _),
          fun j hj => h.bound j (hsub.subset hj), h.armed, fun j hj => h.cyclic j (hsub.subset hj)⟩
      · have hperm : (enqueue s.queue (again now i) ++ rest).Perm (again now i :: (s.queue ++ rest)) :=
          (perm_enqueue _ _).append_right _
        have hitems : ∀ f : Item → Nat, f (again now i) = f i →
            ((enqueue s.queue (again now i) ++ rest).map f).Perm (s.items.map f) := by
          intro f hf
          refine (hperm.map f).trans ?_
          unfold items
          rw [hp, List.map_cons, hf, ← List.map_cons]
          exact (List.perm_middle.symm).map f
        refine h.of_items (enqueue_sorted h.sorted fun j hj =>
          Item.key_ne ?_) (hitems _ rfl) (hitems _ rfl) rfl ?_ ?_
        · exact h.addr_ne (j := i) hj (hp ▸ List.mem_cons_self)
        · intro j hj
          rcases mem_enqueue.mp hj with hji | hj
          · rw [hji]
            exact fun hcb => hdone (.inl hcb)
          · exact h.armed j hj
        · intro j hj hpol
          rcases List.mem_cons.mp (hperm.mem_iff.mp hj) with hji | hj
          · subst hji
            exact h.cyclic i hi hpol
          · rcases List.mem_append.mp hj with hj | hj
            · exact h.cyclic j (List.mem_append_left _ hj) hpol
            · exact h.cyclic j (List.mem_append_right _ (hp ▸ List.mem_cons_of_mem _ hj)) hpol

/-- **One visit** keeps a schedule well-formed. -/
theorem Ok.visit (h : s.Ok) (script : Script) (now : Int) (fired : List Fired) :
    (s.visit script now fired).1.Ok := by
  unfold Schedule.visit
  cases s.pending with
  | nil => exact h
  | cons i rest => exact (h.execute script fired i).settle now

theorem Ok.visits (h : s.Ok) (script : Script) (now : Int) (n : Nat) (fired : List Fired) :
    (s.visits script now n fired).1.Ok := by
  induction n generalizing s fired with
  | zero => exact h
  | succ n ih => exact ih (h.visit script now fired) _

/-- The entries of the queue are divided between the queue and the round. -/
theorem Ok.startRound (h : s.Ok) (hp : s.pending = []) (now : Int) : (s.startRound now).Ok := by
  have hperm : (s.startRound now).items.Perm s.items := by
    unfold Schedule.startRound items
    rw [hp, List.append_nil]
    exact List.perm_append_comm.trans (List.filter_append_perm _ _)
  exact h.of_items (h.sorted.filter _) (hperm.map _) (hperm.map _) rfl
    (fun i hi => h.armed i (List.mem_filter.mp hi).1) fun i hi => h.cyclic i (hperm.mem_iff.mp hi)

end Schedule

end Open62541
end Esp32Probes
