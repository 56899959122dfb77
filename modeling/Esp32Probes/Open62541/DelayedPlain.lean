import Mathlib.Data.Fintype.Option
import Esp32Probes.Open62541.DelayedGuarantees

/-!
# Open62541.DelayedPlain — the queue of delayed callbacks as the firmware is built

The firmware sets `UA_MULTITHREADING` to 0. Then `UA_atomic_xchg` is a read and a write, and nothing keeps
another thread away in between; `UA_LOCK` is empty, so that the stack of calls is here that of the one
thread that processes the queue and removes callbacks, without a lock. The machine of this module makes two
steps of every exchange.

- `plain_runs`: the runs in which nobody interrupts an exchange are runs of the machine of `DelayedQueue`. A
  program with one thread has only such runs.
- `plain_callbacks_conserved`: in these runs nothing is lost.
- `torn_exchange_loses`: when two adds read the tail before either of them has written it, one element is
  lost.
-/

namespace Esp32Probes
namespace Open62541

open CHeap (Addr Heap)

/-! ## The machine -/

/-- What the exchange of this statement reads: nothing if the statement is no exchange, `some none` if it
    reads through a pointer to nowhere. -/
def AddPc.reads (m : DelayedMem) : AddPc → Option (Option Ptr)
  | .clear _ => none
  | .swing _ => some (some m.delayedTail)
  | .link _ oldtail => some (m.load oldtail)

/-- The same for a statement of a job, `add` being its own call of `UA_EventLoopLWIP_addDelayedCallback`. -/
def LoopPc.reads (m : DelayedMem) (add : Option AddPc) : LoopPc → Option (Option Ptr)
  | .activate active1 => some (m.load (headPtr !active1))
  | .take active1 => some (m.load (headPtr active1))
  | .retail _ _ => some (some m.delayedTail)
  | .readd _ _ => add.bind (AddPc.reads m)
  | _ => none

/-- The write of an exchange that has read `old`. Other statements are as in `addStep`. -/
def addWrite (m : DelayedMem) (old : Ptr) : AddPc → Option (DelayedMem × Option AddPc)
  | .swing dc => some ({ m with delayedTail := .element dc }, some (.link dc old))
  | pc => addStep m pc

/-- The write of an exchange that has read `old`. Other statements are as in `jobStep`. -/
def jobWrite (m : DelayedMem) (old : Ptr) (add : Option AddPc) (job : Job) :
    LoopPc → Option (DelayedMem × Option AddPc × Option LoopPc × Seen)
  | .take active1 => do
    let m ← m.store (headPtr active1) .sentinel
    return (m, add, some (.retail active1 old), .quiet)
  | .retail active1 oldHead =>
    some ({ m with delayedTail := headPtr !active1 }, add, some (.walk oldHead old), .checkedOut)
  | .readd next tail =>
    match add with
    | none => none
    | some pc => do
      let (m, add) ← addWrite m old pc
      let seen := match pc with
        | .swing dc => .requeued dc
        | _ => .quiet
      return (m, add, some (if add = none then .walk next tail else .readd next tail), seen)
  | pc => jobStep m add job pc

variable {ι : Type}

/-- What the next statement of `c` reads: of a thread's add, or of the job on top of the stack. -/
def DelayedQueue.reads (s : DelayedQueue ι) : Option ι → Option (Option Ptr)
  | some t => (s.add (some t)).bind (AddPc.reads s.mem)
  | none =>
    match s.frames with
    | [] => none
    | ⟨_, pc⟩ :: _ => pc.reads s.mem (s.add none)

/-- The thread, or the stack of jobs, that goes on with this event. -/
def DelayedEvent.party : DelayedEvent ι → Option (Option ι)
  | .adding t => some (some t)
  | .loop => some none
  | _ => none

/-- The queue, and what those have read who are between the two halves of an exchange. -/
structure PlainQueue (ι : Type) where
  queue : DelayedQueue ι
  old   : Option ι → Option Ptr

/-- Before the first call. -/
def PlainQueue.start (h : Heap DelayedCallback) : PlainQueue ι := ⟨DelayedQueue.start h, fun _ => none⟩

section Step

variable [DecidableEq ι]

/-- The next statement of `c` after the read of its exchange, which has read `old`. -/
def DelayedQueue.writes (s : DelayedQueue ι) (old : Ptr) : Option ι → Option (DelayedQueue ι × Seen)
  | some t =>
    match s.add (some t) with
    | none => none
    | some pc =>
      match addWrite s.mem old pc with
      | none => some (s, .fault)
      | some (m, add) =>
        some ({ s with mem := m, add := Function.update s.add (some t) add }, match pc with
          | .swing dc => .queued dc
          | _ => .quiet)
  | none =>
    match s.frames with
    | [] => none
    | ⟨_, .calling _ _⟩ :: _ => none
    | ⟨job, pc⟩ :: frames =>
      match jobWrite s.mem old (s.add none) job pc with
      | none => some (s, .fault)
      | some (m, add, next, seen) =>
        some (⟨m, Function.update s.add none add, match next with
          | none => frames
          | some pc => ⟨job, pc⟩ :: frames, seen.settle s.lent⟩, seen)

/-- One step: an exchange is a read and then a write, everything else is a step of the machine of
    `DelayedQueue`. -/
def PlainQueue.step (p : PlainQueue ι) (e : DelayedEvent ι) : Option (PlainQueue ι × Seen) :=
  let whole := (p.queue.step e).map fun r => (⟨r.1, p.old⟩, r.2)
  match e.party with
  | none => whole
  | some c =>
    match p.old c with
    | some old => (p.queue.writes old c).map fun r => (⟨r.1, Function.update p.old c none⟩, r.2)
    | none =>
      match p.queue.reads c with
      | none => whole
      | some none => some (p, .fault)
      | some (some v) => some (⟨p.queue, Function.update p.old c (some v)⟩, .quiet)

end Step

/-! ## Exchanges without interruption -/

/-- Nobody takes a step while somebody else is between the two halves of an exchange. -/
def Uninterrupted (p : PlainQueue ι) (e : DelayedEvent ι) : Prop := ∀ c, p.old c ≠ none → e.party = some c

instance [DecidableEq ι] [Fintype ι] (p : PlainQueue ι) (e : DelayedEvent ι) :
    Decidable (Uninterrupted p e) :=
  inferInstanceAs (Decidable (∀ c, p.old c ≠ none → e.party = some c))

/-- The write of an exchange, if the memory is as it was when it was read. -/
theorem addWrite_eq {m : DelayedMem} {pc : AddPc} {old : Ptr} (h : ∀ v ∈ pc.reads m, v = some old) :
    addWrite m old pc = addStep m pc := by
  cases pc with
  | swing dc =>
      obtain rfl : m.delayedTail = old := Option.some.inj (h _ rfl)
      rfl
  | _ => rfl

theorem jobWrite_eq {m : DelayedMem} {add : Option AddPc} {job : Job} {pc : LoopPc} {old : Ptr}
    (h : ∀ v ∈ pc.reads m add, v = some old) : jobWrite m old add job pc = jobStep m add job pc := by
  cases pc with
  | take active1 =>
      have hload : m.load (headPtr active1) = some old := h _ rfl
      simp [jobWrite, jobStep, hload]
  | retail active1 oldHead =>
      obtain rfl : m.delayedTail = old := Option.some.inj (h _ rfl)
      rfl
  | readd next tail =>
      cases add with
      | none => rfl
      | some pc =>
          have hadd : addWrite m old pc = addStep m pc := addWrite_eq h
          cases pc <;> simp only [jobWrite, jobStep, hadd]
  | _ => rfl

/-- At most one is between the two halves of an exchange, and what it has read is still there. -/
def Fresh (p : PlainQueue ι) : Prop :=
  ∀ c v, p.old c = some v → p.queue.reads c = some (some v) ∧ ∀ c', p.old c' ≠ none → c' = c

theorem Fresh.of_old {p : PlainQueue ι} (h : ∀ c, p.old c = none) : Fresh p := by
  intro c v hv
  rw [h c] at hv
  cases hv

section Runs

variable [DecidableEq ι] {p : PlainQueue ι} {s : DelayedQueue ι}

/-- **The write of an exchange that nobody has interrupted** is the exchange. -/
theorem writes_eq {e : DelayedEvent ι} {c : Option ι} {old : Ptr} (he : e.party = some c)
    (h : ∀ v ∈ s.reads c, v = some old) : s.writes old c = s.step e := by
  cases e with
  | adding t =>
      obtain rfl : some t = c := Option.some.inj he
      unfold DelayedQueue.writes DelayedQueue.step
      cases hadd : s.add (some t) with
      | none => simp only [hadd]
      | some pc =>
          have hread : ∀ v ∈ pc.reads s.mem, v = some old := fun v hv =>
            h v (by simpa [DelayedQueue.reads, hadd] using hv)
          rcases hresult : addStep s.mem pc with _ | ⟨m, add⟩ <;> cases pc <;>
            simp only [hadd, addWrite_eq hread, hresult]
  | loop =>
      obtain rfl : none = c := Option.some.inj he
      unfold DelayedQueue.writes DelayedQueue.step
      cases hframes : s.frames with
      | nil => rfl
      | cons fr frames =>
          obtain ⟨job, pc⟩ := fr
          have hread : ∀ v ∈ pc.reads s.mem (s.add none), v = some old := fun v hv =>
            h v (by simpa [DelayedQueue.reads, hframes] using hv)
          rcases hresult : jobStep s.mem (s.add none) job pc with
            _ | ⟨m, add, _ | next, seen⟩ <;> cases pc <;>
            simp only [jobWrite_eq hread, hresult]
  | _ => cases he

/-- A pointer that cannot be read cannot be written either. -/
theorem store_none {m : DelayedMem} {q : Ptr} (h : m.load q = none) (v : Ptr) : m.store q v = none := by
  cases q with
  | head1 => cases h
  | head2 => cases h
  | element dc =>
      by_cases hdc : dc ∈ m.heap.live
      · rw [load_element hdc] at h
        cases h
      · simp [DelayedMem.store, Heap.load, hdc]
  | _ => rfl

theorem addStep_none {m : DelayedMem} {pc : AddPc} (h : pc.reads m = some none) : addStep m pc = none := by
  cases pc with
  | link dc oldtail => simp [addStep, store_none (Option.some.inj h)]
  | _ => cases h

theorem jobStep_none {m : DelayedMem} {add : Option AddPc} {job : Job} {pc : LoopPc}
    (h : pc.reads m add = some none) : jobStep m add job pc = none := by
  cases pc with
  | activate active1 =>
      obtain ⟨v, hv⟩ := load_head (m := m) !active1
      exact absurd (Option.some.inj h) (by simp [hv])
  | take active1 =>
      obtain ⟨v, hv⟩ := load_head (m := m) active1
      exact absurd (Option.some.inj h) (by simp [hv])
  | readd next tail =>
      obtain ⟨pc, rfl, hpc⟩ := Option.bind_eq_some_iff.mp h
      simp [jobStep, addStep_none hpc]
  | _ => cases h

/-- A read that faults is an exchange that faults. -/
theorem step_fault {e : DelayedEvent ι} {c : Option ι} (he : e.party = some c) (h : s.reads c = some none) :
    s.step e = some (s, .fault) := by
  cases e with
  | adding t =>
      obtain rfl : some t = c := Option.some.inj he
      obtain ⟨pc, hadd, hpc⟩ := Option.bind_eq_some_iff.mp h
      simp [DelayedQueue.step, hadd, addStep_none hpc]
  | loop =>
      obtain rfl : none = c := Option.some.inj he
      unfold DelayedQueue.reads at h
      cases hframes : s.frames with
      | nil => simp [hframes] at h
      | cons fr frames =>
          obtain ⟨job, pc⟩ := fr
          have hpc : pc.reads s.mem (s.add none) = some none := by simpa [hframes] using h
          cases pc with
          | calling next tail => cases hpc
          | _ => simp [DelayedQueue.step, hframes, jobStep_none hpc]
  | _ => cases he

/-- **One step that interrupts no exchange**: the read of an exchange, or a step of the other machine. -/
theorem plain_step {p' : PlainQueue ι} {e : DelayedEvent ι} {o : Seen} (hfresh : Fresh p)
    (hun : Uninterrupted p e) (h : p.step e = some (p', o)) :
    Fresh p' ∧ ((p'.queue = p.queue ∧ o = .quiet ∧ e.handed = none) ∨
      p.queue.step e = some (p'.queue, o)) := by
  unfold PlainQueue.step at h
  cases he : e.party with
  | none =>
      have hold : ∀ c, p.old c = none := fun c => by
        by_contra hc
        rw [hun c hc] at he
        cases he
      simp only [he, Option.map_eq_some_iff] at h
      obtain ⟨⟨q, o'⟩, hstep, heq⟩ := h
      cases heq
      exact ⟨Fresh.of_old hold, .inr hstep⟩
  | some c =>
      have hothers : ∀ c', c' ≠ c → p.old c' = none := fun c' hne => by
        by_contra hc
        exact hne (Option.some.inj ((hun c' hc).symm.trans he))
      simp only [he] at h
      cases hold : p.old c with
      | some old =>
          -- the write of an exchange
          simp only [hold, Option.map_eq_some_iff] at h
          obtain ⟨⟨q, o'⟩, hwrites, heq⟩ := h
          cases heq
          have hread := (hfresh c old hold).1
          rw [writes_eq he fun v hv => Option.some.inj (hv.symm.trans hread)] at hwrites
          refine ⟨Fresh.of_old fun c' => ?_, .inr hwrites⟩
          by_cases hc : c' = c
          · rw [hc]
            exact Function.update_self ..
          · exact (Function.update_of_ne hc ..).trans (hothers c' hc)
      | none =>
          have hnone : ∀ c', p.old c' = none := fun c' => by
            by_cases hc : c' = c
            · rw [hc, hold]
            · exact hothers c' hc
          simp only [hold] at h
          cases hread : p.queue.reads c with
          | none =>
              simp only [hread, Option.map_eq_some_iff] at h
              obtain ⟨⟨q, o'⟩, hstep, heq⟩ := h
              cases heq
              exact ⟨Fresh.of_old hnone, .inr hstep⟩
          | some value =>
              cases value with
              | none =>
                  simp only [hread] at h
                  cases h
                  exact ⟨hfresh, .inr (step_fault he hread)⟩
              | some v =>
                  -- the read of an exchange
                  simp only [hread] at h
                  cases h
                  refine ⟨fun c' v' (hv' : Function.update p.old c (some v) c' = some v') => ?_,
                    .inl ⟨rfl, rfl, ?_⟩⟩
                  · by_cases hc : c' = c
                    · subst hc
                      rw [Function.update_self] at hv'
                      cases hv'
                      refine ⟨hread, fun c'' hc'' => ?_⟩
                      by_contra hne
                      exact hc'' ((Function.update_of_ne hne ..).trans (hnone c''))
                    · rw [Function.update_of_ne hc, hnone c'] at hv'
                      cases hv'
                  · cases e with
                    | add t dc => cases he
                    | _ => rfl

/-- **Runs without interruption.** If nobody interrupts an exchange, the queue is one that the machine of
    `DelayedQueue` reaches, with the same elements handed over and the same things seen; and if every step
    fits the program there (`P`), so it does here. -/
theorem plain_runs {h : Heap DelayedCallback} {es : List (DelayedEvent ι)} {seen : List Seen}
    {P : DelayedQueue ι → DelayedEvent ι → Prop}
    (hrun : Machine.run PlainQueue.step (PlainQueue.start h) es = some (p, seen))
    (hun : Machine.Along PlainQueue.step (PlainQueue.start h) es fun _ _ p e => Uninterrupted p e)
    (hP : Machine.Along PlainQueue.step (PlainQueue.start h) es fun _ _ p e => P p.queue e) :
    ∃ es' seen', Machine.run DelayedQueue.step (DelayedQueue.start h) es' = some (p.queue, seen') ∧
      Machine.Along DelayedQueue.step (DelayedQueue.start h) es' (fun _ _ s e => P s e) ∧ es'.Sublist es ∧
      es'.filterMap DelayedEvent.handed = es.filterMap DelayedEvent.handed ∧ loud seen' = loud seen := by
  suffices hfresh : Fresh p ∧ _ from hfresh.2
  induction es using List.reverseRecOn generalizing p seen with
  | nil =>
      cases hrun
      refine ⟨Fresh.of_old fun _ => rfl, [], [], rfl, ?_, .slnil, rfl, rfl⟩
      rintro (_ | _) e post m os he <;> cases he
  | append_singleton es e ih =>
      obtain ⟨m, seen₀, o, hm, hlast, rfl⟩ := Machine.run_snoc_iff.mp hrun
      obtain ⟨hfresh, es', seen', hrun', halong, hsub, hhanded, hloud⟩ := ih hm hun.of_prefix hP.of_prefix
      obtain ⟨hfresh', hread | hstep⟩ := plain_step hfresh (hun es e [] m seen₀ rfl hm) hlast
      · obtain ⟨hqueue, rfl, he⟩ := hread
        refine ⟨hfresh', es', seen', hqueue ▸ hrun', halong, hsub.trans (List.sublist_append_left ..), ?_, ?_⟩
        · simp [hhanded, he]
        · rw [loud_append, hloud]
          exact (List.append_nil _).symm
      · have hPe : P m.queue e := hP es e [] m seen₀ rfl hm
        refine ⟨hfresh', es' ++ [e], seen' ++ [o], Machine.run_snoc_iff.mpr ⟨_, _, _, hrun', hstep, rfl⟩,
          halong.snoc hrun' hPe, hsub.append_right _, ?_, ?_⟩
        · rw [List.filterMap_append, List.filterMap_append, hhanded]
        · rw [loud_append, loud_append, hloud]

/-- The silent steps do not matter to the queue without memory. -/
theorem replay_loud (f : Fifo) (seen : List Seen) : f.replay (loud seen) = f.replay seen := by
  induction seen generalizing f with
  | nil => rfl
  | cons o seen ih =>
      by_cases ho : o = .quiet
      · subst ho
        rw [loud_quiet]
        exact ih f
      · rw [loud_cons ho]
        exact congrArg (Option.bind (f.accept o)) (funext ih)

theorem filterMap_loud {β : Type} {view : Seen → Option β} (hquiet : view .quiet = none) (seen : List Seen) :
    (loud seen).filterMap view = seen.filterMap view := by
  induction seen with
  | nil => rfl
  | cons o seen ih =>
      by_cases ho : o = .quiet
      · subst ho
        rw [loud_quiet, List.filterMap_cons_none hquiet, ih]
      · rw [loud_cons ho, List.filterMap_cons, List.filterMap_cons, ih]

/-- **Nothing is lost as long as nobody interrupts an exchange.** -/
theorem plain_callbacks_conserved {h : Heap DelayedCallback} {es : List (DelayedEvent ι)} {seen : List Seen}
    (hrun : Machine.run PlainQueue.step (PlainQueue.start h) es = some (p, seen))
    (hun : Machine.Along PlainQueue.step (PlainQueue.start h) es fun _ _ p e => Uninterrupted p e)
    (hown : Machine.Along PlainQueue.step (PlainQueue.start h) es fun _ _ p e => Owns p.queue e) :
    Seen.fault ∉ seen ∧ HandedOver p.queue es seen ∧ ∃ f, Fifo.empty.replay seen = some f ∧
      (seen.filterMap Seen.added).Perm (f.waiting ++ f.held ++ seen.filterMap Seen.givenBack) ∧
      (∀ dc ∈ f.waiting ++ f.held, dc ∈ p.queue.mem.heap.live) ∧
      (BetweenCalls p.queue → Undisturbed p.queue → QueueInMemory p.queue.mem f.queue) := by
  obtain ⟨es', seen', hrun', hown', -, hhanded, hloud⟩ := plain_runs hrun hun hown
  obtain ⟨f, hf, hsim⟩ := queue_run_sim hrun' hown'
  -- the account of the other machine is about the same elements
  have hadded : seen'.filterMap Seen.added = seen.filterMap Seen.added := by
    rw [← filterMap_loud rfl seen', hloud, filterMap_loud rfl seen]
  have hback : seen'.filterMap Seen.givenBack = seen.filterMap Seen.givenBack := by
    rw [← filterMap_loud rfl seen', hloud, filterMap_loud rfl seen]
  have hreplay : Fifo.empty.replay seen = some f := by rw [← replay_loud, ← hloud, replay_loud, hf]
  obtain ⟨ts, hnodup, hts, hperm⟩ := handedOver_run hrun'
  rw [hhanded, hadded] at hperm
  have haccount := Fifo.conserved hf
  rw [hadded, hback] at haccount
  exact ⟨replay_fault hreplay, ⟨ts, hnodup, hts, hperm⟩, f, hreplay, haccount, fun dc hdc =>
    waiting_live hsim hdc, fun hbetween hidle => hbetween.in_memory hidle hsim⟩

/-- The two adds of `crossedAdds`, one exchange after the other. -/
def pairedAdds : List (DelayedEvent Bool) :=
  [.add true 1, .add false 2, .adding true, .adding false, .adding true, .adding true, .adding false,
    .adding false, .adding false, .adding false, .adding true, .adding true]

theorem plain_callbacks_conserved_paired : ∃ p seen,
    Machine.run PlainQueue.step (PlainQueue.start twoElements) pairedAdds = some (p, seen) ∧
    Seen.fault ∉ seen ∧ HandedOver p.queue pairedAdds seen ∧ ∃ f, Fifo.empty.replay seen = some f ∧
      (seen.filterMap Seen.added).Perm (f.waiting ++ f.held ++ seen.filterMap Seen.givenBack) ∧
      (∀ dc ∈ f.waiting ++ f.held, dc ∈ p.queue.mem.heap.live) ∧
      (BetweenCalls p.queue → Undisturbed p.queue → QueueInMemory p.queue.mem f.queue) := by
  obtain ⟨p, seen, hrun, -⟩ := Machine.run_of_check PlainQueue.step (PlainQueue.start twoElements) pairedAdds
    (p := fun _ => True) (by decide +kernel)
  exact ⟨p, seen, hrun, plain_callbacks_conserved hrun (Machine.along_of_check (by decide +kernel))
    (Machine.along_of_check (by decide +kernel))⟩

end Runs

/-! ## Elements that no pointer leads to -/

/-- The pointer in memory at `q`, also in a block that is not allocated. -/
def DelayedMem.peek (m : DelayedMem) : Ptr → Ptr
  | .head1 => m.delayedHead1
  | .head2 => m.delayedHead2
  | .element a => (m.heap.cell a).next
  | _ => .null

/-- The tail is not a pointer that leads to an element. -/
@[simp] theorem peek_tail (m : DelayedMem) (v x : Ptr) : { m with delayedTail := v }.peek x = m.peek x := by
  cases x <;> rfl

/-- What can be read is what is there. -/
theorem load_peek {m : DelayedMem} {q v : Ptr} (h : m.load q = some v) : v = m.peek q := by
  cases q with
  | head1 => exact (Option.some.inj h).symm
  | head2 => exact (Option.some.inj h).symm
  | element a =>
      by_cases ha : a ∈ m.heap.live
      · rw [load_element ha] at h
        exact (Option.some.inj h).symm
      · simp [DelayedMem.load, Heap.load, ha] at h
  | _ => cases h

/-- A write changes the pointer that is written. -/
theorem store_peek {m m' : DelayedMem} {q v : Ptr} (h : m.store q v = some m') (x : Ptr) :
    m'.peek x = if x = q then v else m.peek x := by
  cases q with
  | head1 =>
      cases h
      cases x <;> simp [DelayedMem.peek]
  | head2 =>
      cases h
      cases x <;> simp [DelayedMem.peek]
  | element a =>
      by_cases ha : a ∈ m.heap.live
      · simp only [DelayedMem.store, CHeap.load_eq ha, CHeap.store_eq ha, Option.bind_eq_bind,
          Option.bind_some, Option.pure_def, Option.some.injEq] at h
        subst h
        cases x with
        | element b =>
            by_cases hb : b = a
            · subst hb
              simp [DelayedMem.peek]
            · simp [DelayedMem.peek, hb]
        | _ => simp [DelayedMem.peek]
      · simp [DelayedMem.store, Heap.load, ha] at h
  | _ => cases h

/-- The element to which a job goes next. -/
def LoopPc.goesTo : LoopPc → Ptr
  | .retail _ oldHead => oldHead
  | .walk cur _ => cur
  | .calling next _ => next
  | .readd next _ => next
  | _ => .null

/-- No pointer of the memory or of a running call leads to the element. The tail may still be its link. -/
structure Unlinked (s : DelayedQueue ι) (dc : Addr) : Prop where
  memory : ∀ q, s.mem.peek q ≠ .element dc
  frames : ∀ fr ∈ s.frames, fr.pc.goesTo ≠ .element dc
  adds   : ∀ c, ∀ pc ∈ s.add c, pc.dc ≠ dc

/-- The same, with what has been read of a head that is about to be overwritten. -/
structure Lost (p : PlainQueue ι) (dc : Addr) : Prop where
  unlinked : Unlinked p.queue dc
  taken    : ∀ job active1 frames, p.queue.frames = ⟨job, .take active1⟩ :: frames →
    p.old none ≠ some (.element dc)

/-- What is written into the memory of an unlinked element. -/
theorem store_unlinked {m m' : DelayedMem} {q v : Ptr} {dc : Addr} (hm : ∀ x, m.peek x ≠ .element dc)
    (hv : v ≠ .element dc) (h : m.store q v = some m') (x : Ptr) : m'.peek x ≠ .element dc := by
  rw [store_peek h]
  split_ifs
  · exact hv
  · exact hm x

/-- A statement of the add of another element. -/
theorem addWrite_unlinked {m m' : DelayedMem} {old : Ptr} {pc : AddPc} {next : Option AddPc} {dc : Addr}
    (hm : ∀ x, m.peek x ≠ .element dc) (hpc : pc.dc ≠ dc) (h : addWrite m old pc = some (m', next)) :
    (∀ x, m'.peek x ≠ .element dc) ∧ ∀ pc' ∈ next, pc'.dc ≠ dc := by
  cases pc with
  | clear a =>
      obtain ⟨m₁, hm₁, h⟩ := Option.bind_eq_some_iff.mp h
      cases h
      refine ⟨store_unlinked hm (by simp) hm₁, ?_⟩
      rintro _ ⟨⟩
      exact hpc
  | swing a =>
      cases h
      refine ⟨fun x => by rw [peek_tail]; exact hm x, ?_⟩
      rintro _ ⟨⟩
      exact hpc
  | link a oldtail =>
      obtain ⟨m₁, hm₁, h⟩ := Option.bind_eq_some_iff.mp h
      cases h
      have hne : Ptr.element a ≠ .element dc := fun he => hpc (Ptr.element.inj he)
      refine ⟨store_unlinked hm hne hm₁, ?_⟩
      rintro _ ⟨⟩

/-- A visit of another element. -/
theorem visitElement_unlinked {m : DelayedMem} {job : Job} {cur next tail : Ptr} {add : Option AddPc}
    {pc : LoopPc} {o : Seen} {dc : Addr} (hcur : cur ≠ .element dc) (hnext : next ≠ .element dc)
    (h : visitElement m job cur next tail = some (add, pc, o)) :
    pc.goesTo ≠ .element dc ∧ (∀ pc₀ ∈ add, pc₀.dc ≠ dc) ∧ o.givenBack ≠ some dc := by
  cases cur with
  | element a =>
      have ha : a ≠ dc := fun he => hcur (congrArg Ptr.element he)
      cases job with
      | process =>
          simp only [visitElement, Option.bind_eq_bind, Option.bind_eq_some_iff] at h
          obtain ⟨e, -, h⟩ := h
          split at h <;> cases h <;> exact ⟨hnext, by rintro _ ⟨⟩, fun he => ha (Option.some.inj he)⟩
      | remove target =>
          simp only [visitElement] at h
          split_ifs at h <;> cases h
          · exact ⟨hnext, by rintro _ ⟨⟩, fun he => ha (Option.some.inj he)⟩
          · refine ⟨hnext, ?_, by rintro ⟨⟩⟩
            rintro _ ⟨⟩
            exact ha
  | _ => cases h

/-- **One statement of a job** that does not go to the element. -/
theorem jobWrite_unlinked {m m' : DelayedMem} {old : Ptr} {add add' : Option AddPc} {job : Job} {pc : LoopPc}
    {next : Option LoopPc} {o : Seen} {dc : Addr} (hm : ∀ x, m.peek x ≠ .element dc)
    (hpc : pc.goesTo ≠ .element dc) (hadd : ∀ pc₀ ∈ add, pc₀.dc ≠ dc)
    (hold : ∀ active1, pc = .take active1 → old ≠ .element dc)
    (h : jobWrite m old add job pc = some (m', add', next, o)) :
    (∀ x, m'.peek x ≠ .element dc) ∧ (∀ pc' ∈ next, pc'.goesTo ≠ .element dc) ∧ (∀ pc₀ ∈ add', pc₀.dc ≠ dc) ∧
      o.givenBack ≠ some dc := by
  have hquiet : Seen.quiet.givenBack ≠ some dc := by rintro ⟨⟩
  have hnull : ∀ {pc' : LoopPc}, pc'.goesTo = .null → ∀ pc'' ∈ some pc', pc''.goesTo ≠ .element dc := by
    rintro pc' hnull _ ⟨⟩
    rw [hnull]
    rintro ⟨⟩
  cases pc with
  | test1 =>
      cases h
      refine ⟨hm, hnull ?_, hadd, hquiet⟩
      split_ifs <;> rfl
  | test2 =>
      simp only [jobWrite, jobStep] at h
      split_ifs at h <;> cases h
      · exact ⟨hm, hnull rfl, hadd, by rintro ⟨⟩⟩
      · exact ⟨hm, hnull rfl, hadd, hquiet⟩
  | choose =>
      cases h
      exact ⟨hm, hnull rfl, hadd, hquiet⟩
  | activate active1 =>
      obtain ⟨m₁, hm₁, h⟩ := Option.bind_eq_some_iff.mp h
      cases h
      exact ⟨store_unlinked hm (by simp) hm₁, hnull rfl, hadd, hquiet⟩
  | take active1 =>
      obtain ⟨m₁, hm₁, h⟩ := Option.bind_eq_some_iff.mp h
      cases h
      refine ⟨store_unlinked hm (by simp) hm₁, ?_, hadd, hquiet⟩
      rintro _ ⟨⟩
      exact hold active1 rfl
  | retail active1 oldHead =>
      cases h
      refine ⟨fun x => by rw [peek_tail]; exact hm x, ?_, hadd, by rintro ⟨⟩⟩
      rintro _ ⟨⟩
      exact hpc
  | walk cur tail =>
      simp only [jobWrite, jobStep] at h
      split_ifs at h with hcur
      · cases h
        exact ⟨hm, by rintro _ ⟨⟩, hadd, by rintro ⟨⟩⟩
      · obtain ⟨n, hn, h⟩ := Option.bind_eq_some_iff.mp h
        have hnext : n ≠ .element dc := load_peek hn ▸ hm cur
        split_ifs at h
        · cases h
          refine ⟨hm, ?_, hadd, hquiet⟩
          rintro _ ⟨⟩
          exact hpc
        · obtain ⟨⟨add₁, pc', o'⟩, hvisit, h⟩ := Option.bind_eq_some_iff.mp h
          cases h
          obtain ⟨hgoes, hadd₁, ho⟩ := visitElement_unlinked hpc hnext hvisit
          refine ⟨hm, ?_, hadd₁, ho⟩
          rintro _ ⟨⟩
          exact hgoes
  | calling next tail => cases h
  | readd next tail =>
      cases add with
      | none => cases h
      | some pc₀ =>
          obtain ⟨⟨m₁, add₁⟩, hwrite, h⟩ := Option.bind_eq_some_iff.mp h
          cases h
          obtain ⟨hm₁, hadd₁⟩ := addWrite_unlinked hm (hadd pc₀ rfl) hwrite
          refine ⟨hm₁, ?_, hadd₁, ?_⟩
          · rintro _ ⟨⟩
            split_ifs <;> exact hpc
          · cases pc₀ <;> rintro ⟨⟩

section Losing

variable [DecidableEq ι] {p p' : PlainQueue ι} {s s' : DelayedQueue ι} {dc : Addr} {o : Seen}

/-- No add is about the element after a step of one that is not. -/
theorem adds_update {add : Option ι → Option AddPc} {c c' : Option ι} {next : Option AddPc} {pc : AddPc}
    (hadd : ∀ c pc, add c = some pc → pc.dc ≠ dc) (hnext : ∀ pc ∈ next, pc.dc ≠ dc)
    (h : Function.update add c next c' = some pc) : pc.dc ≠ dc := by
  rcases update_cases h with ⟨-, hown⟩ | ⟨-, hother⟩
  · exact hnext pc hown
  · exact hadd c' pc hother

/-- A statement of anybody, the write of an exchange included. -/
theorem Unlinked.writes {c : Option ι} {old : Ptr} (h : Unlinked s dc)
    (hold : ∀ job active1 frames, s.frames = ⟨job, .take active1⟩ :: frames → c = none → old ≠ .element dc)
    (hstep : s.writes old c = some (s', o)) :
    Unlinked s' dc ∧ o.givenBack ≠ some dc ∧ (c ≠ none → s'.frames = s.frames) := by
  cases c with
  | some t =>
      simp only [DelayedQueue.writes] at hstep
      split at hstep
      · cases hstep
      · next pc hadd =>
        split at hstep
        · cases hstep
          exact ⟨h, by rintro ⟨⟩, fun _ => rfl⟩
        · next m add hwrite =>
          cases hstep
          obtain ⟨hm, hnext⟩ := addWrite_unlinked h.memory (h.adds _ pc hadd) hwrite
          refine ⟨⟨hm, h.frames, fun _ _ => adds_update h.adds hnext⟩, ?_, fun _ => rfl⟩
          cases pc <;> rintro ⟨⟩
  | none =>
      simp only [DelayedQueue.writes] at hstep
      split at hstep
      · cases hstep
      · cases hstep
      · next job pc frames hcalling hframes =>
        split at hstep
        · cases hstep
          exact ⟨h, by rintro ⟨⟩, fun _ => rfl⟩
        · next m add next o' hwrite =>
          cases hstep
          have hpc : pc.goesTo ≠ .element dc := h.frames _ (hframes ▸ List.mem_cons_self)
          obtain ⟨hm, hnext, hadd, ho⟩ := jobWrite_unlinked h.memory hpc (h.adds none)
            (fun active1 he => hold job active1 frames (he ▸ hframes) rfl) hwrite
          have hrest : ∀ fr ∈ frames, fr.pc.goesTo ≠ .element dc := fun fr hfr =>
            h.frames fr (hframes ▸ List.mem_cons_of_mem _ hfr)
          refine ⟨⟨hm, ?_, fun _ _ => adds_update h.adds hadd⟩, ho, fun hc => absurd rfl hc⟩
          cases next with
          | none => exact hrest
          | some pc' => exact List.forall_mem_cons.mpr ⟨hnext pc' rfl, hrest⟩

/-- A new element: the pointers stay as they are. -/
theorem peek_malloc (m : DelayedMem) (pick : Option Addr) (q : Ptr) :
    ({ m with heap := (m.heap.malloc pick).2 } : DelayedMem).peek q = m.peek q := by
  have hcell : (m.heap.malloc pick).2.cell = m.heap.cell := by
    unfold Heap.malloc
    cases pick with
    | none => rfl
    | some a => dsimp only; split_ifs <;> rfl
  cases q with
  | element a => simp [DelayedMem.peek, hcell]
  | _ => rfl

/-- An element that is freed: the pointers stay as they are. -/
theorem peek_free {m : DelayedMem} {h : Heap DelayedCallback} {a : Addr} (hfree : m.heap.free a = some h)
    (q : Ptr) : ({ m with heap := h } : DelayedMem).peek q = m.peek q := by
  unfold Heap.free at hfree
  split_ifs at hfree
  cases hfree
  cases q <;> rfl

/-- The program's own accesses to an element: the pointers stay as they are. -/
theorem peek_assign {m m' : DelayedMem} {a : Addr} {callback : Option Callback} {application context : Nat}
    (hassign : assignElement m a callback application context = some m') (q : Ptr) :
    m'.peek q = m.peek q := by
  obtain ⟨e, he, hassign⟩ := Option.bind_eq_some_iff.mp hassign
  obtain ⟨h₁, hh₁, hassign⟩ := Option.bind_eq_some_iff.mp hassign
  cases hassign
  cases q with
  | element b =>
      unfold Heap.load at he
      unfold Heap.store at hh₁
      split_ifs at he with ha
      rw [if_pos ha] at hh₁
      cases he
      cases hh₁
      by_cases hb : b = a
      · subst hb
        simp [DelayedMem.peek]
      · simp [DelayedMem.peek, hb]
  | _ => rfl

/-- What the program does, and the calls that begin or return from a callback. -/
theorem Unlinked.outside {e : DelayedEvent ι} (h : Unlinked s dc) (he : e.party = none)
    (hadd : ∀ t, e ≠ .add t dc) (hstep : s.step e = some (s', o)) :
    Unlinked s' dc ∧ o.givenBack ≠ some dc ∧
      ∀ job active1 frames, s'.frames = ⟨job, .take active1⟩ :: frames →
        s.frames = ⟨job, .take active1⟩ :: frames := by
  have hquiet : Seen.quiet.givenBack ≠ some dc := by rintro ⟨⟩
  cases e with
  | adding t => cases he
  | loop => cases he
  | add t a =>
      simp only [DelayedQueue.step] at hstep
      split at hstep
      · cases hstep
      · cases hstep
        have hnew : ∀ pc ∈ some (AddPc.clear a), pc.dc ≠ dc := by
          rintro _ ⟨⟩ ha
          exact hadd t (by rw [← ha]; rfl)
        exact ⟨⟨h.memory, h.frames, fun _ _ => adds_update h.adds hnew⟩, hquiet, fun _ _ _ hfr => hfr⟩
  | enter job =>
      simp only [DelayedQueue.step] at hstep
      split at hstep
      · cases hstep
        refine ⟨⟨h.memory, ?_, h.adds⟩, hquiet, fun _ _ _ hfr => by cases hfr⟩
        exact List.forall_mem_cons.mpr ⟨by rintro ⟨⟩, List.forall_mem_nil _⟩
      · next job' next tail frames hframes =>
        cases hstep
        refine ⟨⟨h.memory, ?_, h.adds⟩, hquiet, fun _ _ _ hfr => by cases hfr⟩
        exact List.forall_mem_cons.mpr ⟨by rintro ⟨⟩, hframes ▸ h.frames⟩
      · cases hstep
  | callbackReturns =>
      simp only [DelayedQueue.step] at hstep
      split at hstep
      · next job next tail frames hframes =>
        cases hstep
        have hall := List.forall_mem_cons.mp (hframes ▸ h.frames)
        exact ⟨⟨h.memory, List.forall_mem_cons.mpr ⟨hall.1, hall.2⟩, h.adds⟩, hquiet, fun _ _ _ hfr =>
          by cases hfr⟩
      · cases hstep
  | malloc pick =>
      cases hstep
      refine ⟨⟨fun q => ?_, h.frames, h.adds⟩, hquiet, fun _ _ _ hfr => hfr⟩
      rw [peek_malloc]
      exact h.memory q
  | assign a callback application context =>
      simp only [DelayedQueue.step] at hstep
      split at hstep
      · cases hstep
        exact ⟨h, by rintro ⟨⟩, fun _ _ _ hfr => hfr⟩
      · next m hassign =>
        cases hstep
        refine ⟨⟨fun q => ?_, h.frames, h.adds⟩, hquiet, fun _ _ _ hfr => hfr⟩
        rw [peek_assign hassign]
        exact h.memory q
  | free a =>
      simp only [DelayedQueue.step] at hstep
      split at hstep
      · cases hstep
        exact ⟨h, by rintro ⟨⟩, fun _ _ _ hfr => hfr⟩
      · next h₁ hfree =>
        cases hstep
        refine ⟨⟨fun q => ?_, h.frames, h.adds⟩, hquiet, fun _ _ _ hfr => hfr⟩
        rw [peek_free hfree]
        exact h.memory q

/-- **One step** leaves a lost element lost, and does not give it back, unless it is handed over again. -/
theorem Lost.step {e : DelayedEvent ι} (h : Lost p dc) (hadd : ∀ t, e ≠ .add t dc)
    (hstep : p.step e = some (p', o)) :
    Lost p' dc ∧ o.givenBack ≠ some dc := by
  unfold PlainQueue.step at hstep
  cases he : e.party with
  | none =>
      simp only [he, Option.map_eq_some_iff] at hstep
      obtain ⟨⟨q, o'⟩, hstep, heq⟩ := hstep
      cases heq
      obtain ⟨hun, ho, hframes⟩ := h.unlinked.outside he hadd hstep
      exact ⟨⟨hun, fun job active1 frames hfr =>
        h.taken job active1 frames (hframes job active1 frames hfr)⟩, ho⟩
  | some c =>
      simp only [he] at hstep
      cases hold : p.old c with
      | some old =>
          simp only [hold, Option.map_eq_some_iff] at hstep
          obtain ⟨⟨q, o'⟩, hwrites, heq⟩ := hstep
          cases heq
          obtain ⟨hun, ho, hframes⟩ := h.unlinked.writes (fun job active1 frames hfr hc hdc => by
            subst hc hdc
            exact h.taken job active1 frames hfr hold) hwrites
          refine ⟨⟨hun, fun job active1 frames hfr => ?_⟩, ho⟩
          show Function.update p.old c none none ≠ _
          by_cases hc : c = none
          · subst hc
            rw [Function.update_self]
            exact Option.some_ne_none _ |>.symm
          · rw [Function.update_of_ne (Ne.symm hc)]
            exact h.taken job active1 frames ((hframes hc) ▸ hfr)
      | none =>
          simp only [hold] at hstep
          cases hread : p.queue.reads c with
          | none =>
              simp only [hread, Option.map_eq_some_iff] at hstep
              obtain ⟨⟨q, o'⟩, hstep, heq⟩ := hstep
              cases heq
              have hwrites : p.queue.writes .null c = some (q, o') := by
                rw [writes_eq he (by rw [hread]; rintro _ ⟨⟩)]
                exact hstep
              obtain ⟨hun, ho, hframes⟩ := h.unlinked.writes (fun _ _ _ _ _ => by rintro ⟨⟩) hwrites
              refine ⟨⟨hun, fun job active1 frames hfr => ?_⟩, ho⟩
              by_cases hc : c = none
              · subst hc
                rw [hold]
                exact Option.some_ne_none _ |>.symm
              · exact h.taken job active1 frames ((hframes hc) ▸ hfr)
          | some value =>
              cases value with
              | none =>
                  simp only [hread] at hstep
                  cases hstep
                  exact ⟨h, by rintro ⟨⟩⟩
              | some v =>
                  simp only [hread] at hstep
                  cases hstep
                  refine ⟨⟨h.unlinked, fun job active1 frames hfr => ?_⟩, by rintro ⟨⟩⟩
                  show Function.update p.old c (some v) none ≠ _
                  by_cases hc : c = none
                  · -- the head is read
                    subst hc
                    have hfr : p.queue.frames = ⟨job, .take active1⟩ :: frames := hfr
                    have hload : p.queue.mem.load (headPtr active1) = some v := by
                      simpa [DelayedQueue.reads, hfr, LoopPc.reads] using hread
                    rw [Function.update_self]
                    exact fun heq => h.unlinked.memory _ ((load_peek hload) ▸ Option.some.inj heq)
                  · rw [Function.update_of_ne (Ne.symm hc)]
                    exact h.taken job active1 frames hfr

/-- **A run** in which a lost element is not handed over again does not give it back. -/
theorem Lost.run {es : List (DelayedEvent ι)} {seen : List Seen} (h : Lost p dc) (hadd : ∀ t, .add t dc ∉ es)
    (hrun : Machine.run PlainQueue.step p es = some (p', seen)) : ∀ o ∈ seen, o.givenBack ≠ some dc := by
  induction es generalizing p seen with
  | nil =>
      cases hrun
      simp
  | cons e es ih =>
      obtain ⟨m, o, os, hstep, hrest, rfl⟩ := Machine.run_cons_iff.mp hrun
      obtain ⟨hm, ho⟩ := h.step (fun t he => hadd t (he ▸ List.mem_cons_self)) hstep
      exact List.forall_mem_cons.mpr ⟨ho, ih hm (fun t ht => hadd t (List.mem_cons_of_mem _ ht)) hrest⟩

end Losing

/-! ## Exchanges that are interrupted -/

/-- The threads `racers`, each with an element to which nothing leads yet, have all read the same tail, and
    none of them has written it. -/
structure Torn (p : PlainQueue ι) (racers : Set ι) (el : ι → Addr) (tail : Ptr) : Prop where
  read   : ∀ t ∈ racers, p.queue.add (some t) = some (.swing (el t)) ∧ p.old (some t) = some tail
  memory : ∀ t ∈ racers, ∀ q, p.queue.mem.peek q ≠ .element (el t)
  frames : ∀ t ∈ racers, ∀ fr ∈ p.queue.frames, fr.pc.goesTo ≠ .element (el t)
  taken  : ∀ t ∈ racers, p.old none ≠ some (.element (el t))
  others : ∀ c, (∀ t ∈ racers, c ≠ some t) → ∀ pc ∈ p.queue.add c, ∀ t ∈ racers, pc.dc ≠ el t

/-- While the adds go on: only the old tail may be a link to one of the elements, and no thread has read
    anything but that tail. -/
structure Tearing (p : PlainQueue ι) (racers : Set ι) (el : ι → Addr) (tail : Ptr) : Prop where
  going  : ∀ t ∈ racers, p.queue.add (some t) = none ∨
    (p.queue.add (some t) = some (.swing (el t)) ∧ p.old (some t) = some tail) ∨
    p.queue.add (some t) = some (.link (el t) tail)
  memory : ∀ t ∈ racers, ∀ q, q ≠ tail → p.queue.mem.peek q ≠ .element (el t)
  frames : ∀ t ∈ racers, ∀ fr ∈ p.queue.frames, fr.pc.goesTo ≠ .element (el t)
  taken  : ∀ t ∈ racers, p.old none ≠ some (.element (el t))
  others : ∀ c, (∀ t ∈ racers, c ≠ some t) → ∀ pc ∈ p.queue.add c, ∀ t ∈ racers, pc.dc ≠ el t

theorem Torn.tearing {p : PlainQueue ι} {racers : Set ι} {el : ι → Addr} {tail : Ptr}
    (h : Torn p racers el tail) :
    Tearing p racers el tail :=
  ⟨fun t ht => .inr (.inl (h.read t ht)), fun t ht q _ => h.memory t ht q, h.frames, h.taken, h.others⟩

/-- When all these adds have returned, all the elements are lost but the one that the old tail is a link
    to. -/
theorem Tearing.lost {p : PlainQueue ι} {racers : Set ι} {el : ι → Addr} {tail : Ptr}
    (h : Tearing p racers el tail)
    (hdone : ∀ t ∈ racers, p.queue.add (some t) = none) {t : ι} (ht : t ∈ racers)
    (hlink : p.queue.mem.peek tail ≠ .element (el t)) : Lost p (el t) where
  unlinked := by
    refine ⟨fun q => ?_, h.frames t ht, fun c pc hpc => ?_⟩
    · by_cases hq : q = tail
      · rw [hq]
        exact hlink
      · exact h.memory t ht q hq
    · by_cases hc : ∀ t' ∈ racers, c ≠ some t'
      · exact h.others c hc pc hpc t ht
      · obtain ⟨t', hc⟩ := not_forall.mp hc
        obtain ⟨ht', hc⟩ := Classical.not_imp.mp hc
        rw [not_not.mp hc, hdone t' ht'] at hpc
        cases hpc
  taken := fun _ _ _ _ => h.taken t ht

section Tearing

variable [DecidableEq ι] {p p' : PlainQueue ι} {racers : Set ι} {el : ι → Addr} {tail : Ptr} {o : Seen}

/-- The add of one of the threads goes on, and the rest stays as it is. -/
theorem Tearing.update (h : Tearing p racers el tail) {t : ι} (ht : t ∈ racers) {m : DelayedMem}
    {add : Option AddPc} (old : Option Ptr) (hgoing : add = none ∨ add = some (.link (el t) tail))
    (hm : ∀ q, q ≠ tail → m.peek q = p.queue.mem.peek q) :
    Tearing ⟨{ p.queue with mem := m, add := Function.update p.queue.add (some t) add },
      Function.update p.old (some t) old⟩ racers el tail where
  going t' ht' := by
    by_cases htt : t' = t
    · subst htt
      rcases hgoing with rfl | rfl
      · exact .inl (Function.update_self ..)
      · exact .inr (.inr (Function.update_self ..))
    · have hne : some t' ≠ some t := fun he => htt (Option.some.inj he)
      simpa [Function.update_of_ne hne] using h.going t' ht'
  memory t' ht' q hq := by
    show m.peek q ≠ _
    rw [hm q hq]
    exact h.memory t' ht' q hq
  frames := h.frames
  taken t' ht' := by
    show Function.update p.old (some t) old none ≠ _
    rw [Function.update_of_ne (Option.some_ne_none t).symm]
    exact h.taken t' ht'
  others c hc pc hpc := by
    have hpc : pc ∈ Function.update p.queue.add (some t) add c := hpc
    rw [Function.update_of_ne (hc t ht)] at hpc
    exact h.others c hc pc hpc

/-- **One step of one of the adds.** -/
theorem Tearing.step (h : Tearing p racers el tail) {t : ι} (ht : t ∈ racers)
    (hstep : p.step (.adding t) = some (p', o)) : Tearing p' racers el tail := by
  have hparty : (DelayedEvent.adding t).party = some (some t) := rfl
  have hkeep : ∀ q, q ≠ tail → p.queue.mem.peek q = p.queue.mem.peek q := fun _ _ => rfl
  simp only [PlainQueue.step, hparty] at hstep
  rcases h.going t ht with hdone | ⟨hadd, hold⟩ | hadd
  · -- the add has returned
    cases hold : p.old (some t) with
    | none => simp [hold, DelayedQueue.reads, DelayedQueue.step, hdone] at hstep
    | some old => simp [hold, DelayedQueue.writes, hdone] at hstep
  · -- the tail is written
    simp only [hold, DelayedQueue.writes, hadd, addWrite, Option.map_some, Option.some.injEq,
      Prod.mk.injEq] at hstep
    obtain ⟨rfl, -⟩ := hstep
    exact h.update ht none (.inr rfl) fun q _ => peek_tail ..
  · cases hold : p.old (some t) with
    | none =>
        cases hload : p.queue.mem.load tail with
        | none =>
            simp only [hold, DelayedQueue.reads, hadd, Option.bind_some, AddPc.reads, hload,
              Option.some.injEq, Prod.mk.injEq] at hstep
            obtain ⟨rfl, -⟩ := hstep
            exact h
        | some v =>
            -- the link is read
            simp only [hold, DelayedQueue.reads, hadd, Option.bind_some, AddPc.reads, hload,
              Option.some.injEq, Prod.mk.injEq] at hstep
            obtain ⟨rfl, -⟩ := hstep
            have hsame := h.update ht (some v) (.inr rfl) hkeep
            rwa [← hadd, Function.update_eq_self] at hsame
    | some old =>
        cases hstore : p.queue.mem.store tail (.element (el t)) with
        | none =>
            simp only [hold, DelayedQueue.writes, hadd, addWrite, addStep, hstore, Option.bind_eq_bind,
              Option.bind_none, Option.map_some, Option.some.injEq, Prod.mk.injEq] at hstep
            obtain ⟨rfl, -⟩ := hstep
            have hsame := h.update ht none (.inr rfl) hkeep
            rwa [← hadd, Function.update_eq_self] at hsame
        | some m =>
            -- the link is written
            simp only [hold, DelayedQueue.writes, hadd, addWrite, addStep, hstore, Option.bind_eq_bind,
              Option.bind_some, Option.pure_def, Option.map_some, Option.some.injEq, Prod.mk.injEq] at hstep
            obtain ⟨rfl, -⟩ := hstep
            exact h.update ht none (.inl rfl) fun q hq => by rw [store_peek hstore, if_neg hq]

/-- **An exchange that is interrupted loses an element.** When several adds have read the same tail before
    one of them has written it, then, in whatever order they go on, all the elements but one are lost: no
    later run, of any threads and calls, executes or removes them unless they are handed over again. -/
theorem torn_exchange_loses {es : List (DelayedEvent ι)} {seen : List Seen} (h : Torn p racers el tail)
    (hes : ∀ e ∈ es, ∃ t ∈ racers, e = .adding t) (hrun : Machine.run PlainQueue.step p es = some (p', seen))
    (hdone : ∀ t ∈ racers, p'.queue.add (some t) = none) :
    ∃ kept, ∀ t ∈ racers, el t ≠ kept →
      ∀ es' p'' seen', Machine.run PlainQueue.step p' es' = some (p'', seen') → (∀ t', .add t' (el t) ∉ es') →
        ∀ o ∈ seen', o.givenBack ≠ some (el t) := by
  have hend : Tearing p' racers el tail := by
    refine Machine.guarded_invariant (I := fun _ _ p => Tearing p racers el tail) h.tearing ?_
      (Machine.along_of_forall hes) hrun
    rintro _ _ m e m' o hm ⟨t, ht, rfl⟩ hstep
    exact hm.step ht hstep
  obtain ⟨kept, hkept⟩ : ∃ kept, ∀ dc, dc ≠ kept → p'.queue.mem.peek tail ≠ .element dc := by
    cases p'.queue.mem.peek tail with
    | element a => exact ⟨a, fun dc hdc he => hdc (Ptr.element.inj he).symm⟩
    | _ => exact ⟨0, fun _ _ => by rintro ⟨⟩⟩
  exact ⟨kept, fun t ht hne es' p'' seen' hrun' hadd => (hend.lost hdone ht (hkept _ hne)).run hadd hrun'⟩

/-- Two adds that both read the tail. -/
def bothRead : List (DelayedEvent Bool) :=
  [.add true 1, .add false 2, .adding true, .adding false, .adding true, .adding false]

/-- The element of each of the two threads. -/
def elementOf (t : Bool) : Addr := if t then 1 else 2

/-- The state after `bothRead`. -/
def afterBothRead : PlainQueue Bool where
  queue := {
    mem := { eventLoopNew twoElements with heap := ⟨{1, 2},
      Function.update (Function.update twoElements.cell 1 ⟨.null, some 1, 0, 0⟩) 2 ⟨.null, some 2, 0, 0⟩⟩ }
    add :=
      Function.update (Function.update (Function.update (Function.update (fun _ => none)
        (some true) (some (.clear 1))) (some false) (some (.clear 2)))
        (some true) (some (.swing 1))) (some false) (some (.swing 2))
    frames := []
    lent := {2, 1} }
  old := Function.update (Function.update (fun _ => none) (some true) (some .head1)) (some false)
    (some .head1)

theorem run_bothRead : Machine.run PlainQueue.step (PlainQueue.start twoElements) bothRead =
    some (afterBothRead, List.replicate 6 .quiet) := rfl

theorem torn_bothRead : Torn afterBothRead Set.univ elementOf .head1 where
  read t _ := by cases t <;> exact ⟨rfl, rfl⟩
  memory t _ q := by
    cases q with
    | element a =>
        have hnext : afterBothRead.queue.mem.peek (.element a) = .null := by
          show (Function.update (Function.update twoElements.cell 1 _) 2 _ a).next = .null
          simp only [Function.update_apply]
          split_ifs <;> rfl
        rw [hnext]
        rintro ⟨⟩
    | _ => rintro ⟨⟩
  frames _ _ := List.forall_mem_nil _
  taken t _ := by rintro ⟨⟩
  others c hc pc hpc := by
    cases c with
    | none => cases hpc
    | some t => exact absurd rfl (hc t trivial)

/-- The one thread finishes, then the other one. -/
def bothFinish : List (DelayedEvent Bool) :=
  [.adding true, .adding true, .adding true, .adding false, .adding false, .adding false]

/-- One of two elements is lost. -/
theorem torn_exchange_loses_one : ∃ p p' seen seen',
    Machine.run PlainQueue.step (PlainQueue.start twoElements) bothRead = some (p, seen) ∧
    Machine.run PlainQueue.step p bothFinish = some (p', seen') ∧
    ∃ kept, ∀ t ∈ (Set.univ : Set Bool), elementOf t ≠ kept →
      ∀ es' p'' seen'', Machine.run PlainQueue.step p' es' = some (p'', seen'') →
        (∀ t', .add t' (elementOf t) ∉ es') → ∀ o ∈ seen'', o.givenBack ≠ some (elementOf t) := by
  obtain ⟨p', seen', hrun, htrue, hfalse⟩ := Machine.run_of_check PlainQueue.step afterBothRead bothFinish
    (p := fun p => p.queue.add (some true) = none ∧ p.queue.add (some false) = none) (by decide +kernel)
  refine ⟨afterBothRead, p', _, seen', run_bothRead, hrun, torn_exchange_loses torn_bothRead ?_ hrun ?_⟩
  · simp [bothFinish]
  · rintro (_ | _) _
    · exact hfalse
    · exact htrue

end Tearing

end Open62541
end Esp32Probes
