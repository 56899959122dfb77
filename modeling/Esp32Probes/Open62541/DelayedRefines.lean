import Esp32Probes.Open62541.DelayedLists
import Esp32Probes.Lib.Machine

/-!
# Open62541.DelayedRefines — the queue of delayed callbacks refines its lists

`QueueSim` is the simulation between the machine of `DelayedQueue` and the lists of `DelayedFifo`: an add is
in step with the lists from its exchange of the tail on, and a reset from its own. `queue_step_sim` is one
step of any thread; in particular no step is a fault. `queue_run_sim` is a run.
-/

namespace Esp32Probes
namespace Open62541

open CHeap (Addr Heap)
open LateList (Family Chain Layout final cells)

variable {ι : Type} {s s' : DelayedQueue ι} {f f' : Fifo}

/-! ## The stack of calls -/

/-- The statement is one of `resetDelayedQueue`. -/
def LoopPc.resetting : LoopPc → Bool
  | .walk _ _ => false
  | .calling _ _ => false
  | .readd _ _ => false
  | _ => true

/-- The variables `cur` or `next`, and `tail`, of a call that has these elements still to visit. -/
def Visiting (rest : List Addr) (cur tail : Ptr) : Prop :=
  match rest with
  | [] => cur = .null
  | a :: as => cur = .element a ∧ tail = final delayedLayout (.element a) as

/-- A call and the list it has taken. `add` is its own add of an element. -/
def FrameHolds (add : Option AddPc) (b : Batch) : LoopPc → Prop
  | .walk cur tail => add = none ∧ b.held = none ∧ Visiting b.rest cur tail
  | .calling next tail => add = none ∧ b.held = none ∧ Visiting b.rest next tail
  | .readd next tail =>
    (∃ pc, add = some pc ∧ b.held = if pc.swung then none else some pc.dc) ∧ Visiting b.rest next tail
  | _ => False

/-- The calls that wait for a callback to return. -/
def Suspended : List Frame → List Batch → Prop :=
  List.Forall₂ fun fr b => ∃ next tail, fr.pc = .calling next tail ∧ b.held = none ∧ Visiting b.rest next tail

/-- The calls that are being executed, and the lists that they have taken. -/
def Stack (add : Option AddPc) : List Frame → List Batch → Prop
  | [], batches => add = none ∧ batches = []
  | fr :: frames, batches =>
    if fr.pc.resetting then add = none ∧ Suspended frames batches
    else ∃ b bs, batches = b :: bs ∧ FrameHolds add b fr.pc ∧ Suspended frames bs

/-- A stack of calls that wait for their callbacks. -/
theorem stack_of_suspended {frames : List Frame} {batches : List Batch} (h : Suspended frames batches) :
    Stack none frames batches := by
  cases h with
  | nil => exact ⟨rfl, rfl⟩
  | @cons fr b frames bs hfr hrest =>
      obtain ⟨job, pc⟩ := fr
      obtain ⟨next, tail, rfl, hheld, hvisit⟩ := hfr
      exact ⟨b, bs, rfl, ⟨rfl, hheld, hvisit⟩, hrest⟩

/-! ## The simulation -/

/-- The program counter of the latest call. -/
def DelayedQueue.pc (s : DelayedQueue ι) : Option LoopPc := s.frames.head?.map Frame.pc

/-- The elements still to be visited, list by list. -/
def Fifo.rests (f : Fifo) : List (List Addr) := f.batches.map Batch.rest

/-- The memory and the calls, with the queue and the taken lists that they stand for. -/
structure QueueSimAt (s : DelayedQueue ι) (f : Fifo) (active : Bool) (seg : Ptr × List Addr) : Prop where
  core  : Core s.mem s.add s.lent f.queue f.rests seg
  phase : Phase s.mem.load (Late s.add) f.queue active seg s.pc
  stack : Stack (s.add none) s.frames f.batches

/-- How far the latest call has come with its reset. -/
theorem QueueSimAt.phase_at {active : Bool} {seg : Ptr × List Addr} (h : QueueSimAt s f active seg)
    {job : Job} {pc : LoopPc} {frames : List Frame} (hframes : s.frames = ⟨job, pc⟩ :: frames) :
    Phase s.mem.load (Late s.add) f.queue active seg (some pc) := by
  have hphase := h.phase
  unfold DelayedQueue.pc at hphase
  rwa [hframes] at hphase

/-- The stack, when its frames are known. -/
theorem QueueSimAt.stack_at {active : Bool} {seg : Ptr × List Addr} (h : QueueSimAt s f active seg)
    {frames : List Frame} (hframes : s.frames = frames) : Stack (s.add none) frames f.batches := by
  have hstack := h.stack
  rwa [hframes] at hstack

/-- The latest call is in its reset and has taken nothing yet. -/
theorem QueueSimAt.resetting {active : Bool} {seg : Ptr × List Addr} (h : QueueSimAt s f active seg)
    {fr : Frame} {frames : List Frame} (hframes : s.frames = fr :: frames) (hfr : fr.pc.resetting = true) :
    s.add none = none ∧ Suspended frames f.batches := by
  have hstack := h.stack_at hframes
  simpa only [Stack, hfr, if_true] using hstack

/-- The latest call is past its reset. -/
theorem QueueSimAt.past {active : Bool} {seg : Ptr × List Addr} (h : QueueSimAt s f active seg) {fr : Frame}
    {frames : List Frame} (hframes : s.frames = fr :: frames) (hfr : fr.pc.resetting = false) :
    ∃ b bs, f.batches = b :: bs ∧ FrameHolds (s.add none) b fr.pc ∧ Suspended frames bs := by
  have hstack := h.stack_at hframes
  simpa only [Stack, hfr, Bool.false_eq_true, if_false] using hstack

/-- The queue in memory and its lists. -/
def QueueSim (s : DelayedQueue ι) (f : Fifo) : Prop := ∃ active seg, QueueSimAt s f active seg

/-- Before the first call. -/
theorem sim_start (h : Heap DelayedCallback) :
    QueueSim (DelayedQueue.start h : DelayedQueue ι) Fifo.empty := by
  refine ⟨true, (.head1, []), ⟨⟨?_, ?_⟩, rfl, ?_, ?_, ?_, ?_, ?_, ?_, ?_, ?_⟩, ⟨rfl, rfl⟩, rfl, rfl⟩
  · intro sg hsg
    rw [List.mem_singleton.mp hsg]
    exact rfl
  · exact List.nodup_singleton _
  · intro a
    simp [cells, Fifo.empty]
  · intro rest hrest
    cases hrest
  · intro c c' pc pc' hc
    cases hc
  · rintro a p ⟨c, hc⟩
    cases hc
  · intro c pc hc
    cases hc
  · intro c a hc
    cases hc
  · intro a
    simp [DelayedQueue.start, Fifo.empty, Fifo.rests]
  · intro a ha
    cases ha

/-! ## Calls, returns and the program's own accesses -/

variable {active : Bool} {seg : Ptr × List Addr}

/-- **A call begins.** -/
theorem enter_sim (h : QueueSimAt s f active seg) (job : Job)
    (hframes : s.frames = [] ∨ ∃ job' next tail frames, s.frames = ⟨job', .calling next tail⟩ :: frames) :
    QueueSimAt { s with frames := ⟨job, .test1⟩ :: s.frames } f active seg := by
  have hphase := h.phase
  have hstack := h.stack
  unfold DelayedQueue.pc at hphase
  rcases hframes with hnil | ⟨job', next, tail, frames, hcall⟩
  · rw [hnil] at hphase hstack
    obtain ⟨hnone, hbatches⟩ := hstack
    refine ⟨h.core, hphase, hnone, ?_⟩
    rw [hnil, hbatches]
    exact List.Forall₂.nil
  · rw [hcall] at hphase hstack
    obtain ⟨b, bs, hbatches, ⟨hnone, hheld, hvisit⟩, hsusp⟩ := hstack
    refine ⟨h.core, hphase, hnone, ?_⟩
    rw [hcall, hbatches]
    exact List.Forall₂.cons ⟨next, tail, rfl, hheld, hvisit⟩ hsusp

/-- **A callback returns.** -/
theorem callbackReturns_sim (h : QueueSimAt s f active seg) {job : Job} {next tail : Ptr}
    {frames : List Frame} (hframes : s.frames = ⟨job, .calling next tail⟩ :: frames) :
    QueueSimAt { s with frames := ⟨job, .walk next tail⟩ :: frames } f active seg := by
  have hphase := h.phase_at hframes
  have hstack := h.stack_at hframes
  exact ⟨h.core, hphase, hstack⟩

/-- The program's own accesses. -/
theorem user_sim (h : QueueSimAt s f active seg) {m : DelayedMem}
    (hload : ∀ q, (∀ a, q = .element a → a ∈ s.lent) → m.load q = s.mem.load q)
    (htail : m.delayedTail = s.mem.delayedTail) (hlive : ∀ a ∈ s.lent, a ∈ m.heap.live) :
    QueueSimAt { s with mem := m } f active seg := by
  have hhead : ∀ b, m.load (headPtr b) = s.mem.load (headPtr b) := by
    intro b
    exact hload _ fun a ha => absurd ha (headPtr_ne_element b a)
  refine ⟨h.core.frame ?_ ?_ htail hlive, h.phase.mono (hhead _) (.inl (hhead _)) fun _ _ hq => hq, h.stack⟩
  · intro a ha
    refine hload _ fun b hb => ?_
    cases hb
    exact ha
  · intro q hq
    refine hload q fun a ha => ?_
    subst ha
    exact (h.core.ledger a).mpr (.inl (List.mem_append_left _ ((h.core.covers a).mp hq)))

/-! ## The element behind the first one -/

/-- What follows the first element of a taken list: nothing, an element whose link is there, or one whose
    link is late, in which case the first element is not the tail. -/
theorem next_cases {a : Addr} {as : List Addr} {rests : List (List Addr)} {m : DelayedMem}
    {add : Option ι → Option AddPc} {lent : Finset Addr} {queue : List Addr}
    (h : Core m add lent queue ((a :: as) :: rests) seg) :
    (as = [] ∧ m.load (.element a) = some .null) ∨
      (∃ b bs, as = b :: bs ∧ m.load (.element a) = some (.element b) ∧ ∀ p, ¬Late add b p) ∨
      (∃ b bs, as = b :: bs ∧ m.load (.element a) = some .null ∧ Late add b (.element a) ∧
        final delayedLayout (.element a) as ≠ .element a) := by
  have hmem : (Ptr.element a, as) ∈ seg :: ((a :: as) :: rests).filterMap segment :=
    List.mem_cons_of_mem _ List.mem_cons_self
  have hchain := h.family.chain _ hmem
  have hnodup := (List.nodup_flatMap.mp h.family.nodup).1 _ hmem
  cases as with
  | nil => exact .inl ⟨rfl, hchain⟩
  | cons b bs =>
      rcases hchain.1 with ⟨hlink, hnone⟩ | ⟨hnull, hhere⟩
      · exact .inr (.inl ⟨b, bs, rfl, hlink, hnone⟩)
      · refine .inr (.inr ⟨b, bs, rfl, hnull, (hhere _).mpr rfl, ?_⟩)
        intro heq
        have hlast : final delayedLayout (.element b) bs ∈ cells delayedLayout (.element b) bs :=
          LateList.final_mem ..
        rw [show final delayedLayout (Ptr.element b) bs = .element a from heq] at hlast
        exact (List.nodup_cons.mp hnodup).1 hlast

/-! ## Steps of the threads that add -/

variable [DecidableEq ι]

/-- **An add begins.** -/
theorem add_sim (h : QueueSimAt s f active seg) {t : ι} {dc : Addr} (hidle : s.add (some t) = none)
    (hlent : dc ∉ s.lent) (hlive : dc ∈ s.mem.heap.live) :
    QueueSimAt { s with
      add := Function.update s.add (some t) (some (.clear dc))
      lent := insert dc s.lent } f active seg := by
  obtain ⟨hcore, hlate⟩ := h.core.begin hidle hlent hlive
  refine ⟨hcore, h.phase.mono rfl (.inl rfl) fun a q => (hlate a q).mp, ?_⟩
  show Stack (Function.update s.add (some t) (some (.clear dc)) none) s.frames f.batches
  rw [Function.update_of_ne (by simp)]
  exact h.stack

/-- What a statement of an add is seen to do, by a thread. -/
def AddPc.seen : AddPc → Seen
  | .swing dc => .queued dc
  | _ => .quiet

/-- **One statement of the add of a thread.** -/
theorem adding_sim (h : QueueSimAt s f active seg) {t : ι} {pc : AddPc} (hadd : s.add (some t) = some pc) :
    ∃ m next, addStep s.mem pc = some (m, next) ∧ ∃ f', f.accept pc.seen = some f' ∧
      QueueSim { s with mem := m, add := Function.update s.add (some t) next } f' := by
  obtain ⟨m, next, seg', hstep, hcore, hphase⟩ := addStep_sim h.core h.phase hadd
  refine ⟨m, next, hstep, ⟨pc.queueAfter f.queue, f.batches⟩, ?_, active, seg', hcore, hphase, ?_⟩
  · cases pc <;> rfl
  · show Stack (Function.update s.add (some t) next none) s.frames f.batches
    rw [Function.update_of_ne (by simp)]
    exact h.stack

/-! ## One statement of a job -/

/-- What a statement of the latest call does: it is no fault, and it is right. -/
def JobSim (s : DelayedQueue ι) (f : Fifo) (job : Job) (pc : LoopPc) (frames : List Frame) : Prop :=
  ∃ m add next seen, jobStep s.mem (s.add none) job pc = some (m, add, next, seen) ∧
    ∃ f', f.accept seen = some f' ∧
      QueueSim ⟨m, Function.update s.add none add, match next with
        | none => frames
        | some pc => ⟨job, pc⟩ :: frames, seen.settle s.lent⟩ f'

variable {job : Job} {pc : LoopPc} {frames : List Frame}

/-- A statement that changes only the program counter. -/
theorem jobSim_of_pc (h : QueueSimAt s f active seg) (pc' : LoopPc)
    (hstep : jobStep s.mem (s.add none) job pc = some (s.mem, s.add none, some pc', .quiet))
    (hphase : Phase s.mem.load (Late s.add) f.queue active seg (some pc'))
    (hstack : Stack (s.add none) (⟨job, pc'⟩ :: frames) f.batches) : JobSim s f job pc frames := by
  refine ⟨_, _, _, _, hstep, f, rfl, active, seg, ?_⟩
  show QueueSimAt ⟨s.mem, Function.update s.add none (s.add none), ⟨job, pc'⟩ :: frames, s.lent⟩ f active seg
  rw [Function.update_eq_self]
  exact ⟨h.core, hphase, hstack⟩

theorem small_iff {p : Ptr} : p.small = true ↔ p = .null ∨ p = .sentinel := by
  unfold Ptr.small
  exact decide_eq_true_iff

/-- A head that is not small is active and has a first element. -/
theorem AtRest.full {load : Ptr → Option Ptr} {queue : List Addr} (h : AtRest load queue active seg)
    {b : Bool} {p : Ptr} (hload : load (headPtr b) = some p) (hp : p.small = false) :
    b = active ∧ load (headPtr active) ≠ some .null := by
  have hne : ¬(p = .null ∨ p = .sentinel) := by
    rw [← small_iff, hp]
    simp
  have hb : b = active := by
    by_contra hb
    have hother : b = !active := by cases b <;> cases active <;> simp_all
    rw [hother, h.2] at hload
    exact hne (.inr (Option.some.inj hload).symm)
  subst hb
  refine ⟨rfl, fun hnull => ?_⟩
  rw [hload] at hnull
  exact hne (.inl (Option.some.inj hnull))

/-- The first comparison of a reset. -/
theorem test1_sim (h : QueueSimAt s f active seg) (hframes : s.frames = ⟨job, .test1⟩ :: frames) :
    JobSim s f job .test1 frames := by
  have hat : AtRest s.mem.load f.queue active seg := h.phase_at hframes
  have hstack := h.stack_at hframes
  by_cases hsmall : s.mem.delayedHead1.small = true
  · refine jobSim_of_pc h .test2 ?_ hat hstack
    simp [jobStep, hsmall]
  · have hfull := hat.full (b := true) (p := s.mem.delayedHead1) rfl (by simpa using hsmall)
    refine jobSim_of_pc h .choose ?_ ⟨hat, hfull.2⟩ hstack
    simp [jobStep, hsmall]

/-- The second comparison: the reset returns early only if the queue is empty. -/
theorem test2_sim (h : QueueSimAt s f active seg) (hframes : s.frames = ⟨job, .test2⟩ :: frames) :
    JobSim s f job .test2 frames := by
  have hat : AtRest s.mem.load f.queue active seg := h.phase_at hframes
  have hstack := h.stack_at hframes
  by_cases hsmall : s.mem.delayedHead2.small = true
  · refine ⟨s.mem, s.add none, some (.walk .null .null), .nothing, by simp [jobStep, hsmall], _, rfl, active,
      seg, ?_⟩
    show QueueSimAt ⟨s.mem, Function.update s.add none (s.add none), ⟨job, .walk .null .null⟩ :: frames,
      s.lent⟩ _ active seg
    rw [Function.update_eq_self]
    obtain ⟨hnone, hsusp⟩ := hstack
    exact ⟨core_push_nil.mpr h.core, hat, ⟨none, []⟩, f.batches, rfl, ⟨hnone, rfl, rfl⟩, hsusp⟩
  · have hfull := hat.full (b := false) (p := s.mem.delayedHead2) rfl (by simpa using hsmall)
    refine jobSim_of_pc h .choose ?_ ⟨hat, hfull.2⟩ hstack
    simp [jobStep, hsmall]

/-- The active head is the one that is not marked. -/
theorem choose_sim (h : QueueSimAt s f active seg) (hframes : s.frames = ⟨job, .choose⟩ :: frames) :
    JobSim s f job .choose frames := by
  have hphase := h.phase_at hframes
  obtain ⟨hat, hfull⟩ := hphase
  have hstack := h.stack_at hframes
  refine jobSim_of_pc h (.activate active) ?_ ⟨rfl, hat, hfull⟩ hstack
  -- the active head is the one that is not marked
  have hchoice : decide (s.mem.delayedHead1 ≠ .sentinel) = active := by
    cases active with
    | false =>
        have hmark : s.mem.delayedHead1 = .sentinel := Option.some.inj hat.2
        simp [hmark]
    | true =>
        have hchain := h.core.family.chain _ List.mem_cons_self
        rw [hat.1] at hchain
        obtain ⟨a, as, -, hhead, -, -⟩ := hchain.first hfull
        have hhead' : s.mem.delayedHead1 = .element a := Option.some.inj hhead
        simp [hhead']
  simp [jobStep, hchoice]

/-- The other head is cleared. -/
theorem activate_sim (h : QueueSimAt s f active seg) {active1 : Bool}
    (hframes : s.frames = ⟨job, .activate active1⟩ :: frames) :
    JobSim s f job (.activate active1) frames := by
  have hphase := h.phase_at hframes
  obtain ⟨rfl, hat, hfull⟩ := hphase
  have hstack := h.stack_at hframes
  obtain ⟨m, hm⟩ := store_defined (v := .null) hat.2
  obtain ⟨hload, htail, hheap⟩ := store_spec hm
  have hactive : m.load (headPtr active1) = s.mem.load (headPtr active1) := by
    rw [hload, if_neg (headPtr_ne active1)]
  refine ⟨m, s.add none, some (.take active1), .quiet, by simp [jobStep, hm], f, rfl, active1, seg, ?_⟩
  show QueueSimAt ⟨m, Function.update s.add none (s.add none), ⟨job, .take active1⟩ :: frames,
    s.lent⟩ f active1 seg
  rw [Function.update_eq_self]
  refine ⟨h.core.frame ?_ ?_ htail ?_, ⟨rfl, hat.1, ?_, hactive.symm ▸ hfull⟩, hstack⟩
  · intro a _
    rw [hload, if_neg (headPtr_ne_element _ a).symm]
  · intro q hq
    rw [hload, if_neg]
    rintro rfl
    exact h.phase.other_notMem (List.mem_cons_self : seg ∈ seg :: f.rests.filterMap segment) hq
  · intro a ha
    rw [hheap]
    exact h.core.live a ha
  · rw [hload, if_pos rfl]

/-- The active head is read and marked. -/
theorem take_sim (h : QueueSimAt s f active seg) {active1 : Bool}
    (hframes : s.frames = ⟨job, .take active1⟩ :: frames) :
    JobSim s f job (.take active1) frames := by
  have hphase := h.phase_at hframes
  obtain ⟨rfl, hseg, hnull, hfull⟩ := hphase
  have hstack := h.stack_at hframes
  have hcore := h.core
  rw [hseg] at hcore
  obtain ⟨v, hv⟩ := load_head (m := s.mem) active1
  obtain ⟨m, hm⟩ := store_defined (v := .sentinel) hv
  obtain ⟨hload, -, -⟩ := store_spec hm
  obtain ⟨a, as, hqueue, hhead, hfirst, hcore'⟩ := hcore.take hfull hm
  refine ⟨m, s.add none, some (.retail active1 (.element a)), .quiet, by simp [jobStep, hhead, hm], f, rfl,
    active1, (.element a, as), ?_⟩
  show QueueSimAt ⟨m, Function.update s.add none (s.add none),
    ⟨job, .retail active1 (.element a)⟩ :: frames, s.lent⟩ f active1 _
  rw [Function.update_eq_self]
  refine ⟨hcore', ⟨rfl, ?_, ?_, a, as, hqueue, rfl, rfl, hfirst⟩, hstack⟩
  · rw [hload, if_neg (headPtr_ne active1).symm]
    exact hnull
  · rw [hload, if_pos rfl]

/-- **The exchange of the tail** takes the queue. -/
theorem retail_sim (h : QueueSimAt s f active seg) {active1 : Bool} {oldHead : Ptr}
    (hframes : s.frames = ⟨job, .retail active1 oldHead⟩ :: frames) :
    JobSim s f job (.retail active1 oldHead) frames := by
  have hphase := h.phase_at hframes
  obtain ⟨rfl, hnull, hmark, a, as, hqueue, rfl, rfl, hfirst⟩ := hphase
  have hstack := h.stack_at hframes
  obtain ⟨hnone, hsusp⟩ := hstack
  have hcore := h.core
  rw [hqueue] at hcore
  refine ⟨{ s.mem with delayedTail := headPtr !active1 }, s.add none,
    some (.walk (.element a) s.mem.delayedTail),
    .checkedOut, rfl, ⟨[], ⟨none, f.queue⟩ :: f.batches⟩, rfl, !active1, (headPtr !active1, []), ?_⟩
  show QueueSimAt ⟨_, Function.update s.add none (s.add none),
    ⟨job, .walk (.element a) s.mem.delayedTail⟩ :: frames, s.lent⟩ _ _ _
  rw [Function.update_eq_self]
  refine ⟨?_, ⟨rfl, ?_⟩, ⟨none, f.queue⟩, f.batches, rfl, ⟨hnone, rfl, ?_⟩, hsusp⟩
  · show Core _ s.add s.lent [] (f.queue :: f.rests) _
    rw [hqueue]
    exact hcore.retail hnull hfirst
  · rw [Bool.not_not]
    exact hmark
  · show Visiting f.queue (.element a) s.mem.delayedTail
    rw [hqueue]
    exact ⟨rfl, h.core.tail⟩

/-- The first element of a taken list, when the link behind it is there, or there is none. -/
theorem visit_sim (job : Job) (h : QueueSimAt s f active seg) (hat : AtRest s.mem.load f.queue active seg)
    (hnone : s.add none = none)
    {a : Addr} {as : List Addr} {bs : List Batch} (hbatches : f.batches = ⟨none, a :: as⟩ :: bs)
    (hsusp : Suspended frames bs) {next tail : Ptr} (hnext : ∀ b, as.head? = some b → ∀ p, ¬Late s.add b p)
    (hvisit : Visiting as next tail) :
    ∃ add pc seen, visitElement s.mem job (.element a) next tail = some (add, pc, seen) ∧
      ∃ f', f.accept seen = some f' ∧
        QueueSim ⟨s.mem, Function.update s.add none add, ⟨job, pc⟩ :: frames, seen.settle s.lent⟩ f' := by
  have hcore := h.core
  unfold Fifo.rests at hcore
  rw [hbatches] at hcore
  have hgiven := hcore.visit hnext
  have hlent : a ∈ s.lent :=
    (hcore.ledger a).mpr (.inl (List.mem_append_right _
      (List.mem_flatten.mpr ⟨_, List.mem_cons_self, List.mem_cons_self⟩)))
  have hlive := hcore.live a hlent
  have hgone : ∀ held, f.visit a held = some ⟨f.queue, ⟨held, as⟩ :: bs⟩ := by
    intro held
    exact Fifo.visit_iff.mpr ⟨as, bs, hbatches, rfl⟩
  cases job with
  | process =>
      cases hcb : (s.mem.heap.cell a).callback with
      | none =>
          refine ⟨none, .walk next tail, .skipped a, by simp [visitElement, CHeap.load_eq hlive, hcb], _,
            hgone none, active, seg, ?_⟩
          rw [← hnone, Function.update_eq_self]
          exact ⟨hgiven, hat, _, _, rfl, ⟨hnone, rfl, hvisit⟩, hsusp⟩
      | some callback =>
          refine ⟨none, .calling next tail,
            .executed a callback (s.mem.heap.cell a).application (s.mem.heap.cell a).context,
            by simp [visitElement, CHeap.load_eq hlive, hcb], _, hgone none, active, seg, ?_⟩
          rw [← hnone, Function.update_eq_self]
          exact ⟨hgiven, hat, _, _, rfl, ⟨hnone, rfl, hvisit⟩, hsusp⟩
  | remove target =>
      by_cases ha : a = target
      · refine ⟨none, .walk next tail, .removed a, by simp [visitElement, ha], _, hgone none, active, seg, ?_⟩
        rw [← hnone, Function.update_eq_self]
        exact ⟨hgiven, hat, _, _, rfl, ⟨hnone, rfl, hvisit⟩, hsusp⟩
      · obtain ⟨hbegin, hlate⟩ := hgiven.begin hnone (Finset.notMem_erase a s.lent) hlive
        rw [Finset.insert_erase hlent] at hbegin
        refine ⟨some (.clear a), .readd next tail, .picked a, by simp [visitElement, ha], _, hgone (some a),
          active, seg, hbegin, ?_, _, _, rfl,
          ⟨⟨.clear a, Function.update_self (none : Option ι) _ s.add, rfl⟩, hvisit⟩, hsusp⟩
        have hphase : Phase s.mem.load (Late s.add) f.queue active seg (some (.readd next tail)) := hat
        exact hphase.mono rfl (.inl rfl) fun b q => (hlate b q).mp

/-- **The head of the loop**: the end, a wait for a late link, or the visit of an element. -/
theorem walk_sim (h : QueueSimAt s f active seg) {cur tail : Ptr}
    (hframes : s.frames = ⟨job, .walk cur tail⟩ :: frames) :
    JobSim s f job (.walk cur tail) frames := by
  have hat : AtRest s.mem.load f.queue active seg := h.phase_at hframes
  have hstack := h.stack_at hframes
  obtain ⟨⟨held, rest⟩, bs, hbatches, ⟨hnone, rfl, hvisit⟩, hsusp⟩ := hstack
  cases rest with
  | nil =>
      -- the list is exhausted, the function returns
      obtain rfl : cur = .null := hvisit
      refine ⟨s.mem, s.add none, none, .finished, rfl, ⟨f.queue, bs⟩, Fifo.finished_iff.mpr ⟨hbatches, rfl⟩,
        active, seg, ?_⟩
      show QueueSimAt ⟨s.mem, Function.update s.add none (s.add none), frames, s.lent⟩ _ active seg
      rw [Function.update_eq_self]
      have hcore := h.core
      unfold Fifo.rests at hcore
      rw [hbatches] at hcore
      refine ⟨core_push_nil.mp hcore, ?_, ?_⟩
      · cases hsusp with
        | nil => exact hat
        | @cons fr b frames bs hfr hrest =>
            obtain ⟨job', pc'⟩ := fr
            obtain ⟨next', tail', rfl, -, -⟩ := hfr
            exact hat
      · show Stack (s.add none) frames bs
        rw [hnone]
        exact stack_of_suspended hsusp
  | cons a as =>
      obtain ⟨rfl, rfl⟩ := hvisit
      have hcore := h.core
      unfold Fifo.rests at hcore
      rw [hbatches] at hcore
      -- an element whose link is there is visited
      have hgo : ∀ {next : Ptr}, s.mem.load (.element a) = some next →
          ¬(next = .null ∧ Ptr.element a ≠ final delayedLayout (.element a) as) →
          (∀ b, as.head? = some b → ∀ p, ¬Late s.add b p) →
          Visiting as next (final delayedLayout (.element a) as) →
          JobSim s f job (.walk (.element a) (final delayedLayout (.element a) as)) frames := by
        intro next hload hgo hfirst hvisit
        obtain ⟨add, pc, seen, hstep, f', haccept, hsim⟩ :=
          visit_sim job h hat hnone hbatches hsusp hfirst hvisit
        exact ⟨s.mem, add, some pc, seen, by simp [jobStep, hload, hgo, hstep], f', haccept, hsim⟩
      rcases next_cases hcore with ⟨rfl, hload⟩ | ⟨b, bs', rfl, hload, hfirst⟩ | ⟨b, bs', rfl, hload, -,
        hspin⟩
      · refine hgo hload (by simp) ?_ rfl
        intro b hb
        cases hb
      · refine hgo hload (by simp) ?_ ⟨rfl, rfl⟩
        intro b' hb'
        cases hb'
        exact hfirst
      · -- the link is late
        refine jobSim_of_pc h (.walk (.element a) (final delayedLayout (.element a) (b :: bs'))) ?_ hat ?_
        · have hwait := hspin.symm
          rw [LateList.final_cons] at hwait
          simp [jobStep, hload, hwait]
        · exact ⟨_, _, hbatches, ⟨hnone, rfl, rfl, rfl⟩, hsusp⟩

/-- **One statement of the add of an element that is put back.** -/
theorem readd_sim (h : QueueSimAt s f active seg) {next tail : Ptr}
    (hframes : s.frames = ⟨job, .readd next tail⟩ :: frames) :
    JobSim s f job (.readd next tail) frames := by
  have hphase := h.phase_at hframes
  have hstack := h.stack_at hframes
  obtain ⟨⟨held, rest⟩, bs, hbatches, ⟨⟨pc, hadd, hheld⟩, hvisit⟩, hsusp⟩ := hstack
  obtain ⟨m, after, seg', hstep, hcore, hphase'⟩ := addStep_sim h.core hphase hadd
  have hrests : f.rests = rest :: bs.map Batch.rest := by
    unfold Fifo.rests
    rw [hbatches]
    rfl
  rw [hrests] at hcore
  cases pc with
  | clear a =>
      obtain ⟨m', hclear⟩ : ∃ m', s.mem.store (.element a) .null = some m' ∧ m = m' ∧
        after = some (.swing a) := by
        simp only [addStep, Option.bind_eq_bind, Option.bind_eq_some_iff, Option.pure_def, Option.some.injEq,
          Prod.mk.injEq] at hstep
        obtain ⟨m', hm', rfl, rfl⟩ := hstep
        exact ⟨m', hm', rfl, rfl⟩
      obtain ⟨hm', rfl, rfl⟩ := hclear
      refine ⟨m, some (.swing a), some (.readd next tail), .quiet, by simp [jobStep, hadd, hstep], f, rfl,
        active, seg', ?_, hphase', ⟨held, rest⟩, bs, hbatches,
        ⟨⟨.swing a, Function.update_self (none : Option ι) _ s.add, hheld⟩, hvisit⟩, hsusp⟩
      show Core m _ s.lent f.queue f.rests seg'
      rw [hrests]
      exact hcore
  | swing a =>
      cases hstep
      refine ⟨_, _, some (.readd next tail), .requeued a, by simp [jobStep, hadd, addStep],
        ⟨f.queue ++ [a], ⟨none, rest⟩ :: bs⟩, ?_, active, seg', hcore, hphase', ⟨none, rest⟩, bs, rfl,
        ⟨⟨.link a s.mem.delayedTail, Function.update_self (none : Option ι) _ s.add, rfl⟩, hvisit⟩, hsusp⟩
      obtain rfl : held = some a := hheld
      exact Fifo.requeued_iff.mpr ⟨rest, bs, hbatches, rfl⟩
  | link a q =>
      obtain ⟨hm', rfl⟩ : s.mem.store q (.element a) = some m ∧ after = none := by
        simp only [addStep, Option.bind_eq_bind, Option.bind_eq_some_iff, Option.pure_def, Option.some.injEq,
          Prod.mk.injEq] at hstep
        obtain ⟨m', hm', rfl, rfl⟩ := hstep
        exact ⟨hm', rfl⟩
      refine ⟨m, none, some (.walk next tail), .quiet, by simp [jobStep, hadd, hstep], f, rfl, active,
        seg', ?_, hphase', ⟨held, rest⟩, bs, hbatches, ⟨Function.update_self (none : Option ι) _ s.add, hheld, hvisit⟩,
        hsusp⟩
      show Core m _ s.lent f.queue f.rests seg'
      rw [hrests]
      exact hcore

/-- **One statement of a job.** -/
theorem jobStep_sim (h : QueueSimAt s f active seg) (hframes : s.frames = ⟨job, pc⟩ :: frames)
    (hpc : ∀ next tail, pc ≠ .calling next tail) : JobSim s f job pc frames := by
  cases pc with
  | test1 => exact test1_sim h hframes
  | test2 => exact test2_sim h hframes
  | choose => exact choose_sim h hframes
  | activate active1 => exact activate_sim h hframes
  | take active1 => exact take_sim h hframes
  | retail active1 oldHead => exact retail_sim h hframes
  | walk cur tail => exact walk_sim h hframes
  | calling next tail => exact absurd rfl (hpc next tail)
  | readd next tail => exact readd_sim h hframes

/-! ## Steps and runs -/

/-- **One step** of any thread is seen to do what the lists allow; in particular it is no fault. -/
theorem queue_step_sim {e : DelayedEvent ι} {seen : Seen} (h : QueueSim s f) (hown : Owns s e)
    (hstep : s.step e = some (s', seen)) :
    ∃ f', f.accept seen = some f' ∧ QueueSim s' f' := by
  obtain ⟨active, seg, h⟩ := h
  cases e with
  | add t dc =>
      simp only [DelayedQueue.step] at hstep
      split at hstep
      · cases hstep
      · next hidle =>
        cases hstep
        exact ⟨f, rfl, active, seg, add_sim h hidle hown.2 hown.1⟩
  | adding t =>
      simp only [DelayedQueue.step] at hstep
      split at hstep
      · cases hstep
      · next pc hadd =>
        obtain ⟨m, next, hpc, f', haccept, hsim⟩ := adding_sim h hadd
        rw [hpc] at hstep
        cases hstep
        refine ⟨f', ?_, hsim⟩
        cases pc <;> exact haccept
  | enter job =>
      simp only [DelayedQueue.step] at hstep
      split at hstep
      · next hframes =>
        cases hstep
        have hsim := enter_sim h job (.inl hframes)
        rw [hframes] at hsim
        exact ⟨f, rfl, active, seg, hsim⟩
      · next job' next tail frames hframes =>
        cases hstep
        have hsim := enter_sim h job (.inr ⟨_, _, _, _, hframes⟩)
        rw [hframes] at hsim
        exact ⟨f, rfl, active, seg, hsim⟩
      · cases hstep
  | loop =>
      simp only [DelayedQueue.step] at hstep
      split at hstep
      · cases hstep
      · cases hstep
      · next job pc frames hcalling hframes =>
        obtain ⟨m, add, next, seen', hjob, f', haccept, hsim⟩ := jobStep_sim h hframes hcalling
        rw [hjob] at hstep
        cases hstep
        exact ⟨f', haccept, hsim⟩
  | callbackReturns =>
      simp only [DelayedQueue.step] at hstep
      split at hstep
      · next job next tail frames hframes =>
        cases hstep
        exact ⟨f, rfl, active, seg, callbackReturns_sim h hframes⟩
      · cases hstep
  | malloc pick =>
      cases hstep
      refine ⟨f, rfl, active, seg, user_sim h ?_ rfl ?_⟩
      · intro q hq
        cases q with
        | element a =>
            have ha := h.core.live a (hq a rfl)
            cases pick with
            | none => rfl
            | some p =>
                by_cases hp : p ∈ s.mem.heap.live
                · simp [Heap.malloc, hp]
                · simp [Heap.malloc, hp, DelayedMem.load, Heap.load, ha]
        | _ => rfl
      · intro a ha
        have hlive := h.core.live a ha
        cases pick with
        | none => exact hlive
        | some p =>
            by_cases hp : p ∈ s.mem.heap.live
            · simpa [Heap.malloc, hp] using hlive
            · simp [Heap.malloc, hp, hlive]
  | assign dc callback application context =>
      have hdc : dc ∈ s.mem.heap.live := hown.1
      simp only [DelayedQueue.step, assignElement, CHeap.load_eq hdc, CHeap.store_eq hdc, Option.bind_eq_bind,
        Option.bind_some, Option.pure_def] at hstep
      cases hstep
      refine ⟨f, rfl, active, seg, user_sim h ?_ rfl h.core.live⟩
      intro q hq
      cases q with
      | element a =>
          have ha := h.core.live a (hq a rfl)
          rw [load_element (m := s.mem) ha]
          refine (load_element ?_).trans ?_
          · exact ha
          by_cases had : a = dc
          · subst had
            simp
          · simp [Function.update_of_ne had]
      | _ => rfl
  | free dc =>
      have hdc : dc ∈ s.mem.heap.live := hown.1
      simp only [DelayedQueue.step, CHeap.free_eq hdc] at hstep
      cases hstep
      have hne : ∀ a ∈ s.lent, a ≠ dc := by
        rintro a ha rfl
        exact hown.2 ha
      refine ⟨f, rfl, active, seg, user_sim h ?_ rfl ?_⟩
      · intro q hq
        cases q with
        | element a =>
            have ha := h.core.live a (hq a rfl)
            rw [load_element (m := s.mem) ha, load_element (Finset.mem_erase.mpr ⟨hne a (hq a rfl), ha⟩)]
        | _ => rfl
      · intro a ha
        exact Finset.mem_erase.mpr ⟨hne a ha, h.core.live a ha⟩

/-- The program keeps to `Owns` at every step of the run. -/
def Disciplined (h : Heap DelayedCallback) (es : List (DelayedEvent ι)) : Prop :=
  Machine.Along DelayedQueue.step (DelayedQueue.start h) es fun _ _ s e => Owns s e

/-- **A run.** -/
theorem queue_run_sim {h : Heap DelayedCallback} {es : List (DelayedEvent ι)} {seen : List Seen}
    (hrun : Machine.run DelayedQueue.step (DelayedQueue.start h) es = some (s, seen))
    (hown : Disciplined h es) :
    ∃ f, Fifo.empty.replay seen = some f ∧ QueueSim s f := by
  induction es using List.reverseRecOn generalizing s seen with
  | nil =>
      cases hrun
      exact ⟨Fifo.empty, rfl, sim_start h⟩
  | append_singleton es e ih =>
      obtain ⟨m, seen', last, hm, hlast, rfl⟩ := Machine.run_snoc_iff.mp hrun
      obtain ⟨f, hf, hsim⟩ := ih hm hown.of_prefix
      obtain ⟨f', hf', hsim'⟩ := queue_step_sim hsim (hown es e [] m seen' (by simp) hm) hlast
      exact ⟨f', Fifo.replay_snoc.mpr ⟨f, hf, hf'⟩, hsim'⟩

end Open62541
end Esp32Probes
