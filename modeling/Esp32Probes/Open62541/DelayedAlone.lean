import Esp32Probes.Open62541.DelayedRefines

/-!
# Open62541.DelayedAlone — a job that is not disturbed

What `processDelayed` and `UA_EventLoopLWIP_removeDelayedCallback` do from the call to the return while no
add is in progress: the reset takes the whole queue (`reset_alone`), and the loop visits every element of it
once (`visit_alone`) and puts those back that it keeps, in order (`walks_alone`). In particular both return
(`job_alone`).
-/

namespace Esp32Probes
namespace Open62541

open CHeap (Addr Heap)
open LateList (Family Chain Layout final cells)

variable {ι : Type} {s s' : DelayedQueue ι} {f f' : Fifo} {active : Bool} {seg : Ptr × List Addr}
  {job : Job} {pc : LoopPc} {frames : List Frame}

/-! ## Late links and empty queues -/

/-- No add is in progress. -/
def Undisturbed (s : DelayedQueue ι) : Prop := ∀ c, s.add c = none

/-- With no add in progress no link is late. -/
theorem Undisturbed.not_late (h : Undisturbed s) (a : Addr) (p : Ptr) : ¬Late s.add a p := by
  rintro ⟨c, hc⟩
  rw [h c] at hc
  cases hc

/-- Between two calls, and while a callback is executed. -/
def BetweenCalls (s : DelayedQueue ι) : Prop :=
  s.frames = [] ∨ ∃ job next tail frames, s.frames = ⟨job, .calling next tail⟩ :: frames

theorem BetweenCalls.of_frames (h : BetweenCalls s) (hframes : s'.frames = s.frames) : BetweenCalls s' := by
  unfold BetweenCalls
  rwa [hframes]

/-- **An empty active head** means that the queue is empty, or that the link to its first element is late. -/
theorem head_null (h : QueueSimAt s f active seg) (hat : AtRest s.mem.load f.queue active seg)
    (hnull : s.mem.load (headPtr active) = some .null) :
    f.queue = [] ∨ ∃ a as, f.queue = a :: as ∧ Late s.add a (headPtr active) := by
  have hchain := h.core.family.chain _ List.mem_cons_self
  rw [hat.1] at hchain
  refine hchain.first_null ?_ hnull
  intro a
  simp [delayedLayout]

/-- What a head contains outside a reset. -/
theorem head_cases (h : QueueSimAt s f active seg) (hat : AtRest s.mem.load f.queue active seg) :
    s.mem.load (headPtr active) = some .null ∨
      ∃ a as, f.queue = a :: as ∧ s.mem.load (headPtr active) = some (.element a) := by
  by_cases hnull : s.mem.load (headPtr active) = some .null
  · exact .inl hnull
  · have hchain := h.core.family.chain _ List.mem_cons_self
    rw [hat.1] at hchain
    obtain ⟨a, as, hqueue, hhead, -, -⟩ := hchain.first hnull
    exact .inr ⟨a, as, hqueue, hhead⟩

/-- With both heads small and no add in progress, the queue is empty. -/
theorem small_empty (h : QueueSimAt s f active seg) (hidle : Undisturbed s)
    (hat : AtRest s.mem.load f.queue active seg)
    (h1 : s.mem.delayedHead1.small = true) (h2 : s.mem.delayedHead2.small = true) : f.queue = [] := by
  rcases head_cases h hat with hnull | ⟨a, as, -, hhead⟩
  · rcases head_null h hat hnull with hempty | ⟨a, as, -, hlate⟩
    · exact hempty
    · exact absurd hlate (hidle.not_late a _)
  · cases active with
    | true =>
        rw [show s.mem.delayedHead1 = .element a from Option.some.inj hhead] at h1
        cases h1
    | false =>
        rw [show s.mem.delayedHead2 = .element a from Option.some.inj hhead] at h2
        cases h2

/-- The head of the loop with an element still to be visited: the element is visited, or the link behind it is
    late. -/
theorem walk_cases (h : QueueSim s f) {cur tail : Ptr} (hframes : s.frames = ⟨job, .walk cur tail⟩ :: frames)
    {a : Addr} {as : List Addr} {bs : List Batch} (hbatches : f.batches = ⟨none, a :: as⟩ :: bs) :
    a ∈ s.lent ∧ a ∈ s.mem.heap.live ∧ cur = .element a ∧
      ((∃ next, jobStep s.mem (s.add none) job (.walk cur tail) =
          (visitElement s.mem job (.element a) next tail).map fun v => (s.mem, v.1, some v.2.1, v.2.2)) ∨
        ∃ b, Late s.add b cur) := by
  obtain ⟨active, seg, h⟩ := h
  have hstack := h.stack
  rw [hframes, hbatches] at hstack
  obtain ⟨b, bs', hb, ⟨-, -, hvisit⟩, -⟩ := hstack
  cases hb
  obtain ⟨rfl, htail⟩ := hvisit
  have hcore := h.core
  unfold Fifo.rests at hcore
  rw [hbatches] at hcore
  have hlent : a ∈ s.lent := by
    refine (hcore.ledger a).mpr (.inl ?_)
    exact List.mem_append_right _ (List.mem_flatten.mpr ⟨_, List.mem_cons_self, List.mem_cons_self⟩)
  refine ⟨hlent, hcore.live a hlent, rfl, ?_⟩
  have hgo : ∀ {next : Ptr}, s.mem.load (.element a) = some next → ¬(next = .null ∧ Ptr.element a ≠ tail) →
      ∃ next, jobStep s.mem (s.add none) job (.walk (.element a) tail) =
        (visitElement s.mem job (.element a) next tail).map fun v => (s.mem, v.1, some v.2.1, v.2.2) := by
    intro next hload hgo
    refine ⟨next, ?_⟩
    simp only [jobStep, hload, Option.bind_eq_bind, Option.bind_some, reduceCtorEq, if_false]
    rw [if_neg hgo]
    cases visitElement s.mem job (.element a) next tail <;> rfl
  rcases next_cases hcore with ⟨rfl, hload⟩ | ⟨b, bs', rfl, hload, -⟩ | ⟨b, bs', rfl, -, hlate, -⟩
  · refine .inl (hgo hload ?_)
    simp [htail, delayedLayout]
  · exact .inl (hgo hload (by simp))
  · exact .inr ⟨b, hlate⟩

variable [DecidableEq ι]

/-! ## Steps of the job alone -/

/-- The job runs from `s` to `s'`, the callbacks it executes return at once, and nobody else takes a step.
    `f` and `f'` are the lists before and after. -/
def Alone (s : DelayedQueue ι) (f : Fifo) (s' : DelayedQueue ι) (f' : Fifo) (seen : List Seen) : Prop :=
  (∃ es, (∀ e ∈ es, e = .loop ∨ e = .callbackReturns) ∧ Machine.run DelayedQueue.step s es =
    some (s', seen)) ∧ f.replay seen = some f' ∧ QueueSim s' f'

theorem Alone.refl (h : QueueSim s f) : Alone s f s f [] := ⟨⟨[], by simp, rfl⟩, rfl, h⟩

/-- One more step at the front. -/
theorem Alone.cons {m : DelayedQueue ι} {f₁ : Fifo} {e : DelayedEvent ι} {first : Seen} {seen : List Seen}
    (hstep : s.step e = some (m, first)) (he : e = .loop ∨ e = .callbackReturns)
    (haccept : f.accept first = some f₁) (h : Alone m f₁ s' f' seen) : Alone s f s' f' (first :: seen) := by
  obtain ⟨⟨es, hes, hrun⟩, hreplay, hsim⟩ := h
  refine ⟨⟨e :: es, List.forall_mem_cons.mpr ⟨he, hes⟩, ?_⟩, ?_, hsim⟩
  · exact Machine.run_cons_iff.mpr ⟨m, first, seen, hstep, hrun, rfl⟩
  · exact Option.bind_eq_some_iff.mpr ⟨f₁, haccept, hreplay⟩

/-- One run after another. -/
theorem Alone.trans {m : DelayedQueue ι} {f₁ : Fifo} {seen seen' : List Seen} (h : Alone s f m f₁ seen)
    (h' : Alone m f₁ s' f' seen') : Alone s f s' f' (seen ++ seen') := by
  obtain ⟨⟨es, hes, hrun⟩, hreplay, -⟩ := h
  obtain ⟨⟨es', hes', hrun'⟩, hreplay', hsim⟩ := h'
  refine ⟨⟨es ++ es', ?_, Machine.run_append_iff.mpr ⟨m, seen, seen', hrun, hrun', rfl⟩⟩, ?_, hsim⟩
  · intro e he
    rcases List.mem_append.mp he with he | he
    · exact hes e he
    · exact hes' e he
  · unfold Fifo.replay at *
    rw [List.foldlM_append]
    exact Option.bind_eq_some_iff.mpr ⟨f₁, hreplay, hreplay'⟩

theorem Alone.sim {seen : List Seen} (h : Alone s f s' f' seen) : QueueSim s' f' := h.2.2

/-- What is seen of a run, without the silent steps. -/
def loud (seen : List Seen) : List Seen := seen.filter fun o => decide (o ≠ .quiet)

@[simp] theorem loud_quiet (seen : List Seen) : loud (.quiet :: seen) = loud seen := by simp [loud]

theorem loud_cons {o : Seen} (ho : o ≠ .quiet) (seen : List Seen) : loud (o :: seen) = o :: loud seen := by
  simp [loud, ho]

theorem loud_append (seen seen' : List Seen) : loud (seen ++ seen') = loud seen ++ loud seen' :=
  List.filter_append ..

/-- A step of the loop is a statement of the latest call. -/
theorem loop_eq {m : DelayedMem} {add : Option AddPc} {next : Option LoopPc} {seen : Seen}
    (hframes : s.frames = ⟨job, pc⟩ :: frames) (hpc : ∀ next tail, pc ≠ .calling next tail)
    (hjob : jobStep s.mem (s.add none) job pc = some (m, add, next, seen)) :
    s.step .loop = some (⟨m, Function.update s.add none add, match next with
      | none => frames
      | some pc => ⟨job, pc⟩ :: frames, seen.settle s.lent⟩, seen) := by
  cases pc with
  | calling next tail => exact absurd rfl (hpc next tail)
  | _ => cases next <;> simp [DelayedQueue.step, hframes, hjob]

/-! ## The reset -/

/-- The statements of a reset that are still to come. -/
def LoopPc.rank : LoopPc → Nat
  | .test1 => 6
  | .test2 => 5
  | .choose => 4
  | .activate _ => 3
  | .take _ => 2
  | .retail _ _ => 1
  | _ => 0

/-- One statement of a reset: the next one, or the loop. -/
theorem reset_cases {m m' : DelayedMem} {add add' : Option AddPc} {next : Option LoopPc} {seen : Seen}
    (hpc : pc.resetting = true) (hjob : jobStep m add job pc = some (m', add', next, seen)) :
    add' = add ∧ m'.heap = m.heap ∧ ∃ pc', next = some pc' ∧
      ((seen = .quiet ∧ pc'.resetting = true ∧ pc'.rank < pc.rank ∧
        (pc' = .test2 → m'.delayedHead1.small = true)) ∨ ((∃ cur tail, pc' = .walk cur tail) ∧
          (seen = .checkedOut ∨ (seen = .nothing ∧ pc = .test2 ∧ m.delayedHead2.small = true)))) := by
  have hheap : ∀ {b : Bool} {v : Ptr}, m.store (headPtr b) v = some m' → m'.heap = m.heap := by
    intro b v hm
    cases b <;> cases hm <;> rfl
  cases pc with
  | test1 =>
      simp only [jobStep, Option.some.injEq, Prod.mk.injEq] at hjob
      obtain ⟨rfl, rfl, rfl, rfl⟩ := hjob
      refine ⟨rfl, rfl, _, rfl, .inl ?_⟩
      by_cases hsmall : m.delayedHead1.small = true
      · rw [if_pos hsmall]
        exact ⟨rfl, rfl, by decide, fun _ => hsmall⟩
      · rw [if_neg hsmall]
        exact ⟨rfl, rfl, by decide, fun hpc => by cases hpc⟩
  | test2 =>
      simp only [jobStep] at hjob
      split_ifs at hjob with hsmall
      · cases hjob
        exact ⟨rfl, rfl, _, rfl, .inr ⟨⟨_, _, rfl⟩, .inr ⟨rfl, rfl, hsmall⟩⟩⟩
      · cases hjob
        exact ⟨rfl, rfl, _, rfl, .inl ⟨rfl, rfl, by decide, fun hpc => by cases hpc⟩⟩
  | choose =>
      cases hjob
      exact ⟨rfl, rfl, _, rfl, .inl ⟨rfl, rfl, by simp [LoopPc.rank], fun hpc => by cases hpc⟩⟩
  | activate active1 =>
      simp only [jobStep, Option.bind_eq_bind, Option.bind_eq_some_iff, Option.pure_def, Option.some.injEq,
        Prod.mk.injEq] at hjob
      obtain ⟨m₁, hm, rfl, rfl, rfl, rfl⟩ := hjob
      exact ⟨rfl, hheap hm, _, rfl, .inl ⟨rfl, rfl, by simp [LoopPc.rank], fun hpc => by cases hpc⟩⟩
  | take active1 =>
      simp only [jobStep, Option.bind_eq_bind, Option.bind_eq_some_iff, Option.pure_def, Option.some.injEq,
        Prod.mk.injEq] at hjob
      obtain ⟨v, -, m₁, hm, rfl, rfl, rfl, rfl⟩ := hjob
      exact ⟨rfl, hheap hm, _, rfl, .inl ⟨rfl, rfl, by simp [LoopPc.rank], fun hpc => by cases hpc⟩⟩
  | retail active1 oldHead =>
      cases hjob
      exact ⟨rfl, rfl, _, rfl, .inr ⟨⟨_, _, rfl⟩, .inl rfl⟩⟩
  | walk cur tail => cases hpc
  | calling next tail => cases hpc
  | readd next tail => cases hpc

/-- **One statement of a reset**, alone: the next one, or the loop with the whole queue. -/
theorem reset_step (h : QueueSim s f) (hidle : Undisturbed s) (hframes : s.frames = ⟨job, pc⟩ :: frames)
    (hpc : pc.resetting = true) (hsmall : pc = .test2 → s.mem.delayedHead1.small = true) :
    ∃ s' seen pc', s.step .loop = some (s', seen) ∧ Undisturbed s' ∧ s'.mem.heap = s.mem.heap ∧
      s'.frames = ⟨job, pc'⟩ :: frames ∧
        ((seen = .quiet ∧ pc'.resetting = true ∧ pc'.rank < pc.rank ∧ QueueSim s' f ∧
            (pc' = .test2 → s'.mem.delayedHead1.small = true)) ∨
          ((seen = .nothing ∨ seen = .checkedOut) ∧ (∃ cur tail, pc' = .walk cur tail) ∧
            f.accept seen = some ⟨[], ⟨none, f.queue⟩ :: f.batches⟩ ∧
              QueueSim s' ⟨[], ⟨none, f.queue⟩ :: f.batches⟩)) := by
  obtain ⟨active, seg, hsim⟩ := h
  have hcalling : ∀ next tail, pc ≠ .calling next tail := by
    rintro next tail rfl
    cases hpc
  obtain ⟨m, add, next, seen, hjob, f', haccept, hsim'⟩ := jobStep_sim hsim hframes hcalling
  obtain ⟨rfl, hheap, pc', rfl, hcase⟩ := reset_cases hpc hjob
  have hstep := loop_eq hframes hcalling hjob
  have hidle' : ∀ c, Function.update s.add none (s.add none) c = none := by
    intro c
    rw [Function.update_eq_self]
    exact hidle c
  refine ⟨_, seen, pc', hstep, hidle', hheap, rfl, ?_⟩
  rcases hcase with ⟨rfl, hpc', hrank, htest⟩ | ⟨hwalk, rfl | ⟨rfl, rfl, hsmall2⟩⟩
  · cases haccept
    exact .inl ⟨rfl, hpc', hrank, hsim', htest⟩
  · cases haccept
    exact .inr ⟨.inr rfl, hwalk, rfl, hsim'⟩
  · cases haccept
    have hat : AtRest s.mem.load f.queue active seg := by
      have hphase := hsim.phase_at hframes
      exact hphase
    have hempty := small_empty hsim hidle hat (hsmall rfl) hsmall2
    rw [hempty] at hsim' ⊢
    refine .inr ⟨.inl rfl, hwalk, ?_, hsim'⟩
    rw [Fifo.accept, hempty]

/-- **The whole reset**, alone. -/
theorem reset_alone (h : QueueSim s f) (hidle : Undisturbed s) (hframes : s.frames = ⟨job, pc⟩ :: frames)
    (hpc : pc.resetting = true) (hsmall : pc = .test2 → s.mem.delayedHead1.small = true) :
    ∃ s' seen first cur tail, Alone s f s' ⟨[], ⟨none, f.queue⟩ :: f.batches⟩ seen ∧ loud seen = [first] ∧
      (first = .nothing ∨ first = .checkedOut) ∧ Undisturbed s' ∧ s'.mem.heap = s.mem.heap ∧
        s'.frames = ⟨job, .walk cur tail⟩ :: frames := by
  induction hrank : pc.rank using Nat.strong_induction_on generalizing s pc with
  | _ n ih =>
      obtain ⟨m, o, pc', hstep, hidle', hheap, hframes', hcase⟩ := reset_step h hidle hframes hpc hsmall
      rcases hcase with ⟨rfl, hpc', hlt, hsim, hsmall'⟩ | ⟨ho, ⟨cur, tail, rfl⟩, haccept, hsim⟩
      · obtain ⟨s', seen, first, cur, tail, halone, hloud, hfirst, hidle'', hheap', hend⟩ :=
          ih _ (hrank ▸ hlt) hsim hidle' hframes' hpc' hsmall' rfl
        exact ⟨s', _, first, cur, tail, halone.cons hstep (.inl rfl) rfl, by rw [loud_quiet, hloud], hfirst,
          hidle'', hheap'.trans hheap, hend⟩
      · refine ⟨m, _, o, cur, tail, (Alone.refl hsim).cons hstep (.inl rfl) haccept, ?_, ho, hidle', hheap,
          hframes'⟩
        refine loud_cons ?_ []
        rintro rfl
        rcases ho with ho | ho <;> cases ho

/-! ## The loop -/

/-- Two memories with the same elements, up to their links. -/
def SameElements (m m' : DelayedMem) : Prop :=
  m'.heap.live = m.heap.live ∧ ∀ dc, (m'.heap.cell dc).callback = (m.heap.cell dc).callback ∧
    (m'.heap.cell dc).application = (m.heap.cell dc).application ∧
      (m'.heap.cell dc).context = (m.heap.cell dc).context

theorem SameElements.of_heap {m m' : DelayedMem} (h : m'.heap = m.heap) : SameElements m m' := by
  rw [SameElements, h]
  exact ⟨rfl, fun _ => ⟨rfl, rfl, rfl⟩⟩

theorem SameElements.trans {m₁ m₂ m₃ : DelayedMem} (h : SameElements m₁ m₂)
    (h' : SameElements m₂ m₃) : SameElements m₁ m₃ := by
  refine ⟨h'.1.trans h.1, fun dc => ?_⟩
  obtain ⟨hcallback, happlication, hcontext⟩ := h.2 dc
  obtain ⟨hcallback', happlication', hcontext'⟩ := h'.2 dc
  exact ⟨hcallback'.trans hcallback, happlication'.trans happlication, hcontext'.trans hcontext⟩

/-- A write of a pointer leaves the other fields of the elements alone. -/
theorem store_sameElements {m m' : DelayedMem} {p v : Ptr} (h : m.store p v = some m') :
    SameElements m m' := by
  cases p with
  | null => cases h
  | sentinel => cases h
  | head1 =>
      cases h
      exact SameElements.of_heap rfl
  | head2 =>
      cases h
      exact SameElements.of_heap rfl
  | element a =>
      by_cases ha : a ∈ m.heap.live
      · simp only [DelayedMem.store, CHeap.load_eq ha, CHeap.store_eq ha, Option.bind_eq_bind,
          Option.bind_some, Option.pure_def, Option.some.injEq] at h
        subst h
        refine ⟨rfl, fun dc => ?_⟩
        by_cases hdc : dc = a
        · subst hdc
          simp
        · simp [Function.update_of_ne hdc]
      · simp [DelayedMem.store, Heap.load, ha] at h

/-- What a job is seen to do with an element. -/
def Job.trace (m : DelayedMem) : Job → Addr → List Seen
  | .process, dc =>
    match (m.heap.cell dc).callback with
    | none => [.skipped dc]
    | some callback => [.executed dc callback (m.heap.cell dc).application (m.heap.cell dc).context]
  | .remove target, dc => if dc = target then [.removed dc] else [.picked dc, .requeued dc]

/-- The elements that a job puts back. -/
def Job.keeps : Job → Addr → Bool
  | .process, _ => false
  | .remove target, dc => decide (dc ≠ target)

/-- What is seen of a visit depends on these fields. -/
theorem SameElements.trace_eq {m m' : DelayedMem} (h : SameElements m m') (job : Job) (dc : Addr) :
    job.trace m' dc = job.trace m dc := by
  obtain ⟨hcallback, happlication, hcontext⟩ := h.2 dc
  cases job with
  | process => simp only [Job.trace, hcallback, happlication, hcontext]
  | remove target => rfl

/-- What a statement of an add is seen to do, by the job. -/
def AddPc.readdSeen : AddPc → Seen
  | .swing dc => .requeued dc
  | _ => .quiet

/-- One statement of the add by which the job puts an element back. -/
theorem readd_step (h : QueueSim s f) (hothers : ∀ t, s.add (some t) = none) {next tail : Ptr}
    (hframes : s.frames = ⟨job, .readd next tail⟩ :: frames) {pc₀ : AddPc} (hadd : s.add none = some pc₀) :
    ∃ m after s', addStep s.mem pc₀ = some (m, after) ∧ s.step .loop = some (s', pc₀.readdSeen) ∧
      s'.add none = after ∧ (∀ t, s'.add (some t) = none) ∧ SameElements s.mem s'.mem ∧
      s'.frames = ⟨job, if after = none then .walk next tail else .readd next tail⟩ :: frames := by
  obtain ⟨active, seg, h⟩ := h
  obtain ⟨m, after, -, hstep, -, -⟩ := addStep_sim h.core h.phase hadd
  have hjob : jobStep s.mem (s.add none) job (.readd next tail) =
      some (m, after, some (if after = none then .walk next tail else .readd next tail), pc₀.readdSeen) := by
    rw [hadd]
    cases pc₀ <;> simp [jobStep, hstep, AddPc.readdSeen]
  refine ⟨m, after, _, hstep, loop_eq hframes (fun _ _ hpc => by cases hpc) hjob,
    Function.update_self (none : Option ι) after s.add, ?_, ?_, rfl⟩
  · intro t
    show Function.update s.add none after (some t) = none
    rw [Function.update_of_ne (by simp)]
    exact hothers t
  · show SameElements s.mem m
    cases pc₀ with
    | clear a =>
        obtain ⟨m', hm, heq⟩ := Option.bind_eq_some_iff.mp hstep
        cases heq
        exact store_sameElements hm
    | swing a =>
        cases hstep
        exact SameElements.of_heap rfl
    | link a q =>
        obtain ⟨m', hm, heq⟩ := Option.bind_eq_some_iff.mp hstep
        cases heq
        exact store_sameElements hm

/-- **An element is put back**, alone. -/
theorem readd_alone (h : QueueSim s f) (hothers : ∀ t, s.add (some t) = none) {next tail : Ptr}
    (hframes : s.frames = ⟨job, .readd next tail⟩ :: frames) {a : Addr}
    (hadd : s.add none = some (.clear a)) :
    ∃ s' seen f', Alone s f s' f' seen ∧ loud seen = [.requeued a] ∧ Undisturbed s' ∧
      SameElements s.mem s'.mem ∧
      s'.frames = ⟨job, .walk next tail⟩ :: frames ∧ f.accept (.requeued a) = some f' := by
  obtain ⟨m₁, after₁, s₁, hadd₁, hstep₁, hnone₁, hothers₁, hdata₁, hframes₁⟩ :=
    readd_step h hothers hframes hadd
  obtain ⟨f₁, hf₁, h₁⟩ := queue_step_sim (e := .loop) h trivial hstep₁
  obtain ⟨_, -, heq⟩ := Option.bind_eq_some_iff.mp hadd₁
  cases heq
  cases hf₁
  obtain ⟨m₂, after₂, s₂, hadd₂, hstep₂, hnone₂, hothers₂, hdata₂, hframes₂⟩ :=
    readd_step h₁ hothers₁ hframes₁ hnone₁
  obtain ⟨f₂, hf₂, h₂⟩ := queue_step_sim (e := .loop) h₁ trivial hstep₂
  cases hadd₂
  obtain ⟨m₃, after₃, s₃, hadd₃, hstep₃, hnone₃, hothers₃, hdata₃, hframes₃⟩ :=
    readd_step h₂ hothers₂ hframes₂ hnone₂
  obtain ⟨f₃, hf₃, h₃⟩ := queue_step_sim (e := .loop) h₂ trivial hstep₃
  obtain ⟨_, -, heq⟩ := Option.bind_eq_some_iff.mp hadd₃
  cases heq
  cases hf₃
  have halone : Alone s f s₃ f₂ _ := .cons hstep₁ (.inl rfl) rfl (.cons hstep₂ (.inl rfl) hf₂
    (.cons hstep₃ (.inl rfl) rfl (.refl h₃)))
  refine ⟨s₃, _, f₂, halone, ?_, ?_, (hdata₁.trans hdata₂).trans hdata₃, hframes₃, hf₂⟩
  · simp [loud, AddPc.readdSeen]
  · rintro (_ | t)
    · exact hnone₃
    · exact hothers₃ t

/-- An element is visited and not put back. -/
theorem visit_step (h : QueueSim s f) (hidle : Undisturbed s) {cur tail next : Ptr}
    (hframes : s.frames = ⟨job, .walk cur tail⟩ :: frames) {a : Addr}
    (hjob : jobStep s.mem (s.add none) job (.walk cur tail) =
      (visitElement s.mem job (.element a) next tail).map fun v => (s.mem, v.1, some v.2.1, v.2.2))
    (pc' : LoopPc) (o : Seen) (hvis : visitElement s.mem job (.element a) next tail = some (none, pc', o)) :
    ∃ s' f', s.step .loop = some (s', o) ∧ f.accept o = some f' ∧ QueueSim s' f' ∧ Undisturbed s' ∧
      s'.mem = s.mem ∧ s'.frames = ⟨job, pc'⟩ :: frames := by
  rw [hvis] at hjob
  have hstep := loop_eq hframes (fun _ _ hpc => by cases hpc) hjob
  obtain ⟨f', haccept, hsim⟩ := queue_step_sim (e := .loop) h trivial hstep
  refine ⟨_, f', hstep, haccept, hsim, ?_, rfl, rfl⟩
  intro c
  show Function.update s.add none none c = none
  rw [← hidle none, Function.update_eq_self]
  exact (hidle c).trans (hidle none).symm

/-- **One element of a taken list**, alone. -/
theorem visit_alone (h : QueueSim s f) (hidle : Undisturbed s) {cur tail : Ptr}
    (hframes : s.frames = ⟨job, .walk cur tail⟩ :: frames) {a : Addr} {as : List Addr} {bs : List Batch}
    (hbatches : f.batches = ⟨none, a :: as⟩ :: bs) :
    ∃ s' seen next, Alone s f s' ⟨f.queue ++ [a].filter job.keeps, ⟨none, as⟩ :: bs⟩ seen ∧
      loud seen = job.trace s.mem a ∧ Undisturbed s' ∧ SameElements s.mem s'.mem ∧
        s'.frames = ⟨job, .walk next tail⟩ :: frames := by
  obtain ⟨-, hlive, rfl, ⟨next, hjob⟩ | ⟨b, hlate⟩⟩ := walk_cases h hframes hbatches
  swap
  · exact absurd hlate (hidle.not_late b _)
  have hgiven : ∀ {held : Option Addr} {f' : Fifo}, f.visit a held = some f' →
    f' = ⟨f.queue, ⟨held, as⟩ :: bs⟩ := by
    intro held f' hv
    obtain ⟨rest, bs', hb, rfl⟩ := Fifo.visit_iff.mp hv
    rw [hbatches] at hb
    cases hb
    rfl
  cases job with
  | process =>
      have hkeeps : f.queue ++ [a].filter Job.process.keeps = f.queue := List.append_nil _
      rw [hkeeps]
      cases hcb : (s.mem.heap.cell a).callback with
      | none =>
          obtain ⟨s', f', hstep, haccept, hsim, hidle', hmem, hframes'⟩ :=
            visit_step h hidle hframes hjob (.walk next tail) (.skipped a) (by
              simp [visitElement, CHeap.load_eq hlive, hcb])
          obtain rfl := hgiven haccept
          refine ⟨s', _, next, .cons hstep (.inl rfl) haccept (.refl hsim), ?_, hidle',
            .of_heap (by rw [hmem]), hframes'⟩
          simp [loud, Job.trace, hcb]
      | some callback =>
          obtain ⟨m, f', hstep, haccept, hsim, hidle', hmem, hframes'⟩ :=
            visit_step h hidle hframes hjob (.calling next tail)
              (.executed a callback (s.mem.heap.cell a).application (s.mem.heap.cell a).context)
              (by simp [visitElement, CHeap.load_eq hlive, hcb])
          obtain rfl := hgiven haccept
          have hreturns : m.step .callbackReturns =
              some ({ m with frames := ⟨.process, .walk next tail⟩ :: frames }, .quiet) := by
            simp [DelayedQueue.step, hframes']
          obtain ⟨f', haccept', hsim'⟩ := queue_step_sim (e := .callbackReturns) hsim trivial hreturns
          cases haccept'
          refine ⟨_, _, next,
            .cons hstep (.inl rfl) haccept (.cons hreturns (.inr rfl) rfl (.refl hsim')), ?_,
            hidle', .of_heap (by rw [hmem]), rfl⟩
          simp [loud, Job.trace, hcb]
  | remove target =>
      by_cases ha : a = target
      · obtain ⟨s', f', hstep, haccept, hsim, hidle', hmem, hframes'⟩ :=
          visit_step h hidle hframes hjob (.walk next tail) (.removed a) (by simp [visitElement, ha])
        obtain rfl := hgiven haccept
        have hkeeps : f.queue ++ [a].filter (Job.remove target).keeps = f.queue := by simp [Job.keeps, ha]
        rw [hkeeps]
        refine ⟨s', _, next, .cons hstep (.inl rfl) haccept (.refl hsim), ?_, hidle', .of_heap (by rw [hmem]),
          hframes'⟩
        simp [loud, Job.trace, ha]
      · have hvis : visitElement s.mem (.remove target) (.element a) next tail =
            some (some (.clear a), .readd next tail, .picked a) := by
          simp [visitElement, ha]
        rw [hvis] at hjob
        have hstep := loop_eq hframes (fun _ _ hpc => by cases hpc) hjob
        obtain ⟨f', haccept, hsim⟩ := queue_step_sim (e := .loop) h trivial hstep
        obtain rfl := hgiven haccept
        have hothers : ∀ t, Function.update s.add none (some (.clear a)) (some t) = none := by
          intro t
          rw [Function.update_of_ne (by simp)]
          exact hidle t
        have hadd : Function.update s.add (none : Option ι) (some (.clear a)) none = some (.clear a) :=
          Function.update_self ..
        obtain ⟨s', seen, f', halone, hloud, hidle', hdata, hframes', haccept'⟩ :=
          readd_alone hsim hothers rfl hadd
        obtain ⟨rest, bs', hb, rfl⟩ := Fifo.requeued_iff.mp haccept'
        cases hb
        have hkeeps : [a].filter (Job.remove target).keeps = [a] := by simp [Job.keeps, ha]
        rw [hkeeps]
        refine ⟨s', _, next, .cons hstep (.inl rfl) haccept halone, ?_, hidle', hdata, hframes'⟩
        rw [loud_cons (by simp), hloud]
        simp [Job.trace, ha]

/-- **The rest of a job**, alone, from the head of its loop on. -/
theorem walks_alone (h : QueueSim s f) (hidle : Undisturbed s) {cur tail : Ptr}
    (hframes : s.frames = ⟨job, .walk cur tail⟩ :: frames) {rest : List Addr} {bs : List Batch}
    (hbatches : f.batches = ⟨none, rest⟩ :: bs) :
    ∃ s' seen, Alone s f s' ⟨f.queue ++ rest.filter job.keeps, bs⟩ seen ∧
      loud seen = rest.flatMap (job.trace s.mem) ++ [.finished] ∧ Undisturbed s' ∧ SameElements s.mem s'.mem ∧
        s'.frames = frames := by
  induction rest generalizing s f cur tail with
  | nil =>
      obtain ⟨active, seg, hat⟩ := h
      have hstack := hat.stack
      rw [hframes, hbatches] at hstack
      obtain ⟨b, bs', hb, ⟨-, -, hvisit⟩, -⟩ := hstack
      cases hb
      obtain rfl : cur = .null := hvisit
      have hstep := loop_eq hframes (fun n t hpc => by cases hpc)
        (show jobStep s.mem (s.add none) job (.walk .null tail) =
          some (s.mem, s.add none, none, .finished) from rfl)
      obtain ⟨f', haccept, hsim⟩ := queue_step_sim (e := .loop) ⟨active, seg, hat⟩ trivial hstep
      have hf' : f' = ⟨f.queue ++ ([] : List Addr).filter job.keeps, bs⟩ := by
        obtain ⟨hb, hq⟩ := Fifo.finished_iff.mp haccept
        rw [hbatches] at hb
        obtain ⟨queue, batches⟩ := f'
        cases hb
        obtain rfl : queue = f.queue := hq
        simp
      subst hf'
      refine ⟨_, _, .cons hstep (.inl rfl) haccept (.refl hsim), rfl, ?_, .of_heap rfl, rfl⟩
      intro c
      show Function.update s.add none (s.add none) c = none
      rw [Function.update_eq_self]
      exact hidle c
  | cons a as ih =>
      obtain ⟨m, seen, next, halone, hloud, hidle', hdata, hframes'⟩ := visit_alone h hidle hframes hbatches
      obtain ⟨s', seen', halone', hloud', hidle'', hdata', hframes''⟩ := ih halone.sim hidle' hframes' rfl
      rw [List.append_assoc, ← List.filter_append, List.singleton_append] at halone'
      refine ⟨s', _, halone.trans halone', ?_, hidle'', hdata.trans hdata', hframes''⟩
      have htrace : job.trace m.mem = job.trace s.mem := funext (hdata.trace_eq job)
      rw [loud_append, hloud, hloud', htrace, List.flatMap_cons, List.append_assoc]

/-- **A whole job**, alone: it returns, it has visited every element of the queue once and in order, and the
    elements it keeps are the queue again. Lists that other calls are in the middle of stay as they are. -/
theorem job_alone (h : QueueSim s f) (hidle : Undisturbed s) (hframes : BetweenCalls s) (job : Job) :
    ∃ m s' seen first, s.step (.enter job) = some (m, .quiet) ∧
      Alone m f s' ⟨f.queue.filter job.keeps, f.batches⟩ seen ∧
        loud seen = first :: f.queue.flatMap (job.trace s.mem) ++ [.finished] ∧
          (first = .nothing ∨ first = .checkedOut) ∧ Undisturbed s' ∧ SameElements s.mem s'.mem ∧
            s'.frames = s.frames := by
  have hstep : s.step (.enter job) = some ({ s with frames := ⟨job, .test1⟩ :: s.frames }, .quiet) := by
    rcases hframes with hnil | ⟨job', next, tail, frames, hcall⟩
    · simp [DelayedQueue.step, hnil]
    · simp [DelayedQueue.step, hcall]
  obtain ⟨f', haccept, hsim⟩ := queue_step_sim (e := .enter job) h trivial hstep
  cases haccept
  obtain ⟨m, seen, first, cur, tail, halone, hloud, hfirst, hidle', hheap, hframes'⟩ :=
    reset_alone hsim hidle rfl rfl (fun hpc => by cases hpc)
  obtain ⟨s', seen', halone', hloud', hidle'', hdata, hframes''⟩ := walks_alone halone.sim hidle' hframes' rfl
  have hsame : SameElements s.mem m.mem := .of_heap hheap
  refine ⟨_, s', _, first, hstep, halone.trans halone', ?_, hfirst, hidle'', hsame.trans hdata, hframes''⟩
  have htrace : job.trace m.mem = job.trace s.mem := funext (hsame.trace_eq job)
  rw [loud_append, hloud, hloud', htrace]
  rfl

end Open62541
end Esp32Probes
