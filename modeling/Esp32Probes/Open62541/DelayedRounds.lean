import Esp32Probes.Open62541.DelayedRefines

/-!
# Open62541.DelayedRounds — one round of `processDelayed`

The event loop does not call `processDelayed` from itself. Then its call is the oldest on the stack, and
what it has taken is the oldest list: `Round` follows that list through everything else that happens, and
`round_run` is the result. `ordered_run` is the order over all rounds when nothing is removed.
-/

namespace Esp32Probes
namespace Open62541

open CHeap (Addr Heap)

variable {ι : Type} {s s' : DelayedQueue ι} {f f' : Fifo} {job : Job} {pc : LoopPc} {frames : List Frame}
  {seen : Seen}

/-- The element that `processDelayed` visits in a step. -/
def Seen.processed : Seen → Option Addr
  | .executed dc _ _ _ => some dc
  | .skipped dc => some dc
  | _ => none

/-! ## The statements of a job -/

/-- What a statement of a job leads to and is seen to do. -/
inductive Does : Job → LoopPc → Option LoopPc → Seen → Prop
  | reset {job : Job} {pc pc' : LoopPc} (hpc : pc.resetting = true) (hpc' : pc'.resetting = true) :
      Does job pc (some pc') .quiet
  | nothing {job : Job} {pc : LoopPc} {cur tail : Ptr} (hpc : pc.resetting = true) :
      Does job pc (some (.walk cur tail)) .nothing
  | checkedOut {job : Job} {pc : LoopPc} {cur tail : Ptr} (hpc : pc.resetting = true) :
      Does job pc (some (.walk cur tail)) .checkedOut
  | spin {job : Job} {cur tail : Ptr} : Does job (.walk cur tail) (some (.walk cur tail)) .quiet
  | executed {cur next tail : Ptr} {dc : Addr} {callback : Callback} {application context : Nat} :
      Does .process (.walk cur tail) (some (.calling next tail)) (.executed dc callback application context)
  | skipped {cur next tail : Ptr} {dc : Addr} :
    Does .process (.walk cur tail) (some (.walk next tail)) (.skipped dc)
  | removed {target : Addr} {cur next tail : Ptr} :
      Does (.remove target) (.walk cur tail) (some (.walk next tail)) (.removed target)
  | picked {target dc : Addr} {cur next tail : Ptr} (hdc : dc ≠ target) :
      Does (.remove target) (.walk cur tail) (some (.readd next tail)) (.picked dc)
  | clear {job : Job} {next tail : Ptr} : Does job (.readd next tail) (some (.readd next tail)) .quiet
  | requeued {job : Job} {next tail : Ptr} {dc : Addr} :
      Does job (.readd next tail) (some (.readd next tail)) (.requeued dc)
  | put {job : Job} {next tail : Ptr} : Does job (.readd next tail) (some (.walk next tail)) .quiet
  | finished {job : Job} {cur tail : Ptr} : Does job (.walk cur tail) none .finished

/-- The visit of an element. -/
theorem visitElement_does {m : DelayedMem} {cur next tail : Ptr} {add : Option AddPc} {pc' : LoopPc}
    (h : visitElement m job cur next tail = some (add, pc', seen)) :
    Does job (.walk cur tail) (some pc') seen := by
  cases cur with
  | element dc =>
      cases job with
      | process =>
          simp only [visitElement, Option.bind_eq_bind, Option.bind_eq_some_iff] at h
          obtain ⟨e, -, h⟩ := h
          split at h <;> cases h
          · exact .skipped
          · exact .executed
      | remove target =>
          simp only [visitElement] at h
          split_ifs at h with hdc <;> cases h
          · rw [hdc]
            exact .removed
          · exact .picked hdc
  | null => cases h
  | sentinel => cases h
  | head1 => cases h
  | head2 => cases h

/-- **What a statement can do**, by the constructors of `Does`. -/
theorem jobStep_does {m m' : DelayedMem} {add add' : Option AddPc} {next : Option LoopPc}
    (h : jobStep m add job pc = some (m', add', next, seen)) : Does job pc next seen := by
  cases pc with
  | test1 =>
      cases h
      by_cases hsmall : m.delayedHead1.small = true
      · rw [if_pos hsmall]
        exact .reset rfl rfl
      · rw [if_neg hsmall]
        exact .reset rfl rfl
  | test2 =>
      simp only [jobStep] at h
      split_ifs at h <;> cases h
      · exact .nothing rfl
      · exact .reset rfl rfl
  | choose =>
      cases h
      exact .reset rfl rfl
  | activate active1 =>
      obtain ⟨m₁, -, h⟩ := Option.bind_eq_some_iff.mp h
      cases h
      exact .reset rfl rfl
  | take active1 =>
      obtain ⟨oldHead, -, h⟩ := Option.bind_eq_some_iff.mp h
      obtain ⟨m₁, -, h⟩ := Option.bind_eq_some_iff.mp h
      cases h
      exact .reset rfl rfl
  | retail active1 oldHead =>
      cases h
      exact .checkedOut rfl
  | walk cur tail =>
      simp only [jobStep] at h
      split_ifs at h
      · cases h
        exact .finished
      · obtain ⟨n, -, h⟩ := Option.bind_eq_some_iff.mp h
        split_ifs at h
        · cases h
          exact .spin
        · obtain ⟨⟨add₁, pc', seen'⟩, hvisit, h⟩ := Option.bind_eq_some_iff.mp h
          cases h
          exact visitElement_does hvisit
  | calling next tail => cases h
  | readd next tail =>
      cases add with
      | none => cases h
      | some pc₀ =>
          obtain ⟨⟨m₁, add₁⟩, hadd, h⟩ := Option.bind_eq_some_iff.mp h
          cases pc₀ with
          | clear dc =>
              obtain ⟨m₂, -, hadd⟩ := Option.bind_eq_some_iff.mp hadd
              cases hadd
              cases h
              exact .clear
          | swing dc =>
              cases hadd
              cases h
              exact .requeued
          | link dc oldtail =>
              obtain ⟨m₂, -, hadd⟩ := Option.bind_eq_some_iff.mp hadd
              cases hadd
              cases h
              exact .put

/-! ## The list of a round -/

/-- The call is one of `UA_EventLoopLWIP_removeDelayedCallback`. -/
def Frame.Removes (fr : Frame) : Prop := ∃ target, fr.job = .remove target

/-- The list `taken` by a call of `processDelayed`, of which the elements `visited` have been visited. All
    other calls remove elements; at the end the call has returned. -/
inductive Round (s : DelayedQueue ι) (f : Fifo) (taken visited : List Addr) : Prop
  | going (above : List Frame) (pc : LoopPc) (bs : List Batch) (rest : List Addr)
      (hframes : s.frames = above ++ [⟨.process, pc⟩]) (habove : ∀ fr ∈ above, fr.Removes)
      (hpc : pc.resetting = false) (hbatches : f.batches = bs ++ [⟨none, rest⟩])
      (htaken : visited ++ rest = taken)
  | returned (hframes : ∀ fr ∈ s.frames, fr.Removes) (htaken : visited = taken)

/-- The list below the list of the latest call. -/
theorem below_top {active : Bool} {seg : Ptr × List Addr} (h : QueueSimAt s f active seg) {fr : Frame}
    {above : List Frame}
    (hframes : s.frames = fr :: above ++ [⟨.process, pc⟩]) (hfr : fr.pc.resetting = false) {bs : List Batch}
    {last : Batch} (hbatches : f.batches = bs ++ [last]) : ∃ b bs', bs = b :: bs' := by
  obtain ⟨b, bs₁, hb, -, hsusp⟩ := h.past hframes hfr
  have hlength := hsusp.length_eq
  rw [hbatches] at hb
  cases bs with
  | nil =>
      cases hb
      simp at hlength
  | cons b' bs' => exact ⟨b', bs', rfl⟩

/-- With one call there is one list. -/
theorem only_top {active : Bool} {seg : Ptr × List Addr} (h : QueueSimAt s f active seg) {fr : Frame}
    (hframes : s.frames = [fr]) (hfr : fr.pc.resetting = false) {bs : List Batch} {last : Batch}
    (hbatches : f.batches = bs ++ [last]) : bs = [] := by
  obtain ⟨b, bs₁, hb, -, hsusp⟩ := h.past hframes hfr
  have hlength := hsusp.length_eq
  have hlength' := congrArg List.length (hb.symm.trans hbatches)
  simp at hlength hlength'
  exact List.length_eq_zero_iff.mp (by omega)

/-- What is accepted changes the latest list, or adds one. -/
theorem accept_batches (h : f.accept seen = some f') :
    f'.batches = f.batches ∨ (∃ b, f'.batches = b :: f.batches ∧ (seen = .nothing ∨ seen = .checkedOut)) ∨
      ∃ b bs, f.batches = b :: bs ∧ (f'.batches = bs ∨ ∃ b', f'.batches = b' :: bs) := by
  have hvisit : ∀ {dc : Addr} {held : Option Addr}, f.visit dc held = some f' →
      ∃ b bs, f.batches = b :: bs ∧ (f'.batches = bs ∨ ∃ b', f'.batches = b' :: bs) := by
    intro dc held hv
    obtain ⟨rest, bs, hb, rfl⟩ := Fifo.visit_iff.mp hv
    exact ⟨_, bs, hb, .inr ⟨_, rfl⟩⟩
  cases seen with
  | quiet =>
      cases h
      exact .inl rfl
  | queued dc =>
      cases h
      exact .inl rfl
  | nothing =>
      cases h
      exact .inr (.inl ⟨_, rfl, .inl rfl⟩)
  | checkedOut =>
      cases h
      exact .inr (.inl ⟨_, rfl, .inr rfl⟩)
  | executed dc _ _ _ => exact .inr (.inr (hvisit h))
  | skipped dc => exact .inr (.inr (hvisit h))
  | removed dc => exact .inr (.inr (hvisit h))
  | picked dc => exact .inr (.inr (hvisit h))
  | requeued dc =>
      obtain ⟨rest, bs, hb, rfl⟩ := Fifo.requeued_iff.mp h
      exact .inr (.inr ⟨_, bs, hb, .inr ⟨_, rfl⟩⟩)
  | finished =>
      obtain ⟨hb, -⟩ := Fifo.finished_iff.mp h
      exact .inr (.inr ⟨_, _, hb, .inl rfl⟩)
  | fault => cases h

/-- The oldest list stays where other calls are on the stack above it. -/
theorem accept_last (h : f.accept seen = some f') {b : Batch} {bs : List Batch} {last : Batch}
    (hbatches : f.batches = b :: bs ++ [last]) : ∃ bs', f'.batches = bs' ++ [last] := by
  rcases accept_batches h with hsame | ⟨b', hpush, -⟩ | ⟨b₀, bs₀, hb, hpop | ⟨b', hchange⟩⟩
  · exact ⟨_, hsame.trans hbatches⟩
  · exact ⟨b' :: b :: bs, by rw [hpush, hbatches]; rfl⟩
  · rw [hbatches] at hb
    cases hb
    exact ⟨bs, hpop⟩
  · rw [hbatches] at hb
    cases hb
    exact ⟨b' :: bs, hchange⟩

/-- A statement of a reset leaves every list as it is. -/
theorem Does.reset_last {pc' : LoopPc} (hdoes : Does job pc (some pc') seen) (hpc : pc.resetting = true)
    (h : f.accept seen = some f') {bs : List Batch} {last : Batch} (hbatches : f.batches = bs ++ [last]) :
    seen.processed = none ∧ ∃ bs', f'.batches = bs' ++ [last] := by
  cases hdoes with
  | reset _ _ =>
      cases h
      exact ⟨rfl, bs, hbatches⟩
  | nothing _ =>
      cases h
      exact ⟨rfl, ⟨none, []⟩ :: bs, by rw [hbatches]; rfl⟩
  | checkedOut _ =>
      cases h
      exact ⟨rfl, ⟨none, f.queue⟩ :: bs, by rw [hbatches]; rfl⟩
  | _ => cases hpc

/-- A removal executes nothing. -/
theorem Does.removes {next : Option LoopPc} (hdoes : Does job pc next seen)
    (h : ∃ target, job = .remove target) :
    seen.processed = none := by
  obtain ⟨target, rfl⟩ := h
  cases hdoes <;> rfl

/-- A silent step of a round. -/
theorem Round.of_quiet {taken visited : List Addr} (h : Round s' f taken visited) (hseen : seen = .quiet)
    (haccept : f.accept seen = some f') : Round s' f' taken (visited ++ seen.processed.toList) := by
  subst hseen
  cases haccept
  simpa [Seen.processed] using h

/-- A statement of the round's own call, the only one on the stack. -/
theorem own_step {pc' : LoopPc} {rest taken visited : List Addr} (hdoes : Does .process pc (some pc') seen)
    (hpc : pc.resetting = false) (hafter : s'.frames = [⟨.process, pc'⟩])
    (hbatches : f.batches = [⟨none, rest⟩])
    (htaken : visited ++ rest = taken) (haccept : f.accept seen = some f') :
    Round s' f' taken (visited ++ seen.processed.toList) := by
  have habove : ∀ fr ∈ ([] : List Frame), fr.Removes := List.forall_mem_nil _
  have hvisit : ∀ {dc : Addr}, f.visit dc none = some f' → pc'.resetting = false →
      Round s' f' taken (visited ++ [dc]) := by
    intro dc hv hpc'
    obtain ⟨rest', bs, hb, rfl⟩ := Fifo.visit_iff.mp hv
    rw [hbatches] at hb
    cases hb
    exact .going [] pc' [] rest' hafter habove hpc' rfl (by simpa using htaken)
  cases hdoes with
  | reset hreset _ => exact absurd hreset (by simp [hpc])
  | nothing hreset => exact absurd hreset (by simp [hpc])
  | checkedOut hreset => exact absurd hreset (by simp [hpc])
  | executed => exact hvisit haccept rfl
  | skipped => exact hvisit haccept rfl
  | requeued =>
      obtain ⟨rest', bs, hb, -⟩ := Fifo.requeued_iff.mp haccept
      rw [hbatches] at hb
      cases hb
  | spin => exact Round.of_quiet (.going [] _ [] rest hafter habove rfl hbatches htaken) rfl haccept
  | clear => exact Round.of_quiet (.going [] _ [] rest hafter habove rfl hbatches htaken) rfl haccept
  | put => exact Round.of_quiet (.going [] _ [] rest hafter habove rfl hbatches htaken) rfl haccept

/-- A statement of a call above the round. -/
theorem above_step {active : Bool} {seg : Ptr × List Addr} (h : QueueSimAt s f active seg) {pc₁ pc' : LoopPc}
    {above : List Frame} {bs : List Batch} {last : Batch} (hdoes : Does job pc₁ (some pc') seen)
    (hjob : Frame.Removes ⟨job, pc₁⟩) (hframes : s.frames = ⟨job, pc₁⟩ :: above ++ [⟨.process, pc⟩])
    (hbatches : f.batches = bs ++ [last]) (haccept : f.accept seen = some f') :
    seen.processed = none ∧ ∃ bs', f'.batches = bs' ++ [last] := by
  cases hreset : pc₁.resetting with
  | true => exact hdoes.reset_last hreset haccept hbatches
  | false =>
      obtain ⟨b, bs', rfl⟩ := below_top h hframes hreset hbatches
      exact ⟨hdoes.removes hjob, accept_last haccept hbatches⟩

/-! ## One round -/

/-- What a step does to the stack of calls. -/
inductive Moves (s s' : DelayedQueue ι) (e : DelayedEvent ι) (seen : Seen) : Prop
  | aside (hframes : s'.frames = s.frames) (hseen : seen = .quiet ∨ ∃ dc, seen = .queued dc)
  | enter (job : Job) (he : e = .enter job) (hframes : s'.frames = ⟨job, .test1⟩ :: s.frames)
      (hseen : seen = .quiet)
  | returns (job : Job) (next tail : Ptr) (frames : List Frame)
      (hframes : s.frames = ⟨job, .calling next tail⟩ :: frames)
      (hframes' : s'.frames = ⟨job, .walk next tail⟩ :: frames) (hseen : seen = .quiet)
  | loop (job : Job) (pc pc' : LoopPc) (frames : List Frame) (hframes : s.frames = ⟨job, pc⟩ :: frames)
      (hframes' : s'.frames = ⟨job, pc'⟩ :: frames) (hdoes : Does job pc (some pc') seen)
  | done (job : Job) (pc : LoopPc) (frames : List Frame) (hframes : s.frames = ⟨job, pc⟩ :: frames)
      (hframes' : s'.frames = frames) (hdoes : Does job pc none seen)

/-- After the return only calls that remove elements take steps. -/
theorem removes_step {e : DelayedEvent ι} (hframes : ∀ fr ∈ s.frames, fr.Removes) (he : e ≠ .enter .process)
    (hmoves : Moves s s' e seen) : (∀ fr ∈ s'.frames, fr.Removes) ∧ seen.processed = none := by
  cases hmoves with
  | aside hframes' hseen =>
      refine ⟨hframes' ▸ hframes, ?_⟩
      rcases hseen with rfl | ⟨dc, rfl⟩ <;> rfl
  | enter job hjob hframes' hseen =>
      rw [hframes', hseen]
      refine ⟨List.forall_mem_cons.mpr ⟨?_, hframes⟩, rfl⟩
      cases job with
      | process => exact absurd hjob he
      | remove target => exact ⟨target, rfl⟩
  | returns job next tail frames hbefore hafter hseen =>
      rw [hbefore] at hframes
      rw [hafter, hseen]
      obtain ⟨hfirst, hrest⟩ := List.forall_mem_cons.mp hframes
      exact ⟨List.forall_mem_cons.mpr ⟨hfirst, hrest⟩, rfl⟩
  | loop job pc pc' frames hbefore hafter hdoes =>
      rw [hbefore] at hframes
      rw [hafter]
      obtain ⟨hfirst, hrest⟩ := List.forall_mem_cons.mp hframes
      exact ⟨List.forall_mem_cons.mpr ⟨hfirst, hrest⟩, hdoes.removes hfirst⟩
  | done job pc frames hbefore hafter hdoes =>
      rw [hbefore] at hframes
      obtain ⟨hfirst, hrest⟩ := List.forall_mem_cons.mp hframes
      exact ⟨hafter ▸ hrest, hdoes.removes hfirst⟩

variable [DecidableEq ι]

/-- **What a step can do**, by the constructors of `Moves`. -/
theorem step_moves {e : DelayedEvent ι} (hstep : s.step e = some (s', seen)) (hfault : seen ≠ .fault) :
    Moves s s' e seen := by
  cases e with
  | add t dc =>
      simp only [DelayedQueue.step] at hstep
      split at hstep
      · cases hstep
      · cases hstep
        exact .aside rfl (.inl rfl)
  | adding t =>
      simp only [DelayedQueue.step] at hstep
      split at hstep
      · cases hstep
      · next pc _ =>
        split at hstep
        · cases hstep
          exact absurd rfl hfault
        · cases hstep
          cases pc with
          | swing dc => exact .aside rfl (.inr ⟨dc, rfl⟩)
          | _ => exact .aside rfl (.inl rfl)
  | enter job =>
      simp only [DelayedQueue.step] at hstep
      split at hstep
      · next hframes =>
        cases hstep
        exact .enter job rfl (by rw [hframes]) rfl
      · next hframes =>
        cases hstep
        exact .enter job rfl (by rw [hframes]) rfl
      · cases hstep
  | loop =>
      simp only [DelayedQueue.step] at hstep
      split at hstep
      · cases hstep
      · cases hstep
      · next job pc frames _ hframes =>
        split at hstep
        · cases hstep
          exact absurd rfl hfault
        · next m add next seen' hjob =>
          cases hstep
          cases next with
          | none => exact .done job pc frames hframes rfl (jobStep_does hjob)
          | some pc' => exact .loop job pc pc' frames hframes rfl (jobStep_does hjob)
  | callbackReturns =>
      simp only [DelayedQueue.step] at hstep
      split at hstep
      · next job next tail frames hframes =>
        cases hstep
        exact .returns job next tail frames hframes rfl rfl
      · cases hstep
  | malloc pick =>
      cases hstep
      exact .aside rfl (.inl rfl)
  | assign dc callback application context =>
      simp only [DelayedQueue.step] at hstep
      split at hstep
      · cases hstep
        exact absurd rfl hfault
      · cases hstep
        exact .aside rfl (.inl rfl)
  | free dc =>
      simp only [DelayedQueue.step] at hstep
      split at hstep
      · cases hstep
        exact absurd rfl hfault
      · cases hstep
        exact .aside rfl (.inl rfl)

/-- **One step of a round.** -/
theorem round_step {e : DelayedEvent ι} {taken visited : List Addr} (h : QueueSim s f)
    (hround : Round s f taken visited) (he : e ≠ .enter .process) (hstep : s.step e = some (s', seen))
    (haccept : f.accept seen = some f') : Round s' f' taken (visited ++ seen.processed.toList) := by
  obtain ⟨active, seg, h⟩ := h
  have hfault : seen ≠ .fault := by
    rintro rfl
    cases haccept
  have hmoves := step_moves hstep hfault
  cases hround with
  | returned hframes htaken =>
      obtain ⟨hframes', hnone⟩ := removes_step hframes he hmoves
      rw [hnone, Option.toList_none, List.append_nil]
      exact .returned hframes' htaken
  | going above pc bs rest hframes habove hpc hbatches htaken =>
      cases hmoves with
      | aside hframes' hseen =>
          have hnone : seen.processed = none ∧ f'.batches = f.batches := by
            rcases hseen with rfl | ⟨dc, rfl⟩ <;> cases haccept <;> exact ⟨rfl, rfl⟩
          rw [hnone.1, Option.toList_none, List.append_nil]
          exact .going above pc bs rest (hframes'.trans hframes) habove hpc (hnone.2.trans hbatches) htaken
      | enter job hjob hframes' hseen =>
          refine Round.of_quiet (.going (⟨job, .test1⟩ :: above) pc bs rest ?_ ?_ hpc hbatches htaken)
            hseen haccept
          · rw [hframes', hframes]
            rfl
          · refine List.forall_mem_cons.mpr ⟨?_, habove⟩
            cases job with
            | process => exact absurd hjob he
            | remove target => exact ⟨target, rfl⟩
      | returns job next tail frames hbefore hafter hseen =>
          refine Round.of_quiet ?_ hseen haccept
          rw [hframes] at hbefore
          cases above with
          | nil =>
              cases hbefore
              exact .going [] _ bs rest hafter habove rfl hbatches htaken
          | cons fr above =>
              cases hbefore
              obtain ⟨hfirst, hrest⟩ := List.forall_mem_cons.mp habove
              exact .going (⟨job, .walk next tail⟩ :: above) pc bs rest hafter
                (List.forall_mem_cons.mpr ⟨hfirst, hrest⟩) hpc hbatches htaken
      | loop job pc₁ pc' frames hbefore hafter hdoes =>
          rw [hframes] at hbefore
          cases above with
          | nil =>
              obtain rfl := only_top h hframes hpc hbatches
              cases hbefore
              exact own_step hdoes hpc hafter hbatches htaken haccept
          | cons fr above =>
              cases hbefore
              obtain ⟨hfirst, hrest⟩ := List.forall_mem_cons.mp habove
              obtain ⟨hnone, bs', hbatches'⟩ := above_step h hdoes hfirst hframes hbatches haccept
              rw [hnone, Option.toList_none, List.append_nil]
              exact .going (⟨job, pc'⟩ :: above) pc bs' rest hafter
                (List.forall_mem_cons.mpr ⟨hfirst, hrest⟩) hpc hbatches' htaken
      | done job pc₁ frames hbefore hafter hdoes =>
          rw [hframes] at hbefore
          cases hdoes
          rw [show Seen.finished.processed = none from rfl, Option.toList_none, List.append_nil]
          cases above with
          | nil =>
              obtain rfl := only_top h hframes hpc hbatches
              cases hbefore
              obtain ⟨hb, -⟩ := Fifo.finished_iff.mp haccept
              rw [hbatches] at hb
              cases (List.cons.inj hb).1
              refine .returned ?_ (by simpa using htaken)
              rw [hafter]
              exact List.forall_mem_nil _
          | cons fr above =>
              cases hbefore
              obtain ⟨b, bs', rfl⟩ := below_top h hframes rfl hbatches
              obtain ⟨bs', hbatches'⟩ := accept_last haccept hbatches
              exact .going above pc bs' rest hafter (List.forall_mem_cons.mp habove).2 hpc hbatches' htaken

/-- **A round.** Whatever else happens until the call returns, it visits the elements it has taken and no
    other one, in order, and none of them twice. -/
theorem round_run {es : List (DelayedEvent ι)} {taken visited : List Addr} {seen : List Seen}
    (h : QueueSim s f) (hround : Round s f taken visited) (he : .enter .process ∉ es)
    (hown : Machine.Along DelayedQueue.step s es fun _ _ s e => Owns s e)
    (hrun : Machine.run DelayedQueue.step s es = some (s', seen)) :
    ∃ f', Round s' f' taken (visited ++ seen.filterMap Seen.processed) := by
  induction es generalizing s f visited seen with
  | nil =>
      cases hrun
      exact ⟨f, by simpa using hround⟩
  | cons e es ih =>
      obtain ⟨m, o, seen', hstep, hrest, rfl⟩ := Machine.run_cons_iff.mp hrun
      obtain ⟨hne, hes⟩ := not_or.mp (mt List.mem_cons.mpr he)
      obtain ⟨f₁, haccept, hsim⟩ := queue_step_sim h (hown [] e es s [] rfl rfl) hstep
      have hround' := round_step h hround (fun heq => hne heq.symm) hstep haccept
      have hown' : Machine.Along DelayedQueue.step m es fun _ _ s e => Owns s e := by
        rw [← List.singleton_append] at hown
        exact hown.of_suffix (Machine.run_cons_iff.mpr ⟨m, o, [], hstep, rfl, rfl⟩)
      obtain ⟨f', hend⟩ := ih hsim hround' hes hown' hrest
      refine ⟨f', ?_⟩
      rw [List.append_assoc] at hend
      cases ho : o.processed with
      | none => simpa [ho] using hend
      | some dc => simpa [ho] using hend

/-! ## The order -/

/-- Only `processDelayed` is called, and not from a callback. -/
def OnlyProcesses (s : DelayedQueue ι) : DelayedEvent ι → Prop
  | .enter job => job = .process ∧ s.frames = []
  | _ => True

instance (s : DelayedQueue ι) (e : DelayedEvent ι) : Decidable (OnlyProcesses s e) := by
  cases e <;> unfold OnlyProcesses <;> infer_instance

/-- There is no call, or one of `processDelayed` alone. -/
def OneProcess (s : DelayedQueue ι) : Prop := s.frames = [] ∨ ∃ pc, s.frames = [⟨.process, pc⟩]

/-- **One step in order.** -/
theorem ordered_step {e : DelayedEvent ι} (h : QueueSim s f) (hone : OneProcess s) (hsingle : f.Single)
    (he : OnlyProcesses s e) (hstep : s.step e = some (s', seen)) (haccept : f.accept seen = some f') :
    OneProcess s' ∧ f'.Single ∧ f.line ++ seen.added.toList = seen.givenBack.toList ++ f'.line := by
  obtain ⟨active, seg, h⟩ := h
  have hfault : seen ≠ .fault := by
    rintro rfl
    cases haccept
  have hquiet : seen = .quiet → f'.Single ∧ f.line ++ seen.added.toList = seen.givenBack.toList ++
    f'.line := by
    rintro rfl
    exact Fifo.accept_line hsingle haccept trivial fun hnew => by rcases hnew with hnew | hnew <;> cases hnew
  have hjob : ∀ {pc : LoopPc} {next : Option LoopPc}, s.frames = [⟨.process, pc⟩] →
    Does .process pc next seen →
      f'.Single ∧ f.line ++ seen.added.toList = seen.givenBack.toList ++ f'.line := by
    intro pc next hframes hdoes
    refine Fifo.accept_line hsingle haccept ?_ ?_
    · cases hdoes with
      | requeued =>
          obtain ⟨rest, bs, hb, -⟩ := Fifo.requeued_iff.mp haccept
          rcases hsingle with hnil | ⟨rest', hone⟩
          · rw [hnil] at hb
            cases hb
          · rw [hone] at hb
            cases hb
      | _ => trivial
    · have hreset : pc.resetting = true → f.batches = [] := by
        intro hpc
        exact List.length_eq_zero_iff.mp (h.resetting hframes hpc).2.length_eq.symm
      intro hnew
      cases hdoes with
      | nothing hpc => exact hreset hpc
      | checkedOut hpc => exact hreset hpc
      | _ => rcases hnew with hnew | hnew <;> cases hnew
  have hmoves := step_moves hstep hfault
  cases hmoves with
  | aside hframes hseen =>
      refine ⟨by unfold OneProcess; rwa [hframes], Fifo.accept_line hsingle haccept ?_ ?_⟩
      · rcases hseen with rfl | ⟨dc, rfl⟩ <;> trivial
      · rcases hseen with rfl | ⟨dc, rfl⟩ <;> simp
  | enter job hjob' hframes hseen =>
      subst hjob'
      obtain ⟨rfl, hnil⟩ := he
      exact ⟨.inr ⟨_, by rw [hframes, hnil]⟩, hquiet hseen⟩
  | returns job next tail frames hframes hframes' hseen =>
      refine ⟨?_, hquiet hseen⟩
      rcases hone with hnil | ⟨pc, hpc⟩
      · rw [hnil] at hframes
        cases hframes
      · rw [hpc] at hframes
        cases hframes
        exact .inr ⟨_, hframes'⟩
  | loop job pc pc' frames hframes hframes' hdoes =>
      rcases hone with hnil | ⟨pc₁, hpc⟩
      · rw [hnil] at hframes
        cases hframes
      · rw [hpc] at hframes
        cases hframes
        exact ⟨.inr ⟨_, hframes'⟩, hjob hpc hdoes⟩
  | done job pc frames hframes hframes' hdoes =>
      rcases hone with hnil | ⟨pc₁, hpc⟩
      · rw [hnil] at hframes
        cases hframes
      · rw [hpc] at hframes
        cases hframes
        exact ⟨.inl hframes', hjob hpc hdoes⟩

/-- **The order over a run.** -/
theorem ordered_run {h : Heap DelayedCallback} {es : List (DelayedEvent ι)} {seen : List Seen}
    (hrun : Machine.run DelayedQueue.step (DelayedQueue.start h) es = some (s, seen))
    (hown : Disciplined h es)
    (honly : Machine.Along DelayedQueue.step (DelayedQueue.start h) es fun _ _ s e => OnlyProcesses s e) :
    ∃ f, Fifo.empty.replay seen = some f ∧ QueueSim s f ∧ OneProcess s ∧ f.Single ∧
      seen.filterMap Seen.added = seen.filterMap Seen.givenBack ++ f.line := by
  induction es using List.reverseRecOn generalizing s seen with
  | nil =>
      cases hrun
      exact ⟨Fifo.empty, rfl, sim_start h, .inl rfl, .inl rfl, rfl⟩
  | append_singleton es e ih =>
      obtain ⟨m, seen', last, hm, hlast, rfl⟩ := Machine.run_snoc_iff.mp hrun
      obtain ⟨f, hf, hsim, hone, hsingle, hline⟩ := ih hm hown.of_prefix honly.of_prefix
      obtain ⟨f', hf', hsim'⟩ := queue_step_sim hsim (hown es e [] m seen' (by simp) hm) hlast
      obtain ⟨hone', hsingle', hline'⟩ :=
        ordered_step hsim hone hsingle (honly es e [] m seen' (by simp) hm) hlast hf'
      refine ⟨f', Fifo.replay_snoc.mpr ⟨f, hf, hf'⟩, hsim', hone', hsingle', ?_⟩
      rw [Fifo.filterMap_snoc, Fifo.filterMap_snoc, hline, List.append_assoc, hline', ← List.append_assoc]

end Open62541
end Esp32Probes
