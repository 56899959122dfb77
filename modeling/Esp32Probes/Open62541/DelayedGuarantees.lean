import Esp32Probes.Open62541.DelayedAlone
import Esp32Probes.Open62541.DelayedRounds

/-!
# Open62541.DelayedGuarantees — what the queue of delayed callbacks guarantees

The results about the queue in memory, with `UA_MULTITHREADING >= 100`, for every run from
`UA_EventLoop_new_LWIP`: every interleaving of any number of adds with the calls that process the queue or
remove a callback, and with callbacks that call them again. `DelayedPlain` says which runs of the firmware's
own build they are about.

- `delayed_callbacks_conserved`: nothing is lost, repeated or used after it was freed.
- `delayed_callbacks_in_order`: the order of execution, when nothing is removed.
- `round_executes_queue`: what one call of `processDelayed` executes, whatever is removed or added meanwhile.
- `process_returns`, `remove_returns`: what a call does when nobody interferes.
- `spins_only_for_late_links`: what the two functions wait for.
- `heads_show_queue`: what the conditions on the two heads mean.
-/

namespace Esp32Probes
namespace Open62541

open CHeap (Addr Heap)
open LateList (Chain final)

variable {ι : Type} {s : DelayedQueue ι} {f : Fifo} {active : Bool} {seg : Ptr × List Addr}

/-! ## What the threads hand over -/

/-- The element that a thread hands over. -/
def DelayedEvent.handed : DelayedEvent ι → Option Addr
  | .add _ dc => some dc
  | _ => none

/-- The element of an add that has not exchanged the tail yet. -/
def AddPc.entering : AddPc → Option Addr
  | .link _ _ => none
  | pc => some pc.dc

/-- The element of a thread whose add has not exchanged the tail yet. -/
def DelayedQueue.entering (s : DelayedQueue ι) (t : ι) : Option Addr := (s.add (some t)).bind AddPc.entering

/-- What was handed over has been queued, up to the adds of the threads `ts`, which have not exchanged the
    tail yet. -/
def HandedOver (s : DelayedQueue ι) (es : List (DelayedEvent ι)) (seen : List Seen) : Prop :=
  ∃ ts : List ι, ts.Nodup ∧ (∀ t, t ∈ ts ↔ (s.entering t).isSome) ∧
    (es.filterMap DelayedEvent.handed).Perm (seen.filterMap Seen.added ++ ts.filterMap s.entering)

/-- A step that neither hands over nor queues an element. -/
theorem HandedOver.aside {s' : DelayedQueue ι} {es : List (DelayedEvent ι)} {seen : List Seen}
    {e : DelayedEvent ι} {o : Seen} (h : HandedOver s es seen) (hentering : s'.entering = s.entering)
    (he : e.handed = none) (ho : o.added = none) : HandedOver s' (es ++ [e]) (seen ++ [o]) := by
  obtain ⟨ts, hnodup, hts, hperm⟩ := h
  refine ⟨ts, hnodup, ?_, ?_⟩
  · rwa [hentering]
  · rw [hentering]
    simpa [he, ho] using hperm

/-- No statement of a job queues an element for a thread. -/
theorem Does.added {job : Job} {pc : LoopPc} {next : Option LoopPc} {o : Seen} (h : Does job pc next o) :
    o.added = none := by
  cases h <;> rfl

/-- The adds of the threads determine which elements are entering. -/
theorem entering_congr {s' : DelayedQueue ι} (h : ∀ t, s'.add (some t) = s.add (some t)) :
    s'.entering = s.entering := by
  funext t
  rw [DelayedQueue.entering, DelayedQueue.entering, h t]

section Handing

variable [DecidableEq ι]

/-- A statement of one add changes only whether its own element is entering. -/
theorem entering_update {s' : DelayedQueue ι} {t : ι} {add : Option AddPc}
    (h : s'.add = Function.update s.add (some t) add) :
    s'.entering = Function.update s.entering t (add.bind AddPc.entering) := by
  funext t'
  by_cases ht : t' = t
  · subst ht
    rw [DelayedQueue.entering, h, Function.update_self, Function.update_self]
  · rw [DelayedQueue.entering, h, Function.update_of_ne (by simpa using ht), Function.update_of_ne ht]
    rfl

/-- An add begins. -/
theorem HandedOver.begins {s' : DelayedQueue ι} {es : List (DelayedEvent ι)} {seen : List Seen} {t : ι}
    {dc : Addr} (h : HandedOver s es seen) (hidle : s.entering t = none)
    (hadd : s'.add = Function.update s.add (some t) (some (.clear dc))) :
    HandedOver s' (es ++ [.add t dc]) (seen ++ [.quiet]) := by
  have hentering : s'.entering = Function.update s.entering t (some dc) := entering_update hadd
  obtain ⟨ts, hnodup, hts, hperm⟩ := h
  have ht : t ∉ ts := by
    rw [hts, hidle]
    exact Bool.false_ne_true
  have hothers : ts.filterMap s'.entering = ts.filterMap s.entering := by
    refine List.filterMap_congr fun a ha => ?_
    rw [hentering, Function.update_of_ne (ne_of_mem_of_not_mem ha ht)]
  refine ⟨t :: ts, List.nodup_cons.mpr ⟨ht, hnodup⟩, fun a => ?_, ?_⟩
  · by_cases ha : a = t
    · subst ha
      simp [hentering]
    · rw [hentering, Function.update_of_ne ha, ← hts]
      simp [ha]
  · have hself : s'.entering t = some dc := by rw [hentering, Function.update_self]
    rw [List.filterMap_append, List.filterMap_append, List.filterMap_cons_some hself, hothers]
    have hnew : [DelayedEvent.add t dc].filterMap DelayedEvent.handed = [dc] := rfl
    have hquiet : [Seen.quiet].filterMap Seen.added = [] := rfl
    rw [hnew, hquiet, List.append_nil]
    exact (hperm.append_right [dc]).trans (List.perm_append_singleton dc _ |>.trans List.perm_middle.symm)

/-- An add exchanges the tail. -/
theorem HandedOver.queues {s' : DelayedQueue ι} {es : List (DelayedEvent ι)} {seen : List Seen} {t : ι}
    {dc : Addr} {oldtail : Ptr} (h : HandedOver s es seen) (hwas : s.entering t = some dc)
    (hadd : s'.add = Function.update s.add (some t) (some (.link dc oldtail))) :
    HandedOver s' (es ++ [.adding t]) (seen ++ [.queued dc]) := by
  have hentering : s'.entering = Function.update s.entering t none := entering_update hadd
  obtain ⟨ts, hnodup, hts, hperm⟩ := h
  have ht : t ∈ ts := by
    rw [hts, hwas]
    rfl
  obtain ⟨before, after, rfl⟩ := List.append_of_mem ht
  have hmiddle := (List.nodup_middle.mp hnodup)
  have hrest : t ∉ before ++ after := (List.nodup_cons.mp hmiddle).1
  have hothers : (before ++ after).filterMap s'.entering = (before ++ after).filterMap s.entering := by
    refine List.filterMap_congr fun a ha => ?_
    rw [hentering, Function.update_of_ne (ne_of_mem_of_not_mem ha hrest)]
  refine ⟨before ++ after, (List.nodup_cons.mp hmiddle).2, fun a => ?_, ?_⟩
  · by_cases ha : a = t
    · subst ha
      simp only [hentering, Function.update_self, Option.isSome_none, Bool.false_eq_true, iff_false]
      exact hrest
    · rw [hentering, Function.update_of_ne ha, ← hts]
      simp [ha]
  · have hlist : ((before ++ t :: after).filterMap s.entering).Perm
        (dc :: (before ++ after).filterMap s.entering) := by
      rw [← List.filterMap_cons_some hwas]
      exact List.perm_middle.filterMap _
    rw [List.filterMap_append, List.filterMap_append, hothers]
    have hnone : [DelayedEvent.adding t].filterMap DelayedEvent.handed = [] := rfl
    have hnew : [Seen.queued dc].filterMap Seen.added = [dc] := rfl
    rw [hnone, hnew, List.append_nil, List.append_assoc]
    exact hperm.trans (hlist.append_left _)

/-- **One step of what is handed over.** -/
theorem handedOver_step {s' : DelayedQueue ι} {es : List (DelayedEvent ι)} {seen : List Seen}
    {e : DelayedEvent ι} {o : Seen} (h : HandedOver s es seen) (hstep : s.step e = some (s', o)) :
    HandedOver s' (es ++ [e]) (seen ++ [o]) := by
  cases e with
  | add t dc =>
      simp only [DelayedQueue.step] at hstep
      split at hstep
      · cases hstep
      · next hidle =>
        cases hstep
        refine h.begins ?_ rfl
        rw [DelayedQueue.entering, hidle]
        rfl
  | adding t =>
      simp only [DelayedQueue.step] at hstep
      split at hstep
      · cases hstep
      · next pc hadd =>
        split at hstep
        · cases hstep
          exact h.aside rfl rfl rfl
        · next m add hpc =>
          cases hstep
          cases pc with
          | clear dc =>
              obtain ⟨m₁, -, hpc⟩ := Option.bind_eq_some_iff.mp hpc
              cases hpc
              -- the element of the thread stays the same
              refine h.aside ((entering_update rfl).trans (Function.update_eq_self_iff.mpr ?_)) rfl rfl
              rw [DelayedQueue.entering, hadd]
              rfl
          | swing dc =>
              cases hpc
              refine h.queues ?_ rfl
              rw [DelayedQueue.entering, hadd]
              rfl
          | link dc oldtail =>
              obtain ⟨m₁, -, hpc⟩ := Option.bind_eq_some_iff.mp hpc
              cases hpc
              refine h.aside ((entering_update rfl).trans (Function.update_eq_self_iff.mpr ?_)) rfl rfl
              rw [DelayedQueue.entering, hadd]
              rfl
  | enter job =>
      simp only [DelayedQueue.step] at hstep
      split at hstep <;> cases hstep <;> exact h.aside rfl rfl rfl
  | loop =>
      simp only [DelayedQueue.step] at hstep
      split at hstep
      · cases hstep
      · cases hstep
      · split at hstep
        · cases hstep
          exact h.aside rfl rfl rfl
        · next m add next o' hjob =>
          cases hstep
          refine h.aside (entering_congr fun t => ?_) rfl (jobStep_does hjob).added
          exact Function.update_of_ne (Option.some_ne_none t) add s.add
  | callbackReturns =>
      simp only [DelayedQueue.step] at hstep
      split at hstep
      · cases hstep
        exact h.aside rfl rfl rfl
      · cases hstep
  | malloc pick =>
      cases hstep
      exact h.aside rfl rfl rfl
  | assign dc callback application context =>
      simp only [DelayedQueue.step] at hstep
      split at hstep <;> cases hstep <;> exact h.aside rfl rfl rfl
  | free dc =>
      simp only [DelayedQueue.step] at hstep
      split at hstep <;> cases hstep <;> exact h.aside rfl rfl rfl

/-- **What is handed over in a run.** -/
theorem handedOver_run {h : Heap DelayedCallback} {es : List (DelayedEvent ι)} {seen : List Seen}
    (hrun : Machine.run DelayedQueue.step (DelayedQueue.start h) es = some (s, seen)) :
    HandedOver s es seen := by
  refine Machine.run_invariant (I := fun es seen s => HandedOver s es seen) ?_ ?_ hrun
  · exact ⟨[], List.nodup_nil, fun t => by simp [DelayedQueue.entering, DelayedQueue.start], List.Perm.refl _⟩
  · intro pre os m e m' o hI hstep
    exact handedOver_step hI hstep

end Handing

/-- With no add in progress everything has been queued. -/
theorem HandedOver.all {es : List (DelayedEvent ι)} {seen : List Seen} (h : HandedOver s es seen)
    (hidle : Undisturbed s) : (es.filterMap DelayedEvent.handed).Perm (seen.filterMap Seen.added) := by
  obtain ⟨ts, -, hts, hperm⟩ := h
  have hnil : ts = [] := by
    refine List.eq_nil_iff_forall_not_mem.mpr fun t ht => ?_
    have hsome := (hts t).mp ht
    simp [DelayedQueue.entering, hidle (some t)] at hsome
  simpa [hnil] using hperm

/-! ## The list in memory -/

/-- The elements from the pointer at `p` to the tail. -/
def LinkedFrom (m : DelayedMem) : Ptr → List Addr → Prop
  | p, [] => m.load p = some .null ∧ m.delayedTail = p
  | p, a :: as => m.load p = some (.element a) ∧ LinkedFrom m (.element a) as

/-- The queue in memory when no link is late. -/
def QueueInMemory (m : DelayedMem) (queue : List Addr) : Prop :=
  ∃ active, LinkedFrom m (headPtr active) queue ∧ m.load (headPtr !active) = some .sentinel

/-- A late list without late links is a linked list. -/
theorem linkedFrom_of_chain {m : DelayedMem} {late : Addr → Ptr → Prop} {p : Ptr} {as : List Addr}
    (h : Chain delayedLayout m.load late p as) (hlate : ∀ a q, ¬late a q)
    (htail : m.delayedTail = final delayedLayout p as) : LinkedFrom m p as := by
  induction as generalizing p with
  | nil => exact ⟨h, htail⟩
  | cons a as ih =>
      rcases h.1 with ⟨hlink, -⟩ | ⟨-, hhere⟩
      · exact ⟨hlink, ih h.2 htail⟩
      · exact absurd ((hhere p).mpr rfl) (hlate a p)

theorem BetweenCalls.atRest (h : BetweenCalls s) (hsim : QueueSimAt s f active seg) :
    AtRest s.mem.load f.queue active seg := by
  rcases h with hnil | ⟨job, next, tail, frames, hcall⟩
  · have hphase := hsim.phase
    unfold DelayedQueue.pc at hphase
    rwa [hnil] at hphase
  · exact hsim.phase_at hcall

/-- Between two calls, and with no add in progress, the queue is in memory. -/
theorem BetweenCalls.in_memory (h : BetweenCalls s) (hidle : Undisturbed s) (hsim : QueueSim s f) :
    QueueInMemory s.mem f.queue := by
  obtain ⟨active, seg, hat⟩ := hsim
  obtain ⟨hseg, hmark⟩ := h.atRest hat
  have hchain := hat.core.family.chain _ List.mem_cons_self
  have htail := hat.core.tail
  rw [hseg] at hchain htail
  exact ⟨active, linkedFrom_of_chain hchain hidle.not_late htail, hmark⟩

/-! ## What waits -/

/-- A call that waits for a callback holds no element. -/
theorem Suspended.held_nil {frames : List Frame} {bs : List Batch} (h : Suspended frames bs) :
    bs.filterMap Batch.held = [] := by
  induction h with
  | nil => rfl
  | cons hfr _ ih =>
      obtain ⟨next, tail, -, hb, -⟩ := hfr
      rw [List.filterMap_cons_none hb, ih]

/-- An element that is held is about to be put back. -/
theorem held_adding (h : QueueSimAt s f active seg) {dc : Addr} (hdc : dc ∈ f.held) :
    ∃ pc, s.add none = some pc ∧ pc.dc = dc := by
  unfold Fifo.held at hdc
  cases hframes : s.frames with
  | nil =>
      have hstack := h.stack_at hframes
      rw [hstack.2] at hdc
      cases hdc
  | cons fr frames =>
      cases hreset : fr.pc.resetting with
      | true =>
          rw [(h.resetting hframes hreset).2.held_nil] at hdc
          cases hdc
      | false =>
          obtain ⟨b, bs, hb, hfr, hsusp⟩ := h.past hframes hreset
          -- only the latest call holds an element
          have hheld : b.held = some dc := by
            rw [hb, List.filterMap_cons, hsusp.held_nil] at hdc
            cases hbh : b.held with
            | none => simp [hbh] at hdc
            | some a =>
                rw [hbh] at hdc
                rw [List.mem_singleton.mp hdc]
          cases hpc : fr.pc with
          | walk cur tail =>
              rw [hpc] at hfr
              exact absurd (hfr.2.1.symm.trans hheld) (by simp)
          | calling next tail =>
              rw [hpc] at hfr
              exact absurd (hfr.2.1.symm.trans hheld) (by simp)
          | readd next tail =>
              rw [hpc] at hfr
              obtain ⟨⟨pc, hadd, hbh⟩, -⟩ := hfr
              refine ⟨pc, hadd, ?_⟩
              rw [hheld] at hbh
              split_ifs at hbh
              exact (Option.some.inj hbh).symm
          | _ =>
              rw [hpc] at hfr
              exact hfr.elim

/-- An element that waits or is held is allocated. -/
theorem waiting_live (h : QueueSim s f) {dc : Addr} (hdc : dc ∈ f.waiting ++ f.held) :
    dc ∈ s.mem.heap.live := by
  obtain ⟨active, seg, h⟩ := h
  refine h.core.live dc ((h.core.ledger dc).mpr ?_)
  rcases List.mem_append.mp hdc with hwait | hheld
  · refine .inl ?_
    rwa [Fifo.rests, ← List.flatMap_def]
  · obtain ⟨pc, hadd, hpc⟩ := held_adding h hheld
    exact .inr ⟨none, pc, hadd, hpc⟩

/-- What the queue without memory accepts is not a fault. -/
theorem replay_fault {seen : List Seen} {f f' : Fifo} (h : f.replay seen = some f') : Seen.fault ∉ seen := by
  induction seen generalizing f with
  | nil => simp
  | cons o seen ih =>
      obtain ⟨m, haccept, hrest⟩ := Option.bind_eq_some_iff.mp h
      rintro (_ | ⟨_, hmem⟩)
      · cases haccept
      · exact ih hrest hmem

variable [DecidableEq ι]

/-- A round that has taken the queue has taken nothing before. -/
theorem round_taken {s' : DelayedQueue ι} {pc : LoopPc} (h : QueueSim s f)
    (hframes : s.frames = [⟨.process, pc⟩]) (htake : s.step .loop = some (s', .checkedOut)) :
    f.batches = [] ∧ Round s' ⟨[], [⟨none, f.queue⟩]⟩ f.queue [] := by
  obtain ⟨active, seg, h⟩ := h
  have hmoves := step_moves htake (by simp)
  cases hmoves with
  | aside _ hseen => rcases hseen with hseen | ⟨dc, hseen⟩ <;> cases hseen
  | enter _ _ _ hseen => cases hseen
  | returns _ _ _ _ _ _ hseen => cases hseen
  | done _ _ _ _ _ hdoes => cases hdoes
  | loop job pc₁ pc' frames hframes₁ hframes' hdoes =>
      rw [hframes] at hframes₁
      cases hframes₁
      cases hdoes with
      | checkedOut hpc =>
          have hnil : f.batches = [] := List.length_eq_zero_iff.mp (h.resetting hframes hpc).2.length_eq.symm
          exact ⟨hnil, .going [] _ [] f.queue hframes' (List.forall_mem_nil _) rfl rfl rfl⟩

/-! ## The guarantees -/

/-- **Nothing is lost and nothing is repeated.** In every interleaving, what the threads hand over is queued
    by the exchange of the tail; what has been queued has been given back once or still waits, and what
    waits is allocated. When no add is in progress the queue is in memory, from the active head to the
    tail. -/
theorem delayed_callbacks_conserved {h : Heap DelayedCallback} {es : List (DelayedEvent ι)} {seen : List Seen}
    (hrun : Machine.run DelayedQueue.step (DelayedQueue.start h) es = some (s, seen))
    (hown : Disciplined h es) :
    Seen.fault ∉ seen ∧ HandedOver s es seen ∧ ∃ f, Fifo.empty.replay seen = some f ∧
      (seen.filterMap Seen.added).Perm (f.waiting ++ f.held ++ seen.filterMap Seen.givenBack) ∧
      (∀ dc ∈ f.waiting ++ f.held, dc ∈ s.mem.heap.live) ∧
      (BetweenCalls s → Undisturbed s → QueueInMemory s.mem f.queue) := by
  obtain ⟨f, hf, hsim⟩ := queue_run_sim hrun hown
  refine ⟨replay_fault hf, handedOver_run hrun, f, hf, Fifo.conserved hf, fun dc hdc =>
    waiting_live hsim hdc, ?_⟩
  intro hbetween hidle
  exact hbetween.in_memory hidle hsim

/-- Two elements with callbacks. -/
def twoElements : Heap DelayedCallback := ⟨{1, 2}, fun dc => ⟨.null, some dc, 0, 0⟩⟩

/-- Two threads exchange the tail and write their links in the opposite order. -/
def crossedAdds : List (DelayedEvent Bool) :=
  [.add true 1, .add false 2, .adding true, .adding false, .adding true, .adding false, .adding false,
    .adding true]

theorem undisturbed_of_bool {s : DelayedQueue Bool} (hjob : s.add none = none)
    (htrue : s.add (some true) = none) (hfalse : s.add (some false) = none) : Undisturbed s := by
  rintro (_ | _ | _)
  · exact hjob
  · exact hfalse
  · exact htrue

theorem delayed_callbacks_conserved_crossed : ∃ s seen,
    Machine.run DelayedQueue.step (DelayedQueue.start twoElements) crossedAdds = some (s, seen) ∧
    Seen.fault ∉ seen ∧ HandedOver s crossedAdds seen ∧ ∃ f, Fifo.empty.replay seen = some f ∧
      (seen.filterMap Seen.added).Perm (f.waiting ++ f.held ++ seen.filterMap Seen.givenBack) ∧
      (∀ dc ∈ f.waiting ++ f.held, dc ∈ s.mem.heap.live) ∧
      (BetweenCalls s → Undisturbed s → QueueInMemory s.mem f.queue) := by
  obtain ⟨s, seen, hrun, -⟩ :=
    Machine.run_of_check DelayedQueue.step (DelayedQueue.start twoElements) crossedAdds
    (p := fun _ => True) (by decide +kernel)
  exact ⟨s, seen, hrun, delayed_callbacks_conserved hrun (Machine.along_of_check (by decide +kernel))⟩

/-- **The order of execution.** When nothing is removed, what the threads hand over is given back in the
    order in which it was queued; what has not been given back yet is the rest, the oldest first. -/
theorem delayed_callbacks_in_order {h : Heap DelayedCallback} {es : List (DelayedEvent ι)} {seen : List Seen}
    (hrun : Machine.run DelayedQueue.step (DelayedQueue.start h) es = some (s, seen))
    (hown : Disciplined h es)
    (honly : Machine.Along DelayedQueue.step (DelayedQueue.start h) es fun _ _ s e => OnlyProcesses s e) :
    HandedOver s es seen ∧ ∃ rest, seen.filterMap Seen.added = seen.filterMap Seen.givenBack ++ rest ∧
      (s.frames = [] → Undisturbed s → QueueInMemory s.mem rest) := by
  obtain ⟨f, hf, hsim, -, hsingle, hline⟩ := ordered_run hrun hown honly
  refine ⟨handedOver_run hrun, f.line, hline, fun hnil hidle => ?_⟩
  have hmem := BetweenCalls.in_memory (.inl hnil) hidle hsim
  obtain ⟨active, seg, hat⟩ := hsim
  have hstack := hat.stack_at hnil
  rwa [hsingle.line_eq, hstack.2]

theorem delayed_callbacks_in_order_crossed : ∃ s seen rest,
    Machine.run DelayedQueue.step (DelayedQueue.start twoElements) crossedAdds = some (s, seen) ∧
    HandedOver s crossedAdds seen ∧ seen.filterMap Seen.added = seen.filterMap Seen.givenBack ++ rest ∧
      (s.frames = [] → Undisturbed s → QueueInMemory s.mem rest) := by
  obtain ⟨s, seen, hrun, -⟩ :=
    Machine.run_of_check DelayedQueue.step (DelayedQueue.start twoElements) crossedAdds
    (p := fun _ => True) (by decide +kernel)
  obtain ⟨hhanded, rest, hrest⟩ :=
    delayed_callbacks_in_order hrun (Machine.along_of_check (by decide +kernel))
    (Machine.along_of_check (by decide +kernel))
  exact ⟨s, seen, rest, hrun, hhanded, hrest⟩

/-- **One round.** A call of `processDelayed` that is not made from a callback visits the elements that were
    queued when it took the queue, in order and each of them once, and has visited them all when it returns,
    whatever is added or removed in the meantime. -/
theorem round_executes_queue {h : Heap DelayedCallback} {pre mid : List (DelayedEvent ι)}
    {s₀ s₁ s₂ : DelayedQueue ι} {seen₀ seen : List Seen} {pc : LoopPc}
    (hpre : Machine.run DelayedQueue.step (DelayedQueue.start h) pre = some (s₀, seen₀))
    (hframes : s₀.frames = [⟨.process, pc⟩]) (htake : s₀.step .loop = some (s₁, .checkedOut))
    (hmid : Machine.run DelayedQueue.step s₁ mid = some (s₂, seen))
    (hown : Disciplined h (pre ++ .loop :: mid)) (honce : .enter .process ∉ mid) :
    HandedOver s₀ pre seen₀ ∧ ∃ f, Fifo.empty.replay seen₀ = some f ∧
      (seen₀.filterMap Seen.added).Perm (f.queue ++ seen₀.filterMap Seen.givenBack) ∧
      seen.filterMap Seen.processed <+: f.queue ∧
      (s₂.frames = [] → seen.filterMap Seen.processed = f.queue) := by
  obtain ⟨f, hf, hsim⟩ := queue_run_sim hpre hown.of_prefix
  obtain ⟨hbatches, hround⟩ := round_taken hsim hframes htake
  have haccount := Fifo.conserved hf
  simp only [Fifo.waiting, Fifo.held, hbatches, List.flatMap_nil, List.filterMap_nil,
    List.append_nil] at haccount
  obtain ⟨f₁, haccept, hsim₁⟩ := queue_step_sim (e := .loop) hsim trivial htake
  cases haccept
  rw [hbatches] at hsim₁
  have hown₁ : Machine.Along DelayedQueue.step s₁ mid fun _ _ s e => Owns s e := by
    rw [← List.singleton_append, ← List.append_assoc] at hown
    exact hown.of_suffix (Machine.run_snoc_iff.mpr ⟨s₀, seen₀, _, hpre, htake, rfl⟩)
  obtain ⟨f₂, hend⟩ := round_run hsim₁ hround honce hown₁ hmid
  refine ⟨handedOver_run hpre, f, hf, haccount, ?_⟩
  rw [List.nil_append] at hend
  cases hend with
  | returned _ htaken => exact ⟨⟨[], by rw [List.append_nil, htaken]⟩, fun _ => htaken⟩
  | going above pc' bs rest hframes₂ _ _ _ htaken =>
      refine ⟨⟨rest, htaken⟩, fun hnil => ?_⟩
      rw [hnil] at hframes₂
      simp at hframes₂

/-- A round with both elements up to the exchange of the tail. -/
def roundBegins : List (DelayedEvent Bool) := crossedAdds ++ .enter .process :: List.replicate 4 .loop

/-- The rest of the round, in which the callback of the first element removes the second one. -/
def roundEnds : List (DelayedEvent Bool) :=
  [.loop, .enter (.remove 2), .loop, .loop, .loop, .callbackReturns, .loop, .callbackReturns, .loop]

theorem round_executes_queue_removed : ∃ s₀ seen₀ pc s₁ s₂ seen f,
    Machine.run DelayedQueue.step (DelayedQueue.start twoElements) roundBegins = some (s₀, seen₀) ∧
    s₀.frames = [⟨.process, pc⟩] ∧ s₀.step .loop = some (s₁, .checkedOut) ∧
    Machine.run DelayedQueue.step s₁ roundEnds = some (s₂, seen) ∧ s₂.frames = [] ∧
    HandedOver s₀ roundBegins seen₀ ∧ Fifo.empty.replay seen₀ = some f ∧
    (seen₀.filterMap Seen.added).Perm (f.queue ++ seen₀.filterMap Seen.givenBack) ∧
    seen.filterMap Seen.processed = f.queue ∧ f.queue = [1, 2] := by
  obtain ⟨s₀, seen₀, hpre, hframes, hrest⟩ :=
    Machine.run_of_check DelayedQueue.step (DelayedQueue.start twoElements) roundBegins
      (p := fun s => s.frames = [⟨.process, .retail true (.element 1)⟩] ∧ ((s.step .loop).any fun r =>
        decide (r.2 = .checkedOut) && (Machine.run DelayedQueue.step r.1 roundEnds).any fun r =>
          decide (r.1.frames = [] ∧ r.2.filterMap Seen.processed = [1, 2])) = true) (by decide +kernel)
  obtain ⟨⟨s₁, o⟩, htake, hrest⟩ := (Option.any_eq_true _ _).mp hrest
  obtain ⟨ho, hrest⟩ := Bool.and_eq_true_iff.mp hrest
  obtain ⟨⟨s₂, seen⟩, hmid, hend⟩ := (Option.any_eq_true _ _).mp hrest
  obtain ⟨hnil, hboth⟩ := of_decide_eq_true hend
  obtain rfl : o = .checkedOut := of_decide_eq_true ho
  obtain ⟨hhanded, f, hf, haccount, -, hall⟩ :=
    round_executes_queue hpre hframes htake hmid (Machine.along_of_check (by decide +kernel)) (by decide)
  exact ⟨s₀, seen₀, _, s₁, s₂, seen, f, hpre, hframes, htake, hmid, hnil, hhanded, hf, haccount, hall hnil,
    (hall hnil).symm.trans hboth⟩

/-- **Processing without interference.** Between two calls, or in a callback, and with no add in progress, a
    call of `processDelayed` returns. It has executed the callback of every element of the queue, in order,
    with the application and the context of the element, and skipped those without a callback; the queue is
    empty. -/
theorem process_returns {h : Heap DelayedCallback} {es : List (DelayedEvent ι)} {seen : List Seen}
    (hrun : Machine.run DelayedQueue.step (DelayedQueue.start h) es = some (s, seen))
    (hown : Disciplined h es) (hbetween : BetweenCalls s) (hidle : Undisturbed s) :
    ∃ queue, QueueInMemory s.mem queue ∧ ∃ m s' es' seen' first,
      s.step (.enter .process) = some (m, .quiet) ∧ (∀ e ∈ es', e = .loop ∨ e = .callbackReturns) ∧
      Machine.run DelayedQueue.step m es' = some (s', seen') ∧ (first = .nothing ∨ first = .checkedOut) ∧
      loud seen' = first :: queue.flatMap (Job.process.trace s.mem) ++ [.finished] ∧
      QueueInMemory s'.mem [] ∧ s'.frames = s.frames ∧ SameElements s.mem s'.mem := by
  obtain ⟨f, hf, hsim⟩ := queue_run_sim hrun hown
  obtain ⟨m, s', seen', first, hstep, ⟨⟨es', hes', hrun'⟩, -, hsim'⟩, hloud, hfirst, hidle', hsame,
    hframes⟩ := job_alone hsim hidle hbetween .process
  refine ⟨f.queue, hbetween.in_memory hidle hsim, m, s', es', seen', first, hstep, hes', hrun', hfirst,
    hloud, ?_, hframes, hsame⟩
  have hbetween' := hbetween.of_frames hframes
  have hempty : f.queue.filter Job.process.keeps = [] :=
    List.filter_eq_nil_iff.mpr fun _ _ => Bool.false_ne_true
  have hmem := hbetween'.in_memory hidle' hsim'
  rwa [hempty] at hmem

theorem process_returns_crossed : ∃ s seen queue m s' es' seen' first,
    Machine.run DelayedQueue.step (DelayedQueue.start twoElements) crossedAdds = some (s, seen) ∧
    QueueInMemory s.mem queue ∧ s.step (.enter .process) = some (m, .quiet) ∧
      (∀ e ∈ es', e = .loop ∨ e = .callbackReturns) ∧ Machine.run DelayedQueue.step m es' = some (s', seen') ∧
      (first = .nothing ∨ first = .checkedOut) ∧
      loud seen' = first :: queue.flatMap (Job.process.trace s.mem) ++ [.finished] ∧
      QueueInMemory s'.mem [] ∧ s'.frames = s.frames ∧ SameElements s.mem s'.mem := by
  obtain ⟨s, seen, hrun, hnil, hjob, htrue, hfalse⟩ :=
    Machine.run_of_check DelayedQueue.step (DelayedQueue.start twoElements) crossedAdds
      (p := fun s => s.frames = [] ∧ s.add none = none ∧ s.add (some true) = none ∧ s.add (some false) = none)
      (by decide +kernel)
  have hidle := undisturbed_of_bool hjob htrue hfalse
  obtain ⟨queue, hqueue, m, s', es', seen', first, hrest⟩ :=
    process_returns hrun (Machine.along_of_check (by decide +kernel)) (.inl hnil) hidle
  exact ⟨s, seen, queue, m, s', es', seen', first, hrun, hqueue, hrest⟩

/-- **Removing without interference.** Between two calls, or in a callback, and with no add in progress,
    what the threads have handed over is queued, taken or given back, and a call of
    `UA_EventLoopLWIP_removeDelayedCallback` returns. The queue is what it was without the element, in the
    same order. The lists that calls of `processDelayed` have taken stay as they are: an element of them is
    still executed. -/
theorem remove_returns {h : Heap DelayedCallback} {es : List (DelayedEvent ι)} {seen : List Seen} (dc : Addr)
    (hrun : Machine.run DelayedQueue.step (DelayedQueue.start h) es = some (s, seen))
    (hown : Disciplined h es) (hbetween : BetweenCalls s) (hidle : Undisturbed s) :
    ∃ f m s' es' seen', Fifo.empty.replay seen = some f ∧
      (es.filterMap DelayedEvent.handed).Perm (f.waiting ++ f.held ++ seen.filterMap Seen.givenBack) ∧
      QueueInMemory s.mem f.queue ∧ s.step (.enter (.remove dc)) = some (m, .quiet) ∧
      (∀ e ∈ es', e = .loop ∨ e = .callbackReturns) ∧ Machine.run DelayedQueue.step m es' = some (s', seen') ∧
      QueueInMemory s'.mem (f.queue.filter fun a => decide (a ≠ dc)) ∧
      f.replay seen' = some ⟨f.queue.filter fun a => decide (a ≠ dc), f.batches⟩ ∧
      s'.frames = s.frames ∧ SameElements s.mem s'.mem := by
  obtain ⟨f, hf, hsim⟩ := queue_run_sim hrun hown
  obtain ⟨m, s', seen', first, hstep, ⟨⟨es', hes', hrun'⟩, hreplay, hsim'⟩, -, -, hidle', hsame, hframes⟩ :=
    job_alone hsim hidle hbetween (.remove dc)
  have hbetween' := hbetween.of_frames hframes
  have hhanded := ((handedOver_run hrun).all hidle).trans (Fifo.conserved hf)
  exact ⟨f, m, s', es', seen', hf, hhanded, hbetween.in_memory hidle hsim, hstep, hes', hrun',
    hbetween'.in_memory hidle' hsim', hreplay, hframes, hsame⟩

/-- The callback of the first element has added it again. -/
def addedAgain : List (DelayedEvent Bool) :=
  roundBegins ++ [.loop, .loop, .add true 1, .adding true, .adding true, .adding true]

theorem remove_returns_added : ∃ s seen f m s' es' seen',
    Machine.run DelayedQueue.step (DelayedQueue.start twoElements) addedAgain = some (s, seen) ∧
    Fifo.empty.replay seen = some f ∧
      (addedAgain.filterMap DelayedEvent.handed).Perm (f.waiting ++ f.held ++ seen.filterMap Seen.givenBack) ∧
      QueueInMemory s.mem f.queue ∧ s.step (.enter (.remove 1)) = some (m, .quiet) ∧
      (∀ e ∈ es', e = .loop ∨ e = .callbackReturns) ∧ Machine.run DelayedQueue.step m es' = some (s', seen') ∧
      QueueInMemory s'.mem (f.queue.filter fun a => decide (a ≠ 1)) ∧
      f.replay seen' = some ⟨f.queue.filter fun a => decide (a ≠ 1), f.batches⟩ ∧
      s'.frames = s.frames ∧ SameElements s.mem s'.mem := by
  obtain ⟨s, seen, hrun, hcall, hjob, htrue, hfalse⟩ :=
    Machine.run_of_check DelayedQueue.step (DelayedQueue.start twoElements) addedAgain
      (p := fun s => s.frames = [⟨.process, .calling (.element 2) (.element 2)⟩] ∧ s.add none = none ∧
        s.add (some true) = none ∧ s.add (some false) = none) (by decide +kernel)
  have hidle := undisturbed_of_bool hjob htrue hfalse
  obtain ⟨f, m, s', es', seen', hrest⟩ :=
    remove_returns 1 hrun (Machine.along_of_check (by decide +kernel)) (.inr ⟨_, _, _, _, hcall⟩) hidle
  exact ⟨s, seen, f, m, s', es', seen', hrun, hrest⟩

/-- An element whose visit leads on to the next one has been given back. -/
theorem visit_givenBack {m : DelayedMem} {job : Job} {a : Addr} {next tail cur' tail' : Ptr}
    {add : Option AddPc}
    {o : Seen} (h : visitElement m job (.element a) next tail = some (add, .walk cur' tail', o)) :
    o.givenBack = some a := by
  cases job with
  | process =>
      simp only [visitElement, Option.bind_eq_bind, Option.bind_eq_some_iff] at h
      obtain ⟨e, -, h⟩ := h
      split at h <;> cases h
      rfl
  | remove target =>
      simp only [visitElement] at h
      split_ifs at h <;> cases h
      rfl

/-- The add of an element that is put back goes on with every statement. -/
theorem readd_moves {m m' : DelayedMem} {job : Job} {pc₀ : AddPc} {add : Option AddPc} {next tail : Ptr}
    {pc : Option LoopPc} {o : Seen}
    (h : jobStep m (some pc₀) job (.readd next tail) = some (m', add, pc, o)) : add ≠ some pc₀ := by
  obtain ⟨⟨m₁, add₁⟩, hadd, h⟩ := Option.bind_eq_some_iff.mp h
  cases h
  cases pc₀ with
  | clear dc =>
      obtain ⟨m₂, -, hadd⟩ := Option.bind_eq_some_iff.mp hadd
      cases hadd
      simp
  | swing dc =>
      cases hadd
      simp
  | link dc oldtail =>
      obtain ⟨m₂, -, hadd⟩ := Option.bind_eq_some_iff.mp hadd
      cases hadd
      simp

/-- **What the two functions wait for.** A statement that leaves everything as it is reads the link behind
    an element while an add is about to write it there. -/
theorem spins_only_for_late_links {h : Heap DelayedCallback} {es : List (DelayedEvent ι)} {seen : List Seen}
    {o : Seen} (hrun : Machine.run DelayedQueue.step (DelayedQueue.start h) es = some (s, seen))
    (hown : Disciplined h es) (hspin : s.step .loop = some (s, o)) :
    ∃ job cur tail frames c dc, s.frames = ⟨job, .walk (.element cur) tail⟩ :: frames ∧
      s.add c = some (.link dc (.element cur)) := by
  obtain ⟨f, -, hsim⟩ := queue_run_sim hrun hown
  cases hframes : s.frames with
  | nil => simp [DelayedQueue.step, hframes] at hspin
  | cons fr frames =>
      obtain ⟨job, pc⟩ := fr
      have hcalling : ∀ next tail, pc ≠ .calling next tail := by
        rintro next tail rfl
        simp [DelayedQueue.step, hframes] at hspin
      obtain ⟨active, seg, hat⟩ := hsim
      obtain ⟨m, add, next, o', hjob, f', -⟩ := jobStep_sim hat hframes hcalling
      rw [loop_eq hframes hcalling hjob] at hspin
      obtain ⟨hs, rfl⟩ := Prod.mk.inj (Option.some.inj hspin)
      have hadd : add = s.add none := by
        have hupdate := congrFun (congrArg DelayedQueue.add hs) none
        exact (Function.update_self (none : Option ι) add s.add).symm.trans hupdate
      have hlent : o'.settle s.lent = s.lent := congrArg DelayedQueue.lent hs
      have hnext : next = some pc := by
        have hstay := (congrArg DelayedQueue.frames hs).trans hframes
        cases next with
        | none => exact absurd (congrArg List.length hstay) (by simp)
        | some pc' =>
            have hfr := (List.cons.inj hstay).1
            rw [show pc' = pc from congrArg Frame.pc hfr]
      subst hnext
      subst hadd
      cases hreset : pc.resetting with
      | true =>
          obtain ⟨-, -, pc', hpc', ⟨-, -, hrank, -⟩ | ⟨⟨cur, tail, rfl⟩, -⟩⟩ := reset_cases hreset hjob
          · cases hpc'
            exact absurd hrank (lt_irrefl _)
          · cases hpc'
            cases hreset
      | false =>
          obtain ⟨⟨held, rest⟩, bs, hbatches, hfr, -⟩ := hat.past hframes hreset
          cases pc with
          | walk cur tail =>
              obtain ⟨-, rfl, hvisit⟩ := hfr
              cases rest with
              | nil =>
                  obtain rfl : cur = .null := hvisit
                  cases hjob
              | cons a as =>
                  obtain ⟨hmem, -, rfl, ⟨next, hgo⟩ | ⟨b, c, hlate⟩⟩ :=
                    walk_cases ⟨active, seg, hat⟩ hframes hbatches
                  · -- the element is visited and given back
                    rw [hgo] at hjob
                    obtain ⟨⟨add, pc, seen⟩, hvis, heq⟩ := Option.map_eq_some_iff.mp hjob
                    cases heq
                    rw [Seen.settle, visit_givenBack hvis] at hlent
                    exact absurd hmem (Finset.erase_eq_self.mp hlent)
                  · exact ⟨job, a, tail, frames, c, b, rfl, hlate⟩
          | readd next tail =>
              obtain ⟨⟨pc₀, hadd, -⟩, -⟩ := hfr
              rw [hadd] at hjob
              exact absurd rfl (readd_moves hjob)
          | calling next tail => exact absurd rfl (hcalling next tail)
          | _ => cases hreset

/-- The link of the second add is late when the first element is visited. -/
def lateSecond : List (DelayedEvent Bool) :=
  [.add true 1, .add false 2, .adding true, .adding false, .adding true, .adding true, .adding false,
    .enter .process, .loop, .loop, .loop, .loop, .loop]

theorem spins_only_for_late_links_second : ∃ s seen,
    Machine.run DelayedQueue.step (DelayedQueue.start twoElements) lateSecond = some (s, seen) ∧
    ∃ job cur tail frames c dc, s.frames = ⟨job, .walk (.element cur) tail⟩ :: frames ∧
      s.add c = some (.link dc (.element cur)) := by
  obtain ⟨s, seen, hrun, hframes, hload⟩ :=
    Machine.run_of_check DelayedQueue.step (DelayedQueue.start twoElements) lateSecond
      (p := fun s => s.frames = [⟨.process, .walk (.element 1) (.element 2)⟩] ∧
        s.mem.load (.element 1) = some .null) (by decide +kernel)
  have hjob : jobStep s.mem (s.add none) .process (.walk (.element 1) (.element 2)) =
      some (s.mem, s.add none, some (.walk (.element 1) (.element 2)), .quiet) := by
    simp [jobStep, hload]
  have hspin : s.step .loop = some (s, .quiet) := by
    rw [loop_eq hframes (fun _ _ hpc => by cases hpc) hjob, Function.update_eq_self]
    obtain ⟨mem, add, frames, lent⟩ := s
    obtain rfl : frames = [⟨.process, .walk (.element 1) (.element 2)⟩] := hframes
    rfl
  exact ⟨s, seen, hrun, spins_only_for_late_links hrun (Machine.along_of_check (by decide +kernel)) hspin⟩

/-- The two conditions on the heads, when one of them is marked. -/
theorem heads_of_active {m : DelayedMem} {p : Ptr} (hmark : m.load (headPtr !active) = some .sentinel)
    (hhead : m.load (headPtr active) = some p) :
    m.occupied = decide (p ≠ .null) ∧
      ((m.delayedHead1.small = false ∨ m.delayedHead2.small = false) ↔ p.small = false) := by
  cases active with
  | true =>
      have h1 : m.delayedHead1 = p := Option.some.inj hhead
      have h2 : m.delayedHead2 = .sentinel := Option.some.inj hmark
      simp [DelayedMem.occupied, h1, h2, Ptr.small]
  | false =>
      have h1 : m.delayedHead1 = .sentinel := Option.some.inj hmark
      have h2 : m.delayedHead2 = p := Option.some.inj hhead
      simp [DelayedMem.occupied, h1, h2, Ptr.small]

/-- **What the two heads say.** Between two calls, and while a callback is executed,
    `UA_EventLoopLWIP_nextTimer` answers with the present time under the same condition under which
    `UA_EventLoopLWIP_run` does not sleep and `checkClosed` does not stop the loop. Then the queue is not
    empty. Otherwise it is, or the link to its first element is still to be written. -/
theorem heads_show_queue {h : Heap DelayedCallback} {es : List (DelayedEvent ι)} {seen : List Seen}
    (hrun : Machine.run DelayedQueue.step (DelayedQueue.start h) es = some (s, seen))
    (hown : Disciplined h es) (hbetween : BetweenCalls s) :
    HandedOver s es seen ∧
    (∀ t now, nextTimer s.mem t now = if s.mem.occupied then some now else timerNext t) ∧
      ∃ f, Fifo.empty.replay seen = some f ∧ (s.mem.occupied = true → f.queue ≠ []) ∧
        (s.mem.occupied = false →
          f.queue = [] ∨ ∃ dc rest c active, f.queue = dc :: rest ∧
          s.add c = some (.link dc (headPtr active))) := by
  obtain ⟨f, hf, active, seg, hsim⟩ := queue_run_sim hrun hown
  have hat := hbetween.atRest hsim
  rcases head_cases hsim hat with hnull | ⟨a, as, hqueue, hhead⟩
  · obtain ⟨hoccupied, hsmall⟩ := heads_of_active hat.2 hnull
    refine ⟨handedOver_run hrun, fun t now => ?_, f, hf, ?_, ?_⟩
    · rw [nextTimer, if_congr hsmall rfl rfl, hoccupied]
      rfl
    · simp [hoccupied]
    · intro _
      rcases head_null hsim hat hnull with hempty | ⟨a, as, hqueue, c, hlate⟩
      · exact .inl hempty
      · exact .inr ⟨a, as, c, active, hqueue, hlate⟩
  · obtain ⟨hoccupied, hsmall⟩ := heads_of_active hat.2 hhead
    refine ⟨handedOver_run hrun, fun t now => ?_, f, hf, ?_, ?_⟩
    · rw [nextTimer, if_congr hsmall rfl rfl, hoccupied]
      rfl
    · simp [hqueue]
    · simp [hoccupied]

/-- Before the link to the first element is written, the loop may sleep or stop. -/
theorem heads_show_queue_late : ∃ s seen,
    Machine.run DelayedQueue.step (DelayedQueue.start twoElements) [.add true 1, .adding true, .adding true] =
      some (s, seen) ∧ s.mem.occupied = false ∧ HandedOver s [.add true 1, .adding true, .adding true] seen ∧
    (∀ t now, nextTimer s.mem t now = if s.mem.occupied then some now else timerNext t) ∧
      ∃ f, Fifo.empty.replay seen = some f ∧ (s.mem.occupied = true → f.queue ≠ []) ∧
        (s.mem.occupied = false →
          f.queue = [] ∨ ∃ dc rest c active, f.queue = dc :: rest ∧
          s.add c = some (.link dc (headPtr active))) := by
  obtain ⟨s, seen, hrun, hnil, hfree⟩ := Machine.run_of_check DelayedQueue.step
    (DelayedQueue.start twoElements : DelayedQueue Bool) [.add true 1, .adding true, .adding true]
    (p := fun s => s.frames = [] ∧ s.mem.occupied = false) (by decide +kernel)
  exact ⟨s, seen, hrun, hfree, heads_show_queue hrun (Machine.along_of_check (by decide +kernel)) (.inl hnil)⟩

end Open62541
end Esp32Probes
