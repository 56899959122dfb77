import Esp32Probes.Open62541.DelayedQueue

/-!
# Open62541.DelayedFifo — what the queue of delayed callbacks is for

The queue without memory and threads: a list to which elements are added at the end, and the lists that have
been taken from it, the latest first, each visited from its front. `accept` says which of the things a step
may be seen to do are right, and what they do to the lists. A fault is never right.

`conserved` is the account over a whole run: what has been queued was given back once, or is still waiting.
`accept_line` is one step of the order in which a consumer that does not remove anything gives it back.
-/

namespace Esp32Probes
namespace Open62541

open CHeap (Addr Heap)

/-! ## Queue and taken lists -/

/-- A list that was taken: the element in the hands of `UA_EventLoopLWIP_removeDelayedCallback`, and the
    ones not visited yet. -/
structure Batch where
  held : Option Addr
  rest : List Addr

/-- The queue, and the lists that were taken from it, the latest first. -/
structure Fifo where
  queue   : List Addr
  batches : List Batch

namespace Fifo

/-- The element at the front of the latest list is visited. -/
def visit (f : Fifo) (dc : Addr) (held : Option Addr) : Option Fifo :=
  match f.batches with
  | ⟨none, a :: rest⟩ :: batches => if a = dc then some ⟨f.queue, ⟨held, rest⟩ :: batches⟩ else none
  | _ => none

/-- What a step that is seen does to the lists; `none` if it is wrong. -/
def accept (f : Fifo) : Seen → Option Fifo
  | .quiet => some f
  | .queued dc => some ⟨f.queue ++ [dc], f.batches⟩
  | .nothing => some ⟨f.queue, ⟨none, []⟩ :: f.batches⟩
  | .checkedOut => some ⟨[], ⟨none, f.queue⟩ :: f.batches⟩
  | .executed dc _ _ _ => f.visit dc none
  | .skipped dc => f.visit dc none
  | .removed dc => f.visit dc none
  | .picked dc => f.visit dc (some dc)
  | .requeued dc =>
    match f.batches with
    | ⟨some a, rest⟩ :: batches => if a = dc then some ⟨f.queue ++ [dc], ⟨none, rest⟩ :: batches⟩ else none
    | _ => none
  | .finished =>
    match f.batches with
    | ⟨none, []⟩ :: batches => some ⟨f.queue, batches⟩
    | _ => none
  | .fault => none

/-- What a run does to the lists. -/
def replay (f : Fifo) (seen : List Seen) : Option Fifo := seen.foldlM accept f

/-- Nothing is queued and nothing is taken. -/
def empty : Fifo := ⟨[], []⟩

/-- The elements that wait for their visit. -/
def waiting (f : Fifo) : List Addr := f.queue ++ f.batches.flatMap Batch.rest

/-- The elements in the hands of running removals. -/
def held (f : Fifo) : List Addr := f.batches.filterMap Batch.held

/-- The elements that wait, the oldest first. -/
def line (f : Fifo) : List Addr := f.batches.reverse.flatMap Batch.rest ++ f.queue

end Fifo

/-- The element that a thread has queued in this step. -/
def Seen.added : Seen → Option Addr
  | .queued dc => some dc
  | _ => none

/-- The steps of a consumer that removes nothing. -/
def Seen.Processes : Seen → Prop
  | .removed _ => False
  | .picked _ => False
  | .requeued _ => False
  | _ => True

namespace Fifo

variable {f f' : Fifo} {seen : Seen}

/-! ## Steps -/

theorem visit_iff {dc : Addr} {held : Option Addr} :
    f.visit dc held = some f' ↔ ∃ rest batches, f.batches = ⟨none, dc :: rest⟩ :: batches ∧
      f' = ⟨f.queue, ⟨held, rest⟩ :: batches⟩ := by
  unfold visit
  constructor
  · intro h
    split at h
    · next a rest batches hb =>
      by_cases ha : a = dc
      · rw [if_pos ha] at h
        exact ⟨rest, batches, ha ▸ hb, (Option.some.inj h).symm⟩
      · rw [if_neg ha] at h
        cases h
    · cases h
  · rintro ⟨rest, batches, hb, rfl⟩
    rw [hb]
    exact if_pos rfl

/-- A visited element waits no longer. -/
theorem visit_waiting {dc : Addr} {held : Option Addr} (h : f.visit dc held = some f') :
    f.waiting.Perm (dc :: f'.waiting) ∧ f'.held = held.toList ++ f.held := by
  obtain ⟨rest, batches, hb, rfl⟩ := visit_iff.mp h
  constructor
  · unfold waiting
    rw [hb, List.flatMap_cons, List.flatMap_cons]
    exact List.perm_middle
  · unfold Fifo.held
    rw [hb]
    cases held <;> rfl

theorem requeued_iff {dc : Addr} : f.accept (.requeued dc) = some f' ↔ ∃ rest batches,
    f.batches = ⟨some dc, rest⟩ :: batches ∧ f' = ⟨f.queue ++ [dc], ⟨none, rest⟩ :: batches⟩ := by
  simp only [accept]
  constructor
  · intro h
    split at h
    · next a rest batches hb =>
      by_cases ha : a = dc
      · rw [if_pos ha] at h
        exact ⟨rest, batches, ha ▸ hb, (Option.some.inj h).symm⟩
      · rw [if_neg ha] at h
        cases h
    · cases h
  · rintro ⟨rest, batches, hb, rfl⟩
    rw [hb]
    exact if_pos rfl

theorem finished_iff : f.accept .finished = some f' ↔ f.batches = ⟨none, []⟩ :: f'.batches ∧
    f'.queue = f.queue := by
  simp only [accept]
  constructor
  · intro h
    split at h
    · next batches hb =>
      cases h
      exact ⟨hb, rfl⟩
    · cases h
  · rintro ⟨hb, hq⟩
    rw [hb, ← hq]

theorem replay_snoc {seen : List Seen} {last : Seen} :
    f.replay (seen ++ [last]) = some f' ↔ ∃ m, f.replay seen = some m ∧ m.accept last = some f' := by
  unfold replay
  rw [List.foldlM_append]
  simp [Option.bind_eq_some_iff]

theorem filterMap_snoc (view : Seen → Option Addr) (seen : List Seen) (last : Seen) :
    (seen ++ [last]).filterMap view = seen.filterMap view ++ (view last).toList := by
  cases hv : view last <;> simp [hv]

/-! ## The account -/

/-- **One step of the account**: what is added, and what is given back. -/
theorem accept_account (h : f.accept seen = some f') :
    (f.waiting ++ f.held ++ seen.added.toList).Perm (f'.waiting ++ f'.held ++ seen.givenBack.toList) := by
  refine List.perm_iff_count.mpr fun a => ?_
  have hvisit : ∀ {dc : Addr} {held : Option Addr}, f.visit dc held = some f' →
      (f.waiting ++ f.held).count a + held.toList.count a = (f'.waiting ++ f'.held).count a +
      [dc].count a := by
    intro dc held hv
    obtain ⟨hwaiting, hheld⟩ := visit_waiting hv
    have hcount := hwaiting.count_eq a
    simp only [hheld, List.count_append, List.count_cons, List.count_nil] at hcount ⊢
    omega
  cases seen with
  | quiet =>
      cases h
      rfl
  | queued dc =>
      cases h
      simp only [waiting, Fifo.held, Seen.added, Seen.givenBack, Option.toList_some, Option.toList_none,
        List.count_append, List.count_nil]
      omega
  | nothing =>
      cases h
      rfl
  | checkedOut =>
      cases h
      simp [waiting, Fifo.held, Seen.added, Seen.givenBack]
  | executed dc _ _ _ => simpa [Seen.added, Seen.givenBack, Nat.add_assoc] using hvisit h
  | skipped dc => simpa [Seen.added, Seen.givenBack, Nat.add_assoc] using hvisit h
  | removed dc => simpa [Seen.added, Seen.givenBack, Nat.add_assoc] using hvisit h
  | picked dc =>
      have hcount := hvisit h
      simp only [Option.toList_some, Nat.add_right_cancel_iff] at hcount
      simpa [Seen.added, Seen.givenBack] using hcount
  | requeued dc =>
      obtain ⟨rest, batches, hb, rfl⟩ := requeued_iff.mp h
      simp only [waiting, Fifo.held, hb, Seen.added, Seen.givenBack, List.flatMap_cons, List.count_append,
        Option.toList_none, List.count_nil, List.filterMap_cons, List.count_cons]
      omega
  | finished =>
      obtain ⟨hb, hq⟩ := finished_iff.mp h
      simp [waiting, Fifo.held, hb, hq, Seen.added, Seen.givenBack]
  | fault => cases h

/-- **Nothing is lost and nothing is repeated.** -/
theorem conserved {seen : List Seen} (h : empty.replay seen = some f) :
    (seen.filterMap Seen.added).Perm (f.waiting ++ f.held ++ seen.filterMap Seen.givenBack) := by
  induction seen using List.reverseRecOn generalizing f with
  | nil =>
      cases h
      exact List.Perm.refl _
  | append_singleton seen last ih =>
      obtain ⟨m, hm, hlast⟩ := replay_snoc.mp h
      have haccount := accept_account hlast
      have hbefore := ih hm
      refine List.perm_iff_count.mpr fun a => ?_
      have hcount := haccount.count_eq a
      have hcount' := hbefore.count_eq a
      simp only [filterMap_snoc, List.count_append] at hcount hcount' ⊢
      omega

/-! ## The order -/

/-- At most one list is taken, and nothing is held. -/
def Single (f : Fifo) : Prop := f.batches = [] ∨ ∃ rest, f.batches = [⟨none, rest⟩]

theorem Single.line_eq (h : f.Single) : f.line = f.batches.flatMap Batch.rest ++ f.queue := by
  unfold line
  rcases h with hb | ⟨rest, hb⟩ <;> rw [hb] <;> rfl

/-- **One step in order.** -/
theorem accept_line (hf : f.Single) (h : f.accept seen = some f') (hp : seen.Processes)
    (hnew : seen = .nothing ∨ seen = .checkedOut → f.batches = []) :
    f'.Single ∧ f.line ++ seen.added.toList = seen.givenBack.toList ++ f'.line := by
  have hvisit : ∀ {dc : Addr}, f.visit dc none = some f' → f'.Single ∧ f.line ++ [] = [dc] ++ f'.line := by
    intro dc hv
    obtain ⟨rest, batches, hb, rfl⟩ := visit_iff.mp hv
    have hone : batches = [] := by
      rcases hf with hf | ⟨_, hf⟩ <;> rw [hb] at hf <;> simp_all
    subst hone
    refine ⟨.inr ⟨rest, rfl⟩, ?_⟩
    unfold line
    rw [hb]
    simp
  cases seen with
  | quiet =>
      cases h
      exact ⟨hf, List.append_nil _⟩
  | queued dc =>
      cases h
      refine ⟨hf, ?_⟩
      simp [line, Seen.added, Seen.givenBack]
  | nothing =>
      cases h
      rw [Single, line, line, hnew (.inl rfl)]
      exact ⟨.inr ⟨[], rfl⟩, by simp [Seen.added, Seen.givenBack]⟩
  | checkedOut =>
      cases h
      rw [Single, line, line, hnew (.inr rfl)]
      exact ⟨.inr ⟨f.queue, rfl⟩, by simp [Seen.added, Seen.givenBack]⟩
  | executed dc _ _ _ => exact hvisit h
  | skipped dc => exact hvisit h
  | removed dc => exact hp.elim
  | picked dc => exact hp.elim
  | requeued dc => exact hp.elim
  | finished =>
      obtain ⟨hb, hq⟩ := finished_iff.mp h
      have hone : f'.batches = [] := by
        rcases hf with hf | ⟨_, hf⟩ <;> rw [hb] at hf <;> simp_all
      refine ⟨.inl hone, ?_⟩
      simp [line, hb, hone, hq, Seen.added, Seen.givenBack]
  | fault => cases h

end Fifo

end Open62541
end Esp32Probes
