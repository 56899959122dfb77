import Esp32Probes.Open62541.TimerRounds

/-!
# Open62541.TimerGuarantees — what the timer guarantees

The results about the timer in memory, for every admissible run from `UA_Timer_init`: every sequence of calls,
rounds and `UA_Timer_clear`, with callbacks that call the timer in any way, in which clocks, base times and
intervals are at most 2^60 and fewer than 2^64 timers are added before the timer is cleared.

- `timer_refines_schedule`: no run fails or leaks, and the answers are those of the schedule.
- `process_executes_due`: which callbacks a round executes, in which order.
- `removed_timer_never_fires`, `removal_inside_callback`: what has been removed is not executed again.
- `cyclic_timer_keeps_pace`: how often a cyclic timer is executed, and in which phase.
- `process_leaves_nothing_overdue`: the time with which `UA_Timer_process` answers is not in the past.
- `batching_bounds`, `batching_needs_the_root`: what batching does to a new timer, and what it overlooks.
-/

namespace Esp32Probes
namespace Open62541

open CHeap (Addr Heap)
open ZipTree (inorder IsZip)

variable {st : Running} {s : Schedule} {fired : List Fired}

/-! ## Timer and schedule between two events -/

/-- Exactly the entries of the queue are allocated. -/
theorem Settled.live (h : Settled st s fired) (a : Addr) :
    a ∈ st.timer.heap.live ↔ itemAt st.timer.heap a ∈ s.queue := by
  obtain ⟨T, I, hsim⟩ := h.sim
  have hmem : a ∈ inorder I ↔ a ∈ inorder T := by
    rw [← hsim.perm.mem_iff, h.idle, List.map_nil, List.append_nil]
  rw [show a ∈ st.timer.heap.live ↔ a ∈ inorder I from ⟨hsim.live a, hsim.ids.live a⟩, hmem, hsim.queue]
  refine ⟨fun ha => List.mem_map_of_mem ha, fun ha => ?_⟩
  obtain ⟨b, hb, hba⟩ := List.mem_map.mp ha
  have hab : b = a := congrArg Item.addr hba
  exact hab ▸ hb

/-- An item of the queue is the one of the entry at its address. -/
theorem Settled.item (h : Settled st s fired) {i : Item} (hi : i ∈ s.queue) :
    i.addr ∈ st.timer.heap.live ∧ i = itemAt st.timer.heap i.addr := by
  obtain ⟨T, I, hsim⟩ := h.sim
  have hi' := hi
  rw [hsim.queue] at hi
  obtain ⟨a, ha, rfl⟩ := List.mem_map.mp hi
  exact ⟨(h.live a).mpr hi', rfl⟩

/-- The ids are handed out in step. -/
theorem Settled.counter (h : Settled st s fired) : st.timer.idCounter = s.idCounter := by
  obtain ⟨T, I, hsim⟩ := h.sim
  exact hsim.counter.symm

/-- Every admissible sequence of events runs to its end. -/
theorem start_runs (cell : Addr → TimerEntry) {es : List TimerEvent} (hes : Admissible Schedule.start [] es) :
    ∃ st, (Running.start cell).run es = some (st, (Schedule.start.run [] es).2) := by
  obtain ⟨st, hst, -⟩ := run_sim (settled_start cell) hes
  exact ⟨st, hst⟩

/-- What a run reaches, when it can go on with the events `es'`. -/
theorem settled_of_run {cell : Addr → TimerEntry} {es es' : List TimerEvent} {answers : List TimerAnswer}
    (hes : Admissible Schedule.start [] (es ++ es')) (h : (Running.start cell).run es = some (st, answers)) :
    ∃ s, Settled st s st.fired ∧ Admissible s st.fired es' := by
  obtain ⟨hpre, hpost⟩ := admissible_append.mp hes
  obtain ⟨st', hst', hsettled⟩ := run_sim (settled_start cell) hpre
  rw [h] at hst'
  obtain ⟨rfl, -⟩ := Prod.mk.inj (Option.some.inj hst')
  have hfired := hsettled.fired
  rw [← hfired] at hsettled hpost
  exact ⟨_, hsettled, hpost⟩

/-- A round, and what may come after it. -/
theorem Settled.process {script : Script} {now : Int} {es : List TimerEvent} (h : Settled st s st.fired)
    (hes : Admissible s st.fired (.process script now :: es)) :
    ∃ st', timerProcess script st now = some (st', (s.process script st.fired now).2) ∧
      Settled st' (s.process script st.fired now).1.1 (s.process script st.fired now).1.2 ∧
      Admissible (s.process script st.fired now).1.1 (s.process script st.fired now).1.2 es := by
  obtain ⟨⟨hnow, hscript⟩, hrest⟩ := List.forall_mem_cons.mp hes.bounded
  obtain ⟨T, I, hsim⟩ := h.sim
  obtain ⟨st', T', I', hst', hfired, hsim', hidle'⟩ :=
    timerProcess_sim hsim h.ok h.tame h.idle hscript hnow hes.few.1
  have hok := h.ok.startRound h.idle now
  have htame := (h.tame.startRound hnow).visits hok hscript hnow (s.startRound now).pending.length st.fired
  exact ⟨st', hst', ⟨⟨T', I', hsim'⟩, hok.visits script now _ st.fired, htame, hidle', hfired⟩, hrest,
    hes.few.2⟩

/-- Memory in which nothing has been written. -/
def blank : Addr → TimerEntry := fun _ => ⟨⟨none, none⟩, .once, 0, 0, none, 0, 0, ⟨none, none⟩, 0⟩

/-- A cyclic timer with callback 7 in the block at `pick`. -/
def cyclic (interval now : Int) (policy : TimerPolicy) (pick : Addr) : TimerEvent :=
  .call (.add (some 7) 0 0 interval now none policy (some pick))

/-- The first timer to be executed removes the second one. -/
def removeSecond : Script := fun _ => [.remove 2]

/-- What an entry executes. -/
def executionOf (e : TimerEntry) : Option Fired := e.cb.map fun cb => ⟨e.id, cb, e.application, e.data⟩

/-- The entries that are due, and what each of them executes. -/
theorem forall₂_pends {h : Heap TimerEntry} {l : List Item} (hl : ∀ i ∈ l, i = itemAt h i.addr)
    (harmed : ∀ i ∈ l, i.cb ≠ none) :
    List.Forall₂ (Schedule.Pends []) l ((l.map Item.addr).filterMap fun a => executionOf (h.cell a)) := by
  induction l with
  | nil => exact .nil
  | cons i l ih =>
      have hi : i = itemAt h i.addr := hl i List.mem_cons_self
      obtain ⟨cb, hcb⟩ := Option.ne_none_iff_exists'.mp (harmed i List.mem_cons_self)
      have hcell : (h.cell i.addr).cb = some cb := (congrArg Item.cb hi).symm.trans hcb
      have hexec : executionOf (h.cell i.addr) = some ⟨(h.cell i.addr).id, cb, (h.cell i.addr).application,
          (h.cell i.addr).data⟩ := by
        unfold executionOf
        rw [hcell]
        rfl
      rw [List.map_cons, List.filterMap_cons_some (f := fun a => executionOf (h.cell a)) hexec]
      refine .cons ⟨congrArg Item.id hi, congrArg Item.application hi, congrArg Item.data hi, ?_⟩
        (ih (fun j hj => hl j (List.mem_cons_of_mem _ hj)) fun j hj => harmed j (List.mem_cons_of_mem _ hj))
      rw [hcb, if_neg (List.not_mem_nil)]

/-- **A round** executes the entries that were due when it started, each once, in the order of their next
    times, except those that a callback of the round has removed before; what is added or modified meanwhile
    plays no part. -/
theorem process_executes_due {cell : Addr → TimerEntry} {es : List TimerEvent} {answers : List TimerAnswer}
    (script : Script) (now : Int) (hes : Admissible Schedule.start [] (es ++ [.process script now]))
    (h : (Running.start cell).run es = some (st, answers)) :
    ∃ (due : List Addr) (st' : Running) (next : Int), timerProcess script st now = some (st', next) ∧
      due.Pairwise (fun a b => elemKey timerTree st.timer.heap a < elemKey timerTree st.timer.heap b) ∧
      (∀ a, a ∈ due ↔ a ∈ st.timer.heap.live ∧ (st.timer.heap.cell a).nextTime ≤ now) ∧
      (∀ a ∈ due, executionOf (st.timer.heap.cell a) ≠ none) ∧
      st'.fired =
        Schedule.roundOf script st.fired [] (due.filterMap fun a => executionOf (st.timer.heap.cell a)) := by
  obtain ⟨s, hsettled, hround⟩ := settled_of_run hes h
  obtain ⟨st', hst', hsettled', -⟩ := hsettled.process hround
  have hfired := hsettled'.fired
  have hpend : ∀ i ∈ (s.startRound now).pending, i ∈ s.queue ∧ i.nextTime ≤ now := fun i hi =>
    ⟨(List.mem_filter.mp hi).1, of_decide_eq_true (List.mem_filter.mp hi).2⟩
  have hitem : ∀ i ∈ (s.startRound now).pending, i = itemAt st.timer.heap i.addr := fun i hi =>
    (hsettled.item (hpend i hi).1).2
  have harmed : ∀ i ∈ (s.startRound now).pending, i.cb ≠ none :=
    fun i hi => hsettled.ok.armed i (hpend i hi).1
  have hpends := forall₂_pends hitem harmed
  refine ⟨(s.startRound now).pending.map Item.addr, st', _, hst', ?_,
    fun a => ⟨fun ha => ?_, fun ⟨ha, hdue⟩ => ?_⟩, fun a ha => ?_, ?_⟩
  · rw [List.pairwise_map]
    refine (hsettled.ok.sorted.filter _).imp_of_mem fun {i j} hi hj hij => ?_
    rw [elemKey_timerTree, elemKey_timerTree, ← hitem i hi, ← hitem j hj]
    exact hij
  · obtain ⟨i, hi, rfl⟩ := List.mem_map.mp ha
    refine ⟨(hsettled.item (hpend i hi).1).1, ?_⟩
    have hdue := (hpend i hi).2
    rw [hitem i hi] at hdue
    exact hdue
  · exact List.mem_map.mpr ⟨_, List.mem_filter.mpr ⟨(hsettled.live a).mp ha, decide_eq_true hdue⟩, rfl⟩
  · obtain ⟨i, hi, rfl⟩ := List.mem_map.mp ha
    have hcb := harmed i hi
    rw [hitem i hi] at hcb
    unfold executionOf
    exact fun hnone => hcb (Option.map_eq_none_iff.mp hnone)
  · rw [hfired]
    show ((s.startRound now).visits script now (s.startRound now).pending.length st.fired).2 = _
    rw [hpends.length_eq]
    exact Schedule.visits_fired hpends

/-- Two timers, both due at the time 200. -/
def twoTimers : List TimerEvent := [cyclic 100 0 .baseTime 4096, cyclic 150 0 .baseTime 8192]

theorem admissible_twoTimers : Admissible Schedule.start [] (twoTimers ++ [.process removeSecond 200]) :=
  ⟨by simp [twoTimers, cyclic, removeSecond, TimerEvent.Bounded, TimerCall.Bounded, BoundedTimes, Within,
    timeBound], by decide +kernel⟩

theorem process_executes_due_removed :
    ∃ st answers, (Running.start blank).run twoTimers = some (st, answers) ∧
      ∃ (due : List Addr) (st' : Running) (next : Int), timerProcess removeSecond st 200 = some (st', next) ∧
        due.Pairwise (fun a b => elemKey timerTree st.timer.heap a < elemKey timerTree st.timer.heap b) ∧
        (∀ a, a ∈ due ↔ a ∈ st.timer.heap.live ∧ (st.timer.heap.cell a).nextTime ≤ 200) ∧
        (∀ a ∈ due, executionOf (st.timer.heap.cell a) ≠ none) ∧
        st'.fired = Schedule.roundOf removeSecond st.fired []
          (due.filterMap fun a => executionOf (st.timer.heap.cell a)) := by
  obtain ⟨st, hst⟩ := start_runs blank (admissible_append.mp admissible_twoTimers).1
  exact ⟨st, _, hst, process_executes_due removeSecond 200 admissible_twoTimers hst⟩

/-! ## Removals -/

/-- A removed id stays removed in an event other than `UA_Timer_clear`, which starts the ids again. -/
theorem gone_step {id : Nat} (h : Schedule.Gone id s) (fired : List Fired) {e : TimerEvent}
    (he : e ≠ .clear) :
    Schedule.Gone id (s.step fired e).1.1 ∧ ∃ new, (s.step fired e).1.2 = fired ++ new ∧
    ∀ f ∈ new, f.id ≠ id := by
  cases e with
  | call c => exact ⟨h.call c, [], (List.append_nil _).symm, fun f hf => by cases hf⟩
  | process script now =>
      have hstart : Schedule.Gone id (s.startRound now) := by
        refine ⟨h.old, fun i hi => h.queue i (List.mem_filter.mp hi).1, fun i hi hid => ?_⟩
        exact absurd hid (h.queue i (List.mem_filter.mp hi).1)
      exact hstart.visits script now (s.startRound now).pending.length fired
  | clear => exact absurd rfl he

/-- A removed id stays removed until `UA_Timer_clear`. -/
theorem gone_run {id : Nat} (h : Schedule.Gone id s) (fired : List Fired) {es : List TimerEvent}
    (hes : .clear ∉ es) :
    ∃ later, (s.run fired es).1.2 = fired ++ later ∧ ∀ f ∈ later, f.id ≠ id := by
  induction es generalizing s fired with
  | nil => exact ⟨[], (List.append_nil _).symm, fun f hf => by cases hf⟩
  | cons e es ih =>
      obtain ⟨he, hes⟩ := not_or.mp (fun hmem => hes (List.mem_cons.mpr hmem))
      obtain ⟨hgone, new, hnew, hids⟩ := gone_step h fired (Ne.symm he)
      obtain ⟨later, hlater, hids'⟩ := ih hgone (s.step fired e).1.2 hes
      refine ⟨new ++ later, ?_, fun f hf => ?_⟩
      · rw [← List.append_assoc, ← hnew]
        exact hlater
      · rcases List.mem_append.mp hf with hf | hf
        · exact hids f hf
        · exact hids' f hf

/-- **`UA_Timer_remove` is final.** Once the timer with an id that was handed out has been removed, its
    callback is not executed again before the timer is cleared. -/
theorem removed_timer_never_fires {cell : Addr → TimerEntry} {es es' : List TimerEvent}
    {answers : List TimerAnswer} {id : Nat}
    (hes : Admissible Schedule.start [] (es ++ .call (.remove id) :: es'))
    (h : (Running.start cell).run es = some (st, answers)) (hid : id ≤ st.timer.idCounter)
    (hclear : .clear ∉ es') :
    ∃ st' answers', st.run (.call (.remove id) :: es') = some (st', answers') ∧
      ∃ later, st'.fired = st.fired ++ later ∧ ∀ f ∈ later, f.id ≠ id := by
  obtain ⟨s, hsettled, hrest⟩ := settled_of_run hes h
  obtain ⟨st', hst', hsettled'⟩ := run_sim hsettled hrest
  have hgone : Schedule.Gone id (s.remove id) := Schedule.gone_remove (hsettled.counter ▸ hid)
  obtain ⟨later, hlater, hids⟩ := gone_run hgone st.fired hclear
  exact ⟨st', _, hst', later, hsettled'.fired.trans hlater, hids⟩

theorem removed_timer_never_fires_first :
    ∃ st answers, (Running.start blank).run [cyclic 100 0 .baseTime 4096] = some (st, answers) ∧
      ∃ st' answers', st.run [.call (.remove 1), .process (fun _ => []) 500] = some (st', answers') ∧
        ∃ later, st'.fired = st.fired ++ later ∧ ∀ f ∈ later, f.id ≠ 1 := by
  have hes : Admissible Schedule.start [] ([cyclic 100 0 .baseTime 4096] ++
      [.call (.remove 1), .process (fun _ => []) 500]) :=
    ⟨by simp [cyclic, TimerEvent.Bounded, TimerCall.Bounded, BoundedTimes, Within, timeBound],
      by decide +kernel⟩
  obtain ⟨st, hst⟩ := start_runs blank (admissible_append.mp hes).1
  have hcounter : ((Running.start blank).run [cyclic 100 0 .baseTime 4096]).map (·.1.timer.idCounter) =
      some 1 := by
    decide +kernel
  rw [hst] at hcounter
  exact ⟨st, _, hst, removed_timer_never_fires hes hst (le_of_eq (Option.some.inj hcounter).symm) (by simp)⟩

/-- Executions are only added to what has been executed. -/
theorem run_prefix (s : Schedule) (fired : List Fired) (es : List TimerEvent) :
    ∃ later, (s.run fired es).1.2 = fired ++ later := by
  induction es generalizing s fired with
  | nil => exact ⟨[], (List.append_nil _).symm⟩
  | cons e es ih =>
      obtain ⟨new, hnew⟩ : ∃ new, (s.step fired e).1.2 = fired ++ new := by
        cases e with
        | call c => exact ⟨[], (List.append_nil _).symm⟩
        | process script now =>
            obtain ⟨new, hnew, -⟩ :=
              Schedule.visits_removed (Nat.zero_le (s.startRound now).idCounter) script now
              (s.startRound now).pending.length fired
            exact ⟨new, hnew⟩
        | clear => exact ⟨[], (List.append_nil _).symm⟩
      obtain ⟨later, hlater⟩ := ih (s.step fired e).1.1 (s.step fired e).1.2
      exact ⟨new ++ later, by rw [← List.append_assoc, ← hnew]; exact hlater⟩

/-- **A callback that removes a timer**, its own or another one: from the next entry of the round on that
    timer is not executed again, in this round or later, before the timer is cleared. -/
theorem removal_inside_callback {cell : Addr → TimerEntry} {es es' : List TimerEvent}
    {answers : List TimerAnswer} {id : Nat} {script : Script} {now : Int}
    (hes : Admissible Schedule.start [] (es ++ .process script now :: es'))
    (h : (Running.start cell).run es = some (st, answers)) (hid : id ≤ st.timer.idCounter)
    (hclear : .clear ∉ es') :
    ∃ st₁ next st₂ answers', timerProcess script st now = some (st₁, next) ∧
      st₁.run es' = some (st₂, answers') ∧
      ∃ round later, st₁.fired = st.fired ++ round ∧ st₂.fired = st₁.fired ++ later ∧
        ∀ pre x post, round = pre ++ x :: post → .remove id ∈ script (st.fired ++ (pre ++ [x])) →
          ∀ f ∈ post ++ later, f.id ≠ id := by
  obtain ⟨s, hsettled, hrest⟩ := settled_of_run hes h
  obtain ⟨st₁, hst₁, hsettled₁, hrest₁⟩ := hsettled.process hrest
  obtain ⟨st₂, hst₂, hsettled₂⟩ := run_sim hsettled₁ hrest₁
  have hfired₁ := hsettled₁.fired
  have hcounter : id ≤ (s.startRound now).idCounter := hsettled.counter ▸ hid
  obtain ⟨round, hround, hremoved⟩ := Schedule.visits_removed hcounter script now
    (s.startRound now).pending.length st.fired
  -- what the later events execute, removed or not
  obtain ⟨later, hlater⟩ :=
    run_prefix (s.process script st.fired now).1.1 (s.process script st.fired now).1.2 es'
  refine ⟨st₁, _, st₂, _, hst₁, hst₂, round, later, hfired₁.trans hround, ?_,
    fun pre x post hsplit hremove f hf => ?_⟩
  · rw [hsettled₂.fired, hlater, hfired₁]
  · obtain ⟨hgone, hpost⟩ := hremoved pre x post hsplit hremove
    rcases List.mem_append.mp hf with hf | hf
    · exact hpost f hf
    · obtain ⟨later', hlater', hids⟩ := gone_run hgone (s.process script st.fired now).1.2 hclear
      have hsame : later = later' := List.append_cancel_left (hlater.symm.trans hlater')
      exact hids f (hsame ▸ hf)

theorem removal_inside_callback_second :
    ∃ st answers, (Running.start blank).run twoTimers = some (st, answers) ∧
      ∃ st₁ next st₂ answers', timerProcess removeSecond st 200 = some (st₁, next) ∧
        st₁.run [.process (fun _ => []) 900] = some (st₂, answers') ∧
        ∃ round later, st₁.fired = st.fired ++ round ∧ st₂.fired = st₁.fired ++ later ∧
          ∀ pre x post, round = pre ++ x :: post → .remove 2 ∈ removeSecond (st.fired ++ (pre ++ [x])) →
            ∀ f ∈ post ++ later, f.id ≠ 2 := by
  have hes : Admissible Schedule.start []
      (twoTimers ++ [.process removeSecond 200, .process (fun _ => []) 900]) :=
    ⟨by simp [twoTimers, cyclic, removeSecond, TimerEvent.Bounded, TimerCall.Bounded, BoundedTimes, Within,
      timeBound], by decide +kernel⟩
  obtain ⟨st, hst⟩ := start_runs blank (admissible_append.mp hes).1
  have hcounter : ((Running.start blank).run twoTimers).map (·.1.timer.idCounter) = some 2 := by
    decide +kernel
  rw [hst] at hcounter
  exact ⟨st, _, hst, removal_inside_callback hes hst (le_of_eq (Option.some.inj hcounter).symm) (by simp)⟩

/-! ## The pace of cyclic timers -/

/-- Nothing in these events changes the timing of this id, or clears the timer. -/
def NeverModifies (id : Nat) (es : List TimerEvent) : Prop :=
  ∀ e ∈ es, match e with
    | .call c => Schedule.Leaves id c
    | .process script _ => ∀ fired, ∀ c ∈ script fired, Schedule.Leaves id c
    | .clear => False

/-- No round reads a later clock. -/
def Until (horizon : Int) (es : List TimerEvent) : Prop :=
  ∀ e ∈ es, match e with
    | .process _ now => now ≤ horizon
    | _ => True

/-- A run in which nobody modifies the timer keeps its pace. -/
theorem paced_run {id : Nat} {interval base horizon : Int} {policy : TimerPolicy} {es : List TimerEvent}
    (h : Schedule.Paced id interval base policy (Schedule.executions id fired) s) (hok : s.Ok)
    (hidle : s.pending = []) (hpos : 0 < interval) (hes : NeverModifies id es) (huntil : Until horizon es) :
    Schedule.Paced id interval base policy (Schedule.executions id (s.run fired es).1.2)
        (s.run fired es).1.1 ∧
      (Schedule.executions id (s.run fired es).1.2 = Schedule.executions id fired ∨
        base + ((Schedule.executions id (s.run fired es).1.2 : Int) - 1) * interval ≤ horizon) := by
  induction es generalizing s fired with
  | nil => exact ⟨h, .inl rfl⟩
  | cons e es ih =>
      have hes' : NeverModifies id es := fun e he => hes e (List.mem_cons_of_mem _ he)
      have huntil' : Until horizon es := fun e he => huntil e (List.mem_cons_of_mem _ he)
      cases e with
      | call c =>
          have hc : Schedule.Leaves id c := hes _ List.mem_cons_self
          have hidle' : (s.call c).1.pending = [] := by
            have haddrs := (Schedule.call_pending s c).1
            rw [hidle] at haddrs
            exact List.map_eq_nil_iff.mp haddrs
          exact ih (h.call hc) (hok.call c) hidle' hes' huntil'
      | process script now =>
          have hscript : ∀ fired, ∀ c ∈ script fired, Schedule.Leaves id c := hes _ List.mem_cons_self
          have hnow : now ≤ horizon := huntil _ List.mem_cons_self
          have hitems : ∀ i ∈ (s.startRound now).items, i ∈ s.items := fun i hi =>
            (List.mem_append.mp hi).elim (fun hi => List.mem_append_left _ (List.mem_filter.mp hi).1)
              fun hi => List.mem_append_left _ (List.mem_filter.mp hi).1
          have hstart : Schedule.Paced id interval base policy (Schedule.executions id fired)
            (s.startRound now) :=
            ⟨h.old, fun i hi => h.items i (hitems i hi)⟩
          have hdue : Schedule.Due id now (s.startRound now) := fun i hi _ =>
            of_decide_eq_true (List.mem_filter.mp hi).2
          have hok' := hok.startRound hidle now
          obtain ⟨hpaced, hcount⟩ := hstart.visits hok' hpos hdue hscript (s.startRound now).pending.length
          obtain ⟨hend, hcount'⟩ := ih hpaced (hok'.visits script now _ fired)
            (Schedule.visits_idle script now (s.startRound now) fired) hes' huntil'
          refine ⟨hend, ?_⟩
          rcases hcount' with hsame | hbound
          · rcases hcount with hzero | hbound
            · exact .inl (hsame.trans hzero)
            · refine .inr (le_trans ?_ hnow)
              rw [← hsame] at hbound
              exact hbound
          · exact .inr hbound
      | clear => exact (hes _ List.mem_cons_self).elim

/-- **The pace of a cyclic timer** that nobody modifies. Its next time is never earlier than its first one
    and one interval for each execution since, so that up to any time it is executed at most once for each
    interval that has passed; with the base-time policy the next time stays in phase for ever. -/
theorem cyclic_timer_keeps_pace {cell : Addr → TimerEntry} {es es' : List TimerEvent}
    {answers : List TimerAnswer} {a : Addr} {horizon : Int} (hes : Admissible Schedule.start [] (es ++ es'))
    (h : (Running.start cell).run es = some (st, answers)) (ha : a ∈ st.timer.heap.live)
    (hcyclic : (st.timer.heap.cell a).timerPolicy ≠ .once)
    (hes' : NeverModifies (st.timer.heap.cell a).id es') (huntil : Until horizon es') :
    ∃ st' answers' n, st.run es' = some (st', answers') ∧
      Schedule.executions (st.timer.heap.cell a).id st'.fired =
        Schedule.executions (st.timer.heap.cell a).id st.fired + n ∧
      (n = 0 ∨
        (st.timer.heap.cell a).nextTime + ((n : Int) - 1) * (st.timer.heap.cell a).interval ≤ horizon) ∧
      ∀ b ∈ st'.timer.heap.live, (st'.timer.heap.cell b).id = (st.timer.heap.cell a).id →
        (st'.timer.heap.cell b).interval = (st.timer.heap.cell a).interval ∧
        (st.timer.heap.cell a).nextTime + n * (st.timer.heap.cell a).interval ≤
          (st'.timer.heap.cell b).nextTime ∧
        ((st.timer.heap.cell a).timerPolicy = .baseTime → (st.timer.heap.cell a).interval ∣
          (st'.timer.heap.cell b).nextTime - (st.timer.heap.cell a).nextTime) := by
  obtain ⟨s, hsettled, hrest⟩ := settled_of_run hes h
  obtain ⟨st', hst', hsettled'⟩ := run_sim hsettled hrest
  -- the item of the entry, and the time from which all executions count
  obtain ⟨i, hi⟩ : ∃ i, i = itemAt st.timer.heap a := ⟨_, rfl⟩
  have hqueue : i ∈ s.queue := hi ▸ (hsettled.live a).mp ha
  obtain ⟨hid, hpol, hiv, htime⟩ : (st.timer.heap.cell a).id = i.id ∧
      (st.timer.heap.cell a).timerPolicy = i.timerPolicy ∧
      (st.timer.heap.cell a).interval = i.interval ∧ (st.timer.heap.cell a).nextTime = i.nextTime := by
    rw [hi]
    exact ⟨rfl, rfl, rfl, rfl⟩
  rw [hid] at hes' ⊢
  rw [hpol] at hcyclic ⊢
  rw [hiv, htime]
  have hmem : i ∈ s.items := List.mem_append_left _ hqueue
  have hpos : 0 < i.interval := hsettled.ok.cyclic i hmem hcyclic
  obtain ⟨base, hbase⟩ : ∃ base, base = i.nextTime - Schedule.executions i.id st.fired * i.interval :=
    ⟨_, rfl⟩
  have hpaced : Schedule.Paced i.id i.interval base i.timerPolicy (Schedule.executions i.id st.fired) s := by
    refine ⟨hsettled.ok.bound i hmem, fun j hj hjid => ?_⟩
    obtain rfl := List.inj_on_of_nodup_map hsettled.ok.ids hj hmem hjid
    exact ⟨rfl, rfl, by omega, fun _ => ⟨Schedule.executions j.id st.fired, by rw [Int.mul_comm]; omega⟩⟩
  obtain ⟨hpaced', hcount⟩ := paced_run hpaced hsettled.ok hsettled.idle hpos hes' huntil
  obtain ⟨later, hlater⟩ := run_prefix s st.fired es'
  have hexec : Schedule.executions i.id st'.fired = Schedule.executions i.id st.fired +
      Schedule.executions i.id later := by
    rw [hsettled'.fired, hlater]
    unfold Schedule.executions
    rw [List.map_append, List.count_append]
  rw [← hsettled'.fired] at hpaced' hcount
  refine ⟨st', _, Schedule.executions i.id later, hst', hexec, ?_, fun b hb hbid => ?_⟩
  · rcases hcount with hsame | hbound
    · exact .inl (by omega)
    · refine .inr ?_
      rw [hexec] at hbound
      have hsplit : ((Schedule.executions i.id st.fired + Schedule.executions i.id later : Nat) : Int) - 1 =
          Schedule.executions i.id st.fired + ((Schedule.executions i.id later : Int) - 1) := by omega
      rw [hsplit, Int.add_mul] at hbound
      omega
  · have hb' : itemAt st'.timer.heap b ∈ (s.run st.fired es').1.1.items :=
      List.mem_append_left _ ((hsettled'.live b).mp hb)
    obtain ⟨hpol', hiv', htime', hphase'⟩ := hpaced'.items _ hb' hbid
    rw [hexec] at htime'
    push_cast at htime'
    rw [Int.add_mul] at htime'
    refine ⟨hiv', ?_, fun hp => ?_⟩
    · show i.nextTime + _ ≤ (itemAt st'.timer.heap b).nextTime
      omega
    · have hstep : i.interval ∣ i.nextTime - base :=
        ⟨Schedule.executions i.id st.fired, by rw [Int.mul_comm]; omega⟩
      have hdiff : (itemAt st'.timer.heap b).nextTime - i.nextTime =
          (itemAt st'.timer.heap b).nextTime - base - (i.nextTime - base) := by omega
      show i.interval ∣ (itemAt st'.timer.heap b).nextTime - i.nextTime
      rw [hdiff]
      exact Int.dvd_sub (hphase' hp) hstep

theorem cyclic_timer_keeps_pace_late :
    ∃ st answers, (Running.start blank).run [cyclic 100 0 .baseTime 4096] = some (st, answers) ∧
      ∃ st' answers' n, st.run [.process (fun _ => []) 130, .process (fun _ => []) 555] =
          some (st', answers') ∧
        Schedule.executions 1 st'.fired = Schedule.executions 1 st.fired + n ∧
        (n = 0 ∨ 100 + ((n : Int) - 1) * 100 ≤ 555) ∧
        ∀ b ∈ st'.timer.heap.live, (st'.timer.heap.cell b).id = 1 → (st'.timer.heap.cell b).interval = 100 ∧
          100 + n * 100 ≤ (st'.timer.heap.cell b).nextTime ∧
          100 ∣ (st'.timer.heap.cell b).nextTime - 100 := by
  have hes : Admissible Schedule.start [] ([cyclic 100 0 .baseTime 4096] ++
      [.process (fun _ => []) 130, .process (fun _ => []) 555]) :=
    ⟨by simp [cyclic, TimerEvent.Bounded, TimerCall.Bounded, BoundedTimes, Within, timeBound],
      by decide +kernel⟩
  obtain ⟨st, hst⟩ := start_runs blank (admissible_append.mp hes).1
  have hentry : ((Running.start blank).run [cyclic 100 0 .baseTime 4096]).map (fun r =>
      (decide (4096 ∈ r.1.timer.heap.live), (r.1.timer.heap.cell 4096).timerPolicy,
        (r.1.timer.heap.cell 4096).id,
        (r.1.timer.heap.cell 4096).interval, (r.1.timer.heap.cell 4096).nextTime)) =
      some (true, .baseTime, 1, 100, 100) := by decide +kernel
  rw [hst] at hentry
  simp only [Option.map_some, Option.some.injEq, Prod.mk.injEq] at hentry
  obtain ⟨hlive, hpolicy, hid, hinterval, htime⟩ := hentry
  have huntil : Until 555 [.process (fun _ => []) 130, .process (fun _ => []) 555] := by simp [Until]
  obtain ⟨st', answers', n, hrun, hcount, hbound, hlater⟩ := cyclic_timer_keeps_pace hes hst
    (of_decide_eq_true hlive) (by rw [hpolicy]; decide) (by simp [NeverModifies]) huntil
  rw [hid] at hcount hlater
  rw [hinterval, htime] at hbound hlater
  refine ⟨st, _, hst, st', answers', n, hrun, hcount, hbound, fun b hb hbid => ?_⟩
  obtain ⟨hiv, hnext, hphase⟩ := hlater b hb hbid
  exact ⟨hiv, hnext, hphase hpolicy⟩

/-! ## The next time -/

/-- The first entry of the queue has the smallest next time. -/
theorem next_least (h : Settled st s fired) :
    (st.timer.heap.live = ∅ ∧ s.next = int64Max) ∨
      ∃ a ∈ st.timer.heap.live, (st.timer.heap.cell a).nextTime = s.next ∧
        ∀ b ∈ st.timer.heap.live, s.next ≤ (st.timer.heap.cell b).nextTime := by
  cases hq : s.queue with
  | nil =>
      refine .inl ⟨Finset.eq_empty_of_forall_notMem fun a ha => ?_, ?_⟩
      · have hmem := (h.live a).mp ha
        rw [hq] at hmem
        cases hmem
      · unfold Schedule.next
        rw [hq]
  | cons i l =>
      have hnext : s.next = i.nextTime := by
        unfold Schedule.next
        rw [hq]
      obtain ⟨hlive, hi⟩ := h.item (hq ▸ List.mem_cons_self : i ∈ s.queue)
      refine .inr ⟨i.addr, hlive, ?_, fun b hb => ?_⟩
      · rw [hnext]
        exact (congrArg Item.nextTime hi).symm
      · have hmem := (h.live b).mp hb
        have hsorted := h.ok.sorted
        rw [hq] at hmem hsorted
        rw [hnext]
        rcases List.mem_cons.mp hmem with heq | hl
        · exact le_of_eq (congrArg Item.nextTime heq).symm
        · have hlt := (List.pairwise_cons.mp hsorted).1 _ hl
          exact (Prod.Lex.toLex_lt_toLex.mp hlt).elim le_of_lt fun he => le_of_eq he.1

/-- **A round leaves nothing overdue**, provided that the callbacks read a clock that is not behind and ask
    for positive intervals. The answer is the next time of the first entry. -/
theorem process_leaves_nothing_overdue {cell : Addr → TimerEntry} {es : List TimerEvent}
    {answers : List TimerAnswer} {script : Script} {now : Int}
    (hes : Admissible Schedule.start [] (es ++ [.process script now]))
    (h : (Running.start cell).run es = some (st, answers))
    (hscript : ∀ fired, ∀ c ∈ script fired, Schedule.Punctual now c) :
    ∃ st' next, timerProcess script st now = some (st', next) ∧
      (∀ a ∈ st'.timer.heap.live, now ≤ (st'.timer.heap.cell a).nextTime) ∧
      ((st'.timer.heap.live = ∅ ∧ next = int64Max) ∨
        ∃ a ∈ st'.timer.heap.live, (st'.timer.heap.cell a).nextTime = next ∧
          ∀ b ∈ st'.timer.heap.live, next ≤ (st'.timer.heap.cell b).nextTime) := by
  obtain ⟨s, hsettled, hround⟩ := settled_of_run hes h
  obtain ⟨st', hst', hsettled', -⟩ := hsettled.process hround
  have hok := hsettled.ok.startRound hsettled.idle now
  have hstart : Schedule.Current now (s.startRound now) := fun i hi => by
    have hlate : now < i.nextTime := by simpa using (List.mem_filter.mp hi).2
    exact le_of_lt hlate
  have hcurrent := hstart.visits hok hscript (s.startRound now).pending.length st.fired
  exact ⟨st', _, hst', fun a ha => hcurrent _ ((hsettled'.live a).mp ha), next_least hsettled'⟩

theorem process_leaves_nothing_overdue_late :
    ∃ st answers, (Running.start blank).run [cyclic 100 0 .baseTime 4096] = some (st, answers) ∧
      ∃ st' next, timerProcess (fun _ => []) st 555 = some (st', next) ∧
        (∀ a ∈ st'.timer.heap.live, 555 ≤ (st'.timer.heap.cell a).nextTime) ∧
        ((st'.timer.heap.live = ∅ ∧ next = int64Max) ∨
          ∃ a ∈ st'.timer.heap.live, (st'.timer.heap.cell a).nextTime = next ∧
            ∀ b ∈ st'.timer.heap.live, next ≤ (st'.timer.heap.cell b).nextTime) := by
  have hes : Admissible Schedule.start [] ([cyclic 100 0 .baseTime 4096] ++ [.process (fun _ => []) 555]) :=
    ⟨by simp [cyclic, TimerEvent.Bounded, TimerCall.Bounded, BoundedTimes, Within, timeBound],
      by decide +kernel⟩
  obtain ⟨st, hst⟩ := start_runs blank (admissible_append.mp hes).1
  exact ⟨st, _, hst, process_leaves_nothing_overdue hes hst (by simp)⟩

/-! ## Batching a new timer -/

/-- For a positive interval the deviation is the smaller of a quarter of it and a second. -/
theorem deviation_of_pos {interval : Int} (h : 0 < interval) :
    deviation interval = min (interval / 4) datetimeSec := by
  unfold deviation
  rw [Int.tdiv_eq_ediv_of_nonneg (le_of_lt h)]
  split_ifs with hlt
  · exact (min_eq_right (le_of_lt hlt)).symm
  · exact (min_eq_left (not_lt.mp hlt)).symm

/-- A new timer in memory. -/
theorem added (h : Settled st s st.fired) {cb : Callback} {application data : Nat} {interval now : Int}
    {baseTime : Option Int} {policy : TimerPolicy} {a : Addr} {es : List TimerEvent}
    (hes : Admissible s st.fired
      (.call (.add (some cb) application data interval now baseTime policy (some a)) :: es))
    {iv nt : Int} (hfirst : firstTime interval now baseTime policy = some (iv, nt))
    (ha : a ∉ st.timer.heap.live) :
    ∃ t', timerAdd st.timer (some cb) application data interval now baseTime policy (some a) =
        some (t', .good, some (st.timer.idCounter + 1)) ∧
      t'.heap.live = insert a st.timer.heap.live ∧
      itemAt t'.heap a = ⟨a, st.timer.idCounter + 1, policy,
        batchTime s.queue ⟨a, st.timer.idCounter + 1, policy, nt, iv, some cb, application, data⟩, iv,
        some cb, application, data⟩ ∧
      ∀ b ∈ st.timer.heap.live, itemAt t'.heap b = itemAt st.timer.heap b := by
  have hbounded : BoundedTimes interval now baseTime := (List.forall_mem_cons.mp hes.bounded).1
  obtain ⟨T, I, hsim⟩ := h.sim
  obtain ⟨t', ht', T', I', hsim', -⟩ :=
    timerAdd_sim hsim h.tame (some cb) application data hbounded policy (some a)
    hes.few.1
  have hfresh : a ∉ s.items.map Item.addr := hsim.not_live.mp ha
  obtain ⟨i, hi⟩ : ∃ i : Item, i = ⟨a, st.timer.idCounter + 1, policy,
      batchTime s.queue ⟨a, st.timer.idCounter + 1, policy, nt, iv, some cb, application, data⟩, iv, some cb,
      application, data⟩ := ⟨_, rfl⟩
  have hadd : s.add (some cb) application data interval now baseTime policy (some a) =
      ({ s with queue := enqueue s.queue i, idCounter := s.idCounter + 1 }, .good,
        some (s.idCounter + 1)) := by
    unfold Schedule.add
    rw [hfirst, hi, h.counter]
    exact if_neg hfresh
  have hok := h.ok.add (some cb) application data interval now baseTime policy (some a)
  have htame : (s.add (some cb) application data interval now baseTime policy (some a)).1.Tame :=
    h.tame.call (c := .add (some cb) application data interval now baseTime policy (some a)) hbounded
  rw [hadd] at hsim' ht' hok htame
  have hsettled' : Settled ⟨t', st.fired⟩
      { s with queue := enqueue s.queue i, idCounter := s.idCounter + 1 } st.fired :=
    ⟨⟨T', I', hsim'⟩, hok, htame, h.idle, rfl⟩
  have hmem : ∀ j ∈ s.queue, j = itemAt t'.heap j.addr := fun j hj =>
    (hsettled'.item (mem_enqueue.mpr (.inr hj))).2
  rw [← h.counter] at ht'
  obtain ⟨hlive, hitem⟩ := hsettled'.item (mem_enqueue.mpr (.inl rfl) : i ∈ enqueue s.queue i)
  have hia : i.addr = a := by rw [hi]
  rw [hia] at hlive hitem
  refine ⟨t', ht', Finset.ext fun b => ?_, hi ▸ hitem.symm, fun b hb => (hmem _ ((h.live b).mp hb)).symm⟩
  rw [Finset.mem_insert]
  constructor
  · intro hb
    rcases mem_enqueue.mp ((hsettled'.live b).mp hb) with hbi | hb
    · exact .inl ((congrArg Item.addr hbi).trans hia)
    · exact .inr (h.item hb).1
  · rintro (rfl | hb)
    · exact hlive
    · exact (hsettled'.item (mem_enqueue.mpr (.inr ((h.live b).mp hb)))).1

/-- Intervals that fit divide one another, one way or the other. -/
theorem fits_dvd {te compare : Int} (h : fits te compare = true) : te ∣ compare ∨ compare ∣ te := by
  unfold fits at h
  split_ifs at h
  · exact .inl (of_decide_eq_true h)
  · exact .inr (of_decide_eq_true h)

/-- **What batching may do.** The next time of a new timer is the one asked for, or, with the current-time
    policy, the next time of an allocated timer whose interval is a multiple or a divisor of the new one, at
    most a quarter of the interval and one second away; the other timers stay as they are. -/
theorem batching_bounds {cell : Addr → TimerEntry} {es : List TimerEvent} {answers : List TimerAnswer}
    {cb : Callback} {application data : Nat} {interval now : Int} {baseTime : Option Int}
    {policy : TimerPolicy} {iv nt : Int} {a : Addr}
    (hes : Admissible Schedule.start []
      (es ++ [.call (.add (some cb) application data interval now baseTime policy (some a))]))
    (h : (Running.start cell).run es = some (st, answers))
    (hfirst : firstTime interval now baseTime policy = some (iv, nt)) (ha : a ∉ st.timer.heap.live) :
    ∃ t', timerAdd st.timer (some cb) application data interval now baseTime policy (some a) =
        some (t', .good, some (st.timer.idCounter + 1)) ∧
      t'.heap.live = insert a st.timer.heap.live ∧
      ((t'.heap.cell a).nextTime = nt ∨
        policy = .currentTime ∧ nt - min (iv / 4) datetimeSec ≤ (t'.heap.cell a).nextTime ∧
          (t'.heap.cell a).nextTime ≤ nt + min (iv / 4) datetimeSec ∧
          ∃ b ∈ st.timer.heap.live, (t'.heap.cell a).nextTime = (st.timer.heap.cell b).nextTime ∧
            (iv ∣ (st.timer.heap.cell b).interval ∨ (st.timer.heap.cell b).interval ∣ iv)) ∧
      ∀ b ∈ st.timer.heap.live, itemAt t'.heap b = itemAt st.timer.heap b := by
  obtain ⟨s, hsettled, hadd⟩ := settled_of_run hes h
  obtain ⟨t', ht', hlive', hitem, hothers⟩ := added hsettled hadd hfirst ha
  have htime : (t'.heap.cell a).nextTime = _ := congrArg Item.nextTime hitem
  refine ⟨t', ht', hlive', ?_, hothers⟩
  rcases Schedule.batchTime_cases s.queue ⟨a, st.timer.idCounter + 1, policy, nt, iv, some cb, application,
    data⟩ with
    hsame | ⟨c, hc, hbatch, hpol, hearly, hlate, hfit⟩
  · exact .inl (htime.trans hsame)
  · have hpos : 0 < iv := firstTime_interval hfirst (by rw [show policy = .currentTime from hpol]; decide)
    have hdev : deviation iv = min (iv / 4) datetimeSec := deviation_of_pos hpos
    obtain ⟨hlive, hci⟩ := hsettled.item hc
    refine .inr ⟨hpol, ?_, ?_, c.addr, hlive, ?_, ?_⟩
    · rw [htime, hbatch, ← hdev]
      exact hearly
    · rw [htime, hbatch, ← hdev]
      exact hlate
    · rw [htime, hbatch]
      exact congrArg Item.nextTime hci
    · have hiv : c.interval = (st.timer.heap.cell c.addr).interval := congrArg Item.interval hci
      exact fits_dvd (hiv ▸ hfit)

theorem batching_bounds_second :
    ∃ st answers, (Running.start blank).run [cyclic 100 0 .currentTime 8192] = some (st, answers) ∧
      ∃ t', timerAdd st.timer (some 7) 0 0 100 10 none .currentTime (some 12288) =
          some (t', .good, some (st.timer.idCounter + 1)) ∧
        t'.heap.live = insert 12288 st.timer.heap.live ∧
        ((t'.heap.cell 12288).nextTime = 110 ∨
          TimerPolicy.currentTime = .currentTime ∧
          110 - min (100 / 4) datetimeSec ≤ (t'.heap.cell 12288).nextTime ∧
            (t'.heap.cell 12288).nextTime ≤ 110 + min (100 / 4) datetimeSec ∧
            ∃ b ∈ st.timer.heap.live, (t'.heap.cell 12288).nextTime = (st.timer.heap.cell b).nextTime ∧
              (100 ∣ (st.timer.heap.cell b).interval ∨ (st.timer.heap.cell b).interval ∣ 100)) ∧
        ∀ b ∈ st.timer.heap.live, itemAt t'.heap b = itemAt st.timer.heap b := by
  have hes : Admissible Schedule.start [] ([cyclic 100 0 .currentTime 8192] ++
    [cyclic 100 10 .currentTime 12288]) :=
    ⟨by simp [cyclic, TimerEvent.Bounded, TimerCall.Bounded, BoundedTimes, Within, timeBound],
      by decide +kernel⟩
  obtain ⟨st, hst⟩ := start_runs blank (admissible_append.mp hes).1
  have hfree : ((Running.start blank).run [cyclic 100 0 .currentTime 8192]).map (fun r =>
      decide (12288 ∉ r.1.timer.heap.live)) = some true := by decide +kernel
  rw [hst] at hfree
  exact ⟨st, _, hst, batching_bounds hes hst rfl (of_decide_eq_true (Option.some.inj hfree))⟩

/-- The window comparison sends the search away from the window. -/
theorem visits_outside {h : Heap TimerEntry} {r : Addr} {left right : BinaryTree Addr} {earliest latest : Int}
    (hsorted : (inorder (.node r left right)).Pairwise fun a b => elemKey timerTree h a <
      elemKey timerTree h b)
    (hout : (h.cell r).nextTime < earliest ∨ latest < (h.cell r).nextTime) :
    visits (fun a => cmpBatchWindow earliest latest (h.cell a).nextTime) (.node r left right) = [] := by
  obtain ⟨-, hright, hleft⟩ := List.pairwise_append.mp hsorted
  have hle : ∀ {a b : Addr}, elemKey timerTree h a < elemKey timerTree h b →
    (h.cell a).nextTime ≤ (h.cell b).nextTime :=
    fun hab => (Prod.Lex.toLex_lt_toLex.mp hab).elim le_of_lt fun he => le_of_eq he.1
  refine List.eq_nil_iff_forall_not_mem.mpr fun c hc => ?_
  unfold visits at hc
  by_cases hearly : (h.cell r).nextTime < earliest
  · have horder : cmpBatchWindow earliest latest (h.cell r).nextTime = .less := if_pos hearly
    simp only [horder, ne_eq, reduceCtorEq, not_false_eq_true, if_true, not_true, if_false,
      List.append_nil] at hc
    obtain ⟨hmem, hin⟩ := mem_of_visits hc
    have hcr := hle (hleft c hmem r List.mem_cons_self)
    have hwindow := (cmpBatchWindow_eq hin).1
    omega
  · have hlate : latest < (h.cell r).nextTime := hout.resolve_left hearly
    have horder : cmpBatchWindow earliest latest (h.cell r).nextTime = .more :=
      (if_neg hearly).trans (if_pos hlate)
    simp only [horder, ne_eq, reduceCtorEq, not_false_eq_true, if_true, not_true, if_false,
      List.nil_append] at hc
    obtain ⟨hmem, hin⟩ := mem_of_visits hc
    have hrc := hle ((List.pairwise_cons.mp hright).1 c hmem)
    have hwindow := (cmpBatchWindow_eq hin).2
    omega

/-- **What batching overlooks.** The window comparison sends the search the wrong way, so that nothing is
    found unless the timer at the root of the time-sorted tree is in the window: without it the next time is
    the one asked for, whichever other timers are in the window. -/
theorem batching_needs_the_root {cell : Addr → TimerEntry} {es : List TimerEvent} {answers : List TimerAnswer}
    {cb : Callback} {application data : Nat} {interval now : Int} {baseTime : Option Int}
    {policy : TimerPolicy} {iv nt : Int} {a : Addr}
    (hes : Admissible Schedule.start []
      (es ++ [.call (.add (some cb) application data interval now baseTime policy (some a))]))
    (h : (Running.start cell).run es = some (st, answers))
    (hfirst : firstTime interval now baseTime policy = some (iv, nt)) (ha : a ∉ st.timer.heap.live)
    (hroot : ∀ r, st.timer.tree = some r → (st.timer.heap.cell r).nextTime < nt - min (iv / 4) datetimeSec ∨
      nt + min (iv / 4) datetimeSec < (st.timer.heap.cell r).nextTime) :
    ∃ t', timerAdd st.timer (some cb) application data interval now baseTime policy (some a) =
        some (t', .good, some (st.timer.idCounter + 1)) ∧ (t'.heap.cell a).nextTime = nt := by
  obtain ⟨s, hsettled, hadd⟩ := settled_of_run hes h
  obtain ⟨t', ht', -, hitem, -⟩ := added hsettled hadd hfirst ha
  refine ⟨t', ht', (congrArg Item.nextTime hitem).trans ?_⟩
  unfold batchTime
  by_cases hp : policy ≠ .currentTime
  · exact if_pos hp
  · rw [if_neg hp]
    have hpos : 0 < iv := firstTime_interval hfirst (by rw [not_not.mp hp]; decide)
    have hdev : deviation iv = min (iv / 4) datetimeSec := deviation_of_pos hpos
    obtain ⟨T, I, hsim⟩ := hsettled.sim
    have hwindow : windowOf s.queue (nt - deviation iv) (nt + deviation iv) = [] := by
      have heq := windowOf_eq hsim.tree (nt - deviation iv) (nt + deviation iv)
      rw [hsim.queue]
      refine heq.trans (List.map_eq_nil_iff.mpr ?_)
      cases hT : T with
      | nil => rfl
      | node r left right =>
          have hrep := hsim.tree.rep
          rw [hT] at hrep
          rw [hdev]
          exact visits_outside (hT ▸ hsim.tree.zip.sorted) (hroot r hrep.1)
    exact congrArg (batchScan iv nt) hwindow

/-- Two timers of the interval 100, 10 units apart, are not batched because of a third one. -/
theorem batching_needs_the_root_third :
    ∃ st answers, (Running.start blank).run
        [cyclic 1000 0 .currentTime 8192, cyclic 100 0 .currentTime 4096] = some (st, answers) ∧
      (st.timer.heap.cell 4096).interval = 100 ∧ (st.timer.heap.cell 4096).nextTime = 100 ∧
      ∃ t', timerAdd st.timer (some 7) 0 0 100 10 none .currentTime (some 12288) =
          some (t', .good, some (st.timer.idCounter + 1)) ∧ (t'.heap.cell 12288).nextTime = 110 := by
  have hes : Admissible Schedule.start [] ([cyclic 1000 0 .currentTime 8192,
    cyclic 100 0 .currentTime 4096] ++ [cyclic 100 10 .currentTime 12288]) :=
    ⟨by simp [cyclic, TimerEvent.Bounded, TimerCall.Bounded, BoundedTimes, Within, timeBound],
      by decide +kernel⟩
  obtain ⟨st, hst⟩ := start_runs blank (admissible_append.mp hes).1
  have hentry :
    ((Running.start blank).run [cyclic 1000 0 .currentTime 8192, cyclic 100 0 .currentTime 4096]).map
      (fun r => (decide (12288 ∉ r.1.timer.heap.live), r.1.timer.tree, (r.1.timer.heap.cell 8192).nextTime,
        (r.1.timer.heap.cell 4096).interval, (r.1.timer.heap.cell 4096).nextTime)) =
      some (true, some 8192, 1000, 100, 100) := by decide +kernel
  rw [hst] at hentry
  simp only [Option.map_some, Option.some.injEq, Prod.mk.injEq] at hentry
  obtain ⟨hfree, htree, hroot, hinterval, htime⟩ := hentry
  refine ⟨st, _, hst, hinterval, htime,
    batching_needs_the_root hes hst rfl (of_decide_eq_true hfree) fun r hr => ?_⟩
  obtain rfl : 8192 = r := Option.some.inj (htree.symm.trans hr)
  rw [hroot]
  exact .inr (by decide)

end Open62541
end Esp32Probes
