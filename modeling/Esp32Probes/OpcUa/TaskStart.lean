import Esp32Probes.Lib.Machine

/-!
# `OpcUa.TaskStart` — starting the server task on GOT_IP events

`got_ip_event_handler` creates `opcua_server_task` unless `opcua_task_started` is set, and sets it once
`xTaskCreateWithCaps` has succeeded. The task can delete itself again when `UA_Server_new` or
`UA_Server_run_startup` fails, and nothing clears the flag then.

The handler and the tasks are one machine, so a task may run, and even be gone, before the handler has set
the flag. `Started` is the invariant; `task_start_iff` says that there is never a second task, and that a
GOT_IP event without a task leads to an attempt to create one exactly until a task has failed.
-/

namespace Esp32Probes
namespace OpcUa
namespace TaskStart

open Machine

/-! ## The handler and the tasks -/

/-- Where the handler stands: between two events, before `xTaskCreateWithCaps`, or before the assignment to
    `opcua_task_started`. Events are delivered one at a time. -/
inductive HandlerPc
  | idle
  | creating
  | setting
  deriving DecidableEq

/-- What a live `opcua_server_task` does next: `UA_Server_new`, then (with the nodes added)
    `UA_Server_run_startup`, then the loop. -/
inductive TaskPhase
  | serverNew
  | startup
  | loop
  deriving DecidableEq

/-- The event handler with its flag, `opcua_running`, and the tasks that live. -/
structure System where
  handler          : HandlerPc
  opcuaTaskStarted : Bool
  opcuaRunning     : Bool
  tasks            : List TaskPhase
  deriving DecidableEq

/-- After `esp_event_handler_register`; nothing assigns `opcua_running` later. -/
def init : System := ⟨.idle, false, true, []⟩

/-- A GOT_IP event, the result of the task creation, the assignment to the flag, or a step of a task with
    the result of the call it makes. -/
inductive Event
  | gotIp
  | created (ok : Bool)
  | setFlag
  | task (i : Nat) (ok : Bool)
  deriving DecidableEq

/-- What a step is seen to do. -/
inductive Report
  | attempt
  | skipped
  | failed
  | other
  deriving DecidableEq

/-- One step of a task in the given phase; `none` as phase means that the task deletes itself. -/
def taskStep (running ok : Bool) : TaskPhase → Option TaskPhase × Report
  | .serverNew => if ok then (some .startup, .other) else (none, .failed)
  | .startup => if ok then (some .loop, .other) else (none, .failed)
  | .loop => if running then (some .loop, .other) else (none, .other)

def step (s : System) : Event → Option (System × Report)
  | .gotIp =>
    if s.handler ≠ .idle then none
    else if s.opcuaTaskStarted then some (s, .skipped)
    else some ({ s with handler := .creating }, .attempt)
  | .created ok =>
    if s.handler ≠ .creating then none
    else if ok then some ({ s with handler := .setting, tasks := s.tasks ++ [.serverNew] }, .other)
    else some ({ s with handler := .idle }, .other)
  | .setFlag =>
    if s.handler ≠ .setting then none
    else some ({ s with handler := .idle, opcuaTaskStarted := true }, .other)
  | .task i ok =>
    match s.tasks[i]? with
    | none => none
    | some phase =>
      match taskStep s.opcuaRunning ok phase with
      | (some phase', report) => some ({ s with tasks := s.tasks.set i phase' }, report)
      | (none, report) => some ({ s with tasks := s.tasks.eraseIdx i }, report)

/-- The steps, one constructor a branch of the source. -/
inductive Stepped (s : System) : Event → System → Report → Prop
  | skip (hpc : s.handler = .idle) (hflag : s.opcuaTaskStarted = true) : Stepped s .gotIp s .skipped
  | attempt (hpc : s.handler = .idle) (hflag : s.opcuaTaskStarted = false) :
      Stepped s .gotIp { s with handler := .creating } .attempt
  | created (hpc : s.handler = .creating) :
      Stepped s (.created true) { s with handler := .setting, tasks := s.tasks ++ [.serverNew] } .other
  | notCreated (hpc : s.handler = .creating) : Stepped s (.created false) { s with handler := .idle } .other
  | setFlag (hpc : s.handler = .setting) :
      Stepped s .setFlag { s with handler := .idle, opcuaTaskStarted := true } .other
  | proceed (i : Nat) (ok : Bool) {phase : TaskPhase} (hi : s.tasks[i]? = some phase) (phase' : TaskPhase) :
      Stepped s (.task i ok) { s with tasks := s.tasks.set i phase' } .other
  | fail (i : Nat) {phase : TaskPhase} (hi : s.tasks[i]? = some phase) :
      Stepped s (.task i false) { s with tasks := s.tasks.eraseIdx i } .failed
  | stop (i : Nat) (ok : Bool) (hrun : s.opcuaRunning = false) :
      Stepped s (.task i ok) { s with tasks := s.tasks.eraseIdx i } .other

theorem stepped_of_step {s s' : System} {e : Event} {r : Report} (h : step s e = some (s', r)) :
    Stepped s e s' r := by
  cases e with
  | gotIp =>
      simp only [step] at h
      split_ifs at h with hpc hflag
      · cases h
        exact .skip (not_not.mp hpc) hflag
      · cases h
        exact .attempt (not_not.mp hpc) (by simpa using hflag)
  | created ok =>
      simp only [step] at h
      split_ifs at h with hpc hok
      · cases h
        subst hok
        exact .created (not_not.mp hpc)
      · cases h
        obtain rfl : ok = false := by simpa using hok
        exact .notCreated (not_not.mp hpc)
  | setFlag =>
      simp only [step] at h
      split_ifs at h with hpc
      cases h
      exact .setFlag (not_not.mp hpc)
  | task i ok =>
      simp only [step] at h
      cases hi : s.tasks[i]? with
      | none => rw [hi] at h; cases h
      | some phase =>
          rw [hi] at h
          cases phase with
          | serverNew =>
              cases ok with
              | true => cases h; exact .proceed i true hi .startup
              | false => cases h; exact .fail i hi
          | startup =>
              cases ok with
              | true => cases h; exact .proceed i true hi .loop
              | false => cases h; exact .fail i hi
          | loop =>
              cases hrun : s.opcuaRunning with
              | true =>
                  have hloop : taskStep s.opcuaRunning ok .loop = (some .loop, .other) := by rw [hrun]; rfl
                  simp only [hloop] at h
                  cases h
                  exact .proceed i ok hi .loop
              | false =>
                  have hexit : taskStep s.opcuaRunning ok .loop = (none, .other) := by rw [hrun]; rfl
                  simp only [hexit] at h
                  cases h
                  exact .stop i ok hrun

/-! ## The invariant -/

/-- A task has been created, whether or not the flag says so yet. -/
def Created (s : System) : Prop := s.opcuaTaskStarted = true ∨ s.handler = .setting

/-- The states that can be reached, by what has been reported: no task was ever created, or one was and is
    alive, or one was and has failed. -/
inductive Started (os : List Report) (s : System) : Prop
  | never (hflag : s.opcuaTaskStarted = false) (hpc : s.handler ≠ .setting) (htasks : s.tasks = [])
      (hos : .failed ∉ os)
  | alive (hflag : Created s) (hpc : s.handler ≠ .creating) (phase : TaskPhase) (htasks : s.tasks = [phase])
      (hos : .failed ∉ os)
  | failed (hflag : Created s) (hpc : s.handler ≠ .creating) (htasks : s.tasks = []) (hos : .failed ∈ os)

theorem Started.length_le {os : List Report} {s : System} (h : Started os s) : s.tasks.length ≤ 1 := by
  cases h with
  | never _ _ htasks _ => rw [htasks]; exact Nat.zero_le 1
  | alive _ _ phase htasks _ => rw [htasks]; exact Nat.le_refl 1
  | failed _ _ htasks _ => rw [htasks]; exact Nat.zero_le 1

theorem failed_mem_snoc {os : List Report} {r : Report} (hr : r ≠ .failed) :
    .failed ∈ os ++ [r] ↔ .failed ∈ os := by
  simp [hr.symm]

/-- A report of anything but a failure changes nothing by itself. -/
theorem Started.snoc {os : List Report} {s : System} {r : Report} (h : Started os s) (hr : r ≠ .failed) :
    Started (os ++ [r]) s := by
  cases h with
  | never hf hp ht ho => exact .never hf hp ht (fun hm => ho ((failed_mem_snoc hr).mp hm))
  | alive hf hp phase ht ho => exact .alive hf hp phase ht (fun hm => ho ((failed_mem_snoc hr).mp hm))
  | failed hf hp ht ho => exact .failed hf hp ht ((failed_mem_snoc hr).mpr ho)

/-- The task that moves is the only one. -/
theorem eq_zero_of_singleton {tasks : List TaskPhase} {phase phase' : TaskPhase} {i : Nat}
    (ht : tasks = [phase]) (hi : tasks[i]? = some phase') : i = 0 := by
  rw [ht] at hi
  cases i with
  | zero => rfl
  | succ i => cases hi

theorem opcuaRunning_step {s s' : System} {e : Event} {r : Report} (h : step s e = some (s', r)) :
    s'.opcuaRunning = s.opcuaRunning := by
  cases stepped_of_step h <;> rfl

theorem started_step {os : List Report} {s s' : System} {e : Event} {r : Report} (h : Started os s)
    (hrun : s.opcuaRunning = true) (hstep : step s e = some (s', r)) : Started (os ++ [r]) s' := by
  cases stepped_of_step hstep with
  | skip hpc hflag => exact h.snoc (by decide)
  | attempt hpc hflag =>
      cases h.snoc (r := .attempt) (by decide) with
      | never hf _ ht ho => exact .never hf (by simp) ht ho
      | alive hf _ _ _ _ => rcases hf with h | h <;> simp_all
      | failed hf _ _ _ => rcases hf with h | h <;> simp_all
  | created hpc =>
      -- the handler stands before `xTaskCreateWithCaps` only if no task was ever created
      cases h.snoc (r := .other) (by decide) with
      | never _ _ ht ho => exact .alive (Or.inr rfl) (by simp) .serverNew (by simp [ht]) ho
      | alive _ hp _ _ _ => exact absurd hpc hp
      | failed _ hp _ _ => exact absurd hpc hp
  | notCreated hpc =>
      cases h.snoc (r := .other) (by decide) with
      | never hf _ ht ho => exact .never hf (by simp) ht ho
      | alive _ hp _ _ _ => exact absurd hpc hp
      | failed _ hp _ _ => exact absurd hpc hp
  | setFlag hpc =>
      -- by now the task may be gone again
      cases h.snoc (r := .other) (by decide) with
      | never _ hp _ _ => exact absurd hpc hp
      | alive _ _ phase ht ho => exact .alive (Or.inl rfl) (by simp) phase ht ho
      | failed _ _ ht ho => exact .failed (Or.inl rfl) (by simp) ht ho
  | proceed i ok hi phase' =>
      cases h.snoc (r := .other) (by decide) with
      | never _ _ ht _ => rw [ht] at hi; cases hi
      | alive hf hp phase ht ho =>
          obtain rfl : i = 0 := eq_zero_of_singleton ht hi
          exact .alive hf hp phase' (by simp [ht]) ho
      | failed _ _ ht _ => rw [ht] at hi; cases hi
  | fail i hi =>
      cases h with
      | never _ _ ht _ => rw [ht] at hi; cases hi
      | alive hf hp phase ht _ =>
          obtain rfl : i = 0 := eq_zero_of_singleton ht hi
          exact .failed hf hp (by simp [ht]) (List.mem_append_right _ List.mem_cons_self)
      | failed _ _ ht _ => rw [ht] at hi; cases hi
  | stop i ok hstop => rw [hrun] at hstop; cases hstop

theorem started_run {es : List Event} {os : List Report} {t : System}
    (hrun : run step init es = some (t, os)) :
    Started os t := by
  have hinit : Started [] init ∧ init.opcuaRunning = true :=
    ⟨.never rfl (by decide) rfl (by simp), rfl⟩
  refine (run_invariant (I := fun _ os s => Started os s ∧ s.opcuaRunning = true) hinit ?_ hrun).1
  rintro _ os m e m' r ⟨h, hrunning⟩ hs
  refine ⟨started_step h hrunning hs, ?_⟩
  rw [opcuaRunning_step hs]
  exact hrunning

/-! ## The retries -/

/-- If the step handles a GOT_IP event while no task is alive, it attempts to create one. -/
def Retries (s : System) (e : Event) : Prop :=
  e = .gotIp → s.tasks = [] → ∀ s' r, step s e = some (s', r) → r = .attempt

/-- The step handles no GOT_IP event after a task has failed. -/
def NoEventAfterFailure (os : List Report) (s : System) (e : Event) : Prop :=
  e = .gotIp → s.handler = .idle → .failed ∉ os

theorem retries_iff {os : List Report} {s : System} (h : Started os s) (e : Event) :
    Retries s e ↔ NoEventAfterFailure os s e := by
  constructor
  · rintro hr rfl hpc hfailed
    cases h with
    | never _ _ _ ho => exact ho hfailed
    | alive _ _ _ _ ho => exact ho hfailed
    | failed hf _ ht _ =>
        have hflag : s.opcuaTaskStarted = true := by
          rcases hf with h | h
          · exact h
          · rw [hpc] at h; cases h
        exact absurd (hr rfl ht s .skipped (by simp [step, hpc, hflag])) (by decide)
  · rintro hn rfl ht s' r hstep
    cases stepped_of_step hstep with
    | attempt _ _ => rfl
    | skip hpc hflag =>
        cases h with
        | never hf _ _ _ => rw [hf] at hflag; cases hflag
        | alive _ _ phase ht' _ => rw [ht] at ht'; cases ht'
        | failed _ _ _ ho => exact absurd ho (hn rfl hpc)

/-- **When GOT_IP events restart the server.** In every run at most one task is alive; and every GOT_IP event
    handled while none is alive attempts to create one, if and only if no GOT_IP event is handled after a
    created task has failed to start. -/
theorem task_start_iff {es : List Event} {os : List Report} {t : System}
    (hrun : run step init es = some (t, os)) :
    t.tasks.length ≤ 1 ∧
      (Along step init es (fun _ _ s e => Retries s e) ↔
        Along step init es (fun _ os s e => NoEventAfterFailure os s e)) := by
  refine ⟨(started_run hrun).length_le, ?_⟩
  apply along_congr (I := fun _ os s => Started os s)
  · intro _ _ _ h
    exact started_run h
  · intro _ _ _ e h
    exact retries_iff h e

/-- A run that reports no failure handles no event after one. -/
theorem noEventAfterFailure_of_notMem {es : List Event} {os : List Report} {t : System}
    (hrun : run step init es = some (t, os)) (hos : .failed ∉ os) :
    Along step init es (fun _ os s e => NoEventAfterFailure os s e) := by
  rintro pre e post m os₁ rfl hpre _ _ hfailed
  obtain ⟨m', os₁', os₂, hpre', _, rfl⟩ := run_append_iff.mp hrun
  rw [hpre] at hpre'
  cases hpre'
  exact hos (List.mem_append_left _ hfailed)

/-- A failed creation is retried at the next event. -/
theorem task_start_retry : Along step init [.gotIp, .created false, .gotIp] (fun _ _ s e => Retries s e) := by
  have hrun : run step init [.gotIp, .created false, .gotIp]
      = some (⟨.creating, false, true, []⟩, [.attempt, .other, .attempt]) := rfl
  exact (task_start_iff hrun).2.mpr (noEventAfterFailure_of_notMem hrun (by decide))

/-- **A failed server is not restarted.** The task fails in `UA_Server_new`, and the next GOT_IP event is
    handled without an attempt to create a new one. -/
theorem failed_server_not_restarted :
    run step init [.gotIp, .created true, .setFlag, .task 0 false]
        = some (⟨.idle, true, true, []⟩, [.attempt, .other, .other, .failed]) ∧
      step ⟨.idle, true, true, []⟩ .gotIp = some (⟨.idle, true, true, []⟩, .skipped) := by
  decide

end TaskStart
end OpcUa
end Esp32Probes
