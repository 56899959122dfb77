import Esp32Probes.OpcUa.ServerTask

/-!
# `OpcUa.CommandOrder` — when a reset takes effect among the client writes

Applied one by one (`oneByOne`), a write of 1 to `reset_command` sets `simulated_value` to 1234 at its own
place in the order. The task does not work that way: it polls after a whole batch, so a reset acts at the
end of its batch, and only if the last write to `reset_command` in it is a 1 (`batchEffect`).

`simulated_value_order` says that this is exactly what a run computes, and that it is the order of the
writes whenever nothing follows a reset within its batch. `reset_overwrites_later_write` shows that the
condition is needed.
-/

namespace Esp32Probes
namespace OpcUa

open Machine WriteLog

/-! ## The two orders -/

/-- One client write, taking effect where it stands. -/
def applyWrite (value : Int32) : Writable × Int32 → Int32
  | (.simulatedValue, v) => v
  | (.resetCommand, v) => if v = 1 then 1234 else value

/-- `simulated_value` after some writes, applied one by one. -/
def oneByOne (value : Int32) (log : List (Writable × Int32)) : Int32 := log.foldl applyWrite value

/-- `simulated_value` after a batch of writes and the poll that follows it. -/
def batchEffect (value : Int32) (log : List (Writable × Int32)) : Int32 :=
  if latest log .resetCommand = some 1 then 1234 else (latest log .simulatedValue).getD value

/-- Nothing follows a reset in the batch. -/
def ResetLast (log : List (Writable × Int32)) : Prop := log.Pairwise (fun w _ => w ≠ (.resetCommand, 1))

/-- The writes of a batch whose values are all Int32. -/
def clientLog (batch : List Request) : List (Writable × Int32) :=
  (acceptedWrites batch).map (fun w => (w.1, w.2.int32?.getD 0))

/-- Clients write Int32 values with Good status. -/
def WritesInt32 (batch : List Request) : Prop := ∀ w ∈ acceptedWrites batch, ∃ v, w.2.Holds v

/-! ## When they agree -/

theorem oneByOne_append (value : Int32) (log log' : List (Writable × Int32)) :
    oneByOne value (log ++ log') = oneByOne (oneByOne value log) log' := List.foldl_append

theorem batchEffect_eq_oneByOne (value : Int32) {log : List (Writable × Int32)} (h : ResetLast log) :
    batchEffect value log = oneByOne value log := by
  induction log using List.reverseRecOn with
  | nil => rfl
  | append_singleton log w ih =>
      obtain ⟨hlog, _, hw⟩ := List.pairwise_append.mp h
      -- a reset before `w` would be followed by `w`
      have hnone : latest log .resetCommand ≠ some 1 := by
        intro hl
        exact hw _ (mem_of_latest hl) w List.mem_cons_self rfl
      have ih := ih hlog
      rw [batchEffect, if_neg hnone] at ih
      rw [oneByOne_append, ← ih, batchEffect, latest_snoc, latest_snoc]
      obtain ⟨name, v⟩ := w
      cases name with
      | simulatedValue => simp [oneByOne, applyWrite, hnone]
      | resetCommand => by_cases hv : v = 1 <;> simp [oneByOne, applyWrite, hv]

theorem foldl_batchEffect (value : Int32) {logs : List (List (Writable × Int32))}
    (h : ∀ log ∈ logs, ResetLast log) : logs.foldl batchEffect value = oneByOne value logs.flatten := by
  induction logs generalizing value with
  | nil => rfl
  | cons log logs ih =>
      obtain ⟨hlog, hlogs⟩ := List.forall_mem_cons.mp h
      rw [List.foldl_cons, List.flatten_cons, oneByOne_append, batchEffect_eq_oneByOne value hlog]
      exact ih _ hlogs

/-! ## What a run computes -/

/-- The batches served so far, as lists of writes. -/
def logs (es : List Event) : List (List (Writable × Int32)) := (batches es).map clientLog

theorem logs_snoc (es : List Event) (e : Event) :
    logs (es ++ [e]) = logs es ++ (e.batch?.map clientLog).toList := by
  unfold logs
  rw [batches_snoc, List.map_append]
  cases e <;> rfl

/-- The value that `simulated_value` has, or will have once a command in the mailbox is executed. -/
structure Ordered (es : List Event) (s : Server) : Prop where
  nodes : ∃ v r, (s.nodes .simulatedValue).Holds v ∧ (s.nodes .resetCommand).Holds r ∧
    (if r = 1 then 1234 else v) = (logs es).foldl batchEffect 1234 ∧ (s.pc = .serve → r ≠ 1)

variable {lib : Open62541}

theorem ordered_init (sd : SdGlobals) : Ordered [] (Server.init sd) where
  nodes := ⟨1234, 0, DataValue.holds_initial _, DataValue.holds_initial _, rfl, fun _ => by decide⟩

/-- A node that held an Int32 holds the last one written to it in the batch. -/
theorem holds_runIterate {nodes : Nodes} {batch : List Request} (hb : WritesInt32 batch) {w : Writable}
    {v : Int32} (h : (nodes w.node).Holds v) :
    ((runIterate nodes batch).1 w.node).Holds ((latest (clientLog batch) w).getD v) := by
  rw [runIterate_latest, clientLog, latest_map (fun dv : DataValue => dv.int32?.getD 0)]
  cases hl : latest (acceptedWrites batch) w with
  | none => exact h
  | some dv =>
      obtain ⟨x, hx⟩ := hb _ (mem_of_latest hl)
      change dv.Holds x at hx
      change dv.Holds (dv.int32?.getD 0)
      rw [hx.int32?]
      exact hx

/-- The events matter only through the batches in them. -/
theorem Ordered.of_logs_eq {es es' : List Event} {s : Server} (h : Ordered es s)
    (hlogs : logs es' = logs es) :
    Ordered es' s := by
  obtain ⟨v, r, hv, hr, hval, hpc⟩ := h.nodes
  exact ⟨v, r, hv, hr, by rw [hlogs, hval], hpc⟩

theorem Ordered.quiet {es : List Event} {s s' : Server} (h : Ordered es s) (hq : Quiet s s') :
    Ordered es s' := by
  obtain ⟨v, r, hv, hr, hval, _⟩ := h.nodes
  refine ⟨v, r, ?_, ?_, hval, fun hpc => absurd hpc hq.pc⟩
  · rw [hq.nodes _ (Or.inl rfl)]; exact hv
  · rw [hq.nodes _ (Or.inr (Or.inl rfl))]; exact hr

/-- **A poll** executes the command in the mailbox, whose value was already accounted for. -/
theorem Ordered.poll {es : List Event} {s : Server} (h : Ordered es s) {ret : Node → StatusCode}
    (hw : ∀ n, ret n = good) :
    Ordered es ⟨.serve, (processCommandNodes lib s.globals s.nodes ret).1,
      (processCommandNodes lib s.globals s.nodes ret).2⟩ := by
  obtain ⟨v, r, hv, hr, hval, _⟩ := h.nodes
  by_cases hone : r = 1
  · have hp : Pending lib (s.nodes .resetCommand) := hr.pending_iff.mpr hone
    obtain ⟨hsim, hreset, _⟩ := resetNodes_apply s.nodes ret (s.globals.lastCommandStatus + 1)
    rw [if_pos (hw _)] at hsim hreset
    rw [processCommandNodes_pending hp]
    refine ⟨1234, 0, ?_, ?_, ?_, fun _ => by decide⟩
    · show (resetNodes s.nodes ret _ .simulatedValue).Holds _
      rw [hsim]; exact DataValue.holds_written _
    · show (resetNodes s.nodes ret _ .resetCommand).Holds _
      rw [hreset]; exact DataValue.holds_written _
    · rw [← hval, if_pos hone]; rfl
  · have hp : ¬ Pending lib (s.nodes .resetCommand) := by
      intro hp
      exact hone (hr.pending_iff.mp hp)
    rw [processCommandNodes_idle hp]
    exact ⟨v, r, hv, hr, hval, fun _ => hone⟩

theorem Ordered.step {pre : List Event} {s s' : Server} {e : Event} {out : List Response} (h : Ordered pre s)
    (hb : ∀ batch, e = .serve batch → WritesInt32 batch) (hw : e.WritesSucceed)
    (hstep : OpcUa.step lib s e = some (s', out)) : Ordered (pre ++ [e]) s' := by
  have hlogs := logs_snoc pre e
  have hsame : (e.batch?.map clientLog).toList = [] → logs (pre ++ [e]) = logs pre := by
    intro hnil
    rw [hlogs, hnil, List.append_nil]
  cases stepKind_of_step hstep with
  | heap reading hq => exact (h.quiet hq).of_logs_eq (hsame rfl)
  | publish sd ret hq => exact (h.quiet hq).of_logs_eq (hsame rfl)
  | command ret hpc => exact (h.poll hw).of_logs_eq (hsame rfl)
  | serve batch hpc =>
      obtain ⟨v, r, hv, hr, hval, hpc'⟩ := h.nodes
      have hint := hb batch rfl
      refine ⟨_, _, holds_runIterate (w := .simulatedValue) hint hv,
        holds_runIterate (w := .resetCommand) hint hr, ?_, fun h => absurd h (by simp)⟩
      -- no command waits here, so the value before the batch is the one on the node
      have hne := hpc' hpc
      rw [if_neg hne] at hval
      rw [hlogs, List.foldl_append, ← hval]
      show _ = batchEffect v (clientLog batch)
      unfold batchEffect
      cases hl : latest (clientLog batch) .resetCommand with
      | none => simp [hne]
      | some x => simp

/-- **When resets take effect.** After a poll, `simulated_value` is what the batches make of it one after the
    other: 1234 if the batch's last write to `reset_command` is a 1, else the batch's last write to
    `simulated_value`, else the value before. If in no batch a write follows a reset, this is the value
    obtained from the writes one by one, however they were grouped. And a write to `simulated_value` in the
    last batch stands unless that very batch ends in a reset. -/
theorem simulated_value_order {sd : SdGlobals} {es : List Event} {os : List (List Response)} {t : Server}
    (hrun : run (step lib) (Server.init sd) es = some (t, os)) (hw : ∀ e ∈ es, e.WritesSucceed)
    (hb : ∀ batch ∈ batches es, WritesInt32 batch) (hpc : t.pc = .serve) :
    readInt32Node lib t.nodes .simulatedValue = some ((logs es).foldl batchEffect 1234) ∧
      ((∀ log ∈ logs es, ResetLast log) →
        readInt32Node lib t.nodes .simulatedValue = some (oneByOne 1234 (logs es).flatten)) ∧
      (∀ earlier last v, logs es = earlier ++ [last] → latest last .simulatedValue = some v →
        latest last .resetCommand ≠ some 1 → readInt32Node lib t.nodes .simulatedValue = some v) := by
  have hserve : ∀ e ∈ es, ∀ batch, e = .serve batch → WritesInt32 batch := by
    rintro e he batch rfl
    apply hb
    exact List.mem_filterMap.mpr ⟨_, he, rfl⟩
  have hinv : Ordered es t := by
    refine guarded_invariant (I := fun pre _ s => Ordered pre s) (ordered_init sd) ?_
      ((along_of_forall hserve).and (along_of_forall hw)) hrun
    intro pre _ m e m' o h hg hs
    exact h.step hg.1 hg.2 hs
  obtain ⟨v, r, hv, _, hval, hne⟩ := hinv.nodes
  rw [if_neg (hne hpc)] at hval
  have hread : readInt32Node lib t.nodes .simulatedValue = some ((logs es).foldl batchEffect 1234) := by
    rw [← hval]; exact hv.read
  refine ⟨hread, fun hlast => ?_, fun earlier last x hlogs hsim hreset => ?_⟩
  · rw [hread, foldl_batchEffect 1234 hlast]
  · rw [hread, hlogs, List.foldl_append]
    show some (batchEffect _ last) = _
    rw [batchEffect, if_neg hreset, hsim, Option.getD_some]

/-- In one batch, a reset after a write. -/
theorem simulated_value_order_reset :
    ∃ t os, run (step .reference) (Server.init .init) (servedThenPolled [setRequest, resetRequest])
        = some (t, os) ∧
      readInt32Node .reference t.nodes .simulatedValue = some 1234 := by
  have hint : ∀ batch ∈ batches (servedThenPolled [setRequest, resetRequest]), WritesInt32 batch := by
    intro batch hb w hw
    rw [List.mem_singleton.mp hb] at hw
    rcases List.mem_cons.mp hw with rfl | hw
    · exact ⟨7777, DataValue.holds_written _⟩
    · rw [List.mem_singleton.mp hw]
      exact ⟨1, DataValue.holds_written _⟩
  exact ⟨_, _, rfl, (simulated_value_order rfl (writesSucceed_servedThenPolled _) hint rfl).1⟩

/-- **A reset overwrites a later write of its batch.** The write of 7777 is served after the reset, and both
    are accepted; one by one they leave 7777, but the poll makes it 1234. -/
theorem reset_overwrites_later_write :
    (∀ e ∈ servedThenPolled [resetRequest, setRequest], e.WritesSucceed) ∧
      (∀ w ∈ acceptedWrites [resetRequest, setRequest], ∃ v, w.2.Holds v) ∧
      oneByOne 1234 (clientLog [resetRequest, setRequest]) = 7777 ∧
      ∃ t os, run (step .reference) (Server.init .init) (servedThenPolled [resetRequest, setRequest])
          = some (t, os) ∧ t.pc = .serve ∧
        readInt32Node .reference t.nodes .simulatedValue = some 1234 := by
  refine ⟨writesSucceed_servedThenPolled _, ?_, by decide, _, _, rfl, rfl, by decide +kernel⟩
  intro w hw
  rcases List.mem_cons.mp hw with rfl | hw
  · exact ⟨1, DataValue.holds_written _⟩
  · rw [List.mem_singleton.mp hw]
    exact ⟨7777, DataValue.holds_written _⟩

end OpcUa
end Esp32Probes
