import Esp32Probes.OpcUa.CommandCount

/-!
# `OpcUa.CommandFailure` — resets whose node writes fail

`process_command_nodes` ignores the status of its three node writes and has counted the command before it
makes them. So a reset is not all-or-nothing: the counter always advances, and every node follows its own
write (`ResetOutcome`). What remains over a run is a bound: as long as `reset_command` itself can be
cleared, no command is counted twice (`CountedAtMost`). `half_done_resets` shows what happens otherwise.
-/

namespace Esp32Probes
namespace OpcUa

open Machine WriteLog

variable {lib : Open62541}

/-! ## One poll -/

/-- The reset is done as a whole: 1234, 0, and the published counter advanced by one. -/
def Complete (before after : Nodes) : Prop :=
  (after .simulatedValue).int32? = some 1234 ∧ (after .resetCommand).int32? = some 0 ∧
    ∃ n, (before .lastCommandStatus).int32? = some n ∧ (after .lastCommandStatus).int32? = some (n + 1)

/-- What a poll does that finds a command, depending on the status codes of its writes. -/
structure ResetOutcome (g : Globals) (nodes : Nodes) (ret : Node → StatusCode) (g' : Globals)
    (nodes' : Nodes) :
    Prop where
  /-- The counter advances by one, whatever fails. -/
  counter : g'.lastCommandStatus.toInt = g.lastCommandStatus.toInt + 1
  /-- Each node takes its new value if its own write succeeds, and otherwise stays as it was. -/
  simulatedValue : nodes' .simulatedValue
    = if ret .simulatedValue = good then .written 1234 else nodes .simulatedValue
  resetCommand : nodes' .resetCommand = if ret .resetCommand = good then .written 0 else nodes .resetCommand
  lastCommandStatus : nodes' .lastCommandStatus
    = if ret .lastCommandStatus = good then .written g'.lastCommandStatus else nodes .lastCommandStatus
  /-- When that is the whole reset. -/
  complete : Complete nodes nodes' ↔
    (ret .simulatedValue = good ∨ (nodes .simulatedValue).int32? = some 1234) ∧ ret .resetCommand = good ∧
      ret .lastCommandStatus = good ∧ (nodes .lastCommandStatus).int32? = some g.lastCommandStatus

theorem int32_ne_add_one (n : Int32) : n ≠ n + 1 := by
  intro h
  have hbv := congrArg Int32.toBitVec h
  rw [Int32.toBitVec_add] at hbv
  have hnat := congrArg BitVec.toNat hbv
  rw [BitVec.toNat_add] at hnat
  have hlt := n.toBitVec.isLt
  change n.toBitVec.toNat = (n.toBitVec.toNat + 1) % 2 ^ 32 at hnat
  omega

theorem int32_add_one_cancel {n m : Int32} (h : n + 1 = m + 1) : n = m := by
  have hsub := congrArg (· - 1) h
  simpa using hsub

theorem toInt_add_one {n : Int32} (h : n.toInt < 2 ^ 31 - 1) : (n + 1).toInt = n.toInt + 1 := by
  have hle := n.le_toInt
  rw [Int32.toInt_add]
  change (n.toInt + 1).bmod (2 ^ 32) = _
  rw [Int.bmod_eq_of_le (by omega) (by omega)]

theorem resetOutcome_of_pending {g : Globals} {nodes : Nodes} (ret : Node → StatusCode)
    (hp : Pending lib (nodes .resetCommand)) (hlt : g.lastCommandStatus.toInt < 2 ^ 31 - 1) :
    ResetOutcome g nodes ret (processCommandNodes lib g nodes ret).1
      (processCommandNodes lib g nodes ret).2 := by
  obtain ⟨hsim, hreset, hlast⟩ := resetNodes_apply nodes ret (g.lastCommandStatus + 1)
  have hone : (nodes .resetCommand).int32? = some 1 := (int32OfRead_readValue_iff.mp hp).2
  rw [processCommandNodes_pending hp]
  refine ⟨toInt_add_one hlt, hsim, hreset, hlast, ?_⟩
  unfold Complete
  change (resetNodes _ _ _ _).int32? = _ ∧ (resetNodes _ _ _ _).int32? = _ ∧
    (∃ n, _ ∧ (resetNodes _ _ _ _).int32? = _) ↔ _
  rw [hsim, hreset, hlast]
  constructor
  · rintro ⟨h1, h2, n, hn, h3⟩
    -- a failed write leaves the 1 in the mailbox, and the old count on its node
    have hr : ret .resetCommand = good := by
      by_contra hbad
      rw [if_neg hbad, hone] at h2
      exact absurd h2 (by decide)
    have hl : ret .lastCommandStatus = good := by
      by_contra hbad
      rw [if_neg hbad, hn] at h3
      exact int32_ne_add_one n (Option.some.inj h3)
    rw [if_pos hl, DataValue.int32?_written] at h3
    refine ⟨?_, hr, hl, ?_⟩
    · by_cases hs : ret .simulatedValue = good
      · exact Or.inl hs
      · rw [if_neg hs] at h1; exact Or.inr h1
    · rw [hn, int32_add_one_cancel (Option.some.inj h3)]
  · rintro ⟨hs, hr, hl, hn⟩
    rw [if_pos hr, if_pos hl]
    refine ⟨?_, rfl, _, hn, rfl⟩
    rcases hs with hs | hs
    · rw [if_pos hs]; rfl
    · by_cases hgood : ret .simulatedValue = good
      · rw [if_pos hgood]; rfl
      · rw [if_neg hgood]; exact hs

/-! ## Runs in which the command can be cleared -/

/-- A write to `reset_command`, if the statement makes one, succeeds. -/
def Event.ResetSucceeds : Event → Prop
  | .command ret => ret .resetCommand = good
  | _ => True

/-- The counter, and what is published of it, never exceeds the commands found so far. -/
structure CountedAtMost (es : List Event) (s : Server) : Prop where
  count : ∃ j k, (s.nodes .lastCommandStatus).int32? = some (Int32.ofNat j) ∧
    s.globals.lastCommandStatus = Int32.ofNat k ∧ j ≤ k ∧ k + inMailbox s.nodes ≤ found es

theorem countedAtMost_init (sd : SdGlobals) : CountedAtMost [] (Server.init sd) where
  count := ⟨0, 0, rfl, rfl, Nat.le_refl 0, Nat.le_refl 0⟩

/-- The events matter only through the commands that polling finds in them. -/
theorem CountedAtMost.of_found_eq {es es' : List Event} {s : Server} (h : CountedAtMost es s)
    (hfound : found es' = found es) : CountedAtMost es' s := by
  obtain ⟨j, k, hj, hk, hjk, hle⟩ := h.count
  exact ⟨j, k, hj, hk, hjk, by rw [hfound]; exact hle⟩

theorem CountedAtMost.quiet {es : List Event} {s s' : Server} (h : CountedAtMost es s) (hq : Quiet s s') :
    CountedAtMost es s' := by
  obtain ⟨j, k, hj, hk, hjk, hle⟩ := h.count
  refine ⟨j, k, ?_, by rw [hq.counter, hk], hjk, ?_⟩
  · rw [hq.nodes _ (Or.inr (Or.inr rfl)), hj]
  · rw [inMailbox, hq.nodes _ (Or.inr (Or.inl rfl))]
    exact hle

/-- **A poll that can clear its command** moves it from the mailbox to the counter; the node
    `last_command_status` follows if its own write succeeds. -/
theorem CountedAtMost.poll {es : List Event} {s : Server} (h : CountedAtMost es s) {ret : Node → StatusCode}
    (hclear : ret .resetCommand = good) :
    CountedAtMost es ⟨.serve, (processCommandNodes lib s.globals s.nodes ret).1,
      (processCommandNodes lib s.globals s.nodes ret).2⟩ := by
  obtain ⟨j, k, hj, hk, hjk, hle⟩ := h.count
  by_cases hp : Pending lib (s.nodes .resetCommand)
  · obtain ⟨_, hreset, hlast⟩ := resetNodes_apply s.nodes ret (s.globals.lastCommandStatus + 1)
    rw [if_pos hclear] at hreset
    have hone : inMailbox s.nodes = 1 := by
      rw [inMailbox, if_pos]
      exact decide_eq_true (int32OfRead_readValue_iff.mp hp).2
    have hempty : inMailbox (resetNodes s.nodes ret (s.globals.lastCommandStatus + 1)) = 0 := by
      rw [inMailbox, hreset]; rfl
    have hnext : s.globals.lastCommandStatus + 1 = Int32.ofNat (k + 1) := by
      rw [hk, Int32.ofNat_add]; rfl
    have hfound :
        k + 1 + inMailbox (resetNodes s.nodes ret (s.globals.lastCommandStatus + 1)) ≤ found es := by
      omega
    rw [processCommandNodes_pending hp]
    by_cases hl : ret .lastCommandStatus = good
    · rw [if_pos hl] at hlast
      refine ⟨k + 1, k + 1, ?_, hnext, Nat.le_refl _, hfound⟩
      show (resetNodes _ _ _ _).int32? = _
      rw [hlast, DataValue.int32?_written, hnext]
    · rw [if_neg hl] at hlast
      refine ⟨j, k + 1, ?_, hnext, by omega, hfound⟩
      show (resetNodes _ _ _ _).int32? = _
      rw [hlast, hj]
  · rw [processCommandNodes_idle hp]
    exact ⟨j, k, hj, hk, hjk, hle⟩

theorem CountedAtMost.step {pre : List Event} {s s' : Server} {e : Event} {out : List Response}
    (h : CountedAtMost pre s) (hr : e.ResetSucceeds) (hstep : OpcUa.step lib s e = some (s', out)) :
    CountedAtMost (pre ++ [e]) s' := by
  have hfound := found_snoc pre e
  cases stepKind_of_step hstep with
  | heap reading hq => exact (h.quiet hq).of_found_eq hfound
  | publish sd ret hq => exact (h.quiet hq).of_found_eq hfound
  | command ret hpc => exact (h.poll hr).of_found_eq hfound
  | serve batch hpc =>
      obtain ⟨j, k, hj, hk, hjk, hle⟩ := h.count
      have hbox := inMailbox_runIterate s.nodes batch
      refine ⟨j, k, ?_, hk, hjk, ?_⟩
      · show ((runIterate s.nodes batch).1 .lastCommandStatus).int32? = _
        rw [runIterate_lastCommandStatus, hj]
      · show k + inMailbox (runIterate s.nodes batch).1 ≤ _
        rw [hfound]
        show _ ≤ found pre + foundIn batch
        omega

/-- **What failing writes do to resets.** In every reachable state, a poll that finds a command has exactly
    the `ResetOutcome`, whatever subset of its writes fails. And over a run in which `reset_command` can
    always be cleared, neither the counter nor the published value exceeds the number of client writes of 1:
    none of them is counted twice. -/
theorem reset_under_failures {sd : SdGlobals} {es : List Event} {os : List (List Response)} {s : Server}
    (hrun : run (step lib) (Server.init sd) es = some (s, os)) :
    (∀ ret, s.pc = .command → Pending lib (s.nodes .resetCommand) →
        s.globals.lastCommandStatus.toInt < 2 ^ 31 - 1 →
        ResetOutcome s.globals s.nodes ret (processCommandNodes lib s.globals s.nodes ret).1
          (processCommandNodes lib s.globals s.nodes ret).2) ∧
      ((∀ e ∈ es, e.ResetSucceeds) → commands es < 2 ^ 31 →
        s.globals.lastCommandStatus.toInt ≤ commands es ∧
        ∃ n, (s.nodes .lastCommandStatus).int32? = some n ∧ n.toInt ≤ commands es) := by
  refine ⟨fun ret _ hp hlt => resetOutcome_of_pending ret hp hlt, fun hr hlt => ?_⟩
  have hinv : CountedAtMost es s := by
    refine guarded_invariant (I := fun pre _ s => CountedAtMost pre s) (countedAtMost_init sd) ?_
      (along_of_forall hr) hrun
    intro pre _ m e m' o h hg hs
    exact h.step hg hs
  obtain ⟨j, k, hj, hk, hjk, hle⟩ := hinv.count
  have hfc := found_le_commands es
  refine ⟨?_, _, hj, ?_⟩
  · rw [hk, Int32.toInt_ofNat_of_lt (by omega)]; omega
  · rw [Int32.toInt_ofNat_of_lt (by omega)]; omega

/-! ## Half-done resets -/

def badOutOfMemory : StatusCode := 0x80030000

/-- The write to one node fails, the others succeed. -/
def failing (name : Node) : Node → StatusCode := fun n => if n = name then badOutOfMemory else good

/-- One batch is served, and the loop comes to the poll after it. -/
def servedBeforePoll (batch : List Request) : List Event := poll ++ .serve batch :: publishing

/-- A reset whose write to `simulated_value` fails. -/
theorem reset_under_failures_simulatedValue :
    ∃ s os, run (step .reference) (Server.init .init) (servedBeforePoll [setRequest, resetRequest])
        = some (s, os) ∧
      ResetOutcome s.globals s.nodes (failing .simulatedValue)
        (processCommandNodes .reference s.globals s.nodes (failing .simulatedValue)).1
        (processCommandNodes .reference s.globals s.nodes (failing .simulatedValue)).2 := by
  obtain ⟨s, os, hrun, hpc, hp, hlt⟩ := run_of_check (step .reference) (Server.init .init)
    (servedBeforePoll [setRequest, resetRequest])
    (p := fun s => s.pc = .command ∧ Pending .reference (s.nodes .resetCommand) ∧
      s.globals.lastCommandStatus.toInt < 2 ^ 31 - 1) (by decide +kernel)
  exact ⟨s, os, hrun, (reset_under_failures hrun).1 (failing .simulatedValue) hpc hp hlt⟩

/-- A run in which the write to `reset_command` fails at two polls in a row. -/
def stuckCommand : List Event :=
  servedBeforePoll [resetRequest] ++ [.command (failing .resetCommand), .serve []] ++
    pollWith (failing .resetCommand)

/-- **Resets that are half done.** If the write to `simulated_value` fails, the command is counted and
    cleared, but the value stays 7777. If the write to `reset_command` fails, one client write of 1 is
    counted again at every poll. -/
theorem half_done_resets :
    (∃ s os, run (step .reference) (Server.init .init) (servedBeforePoll [setRequest, resetRequest])
        = some (s, os) ∧ s.pc = .command ∧ Pending .reference (s.nodes .resetCommand) ∧
      s.globals.lastCommandStatus = 0 ∧
      (processCommandNodes .reference s.globals s.nodes (failing .simulatedValue)).2 .simulatedValue
        = .written 7777 ∧
      (processCommandNodes .reference s.globals s.nodes (failing .simulatedValue)).2 .resetCommand
        = .written 0 ∧
      (processCommandNodes .reference s.globals s.nodes (failing .simulatedValue)).2 .lastCommandStatus
        = .written 1) ∧
    commands stuckCommand = 1 ∧
    (∃ t os, run (step .reference) (Server.init .init) stuckCommand = some (t, os) ∧
      readInt32Node .reference t.nodes .lastCommandStatus = some 2) :=
  ⟨run_of_check _ _ _ (by decide +kernel), by decide, run_of_check _ _ _ (by decide +kernel)⟩

end OpcUa
end Esp32Probes
