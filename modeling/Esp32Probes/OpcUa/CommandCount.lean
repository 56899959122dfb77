import Mathlib.Algebra.Order.BigOperators.Group.List
import Mathlib.Algebra.Order.Group.Nat
import Esp32Probes.OpcUa.ServerTask

/-!
# `OpcUa.CommandCount` — does every reset command count?

A client commands a reset by writing 1 to `reset_command`; `last_command_status` is documented to count the
accepted commands. The node is a mailbox (`Lib.WriteLog`): the task polls it once an iteration and finds the
last write only.

`Counted` is the invariant of the loop: the counter is the number of commands the polls have found, one
short while a command is pending. `command_count_iff` concludes that the counter is right exactly when no
batch overwrites a command of its own.
-/

namespace Esp32Probes
namespace OpcUa

open Machine WriteLog

/-- The data value carries the Int32 value 1. -/
def isOne (dv : DataValue) : Bool := dv.int32? = some 1

/-- The client writes of 1 to `reset_command` accepted in a batch. -/
def commandsIn (batch : List Request) : Nat := commandCount isOne (acceptedWrites batch) .resetCommand

/-- The client writes of 1 to `reset_command` accepted in a run. -/
def commands (es : List Event) : Nat := ((batches es).map commandsIn).sum

/-- The commands that polling finds in a batch: at most one. -/
def foundIn (batch : List Request) : Nat := pollCount isOne (acceptedWrites batch) .resetCommand

/-- The commands that polling after every batch finds. -/
def found (es : List Event) : Nat := ((batches es).map foundIn).sum

theorem found_snoc (es : List Event) (e : Event) :
    found (es ++ [e]) = found es + (e.batch?.map foundIn).getD 0 := by
  unfold found
  rw [batches_snoc, List.map_append, List.sum_append]
  cases e <;> simp [Event.batch?]

/-- No accepted command of the batch is followed by another accepted write to `reset_command`. -/
def Unmerged (batch : List Request) : Prop := NoneOverwritten isOne (acceptedWrites batch) .resetCommand

/-- The poll's read of `reset_command` succeeds. -/
def PollReads (lib : Open62541) (s : Server) : Prop :=
  s.pc = .command → (lib.readValue (s.nodes .resetCommand)).1 = good

instance (lib : Open62541) (s : Server) : Decidable (PollReads lib s) :=
  inferInstanceAs (Decidable (_ → _))

/-! ## The invariant -/

/-- 1 if the mailbox holds a command. -/
def inMailbox (nodes : Nodes) : Nat := if isOne (nodes .resetCommand) then 1 else 0

/-- What the counter says about the batches served so far. -/
structure Counted (lib : Open62541) (es : List Event) (s : Server) : Prop where
  /-- Everything found has been counted, except for a command that is still in the mailbox. -/
  count : ∃ k, s.globals.lastCommandStatus = Int32.ofNat k ∧ k + inMailbox s.nodes = found es
  /-- The node publishes the counter. -/
  node : readInt32Node lib s.nodes .lastCommandStatus = some s.globals.lastCommandStatus
  /-- The poll empties the mailbox. -/
  empty : s.pc = .serve → inMailbox s.nodes = 0

variable {lib : Open62541}

theorem counted_init (sd : SdGlobals) : Counted lib [] (Server.init sd) where
  count := ⟨0, rfl, rfl⟩
  node := (DataValue.holds_initial 0).read
  empty := fun h => absurd h (by simp [Server.init])

/-- After a batch the mailbox holds what polling finds in the batch or, if the batch does not write to it,
    what it held before. -/
theorem inMailbox_runIterate (nodes : Nodes) (batch : List Request) :
    inMailbox (runIterate nodes batch).1 = foundIn batch ∨
      (foundIn batch = 0 ∧ inMailbox (runIterate nodes batch).1 = inMailbox nodes) := by
  have hlatest := runIterate_latest nodes batch .resetCommand
  change (runIterate nodes batch).1 .resetCommand = _ at hlatest
  unfold inMailbox foundIn pollCount
  rw [hlatest]
  cases latest (acceptedWrites batch) .resetCommand with
  | some dv => exact Or.inl rfl
  | none => exact Or.inr ⟨rfl, rfl⟩

/-- A poll that can read counts and removes the command in the mailbox. -/
theorem poll_counts {s : Server} {ret : Node → StatusCode}
    (hread : (lib.readValue (s.nodes .resetCommand)).1 = good) (hret : ∀ n, ret n = good)
    (hnode : readInt32Node lib s.nodes .lastCommandStatus = some s.globals.lastCommandStatus) :
    (processCommandNodes lib s.globals s.nodes ret).1.lastCommandStatus
        = s.globals.lastCommandStatus + Int32.ofNat (inMailbox s.nodes) ∧
      readInt32Node lib (processCommandNodes lib s.globals s.nodes ret).2 .lastCommandStatus
        = some (processCommandNodes lib s.globals s.nodes ret).1.lastCommandStatus ∧
      inMailbox (processCommandNodes lib s.globals s.nodes ret).2 = 0 := by
  have hone : Pending lib (s.nodes .resetCommand) ↔ isOne (s.nodes .resetCommand) = true := by
    unfold Pending isOne
    rw [int32OfRead_readValue_iff, decide_eq_true_eq]
    exact and_iff_right hread
  by_cases hp : Pending lib (s.nodes .resetCommand)
  · obtain ⟨_, hreset, hlast⟩ := resetNodes_apply s.nodes ret (s.globals.lastCommandStatus + 1)
    rw [if_pos (hret _)] at hreset hlast
    rw [processCommandNodes_pending hp]
    refine ⟨?_, ?_, ?_⟩
    · rw [inMailbox, if_pos (hone.mp hp)]; rfl
    · change int32OfRead (lib.readValue (resetNodes s.nodes ret _ .lastCommandStatus)) = _
      rw [hlast, (DataValue.holds_written _).read]
    · change (if isOne (resetNodes s.nodes ret _ .resetCommand) then 1 else 0) = 0
      rw [hreset]
      rfl
  · rw [processCommandNodes_idle hp]
    have hempty : inMailbox s.nodes = 0 := if_neg (fun h => hp (hone.mpr h))
    exact ⟨by rw [hempty]; simp, hnode, hempty⟩

/-- The events matter only through the commands that polling finds in them. -/
theorem Counted.of_found_eq {es es' : List Event} {s : Server} (h : Counted lib es s)
    (hfound : found es' = found es) : Counted lib es' s := by
  obtain ⟨k, hk, hsum⟩ := h.count
  exact ⟨⟨k, hk, by rw [hfound, hsum]⟩, h.node, h.empty⟩

theorem Counted.quiet {es : List Event} {s s' : Server} (h : Counted lib es s) (hq : Quiet s s') :
    Counted lib es s' := by
  obtain ⟨k, hk, hsum⟩ := h.count
  have hreset := hq.nodes .resetCommand (Or.inr (Or.inl rfl))
  have hlast := hq.nodes .lastCommandStatus (Or.inr (Or.inr rfl))
  refine ⟨⟨k, by rw [hq.counter, hk], ?_⟩, ?_, fun hpc => absurd hpc hq.pc⟩
  · rw [inMailbox, hreset]; exact hsum
  · rw [hq.counter, readInt32Node, hlast]; exact h.node

theorem Counted.step {pre : List Event} {s s' : Server} {e : Event} {out : List Response}
    (h : Counted lib pre s) (hread : PollReads lib s) (hw : e.WritesSucceed)
    (hstep : OpcUa.step lib s e = some (s', out)) : Counted lib (pre ++ [e]) s' := by
  have hfound := found_snoc pre e
  obtain ⟨k, hk, hsum⟩ := h.count
  cases stepKind_of_step hstep with
  | heap reading hq => exact (h.quiet hq).of_found_eq hfound
  | publish sd ret hq => exact (h.quiet hq).of_found_eq hfound
  | command ret hpc =>
      -- what was in the mailbox is now counted
      obtain ⟨hcount, hnode, hempty⟩ := poll_counts (hread hpc) hw h.node
      refine ⟨⟨k + inMailbox s.nodes, ?_, ?_⟩, hnode, fun _ => hempty⟩
      · rw [hcount, hk, Int32.ofNat_add]
      · show _ + inMailbox _ = _
        rw [hempty, hfound, hsum]
        rfl
  | serve batch hpc =>
      -- the mailbox was empty, so it now holds what polling finds in the batch
      refine ⟨⟨k, hk, ?_⟩, ?_, fun hpc' => absurd hpc' (by simp)⟩
      · have hempty := h.empty hpc
        have hbox : inMailbox (runIterate s.nodes batch).1 = foundIn batch := by
          rcases inMailbox_runIterate s.nodes batch with hbox | ⟨hnone, hsame⟩
          · exact hbox
          · rw [hsame, hempty, hnone]
        show k + inMailbox (runIterate s.nodes batch).1 = _
        rw [hbox, hfound, ← hsum, hempty]
        rfl
      · show int32OfRead (lib.readValue ((runIterate s.nodes batch).1 .lastCommandStatus)) = _
        rw [runIterate_lastCommandStatus]
        exact h.node

/-- **The counter counts what polling finds.** -/
theorem counted_run {sd : SdGlobals} {es : List Event} {os : List (List Response)} {t : Server}
    (hrun : run (step lib) (Server.init sd) es = some (t, os)) (hw : ∀ e ∈ es, e.WritesSucceed)
    (hread : Along (step lib) (Server.init sd) es (fun _ _ s _ => PollReads lib s)) : Counted lib es t := by
  have hG : Along (step lib) (Server.init sd) es (fun _ _ s e => PollReads lib s ∧ e.WritesSucceed) :=
    hread.and (along_of_forall hw)
  refine guarded_invariant (I := fun pre _ s => Counted lib pre s) (counted_init sd) ?_ hG hrun
  intro pre _ m e m' o h hg hs
  exact h.step hg.1 hg.2 hs

/-! ## The count of a run -/

theorem found_le_commands (es : List Event) : found es ≤ commands es :=
  List.sum_le_sum (fun _ _ => pollCount_le_commandCount _ _ _)

/-- Polling finds all commands of a run if and only if no batch overwrites one of its own. -/
theorem commands_eq_found_iff (es : List Event) :
    commands es = found es ↔ ∀ batch ∈ batches es, Unmerged batch := by
  unfold commands found
  induction batches es with
  | nil => simp
  | cons batch bs ih =>
      have hle : foundIn batch ≤ commandsIn batch := pollCount_le_commandCount _ _ _
      have hles : (bs.map foundIn).sum ≤ (bs.map commandsIn).sum :=
        List.sum_le_sum (fun _ _ => pollCount_le_commandCount _ _ _)
      rw [List.map_cons, List.sum_cons, List.map_cons, List.sum_cons, List.forall_mem_cons, ← ih, Unmerged,
        ← commandCount_eq_pollCount_iff]
      change _ ↔ commandsIn batch = foundIn batch ∧ _
      omega

/-- **When every command counts.** After a poll, `last_command_status` reads as the number of accepted client
    writes of 1 to `reset_command` if and only if no batch so far holds such a write followed by another
    accepted write to that node. -/
theorem command_count_iff {sd : SdGlobals} {es : List Event} {os : List (List Response)} {t : Server}
    (hrun : run (step lib) (Server.init sd) es = some (t, os)) (hw : ∀ e ∈ es, e.WritesSucceed)
    (hread : Along (step lib) (Server.init sd) es (fun _ _ s _ => PollReads lib s)) (hpc : t.pc = .serve)
    (hlt : commands es < 2 ^ 31) :
    (∃ v, readInt32Node lib t.nodes .lastCommandStatus = some v ∧ v.toInt = commands es) ↔
      ∀ batch ∈ batches es, Unmerged batch := by
  have hinv := counted_run hrun hw hread
  obtain ⟨k, hk, hsum⟩ := hinv.count
  rw [hinv.empty hpc, Nat.add_zero] at hsum
  have hle := found_le_commands es
  have hint : (Int32.ofNat k).toInt = k := Int32.toInt_ofNat_of_lt (by omega)
  rw [← commands_eq_found_iff]
  constructor
  · rintro ⟨v, hv, hcount⟩
    rw [hinv.node, hk] at hv
    rw [← Option.some.inj hv, hint] at hcount
    omega
  · intro heq
    exact ⟨_, hinv.node, by rw [hk, hint, hsum, heq]⟩

/-- One command in a batch of its own is counted. -/
theorem command_count_single :
    ∃ t os, run (step .reference) (Server.init .init) (servedThenPolled [resetRequest]) = some (t, os) ∧
      ∃ v, readInt32Node .reference t.nodes .lastCommandStatus = some v ∧ v.toInt = 1 := by
  have hcount : commands (servedThenPolled [resetRequest]) = 1 := by decide
  have hbatch : ∀ batch ∈ batches (servedThenPolled [resetRequest]), Unmerged batch := by
    intro batch hb
    rw [List.mem_singleton.mp hb]
    exact List.pairwise_singleton _ _
  have hread : Along (step .reference) (Server.init .init) (servedThenPolled [resetRequest])
      (fun _ _ s _ => PollReads .reference s) := along_of_check (by decide +kernel)
  obtain ⟨v, hv, hn⟩ := (command_count_iff rfl (writesSucceed_servedThenPolled _) hread rfl
    (by rw [hcount]; decide)).mpr hbatch
  exact ⟨_, _, rfl, v, hv, by rw [hn, hcount]; rfl⟩

/-- **Two commands in one batch count once.** Both writes are accepted and every access of the task
    succeeds, but the poll finds only one of them. -/
theorem merged_commands :
    (∀ e ∈ servedThenPolled [resetRequest, resetRequest], e.WritesSucceed) ∧
      Along (step .reference) (Server.init .init) (servedThenPolled [resetRequest, resetRequest])
        (fun _ _ s _ => PollReads .reference s) ∧
      commands (servedThenPolled [resetRequest, resetRequest]) = 2 ∧
      ∃ t os, run (step .reference) (Server.init .init) (servedThenPolled [resetRequest, resetRequest])
          = some (t, os) ∧ t.pc = .serve ∧
        readInt32Node .reference t.nodes .lastCommandStatus = some 1 :=
  ⟨writesSucceed_servedThenPolled _, along_of_check (by decide +kernel), by decide, _, _, rfl, rfl,
    by decide +kernel⟩

end OpcUa
end Esp32Probes
