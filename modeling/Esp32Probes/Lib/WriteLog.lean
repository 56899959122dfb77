import Mathlib.Logic.Function.Basic
import Mathlib.Data.List.Induction

/-!
# `Lib.WriteLog` — stores as logs of writes

The content of a keyed store after a sequence of writes, said twice: operationally (`replay` performs the
writes one by one) and by history (`valueAt` looks for the most recent write to the key and falls back to
the initial content). `replay_eq_valueAt` says that the two agree.

A key can serve as a mailbox for commands, polled after the log: the poll finds the last write and nothing
else. `commandCount_eq_pollCount_iff` says when it finds as many commands as were written.
-/

namespace WriteLog

variable {ι β : Type*} [DecidableEq ι]

/-- Perform the writes in order, oldest first. -/
def replay (init : ι → β) (log : List (ι × β)) : ι → β :=
  log.foldl (fun s w => Function.update s w.1 w.2) init

/-- The most recent value written to `i`, if there is one. -/
def latest (log : List (ι × β)) (i : ι) : Option β :=
  (log.reverse.find? (fun w => w.1 = i)).map Prod.snd

/-- The content of `i` by history: its most recent write, else its initial value. -/
def valueAt (init : ι → β) (log : List (ι × β)) (i : ι) : β := (latest log i).getD (init i)

@[simp] theorem latest_nil (i : ι) : latest ([] : List (ι × β)) i = none := rfl

theorem latest_snoc (log : List (ι × β)) (w : ι × β) (i : ι) :
    latest (log ++ [w]) i = if w.1 = i then some w.2 else latest log i := by
  unfold latest
  rw [List.reverse_append, List.reverse_singleton, List.singleton_append, List.find?_cons]
  by_cases h : w.1 = i
  · simp [h]
  · simp [h]

/-- What is found was written. -/
theorem mem_of_latest {log : List (ι × β)} {i : ι} {v : β} (h : latest log i = some v) : (i, v) ∈ log := by
  obtain ⟨w, hw, rfl⟩ := Option.map_eq_some_iff.mp h
  have hi : w.1 = i := by simpa using List.find?_some hw
  rw [← hi]
  exact List.mem_reverse.mp (List.mem_of_find?_eq_some hw)

theorem latest_map {γ : Type*} (f : β → γ) (log : List (ι × β)) (i : ι) :
    latest (log.map (fun w => (w.1, f w.2))) i = (latest log i).map f := by
  induction log using List.reverseRecOn with
  | nil => rfl
  | append_singleton log w ih =>
      rw [List.map_append, List.map_singleton, latest_snoc, latest_snoc, ih]
      by_cases h : w.1 = i
      · rw [if_pos h, if_pos h, Option.map_some]
      · rw [if_neg h, if_neg h]

theorem valueAt_snoc (init : ι → β) (log : List (ι × β)) (w : ι × β) :
    valueAt init (log ++ [w]) = Function.update (valueAt init log) w.1 w.2 := by
  funext i
  unfold valueAt
  rw [latest_snoc, Function.update_apply]
  by_cases h : w.1 = i
  · rw [if_pos h, if_pos h.symm, Option.getD_some]
  · rw [if_neg h, if_neg (fun he => h he.symm)]

theorem replay_snoc (init : ι → β) (log : List (ι × β)) (w : ι × β) :
    replay init (log ++ [w]) = Function.update (replay init log) w.1 w.2 := by
  rw [replay, List.foldl_append]; rfl

/-- **Replaying a log leaves every key at its most recent write.** -/
theorem replay_eq_valueAt (init : ι → β) (log : List (ι × β)) : replay init log = valueAt init log := by
  induction log using List.reverseRecOn with
  | nil => rfl
  | append_singleton log w ih => rw [replay_snoc, valueAt_snoc, ih]

/-! ## Mailboxes -/

variable (p : β → Bool)

/-- How many commands `p` a poll of `i` finds after the log: one, if the last write is one. -/
def pollCount (log : List (ι × β)) (i : ι) : Nat := if (latest log i).any p then 1 else 0

/-- The commands `p` written to `i`. -/
def commandCount (log : List (ι × β)) (i : ι) : Nat := log.countP (fun w => w.1 = i && p w.2)

/-- No command written to `i` is overwritten by a later write. -/
def NoneOverwritten (log : List (ι × β)) (i : ι) : Prop :=
  log.Pairwise (fun w w' => w.1 = i → p w.2 = true → w'.1 ≠ i)

/-- One more write is counted if it is a command to this cell. -/
theorem commandCount_snoc (log : List (ι × β)) (w : ι × β) (i : ι) :
    commandCount p (log ++ [w]) i = commandCount p log i + (if w.1 = i && p w.2 then 1 else 0) := by
  unfold commandCount
  rw [List.countP_append, List.countP_singleton]

/-- One more write to a cell decides what a poll of it finds. -/
theorem pollCount_snoc (log : List (ι × β)) (w : ι × β) (i : ι) :
    pollCount p (log ++ [w]) i = if w.1 = i then (if p w.2 then 1 else 0) else pollCount p log i := by
  unfold pollCount
  rw [latest_snoc]
  by_cases h : w.1 = i <;> simp [h]

theorem noneOverwritten_snoc (log : List (ι × β)) (w : ι × β) (i : ι) :
    NoneOverwritten p (log ++ [w]) i ↔
      NoneOverwritten p log i ∧ (w.1 = i → commandCount p log i = 0) := by
  unfold NoneOverwritten commandCount
  rw [List.pairwise_append, List.countP_eq_zero]
  constructor
  · rintro ⟨h, _, hw⟩
    refine ⟨h, ?_⟩
    intro hi a ha hc
    simp only [Bool.and_eq_true, decide_eq_true_eq] at hc
    exact hw a ha w List.mem_cons_self hc.1 hc.2 hi
  · rintro ⟨h, hw⟩
    refine ⟨h, List.pairwise_singleton _ _, ?_⟩
    intro a ha b hb hai hpa hbi
    rw [List.mem_singleton.mp hb] at hbi
    apply hw hbi a ha
    simp [hai, hpa]

/-- A poll finds no more commands than were written. -/
theorem pollCount_le_commandCount (log : List (ι × β)) (i : ι) :
    pollCount p log i ≤ commandCount p log i := by
  induction log using List.reverseRecOn with
  | nil => exact Nat.zero_le _
  | append_singleton log w ih =>
      rw [pollCount_snoc, commandCount_snoc]
      by_cases h : w.1 = i
      · simp [h]
      · rw [if_neg h]; omega

/-- **When a poll misses nothing.** It finds as many commands as were written if and only if none was
    overwritten. -/
theorem commandCount_eq_pollCount_iff (log : List (ι × β)) (i : ι) :
    commandCount p log i = pollCount p log i ↔ NoneOverwritten p log i := by
  induction log using List.reverseRecOn with
  | nil => simp [commandCount, pollCount, NoneOverwritten]
  | append_singleton log w ih =>
      -- a write to `i` hides what was found before it, so nothing may have been there to find
      rw [commandCount_snoc, pollCount_snoc, noneOverwritten_snoc, ← ih]
      have hle := pollCount_le_commandCount p log i
      by_cases h : w.1 = i
      · simp only [h, decide_true, Bool.true_and, if_true, true_implies]
        omega
      · simp [h]

end WriteLog
