import Esp32Probes.Modbus.Server

/-!
# `Modbus.Confinement` — nothing but the received bytes is used or sent

The receive buffer keeps what earlier requests, and earlier clients, left in it, and the response arrays are
uninitialised. `handler_confined` says that none of it matters: with those cells poisoned the handler still
runs to its end, inside all arrays, and what it sends is made of received and of written bytes only.

`run_same_calls` carries this to the task: two runs that receive the same bytes and get the same results from
the network make the same system calls, whatever the stale and the indeterminate memory of either holds.
-/

namespace Esp32Probes
namespace Modbus

open Machine Poison

/-! ## One request -/

/-- `rx[260]` after a `recv`: the received bytes are known, the stale ones behind them poisoned. -/
def Received.cells (b : Received) : Cells UInt8 :=
  b.1.map some ++ List.replicate (260 - b.1.length) none

theorem Received.agrees (b : Received) (rx : Rx) : Agrees b.cells (b.into rx).toList := by
  refine agrees_known b.1 (b.into_toList rx) ?_
  rw [List.length_drop, Vector.length_toList]

/-- **The handler stays in bounds and leaks nothing.** For every register state and every received buffer,
    the checked handler runs without a fault: every byte of `req` it reads is one of the received ones,
    every register index is below 16, every write is inside its response array, and every byte it passes to
    `send` has been received or written by it. The handler returns the same for all contents of the stale
    part of `rx` and of the response arrays; so two executions that agree on the received bytes and on the
    registers send the same bytes and leave the same registers. -/
theorem handler_confined (regs : Regs) (buf : Received) (sendRet : Int) :
    (∃ h, Checked.handleModbusRequest regs buf.cells buf.1.length sendRet = some h ∧
      ∀ (rx : Rx) (stack : Stack),
        handleModbusRequest regs (buf.into rx).toList buf.1.length stack sendRet = some h) ∧
    ∀ (rx rx' : Rx) (stack stack' : Stack),
      handleModbusRequest regs (buf.into rx).toList buf.1.length stack sendRet =
        handleModbusRequest regs (buf.into rx').toList buf.1.length stack' sendRet := by
  obtain ⟨h, hh⟩ : ∃ h, Checked.handleModbusRequest regs buf.cells buf.1.length sendRet = some h :=
    ⟨_, checked_eq regs buf.1 _ sendRet⟩
  have hall : ∀ (rx : Rx) (stack : Stack),
      handleModbusRequest regs (buf.into rx).toList buf.1.length stack sendRet = some h := by
    intro rx stack
    obtain ⟨_, h', rfl⟩ := Checked.handle_refines regs (buf.agrees rx) buf.1.length stack sendRet h hh
    exact h'
  refine ⟨⟨h, hh, hall⟩, ?_⟩
  intro rx rx' stack stack'
  rw [hall rx stack, hall rx' stack']

/-! ## Whole runs -/

/-- Two results that differ at most in the memory they come with. -/
inductive SameOutcome : Outcome → Outcome → Prop
  | fail : SameOutcome .fail .fail
  | ok (fd : Nat) (rx rx' : Rx) : SameOutcome (.ok fd rx) (.ok fd rx')
  | data (buf : Received) (stack stack' : Stack) (sendRet : Int) :
      SameOutcome (.data buf stack sendRet) (.data buf stack' sendRet)

/-- Two states of the task that differ at most in the contents of `rx`. -/
def SameButRx (s t : Server) : Prop := { s with rx := t.rx } = t

theorem step_same {s t s' : Server} {o o' : Outcome} {calls : List SockCall} (hst : SameButRx s t)
    (ho : SameOutcome o o') (h : step s o = some (s', calls)) :
    ∃ t', step t o' = some (t', calls) ∧ SameButRx s' t' := by
  obtain ⟨pc, listenSock, sock, rx, regs⟩ := t
  cases hst
  cases hpc : s.pc with
  | recv =>
      cases ho with
      | data buf stack stack' sendRet =>
          -- the handler does not see the memory in which the two differ
          have hsame := (handler_confined s.regs buf sendRet).2 s.rx rx stack stack'
          simp only [step, hpc] at h ⊢
          rw [← hsame]
          cases hh : handleModbusRequest s.regs (buf.into s.rx).toList buf.1.length stack sendRet with
          | none => rw [hh] at h; cases h
          | some r =>
              rw [hh] at h
              cases h
              exact ⟨_, rfl, rfl⟩
      | fail => simp only [step, hpc] at h ⊢; cases h; exact ⟨_, rfl, rfl⟩
      | ok fd rx rx' => simp only [step, hpc] at h ⊢; cases h; exact ⟨_, rfl, rfl⟩
  | socket => cases ho <;> simp only [step, hpc] at h ⊢ <;> cases h <;> exact ⟨_, rfl, rfl⟩
  | bind => cases ho <;> simp only [step, hpc] at h ⊢ <;> cases h <;> exact ⟨_, rfl, rfl⟩
  | listen => cases ho <;> simp only [step, hpc] at h ⊢ <;> cases h <;> exact ⟨_, rfl, rfl⟩
  | accept => cases ho <;> simp only [step, hpc] at h ⊢ <;> cases h <;> exact ⟨_, rfl, rfl⟩

/-- **What the task does depends on the received bytes and the results of its calls only.** Two runs over
    outcomes that differ at most in stale and indeterminate memory make the same system calls. -/
theorem run_same_calls {s t s' : Server} {es es' : List Outcome} {os : List (List SockCall)}
    (hst : SameButRx s t) (hes : List.Forall₂ SameOutcome es es') (hrun : run step s es = some (s', os)) :
    ∃ t', run step t es' = some (t', os) ∧ SameButRx s' t' := by
  induction hes generalizing s t os with
  | nil =>
      cases hrun
      exact ⟨t, rfl, hst⟩
  | @cons e e' es es' he _ ih =>
      obtain ⟨m, calls, os', hs, hr, rfl⟩ := run_cons_iff.mp hrun
      obtain ⟨m', hs', hm⟩ := step_same hst he hs
      obtain ⟨t', hr', ht⟩ := ih hm hr
      exact ⟨t', run_cons_iff.mpr ⟨m', calls, os', hs', hr', rfl⟩, ht⟩

end Modbus
end Esp32Probes
