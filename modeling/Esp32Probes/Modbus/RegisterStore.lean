import Esp32Probes.Lib.WriteLog
import Esp32Probes.Modbus.Framed

/-!
# `Modbus.RegisterStore` — the server is a store of sixteen registers

The purpose of the server, said without its code: a log of accepted writes, and reads that return the most
recent write to each register. Acceptance is read off the wire (`acceptedWrite`: an FC06 request answered by
its echo), so the log is a function of the exchanges of a run, over all its connections.

`run_registers` is the invariant that ties the two together: after every run the sixteen registers hold what
the log says. `register_store` states the whole contract for the next step after an arbitrary run.
-/

namespace Esp32Probes
namespace Modbus

open Machine BigEndian WriteLog

/-! ## The abstract store -/

/-- The initial content of register `i`. -/
def initialReg (i : Nat) : UInt16 := UInt16.ofNat (100 + i)

/-- The register and value of an accepted FC06 request: one answered with its echo. -/
def acceptedWrite (x : Exchange) : Option (Nat × UInt16) :=
  if byteAt x.request 7 = 6 ∧ x.reply = some (x.request.take 12) then
    some ((wordAt x.request 8).toNat, wordAt x.request 10)
  else none

/-- The log of accepted writes, oldest first. -/
def writes (past : List Exchange) : List (Nat × UInt16) := past.filterMap acceptedWrite

/-- What one exchange must do, given the exchanges before it and the registers around it. -/
structure StoreStep (past : List Exchange) (before : Regs) (x : Exchange) (after : Regs) : Prop where
  /-- A normal FC03 response is in range over the integers and returns the latest accepted writes. -/
  read : ∀ r, byteAt x.request 7 = 3 → x.reply = some r → byteAt r 7 = 3 →
    1 ≤ (wordAt x.request 10).toNat ∧
    (wordAt x.request 8).toNat + (wordAt x.request 10).toNat ≤ 16 ∧
    r.length = 9 + 2 * (wordAt x.request 10).toNat ∧
    ∀ i < (wordAt x.request 10).toNat,
      wordAt r (9 + 2 * i) = valueAt initialReg (writes past) ((wordAt x.request 8).toNat + i)
  /-- An accepted write changes the register it names, to the value it carries, and no other. -/
  accepted : ∀ reg v, acceptedWrite x = some (reg, v) →
    reg < 16 ∧ ∀ i < 16, regAt after i = if i = reg then v else regAt before i
  /-- Any other buffer leaves all registers alone. -/
  other : acceptedWrite x = none → after = before
  /-- A complete request is answered: a read in range with data, a write in range with its echo. -/
  complete : 12 ≤ x.request.length →
    ∃ r, x.reply = some r ∧
      (byteAt x.request 7 = 3 → 1 ≤ (wordAt x.request 10).toNat →
        (wordAt x.request 8).toNat + (wordAt x.request 10).toNat ≤ 16 → byteAt r 7 = 3) ∧
      (byteAt x.request 7 = 6 → (wordAt x.request 8).toNat < 16 → r = x.request.take 12)

theorem writes_append (past : List Exchange) (x : Option Exchange) :
    writes (past ++ x.toList) = writes past ++ (x.bind acceptedWrite).toList := by
  unfold writes
  rw [List.filterMap_append]
  cases x with
  | none => rfl
  | some x => cases h : acceptedWrite x <;> simp [h]

/-! ## Registers as a function of the index -/

theorem regAt_sHoldingRegs : ∀ i < 16, regAt sHoldingRegs i = initialReg i := by decide

theorem regAt_set {regs : Regs} {reg i : Nat} (hi : i < 16) (v : UInt16) :
    regAt (regs.setIfInBounds reg v) i = if i = reg then v else regAt regs i := by
  unfold regAt
  rw [Vector.getElem?_setIfInBounds]
  by_cases h : i = reg
  · subst h; rw [if_pos rfl, if_pos rfl, if_pos hi, Option.getD_some]
  · rw [if_neg h, if_neg (fun he => h he.symm)]

/-! ## A read response carries the registers -/

/-- Word `i` of the data of a read response is the big-endian register `start + i`. -/
theorem wordAt_registerBytes (regs : Regs) (start : Nat) {i count : Nat} (h : i < count) :
    wordAt (registerBytes regs start count) (2 * i) = regAt regs (start + i) := by
  induction count with
  | zero => exact absurd h (Nat.not_lt_zero i)
  | succ n ih =>
      rw [registerBytes_succ]
      have hlen : (registerBytes regs start n).length = 2 * n := length_registerBytes regs start n
      unfold wordAt byteAt
      rcases Nat.lt_succ_iff_lt_or_eq.mp h with hlt | heq
      · rw [List.getD_append _ _ _ _ (by omega), List.getD_append _ _ _ _ (by omega)]
        exact ih hlt
      · subst heq
        rw [List.getD_append_right _ _ _ _ (by omega), List.getD_append_right _ _ _ _ (by omega), hlen,
            Nat.sub_self, Nat.add_sub_cancel_left]
        exact be16_hi8_lo8 (regAt regs (start + i))

theorem wordAt_registersFrame {b : Bytes} (h : 4 ≤ b.length) (regs : Regs) (start : Nat) {i count : Nat}
    (hi : i < count) :
    wordAt (registersFrame regs b start count) (9 + 2 * i) = regAt regs (start + i) := by
  have hlen : (b.take 4 ++ wordBytes (UInt16.ofNat (3 + count * 2)) ++
      [byteAt b 6, byteAt b 7, UInt8.ofNat (count * 2)]).length = 9 := by
    simp only [List.length_append, List.length_take, wordBytes, List.length_cons, List.length_nil]
    omega
  rw [← wordAt_registerBytes regs start hi]
  unfold wordAt byteAt registersFrame
  rw [List.getD_append_right _ _ _ _ (by omega), List.getD_append_right _ _ _ _ (by omega), hlen,
      Nat.add_sub_cancel_left, show 9 + 2 * i + 1 - 9 = 2 * i + 1 by omega]

/-! ## Acceptance on the wire is the handler's write verdict -/

/-- The exception answering an FC06 request is not its echo: bit 7 of the function code differs. -/
theorem exceptionFrame_ne_echo {b : Bytes} (h8 : 8 ≤ b.length) (h6 : byteAt b 7 = 6) (code : UInt8) :
    exceptionFrame b code ≠ b.take 12 := by
  intro he
  have h7 := function_exceptionFrame h8 code
  rw [he, byteAt_take (by omega), h6] at h7
  exact absurd h7 (by decide)

theorem acceptedWrite_eq (regs : Regs) (b : Bytes) :
    acceptedWrite ⟨b, reply regs b⟩ =
      match verdict b with
      | .write reg value => some (reg.toNat, value)
      | _ => none := by
  unfold acceptedWrite reply
  cases hv : verdict b with
  | ignore => simp
  | refuse code =>
      rw [if_neg]
      rintro ⟨h6, he⟩
      exact exceptionFrame_ne_echo (verdict_refuse_length hv) h6 code (Option.some.inj he)
  | read start count =>
      obtain ⟨_, h3, _⟩ := verdict_read_iff.mp hv
      rw [if_neg]
      rintro ⟨h6, _⟩
      simp only [h3] at h6
      exact absurd h6 (by decide)
  | write reg value =>
      obtain ⟨_, h6, rfl, rfl, _⟩ := verdict_write_iff.mp hv
      simp [h6]

/-- The handler's effect on the registers is the accepted write, if there is one. -/
theorem regAt_regsAfter (regs : Regs) (b : Bytes) {i : Nat} (hi : i < 16) :
    regAt (regsAfter regs b) i =
      match acceptedWrite ⟨b, reply regs b⟩ with
      | some (reg, v) => if i = reg then v else regAt regs i
      | none => regAt regs i := by
  rw [acceptedWrite_eq]
  unfold regsAfter
  cases verdict b with
  | write reg value => exact regAt_set hi value
  | ignore => rfl
  | refuse code => rfl
  | read start count => rfl

/-! ## Runs -/

/-- **The registers hold the log.** After every run of the task, over all its connections, each register
    holds the most recent accepted write to it, or its initial value. -/
theorem run_registers {rx : Rx} {es : List Outcome} {t : Server} {os : List (List SockCall)}
    (hrun : run step (init rx) es = some (t, os)) :
    ∀ i < 16, regAt t.regs i = valueAt initialReg (writes (exchanges os)) i := by
  refine run_invariant (I := fun _ os m =>
    ∀ i < 16, regAt m.regs i = valueAt initialReg (writes (exchanges os)) i) ?_ ?_ hrun
  · exact regAt_sHoldingRegs
  · intro _ os m e m' o hinv hs i hi
    -- the log grows by the accepted write of the step's exchange, if it has one
    rw [exchanges_snoc, writes_append]
    rcases step_regs hs with ⟨buf, hx, hregs⟩ | ⟨hx, hregs⟩
    · rw [hx, hregs, regAt_regsAfter m.regs buf.1 hi, Option.bind_some]
      cases acceptedWrite ⟨buf.1, reply m.regs buf.1⟩ with
      | none => simpa using hinv i hi
      | some w =>
          rw [Option.toList_some, valueAt_snoc, Function.update_apply, ← hinv i hi]
    · rw [hx, hregs]; simpa using hinv i hi

/-! ## The four obligations of an exchange -/

section Exchange

variable {regs : Regs} {b : Bytes}

/-- A normal response to FC03 can only come from a read verdict: an exception sets bit 7. -/
theorem verdict_of_normal_read {r : Bytes} (h3 : byteAt b 7 = 3) (hr : reply regs b = some r)
    (h3r : byteAt r 7 = 3) : verdict b = .read (wordAt b 8) (wordAt b 10) := by
  cases hv : verdict b with
  | read start count =>
      obtain ⟨_, _, rfl, rfl, _, _⟩ := verdict_read_iff.mp hv
      rfl
  | refuse code =>
      rw [reply_refuse regs hv, Option.some.injEq] at hr
      subst hr
      rw [function_exceptionFrame (verdict_refuse_length hv), h3] at h3r
      exact absurd h3r (by decide)
  | ignore => rw [reply, hv] at hr; cases hr
  | write reg value =>
      rw [(verdict_write_iff.mp hv).2.1] at h3
      exact absurd h3 (by decide)

/-- A normal FC03 response returns the registers it names, in range over the integers. -/
theorem normal_read_data {r : Bytes} (h3 : byteAt b 7 = 3) (hr : reply regs b = some r)
    (h3r : byteAt r 7 = 3) :
    1 ≤ (wordAt b 10).toNat ∧ (wordAt b 8).toNat + (wordAt b 10).toNat ≤ 16 ∧
      r.length = 9 + 2 * (wordAt b 10).toNat ∧
      ∀ i < (wordAt b 10).toNat, wordAt r (9 + 2 * i) = regAt regs ((wordAt b 8).toNat + i) := by
  have hv := verdict_of_normal_read h3 hr h3r
  obtain ⟨h12, _, _, _, hc, hle⟩ := verdict_read_iff.mp hv
  rw [reply_read regs hv, Option.some.injEq] at hr
  subst hr
  exact ⟨hc, hle, length_registersFrame (by omega) _ _ _,
    fun i hi => wordAt_registersFrame (by omega) regs _ hi⟩

theorem acceptedWrite_lt {reg : Nat} {v : UInt16} (hw : acceptedWrite ⟨b, reply regs b⟩ = some (reg, v)) :
    reg < 16 := by
  rw [acceptedWrite_eq] at hw
  cases hv : verdict b with
  | write reg' value =>
      obtain ⟨_, _, _, _, hlt⟩ := verdict_write_iff.mp hv
      rw [hv] at hw
      cases hw
      exact hlt
  | ignore => rw [hv] at hw; cases hw
  | refuse code => rw [hv] at hw; cases hw
  | read start count => rw [hv] at hw; cases hw

theorem regsAfter_of_not_accepted (hw : acceptedWrite ⟨b, reply regs b⟩ = none) :
    regsAfter regs b = regs := by
  rw [acceptedWrite_eq] at hw
  unfold regsAfter
  cases hv : verdict b with
  | write reg value => rw [hv] at hw; cases hw
  | ignore => rfl
  | refuse code => rfl
  | read start count => rfl

/-- A complete request is answered; in range it is not refused. -/
theorem complete_answered (h12 : 12 ≤ b.length) :
    ∃ r, reply regs b = some r ∧
      (byteAt b 7 = 3 → 1 ≤ (wordAt b 10).toNat → (wordAt b 8).toNat + (wordAt b 10).toNat ≤ 16 →
        byteAt r 7 = 3) ∧
      (byteAt b 7 = 6 → (wordAt b 8).toNat < 16 → r = b.take 12) := by
  cases hv : verdict b with
  | ignore => exact absurd (verdict_ignore_iff.mp hv) (by omega)
  | refuse code =>
      refine ⟨_, reply_refuse regs hv, ?_, ?_⟩
      · intro h3 hc hle
        rw [verdict_read_iff.mpr ⟨h12, h3, rfl, rfl, hc, hle⟩] at hv
        cases hv
      · intro h6 hlt
        rw [verdict_write_iff.mpr ⟨h12, h6, rfl, rfl, hlt⟩] at hv
        cases hv
  | read start count =>
      obtain ⟨_, h3, rfl, rfl, _, hle⟩ := verdict_read_iff.mp hv
      refine ⟨_, reply_read regs hv, ?_, ?_⟩
      · intro _ _ _
        rcases (registersFrame_framed (by omega) regs (wordAt b 8).toNat h3 (by omega)).kind with hk | hk
        · rw [hk.function, h3]
        · exact absurd hk.length (by rw [length_registersFrame (by omega)]; omega)
      · intro h6; rw [h6] at h3; exact absurd h3 (by decide)
  | write reg value =>
      refine ⟨_, reply_write regs hv, ?_, fun _ _ => rfl⟩
      intro h3; rw [(verdict_write_iff.mp hv).2.1] at h3; exact absurd h3 (by decide)

/-- A received buffer is handled as the store requires, if the registers hold the log. -/
theorem storeStep_of_registers {past : List Exchange}
    (hregs : ∀ i < 16, regAt regs i = valueAt initialReg (writes past) i) :
    StoreStep past regs ⟨b, reply regs b⟩ (regsAfter regs b) where
  read := by
    intro r h3 hr h3r
    obtain ⟨hc, hle, hlen, hdata⟩ := normal_read_data h3 hr h3r
    refine ⟨hc, hle, hlen, ?_⟩
    intro i hi
    have hi : i < (wordAt b 10).toNat := hi
    rw [hdata i hi]
    apply hregs
    omega
  accepted := by
    intro reg v hw
    refine ⟨acceptedWrite_lt hw, ?_⟩
    intro i hi
    rw [regAt_regsAfter regs b hi, hw]
  other := regsAfter_of_not_accepted
  complete := complete_answered

end Exchange

/-- **The server is a register store.** After any results of any number of system calls — so after any
    received buffers on any number of connections — and for any next result: no access is out of bounds,
    the registers hold the log of accepted writes, a buffer that `recv` delivers is handled by that step, a
    buffer handled by the next step is handled as the store requires, and a step that handles none leaves the
    registers alone. -/
theorem register_store (rx : Rx) (es : List Outcome) (e : Outcome) :
    ∃ s os s' o, run step (init rx) es = some (s, os) ∧ step s e = some (s', o) ∧
      (∀ i < 16, regAt s.regs i = valueAt initialReg (writes (exchanges os)) i) ∧
      (∀ buf stack sendRet, s.pc = .recv → e = .data buf stack sendRet →
        ∃ r, exchangeOf o = some ⟨buf.1, r⟩) ∧
      (∀ x, exchangeOf o = some x → StoreStep (exchanges os) s.regs x s'.regs) ∧
      (exchangeOf o = none → s'.regs = s.regs) := by
  obtain ⟨s, os, hrun⟩ := run_total step_isSome (init rx) es
  obtain ⟨⟨s', o⟩, hs⟩ := Option.isSome_iff_exists.mp (step_isSome s e)
  have hregs := run_registers hrun
  refine ⟨s, os, s', o, hrun, hs, hregs, ?_, ?_, ?_⟩
  · rintro buf stack sendRet hpc rfl
    obtain ⟨calls, h, hx⟩ := step_data hpc buf stack sendRet
    obtain ⟨-, rfl⟩ := Prod.mk.inj (Option.some.inj (hs.symm.trans h))
    exact ⟨_, hx⟩
  · intro x hx
    rcases step_regs hs with ⟨buf, hx', hr⟩ | ⟨hx', _⟩
    · rw [hx', Option.some.injEq] at hx
      subst hx
      rw [hr]
      exact storeStep_of_registers hregs
    · rw [hx'] at hx; cases hx
  · intro hx
    rcases step_regs hs with ⟨buf, hx', _⟩ | ⟨_, hr⟩
    · rw [hx'] at hx; cases hx
    · exact hr

/-- Register 3 is written with 0x1234. -/
def writeThree : Received := ⟨[0, 1, 0, 0, 0, 6, 1, 6, 0, 3, 0x12, 0x34], by decide⟩

/-- Register 3 is read. -/
def readThree : Received := ⟨[0, 2, 0, 0, 0, 6, 1, 3, 0, 3, 0, 1], by decide⟩

/-- A client connects and writes register 3. -/
def writeFirst : List Outcome :=
  [.ok 0 zeroRx, .ok 0 zeroRx, .ok 0 zeroRx, .ok 1 zeroRx, .data writeThree zeroStack 12]

/-- What the client writes is what it reads. -/
theorem register_store_read_back :
    ∃ s os s' o, run step (init zeroRx) writeFirst = some (s, os) ∧
      step s (.data readThree zeroStack 11) = some (s', o) ∧ writes (exchanges os) = [(3, 0x1234)] ∧
      exchangeOf o = some ⟨readThree.1, some [0, 2, 0, 0, 0, 5, 1, 3, 2, 0x12, 0x34]⟩ ∧
      StoreStep (exchanges os) s.regs ⟨readThree.1,
        some [0, 2, 0, 0, 0, 5, 1, 3, 2, 0x12, 0x34]⟩ s'.regs := by
  obtain ⟨s, os, s', o, hrun, hstep, -, -, hstore, -⟩ :=
    register_store zeroRx writeFirst (.data readThree zeroStack 11)
  have hlog : (run step (init zeroRx) writeFirst).map (fun r => writes (exchanges r.2)) =
      some [(3, 0x1234)] := by
    decide +kernel
  have hanswer : (run step (init zeroRx) writeFirst).bind (fun r =>
      (step r.1 (.data readThree zeroStack 11)).bind fun q => exchangeOf q.2) =
      some ⟨readThree.1, some [0, 2, 0, 0, 0, 5, 1, 3, 2, 0x12, 0x34]⟩ := by decide +kernel
  rw [hrun] at hlog hanswer
  rw [Option.bind_some, hstep] at hanswer
  exact ⟨s, os, s', o, hrun, hstep, Option.some.inj hlog, hanswer, hstore _ hanswer⟩

end Modbus
end Esp32Probes
