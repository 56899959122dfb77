import Esp32Probes.Modbus.Framed

/-!
# `Modbus.Refusals` — which requests are executed, and how the others are refused

`Executable b` says that a received buffer is a request the handler carries out: twelve bytes or more,
and an FC03 or FC06 whose operands stay inside the register table. The handler reads bytes 6 to 11 to decide
and copies bytes 0 to 3 into its answers; the protocol identifier and the MBAP length field play no part.
`acts_iff` says that everything else is answered by an exception or not at all and changes nothing, and
`refusal_codes` which exception a complete ADU gets. Both operand checks of a read, of the quantity and of the
address range, are refused with the same code.
-/

namespace Esp32Probes
namespace Modbus

open BigEndian

/-! ## Executable requests -/

/-- A request the handler carries out. -/
def Executable (b : Bytes) : Prop :=
  12 ≤ b.length ∧
    (byteAt b 7 = 3 ∧ 1 ≤ (wordAt b 10).toNat ∧ (wordAt b 8).toNat + (wordAt b 10).toNat ≤ 16 ∨
      byteAt b 7 = 6 ∧ (wordAt b 8).toNat < 16)

instance (b : Bytes) : Decidable (Executable b) := by unfold Executable; infer_instance

/-- An exception response has bit 7 of its function code set; the other responses are normal ones. -/
def IsException (r : Bytes) : Prop := 128 ≤ (byteAt r 7).toNat

instance (r : Bytes) : Decidable (IsException r) := inferInstanceAs (Decidable (_ ≤ _))

/-- Two buffers that differ at most in the protocol identifier and the length field. -/
def SameButHeader (b c : Bytes) : Prop :=
  b.length = c.length ∧ ∀ i, i < 2 ∨ 6 ≤ i → byteAt b i = byteAt c i

theorem SameButHeader.wordAt {b c : Bytes} (h : SameButHeader b c) {i : Nat} (hi : 6 ≤ i) :
    wordAt b i = wordAt c i := by
  unfold Modbus.wordAt
  rw [h.2 i (Or.inr hi), h.2 (i + 1) (Or.inr (by omega))]

/-- **The decision ignores the protocol identifier and the length field.** -/
theorem SameButHeader.verdict {b c : Bytes} (h : SameButHeader b c) : verdict b = verdict c := by
  have h7 : byteAt b 7 = byteAt c 7 := h.2 7 (Or.inr (by omega))
  have h8 : Modbus.wordAt b 8 = Modbus.wordAt c 8 := h.wordAt (by omega)
  have h10 : Modbus.wordAt b 10 = Modbus.wordAt c 10 := h.wordAt (by omega)
  unfold Modbus.verdict
  rw [h.1, h7, h8, h10]

theorem SameButHeader.regsAfter {b c : Bytes} (h : SameButHeader b c) (regs : Regs) :
    regsAfter regs b = regsAfter regs c := by
  unfold Modbus.regsAfter
  rw [h.verdict]

/-- A buffer is executable exactly when the verdict on it is a read or a write. -/
theorem executable_iff_verdict {b : Bytes} :
    Executable b ↔
      verdict b = .read (wordAt b 8) (wordAt b 10) ∨ verdict b = .write (wordAt b 8) (wordAt b 10) := by
  rw [verdict_read_iff, verdict_write_iff]
  constructor
  · rintro ⟨h12, ⟨h3, hc, hs⟩ | ⟨h6, hr⟩⟩
    · exact Or.inl ⟨h12, h3, rfl, rfl, hc, hs⟩
    · exact Or.inr ⟨h12, h6, rfl, rfl, hr⟩
  · rintro (⟨h12, h3, _, _, hc, hs⟩ | ⟨h12, h6, _, _, hr⟩)
    · exact ⟨h12, Or.inl ⟨h3, hc, hs⟩⟩
    · exact ⟨h12, Or.inr ⟨h6, hr⟩⟩

/-- What is not executable is ignored or refused. -/
theorem verdict_of_not_executable {b : Bytes} (h : ¬ Executable b) :
    verdict b = .ignore ∨ ∃ code, verdict b = .refuse code := by
  cases hv : verdict b with
  | ignore => exact Or.inl rfl
  | refuse code => exact Or.inr ⟨code, rfl⟩
  | read start count =>
      obtain ⟨_, _, rfl, rfl, _⟩ := verdict_read_iff.mp hv
      exact absurd (executable_iff_verdict.mpr (Or.inl hv)) h
  | write reg value =>
      obtain ⟨_, _, rfl, rfl, _⟩ := verdict_write_iff.mp hv
      exact absurd (executable_iff_verdict.mpr (Or.inr hv)) h

/-! ## The answers -/

theorem exceptionFrame_isException {b : Bytes} (h : 8 ≤ b.length) (code : UInt8) :
    IsException (exceptionFrame b code) := by
  have hor : (byteAt b 7 ||| 0x80).toNat = (byteAt b 7).toNat ||| 128 := UInt8.toNat_or _ _
  unfold IsException
  rw [function_exceptionFrame h code, hor]
  exact Nat.right_le_or

theorem function_registersFrame {b : Bytes} (h : 8 ≤ b.length) (regs : Regs) (start count : Nat) :
    byteAt (registersFrame regs b start count) 7 = byteAt b 7 := by
  unfold registersFrame
  rw [List.append_assoc, List.append_assoc]
  exact byteAt_header (show 4 ≤ b.length by omega) _ 3

/-- An executable request gets a normal response. -/
theorem reply_of_executable {b : Bytes} (regs : Regs) (h : Executable b) :
    ∃ r, reply regs b = some r ∧ ¬ IsException r := by
  have hlen : 12 ≤ b.length := h.1
  rcases executable_iff_verdict.mp h with hv | hv
  · have h3 : byteAt b 7 = 3 := (verdict_read_iff.mp hv).2.1
    refine ⟨_, reply_read regs hv, ?_⟩
    rw [IsException, function_registersFrame (by omega), h3]
    decide
  · have h6 : byteAt b 7 = 6 := (verdict_write_iff.mp hv).2.1
    refine ⟨_, reply_write regs hv, ?_⟩
    rw [IsException, byteAt_take (by omega), h6]
    decide

/-- A request that is not executable gets an exception or no answer, and changes nothing. -/
theorem reply_of_not_executable {b : Bytes} (regs : Regs) (h : ¬ Executable b) :
    regsAfter regs b = regs ∧
      ∀ r, reply regs b = some r → IsException r ∧ ∃ code, r = exceptionFrame b code := by
  rcases verdict_of_not_executable h with hv | ⟨code, hv⟩
  · refine ⟨by rw [regsAfter, hv], ?_⟩
    intro r hr
    rw [reply, hv] at hr
    cases hr
  · refine ⟨by rw [regsAfter, hv], ?_⟩
    intro r hr
    rw [reply_refuse regs hv] at hr
    cases hr
    exact ⟨exceptionFrame_isException (verdict_refuse_length hv) code, code, rfl⟩

/-- Only a write changes registers. -/
theorem regsAfter_of_ne {b : Bytes} {regs : Regs} (h : regsAfter regs b ≠ regs) :
    Executable b ∧ byteAt b 7 = 6 := by
  unfold regsAfter at h
  cases hv : verdict b with
  | write reg value =>
      obtain ⟨_, h6, rfl, rfl, _⟩ := verdict_write_iff.mp hv
      exact ⟨executable_iff_verdict.mpr (Or.inr hv), h6⟩
  | ignore => rw [hv] at h; exact absurd rfl h
  | refuse code => rw [hv] at h; exact absurd rfl h
  | read start count => rw [hv] at h; exact absurd rfl h

/-! ## What the handler acts on -/

/-- **The handler acts on executable requests only.** For every register state and every received buffer, it
    sends a normal response exactly when the buffer is executable and changes a register only on an
    executable FC06; otherwise the registers stay and nothing but an exception is sent. A buffer with another
    protocol identifier or length field is decided alike. -/
theorem acts_iff (regs : Regs) (rx : Rx) (buf : Received) (stack : Stack) (sendRet : Int) :
    ∃ h, handleModbusRequest regs (buf.into rx).toList buf.1.length stack sendRet = some h ∧
      ((∃ r, h.sent = some r ∧ ¬ IsException r) ↔ Executable buf.1) ∧
      (h.regs ≠ regs → Executable buf.1 ∧ byteAt buf.1 7 = 6) ∧
      (¬ Executable buf.1 → h.regs = regs ∧
        ∀ r, h.sent = some r → IsException r ∧ ∃ code, r = exceptionFrame buf.1 code) ∧
      ∀ (rx' : Rx) (buf' : Received), SameButHeader buf.1 buf'.1 →
        ∃ h', handleModbusRequest regs (buf'.into rx').toList buf'.1.length stack sendRet = some h' ∧
          h'.regs = h.regs ∧
          ((∃ r, h'.sent = some r ∧ ¬ IsException r) ↔ (∃ r, h.sent = some r ∧ ¬ IsException r)) := by
  have hnormal : ∀ b : Bytes, (∃ r, reply regs b = some r ∧ ¬ IsException r) ↔ Executable b := by
    intro b
    constructor
    · rintro ⟨r, hr, hn⟩
      by_contra hx
      exact hn ((reply_of_not_executable regs hx).2 r hr).1
    · exact reply_of_executable regs
  have hdecide : ∀ b c : Bytes, SameButHeader b c → (Executable b ↔ Executable c) := by
    intro b c hbc
    rw [executable_iff_verdict, executable_iff_verdict, hbc.verdict, hbc.wordAt (i := 8) (by omega),
      hbc.wordAt (i := 10) (by omega)]
  rw [Received.into_toList, handle_eq]
  refine ⟨_, rfl, hnormal buf.1, regsAfter_of_ne, reply_of_not_executable regs, ?_⟩
  intro rx' buf' hsame
  rw [Received.into_toList, handle_eq]
  refine ⟨_, rfl, (hsame.regsAfter regs).symm, ?_⟩
  show (∃ r, reply regs buf'.1 = some r ∧ _) ↔ (∃ r, reply regs buf.1 = some r ∧ _)
  rw [hnormal, hnormal, hdecide _ _ hsame]

/-- An FC06 frame with protocol identifier 0x1234, which is not Modbus. -/
def foreignWrite : Received := ⟨[0, 1, 0x12, 0x34, 0, 6, 1, 6, 0, 0, 0, 5], by decide⟩

/-- An ADU of eight bytes (its length field says 2) and the first four bytes of the next one. -/
def truncatedWrite : Received := ⟨[0, 1, 0, 0, 0, 2, 1, 6, 0, 2, 0, 0], by decide⟩

/-- Both are executed: the second takes the next ADU's transaction identifier for the register number. -/
theorem foreign_header_executed :
    (wordAt foreignWrite.1 2 ≠ 0 ∧
      handleModbusRequest sHoldingRegs (foreignWrite.into zeroRx).toList foreignWrite.1.length zeroStack 12
        = some ⟨sHoldingRegs.setIfInBounds 0 5, some foreignWrite.1, 12⟩ ∧
      sHoldingRegs.setIfInBounds 0 5 ≠ sHoldingRegs ∧ ¬ IsException foreignWrite.1) ∧
    (wordAt truncatedWrite.1 4 ≠ 6 ∧
      handleModbusRequest sHoldingRegs
      (truncatedWrite.into zeroRx).toList truncatedWrite.1.length zeroStack 12
        = some ⟨sHoldingRegs.setIfInBounds 2 0, some truncatedWrite.1, 12⟩ ∧
      sHoldingRegs.setIfInBounds 2 0 ≠ sHoldingRegs ∧ ¬ IsException truncatedWrite.1) := by
  decide +kernel

/-! ## Exception codes -/

/-- One complete request ADU of twelve bytes with a Modbus header. -/
structure CompleteAdu (b : Bytes) : Prop where
  size     : b.length = 12
  protocol : wordAt b 2 = 0
  length   : wordAt b 4 = 6

/-- **The verdict on a complete ADU**, read off its function code and operands. -/
theorem verdict_of_completeAdu {b : Bytes} (h : CompleteAdu b) :
    (byteAt b 7 ≠ 3 → byteAt b 7 ≠ 6 → verdict b = .refuse 1) ∧
    (byteAt b 7 = 3 → ¬ (1 ≤ (wordAt b 10).toNat ∧ (wordAt b 8).toNat + (wordAt b 10).toNat ≤ 16) →
      verdict b = .refuse 2) ∧
    (byteAt b 7 = 6 → 16 ≤ (wordAt b 8).toNat → verdict b = .refuse 2) := by
  have h8 : ¬ b.length < 8 := by rw [h.size]; omega
  have h12 : ¬ b.length < 12 := by rw [h.size]; omega
  unfold verdict
  rw [if_neg h8, if_neg h12, if_neg h12]
  refine ⟨?_, ?_, ?_⟩
  · intro h3 h6
    rw [if_neg h3, if_neg h6]
  · -- the quantity and the address range are refused by one test
    intro h3 hr
    rw [if_pos h3, if_pos (by omega)]
  · intro h6 hr
    have h3 : byteAt b 7 ≠ 3 := by rw [h6]; decide
    rw [if_neg h3, if_pos h6, if_pos hr]

/-- **The exception a refused request carries.** For every register state and every complete ADU with
    function code `f` and operands `a` and `q`: code 1 if `f` is neither 3 nor 6; code 2 if `f = 3` and not
    both `1 ≤ q` and `a + q ≤ 16`, or if `f = 6` and `16 ≤ a`; otherwise the response is a normal one. An
    exception leaves the registers alone. -/
theorem refusal_codes (regs : Regs) (rx : Rx) (buf : Received) (stack : Stack) (sendRet : Int)
    (hadu : CompleteAdu buf.1) {f : UInt8} {a q : Nat} (hf : byteAt buf.1 7 = f)
    (ha : (wordAt buf.1 8).toNat = a) (hq : (wordAt buf.1 10).toNat = q) :
    ∃ h r, handleModbusRequest regs (buf.into rx).toList buf.1.length stack sendRet = some h ∧
      h.sent = some r ∧
      (f ≠ 3 → f ≠ 6 → r = exceptionFrame buf.1 1) ∧
      (f = 3 → ¬ (1 ≤ q ∧ a + q ≤ 16) → r = exceptionFrame buf.1 2) ∧
      (f = 6 → 16 ≤ a → r = exceptionFrame buf.1 2) ∧
      (f = 3 ∧ 1 ≤ q ∧ a + q ≤ 16 ∨ f = 6 ∧ a < 16 → ¬ IsException r) ∧
      (IsException r → h.regs = regs) := by
  subst hf ha hq
  obtain ⟨hunknown, hread, hwrite⟩ := verdict_of_completeAdu hadu
  rw [Received.into_toList, handle_eq]
  by_cases hx : Executable buf.1
  · -- executed: none of the refusals applies
    obtain ⟨r, hr, hn⟩ := reply_of_executable regs hx
    refine ⟨_, r, rfl, hr, ?_, ?_, ?_, fun _ => hn, fun he => absurd he hn⟩
    · intro h3 h6
      rcases hx.2 with h | h
      · exact absurd h.1 h3
      · exact absurd h.1 h6
    · intro h3 hr'
      rcases hx.2 with h | h
      · exact absurd h.2 hr'
      · rw [h3] at h; exact absurd h.1 (by decide)
    · intro h6 hr'
      rcases hx.2 with h | h
      · rw [h6] at h; exact absurd h.1 (by decide)
      · omega
  · have hregs : regsAfter regs buf.1 = regs := (reply_of_not_executable regs hx).1
    have h12 : 12 ≤ buf.1.length := by rw [hadu.size]
    have hreply : ∃ code, reply regs buf.1 = some (exceptionFrame buf.1 code) := by
      rcases verdict_of_not_executable hx with hv | ⟨code, hv⟩
      · rw [verdict_ignore_iff] at hv; omega
      · exact ⟨code, reply_refuse regs hv⟩
    obtain ⟨code, hcode⟩ := hreply
    have hfound : ∀ k, verdict buf.1 = .refuse k → exceptionFrame buf.1 code = exceptionFrame buf.1 k := by
      intro k hv
      rw [reply_refuse regs hv] at hcode
      exact (Option.some.inj hcode).symm
    refine ⟨_, _, rfl, hcode, fun h3 h6 => hfound 1 (hunknown h3 h6), fun h3 hr => hfound 2 (hread h3 hr),
      fun h6 hr => hfound 2 (hwrite h6 hr), ?_, fun _ => hregs⟩
    intro hvalid
    exact absurd ⟨h12, hvalid⟩ hx

/-- A request to read no register at all, and one to read 126 from address 0. -/
def readNone : Received := ⟨[0, 1, 0, 0, 0, 6, 1, 3, 0, 0, 0, 0], by decide⟩

def readTooMany : Received := ⟨[0, 1, 0, 0, 0, 6, 1, 3, 0, 0, 0, 126], by decide⟩

theorem refusal_codes_readNone :
    ∃ h r, handleModbusRequest sHoldingRegs (readNone.into zeroRx).toList 12 zeroStack 9 = some h ∧
      h.sent = some r ∧ r = exceptionFrame readNone.1 2 := by
  obtain ⟨h, r, hh, hr, _, hread, _⟩ := refusal_codes sHoldingRegs zeroRx readNone zeroStack 9
    ⟨by decide, by decide, by decide⟩ (f := 3) (a := 0) (q := 0) (by decide) (by decide) (by decide)
  exact ⟨h, r, hh, hr, hread rfl (by decide)⟩

/-- Both quantities are outside 1 to 125; the exception code is 2, not 3. -/
theorem bad_quantity_refused_as_address :
    (CompleteAdu readNone.1 ∧
      handleModbusRequest sHoldingRegs (readNone.into zeroRx).toList readNone.1.length zeroStack 9
        = some ⟨sHoldingRegs, some (exceptionFrame readNone.1 2), 9⟩ ∧
      exceptionFrame readNone.1 2 ≠ exceptionFrame readNone.1 3) ∧
    (CompleteAdu readTooMany.1 ∧
      handleModbusRequest sHoldingRegs (readTooMany.into zeroRx).toList readTooMany.1.length zeroStack 9
        = some ⟨sHoldingRegs, some (exceptionFrame readTooMany.1 2), 9⟩ ∧
      exceptionFrame readTooMany.1 2 ≠ exceptionFrame readTooMany.1 3) := by
  refine ⟨⟨⟨?_, ?_, ?_⟩, ?_, ?_⟩, ⟨⟨?_, ?_, ?_⟩, ?_, ?_⟩⟩ <;> decide +kernel

end Modbus
end Esp32Probes
