import Esp32Probes.Modbus.Server

/-!
# `Modbus.Framed` — the responses as Modbus/TCP frames

`Framed b r` says that the response `r` is one correctly framed ADU answering the request `b`: its MBAP
length field counts the bytes that follow it, the identifiers are those of the request, and it is either a
normal response or an exception with one of the three codes. Two of the three builders compute the length
field from what they send; the write response echoes the request's own header. `framed_iff` says exactly
when a response is framed.
-/

namespace Esp32Probes
namespace Modbus

open BigEndian

/-- A normal response repeats the function code; a read response also announces its byte count. -/
structure NormalResponse (b r : Bytes) : Prop where
  function : byteAt r 7 = byteAt b 7
  known    : byteAt b 7 = 3 ∨ byteAt b 7 = 6
  count    : byteAt b 7 = 3 →
    (byteAt r 8).toNat + 9 = r.length ∧ (byteAt r 8).toNat = 2 * (wordAt b 10).toNat

/-- An exception response sets bit 7 of the function code and carries a code. -/
structure ExceptionResponse (b r : Bytes) : Prop where
  function : byteAt r 7 = byteAt b 7 ||| 0x80
  length   : r.length = 9
  code     : byteAt r 8 = 1 ∨ byteAt r 8 = 2 ∨ byteAt r 8 = 3

/-- The response `r` is one correctly framed ADU that matches the request `b`. -/
structure Framed (b r : Bytes) : Prop where
  size   : 9 ≤ r.length
  length : (wordAt r 4).toNat + 6 = r.length
  ids    : r.take 4 = b.take 4
  unit   : byteAt r 6 = byteAt b 6
  kind   : NormalResponse b r ∨ ExceptionResponse b r

/-- An FC06 request that the handler accepts although its length field is not that of the twelve bytes
    it parses. -/
def MislabelledWrite (b : Bytes) : Prop :=
  12 ≤ b.length ∧ byteAt b 7 = 6 ∧ (wordAt b 8).toNat < 16 ∧ (wordAt b 4).toNat ≠ 6

instance (b : Bytes) : Decidable (MislabelledWrite b) := by unfold MislabelledWrite; infer_instance

/-! ## Reading back a response built on the request's first four bytes -/

theorem byteAt_header {b : Bytes} (h : 4 ≤ b.length) (rest : Bytes) (i : Nat) :
    byteAt (b.take 4 ++ rest) (4 + i) = byteAt rest i := by
  have hlen : (b.take 4).length = 4 := by rw [List.length_take]; omega
  unfold byteAt
  rw [List.getD_append_right _ _ _ _ (by omega), hlen, Nat.add_sub_cancel_left]

theorem wordAt_header {b : Bytes} (h : 4 ≤ b.length) (rest : Bytes) :
    wordAt (b.take 4 ++ rest) 4 = wordAt rest 0 := by
  unfold wordAt
  rw [byteAt_header h rest 0, byteAt_header h rest 1]

theorem take_header {b : Bytes} (h : 4 ≤ b.length) (rest : Bytes) :
    (b.take 4 ++ rest).take 4 = b.take 4 :=
  List.take_left' (by rw [List.length_take]; omega)

/-- A byte of the echoed prefix is the request's. -/
theorem byteAt_take {b : Bytes} {n i : Nat} (h : i < n) : byteAt (b.take n) i = byteAt b i := by
  unfold byteAt
  simp only [List.getD_eq_getElem?_getD, List.getElem?_take, h, if_true]

theorem wordAt_take {b : Bytes} {n i : Nat} (h : i + 1 < n) : wordAt (b.take n) i = wordAt b i := by
  unfold wordAt
  rw [byteAt_take (by omega : i < n), byteAt_take h]

/-! ## The three response builders -/

theorem function_exceptionFrame {b : Bytes} (h : 8 ≤ b.length) (code : UInt8) :
    byteAt (exceptionFrame b code) 7 = byteAt b 7 ||| 0x80 :=
  byteAt_header (show 4 ≤ b.length by omega) _ 3

theorem exceptionFrame_framed {b : Bytes} (h : 8 ≤ b.length) {code : UInt8}
    (hc : code = 1 ∨ code = 2 ∨ code = 3) : Framed b (exceptionFrame b code) := by
  have h4 : 4 ≤ b.length := by omega
  have hlen : (exceptionFrame b code).length = 9 := length_exceptionFrame h4 code
  refine ⟨by omega, ?_, take_header h4 _, byteAt_header h4 _ 2,
    Or.inr ⟨function_exceptionFrame h code, hlen, ?_⟩⟩
  · rw [hlen, exceptionFrame, wordAt_header h4]
    show (be16 0 3).toNat + 6 = 9
    decide
  · rw [show byteAt (exceptionFrame b code) 8 = code from byteAt_header h4 _ 4]; exact hc

theorem registersFrame_framed {b : Bytes} (h : 8 ≤ b.length) (regs : Regs) (start : Nat)
    (h3 : byteAt b 7 = 3) (hc : (wordAt b 10).toNat ≤ 16) :
    Framed b (registersFrame regs b start (wordAt b 10).toNat) := by
  have h4 : 4 ≤ b.length := by omega
  set n := (wordAt b 10).toNat
  have hlen : (registersFrame regs b start n).length = 9 + 2 * n := length_registersFrame h4 regs start n
  have hshape : registersFrame regs b start n = b.take 4 ++ (wordBytes (UInt16.ofNat (3 + n * 2)) ++
      ([byteAt b 6, byteAt b 7, UInt8.ofNat (n * 2)] ++ registerBytes regs start n)) := by
    simp only [registersFrame, List.append_assoc]
  have hword : (wordAt (registersFrame regs b start n) 4).toNat = 3 + n * 2 := by
    rw [hshape, wordAt_header h4]
    show (be16 (hi8 (UInt16.ofNat (3 + n * 2))) (lo8 (UInt16.ofNat (3 + n * 2)))).toNat = _
    rw [be16_hi8_lo8, UInt16.toNat_ofNat']; omega
  have hcount : (byteAt (registersFrame regs b start n) 8).toNat = 2 * n := by
    rw [hshape, show 8 = 4 + 4 from rfl, byteAt_header h4]
    show (UInt8.ofNat (n * 2)).toNat = _
    rw [UInt8.toNat_ofNat']; omega
  refine ⟨by omega, by omega, ?_, ?_, Or.inl ⟨?_, Or.inl h3, fun _ => ⟨by omega, hcount⟩⟩⟩
  · rw [hshape]; exact take_header h4 _
  · rw [hshape]; exact byteAt_header h4 _ 2
  · rw [hshape]; exact byteAt_header h4 _ 3

/-- **The echo is framed exactly when the request's own length field is 6.** Everything but that field is
    right for every accepted write. -/
theorem echo_framed_iff {b : Bytes} (h : 12 ≤ b.length) (h6 : byteAt b 7 = 6) :
    Framed b (b.take 12) ↔ (wordAt b 4).toNat = 6 := by
  have hlen : (b.take 12).length = 12 := by rw [List.length_take]; omega
  have hword : wordAt (b.take 12) 4 = wordAt b 4 := wordAt_take (by omega)
  constructor
  · intro hf
    have hl := hf.length
    rw [hword, hlen] at hl
    omega
  · intro hl
    have hfn : byteAt (b.take 12) 7 = byteAt b 7 := byteAt_take (by omega)
    refine ⟨by omega, by rw [hword, hlen, hl], ?_, byteAt_take (by omega), Or.inl ⟨hfn, Or.inr h6, ?_⟩⟩
    · rw [List.take_take]; rfl
    · intro h3; rw [h6] at h3; exact absurd h3 (by decide)

/-- Every reply is framed, unless it is the echo of a mislabelled write. -/
theorem reply_framed_iff {regs : Regs} {b r : Bytes} (hr : reply regs b = some r) :
    Framed b r ↔ ¬ MislabelledWrite b := by
  unfold reply at hr
  cases hv : verdict b with
  | ignore => rw [hv] at hr; cases hr
  | refuse code =>
      rw [hv] at hr; cases hr
      constructor
      · -- a mislabelled write is accepted, not refused
        rintro _ ⟨h12, h6, hlt, _⟩
        rw [verdict_write_iff.mpr ⟨h12, h6, rfl, rfl, hlt⟩] at hv
        cases hv
      · intro _
        exact exceptionFrame_framed (verdict_refuse_length hv) (verdict_refuse_code hv)
  | read start count =>
      rw [hv] at hr; cases hr
      obtain ⟨h12, h3, rfl, rfl, _, hle⟩ := verdict_read_iff.mp hv
      constructor
      · rintro _ ⟨_, h6, _⟩
        rw [h6] at h3; exact absurd h3 (by decide)
      · intro _
        exact registersFrame_framed (by omega) regs _ h3 (by omega)
  | write reg value =>
      rw [hv] at hr; cases hr
      obtain ⟨h12, h6, rfl, rfl, hlt⟩ := verdict_write_iff.mp hv
      rw [echo_framed_iff h12 h6, MislabelledWrite]
      constructor
      · rintro hl ⟨_, _, _, hne⟩; exact hne hl
      · intro hn
        by_contra hne
        exact hn ⟨h12, h6, hlt, hne⟩

/-! ## The handler's responses -/

/-- A 12-byte request to read one register, as a received buffer. -/
def readOne : Received := ⟨[0, 1, 0, 0, 0, 6, 1, 3, 0, 5, 0, 1], by decide⟩

/-- A 13-byte ADU whose FC06 PDU has one byte too many; its length field (7) counts that byte. -/
def longWrite : Received := ⟨[0, 1, 0, 0, 0, 7, 1, 6, 0, 0, 0, 5, 9], by decide⟩

/-- Zeroed memory for the examples. -/
def zeroStack : Stack := ⟨Vector.replicate 9 0, Vector.replicate 41 0⟩

def zeroRx : Rx := Vector.replicate 260 0

/-- **When a response of the handler is a correctly framed ADU.** For every register state, every received
    buffer and every content of the memory around it: what the handler sends is framed if and only if the
    request is not an accepted FC06 whose MBAP length field differs from 6. -/
theorem framed_iff (regs : Regs) (rx : Rx) (buf : Received) (stack : Stack) (sendRet : Int)
    {h : Handled} {r : Bytes}
    (hh : handleModbusRequest regs (buf.into rx).toList buf.1.length stack sendRet = some h)
    (hr : h.sent = some r) : Framed buf.1 r ↔ ¬ MislabelledWrite buf.1 := by
  rw [Received.into_toList, handle_eq] at hh
  obtain rfl := Option.some.inj hh
  exact reply_framed_iff hr

theorem framed_readOne : Framed readOne.1 [0, 1, 0, 0, 0, 5, 1, 3, 2, 0, 105] :=
  (framed_iff sHoldingRegs zeroRx readOne zeroStack 11
    (h := ⟨sHoldingRegs, some [0, 1, 0, 0, 0, 5, 1, 3, 2, 0, 105], 11⟩) (by decide +kernel) rfl).mpr
      (by decide)

/-- The answer to `longWrite` is twelve bytes long and announces thirteen. -/
theorem longWrite_misframed :
    handleModbusRequest sHoldingRegs (longWrite.into zeroRx).toList longWrite.1.length zeroStack 12
        = some ⟨sHoldingRegs.set 0 5, some [0, 1, 0, 0, 0, 7, 1, 6, 0, 0, 0, 5], 12⟩ ∧
      ¬ Framed longWrite.1 [0, 1, 0, 0, 0, 7, 1, 6, 0, 0, 0, 5] := by
  refine ⟨by decide +kernel, fun hf => ?_⟩
  exact absurd hf.length (by decide)

end Modbus
end Esp32Probes
