import Esp32Probes.Modbus.Checked

/-!
# `Modbus.Reply` — what the handler answers, as a function of the received bytes

`verdict` classifies a received buffer, `reply` and `regsAfter` say which bytes are sent and which registers
remain. These are closed forms over the received bytes alone: no response array, no stale receive buffer,
no failure. `checked_eq` connects them to the code: the checked handler, which may use nothing but the
received bytes, never faults and returns exactly `reply` and `regsAfter`. `handle_eq` is the same for the
handler itself, whatever the bytes behind `b` and the uninitialised arrays hold.
-/

namespace Esp32Probes
namespace Modbus

open CBuffer BigEndian Poison

/-! ## Reading a received buffer -/

/-- Byte `i` of a buffer (`0` past its end; only used below it). -/
def byteAt (b : Bytes) (i : Nat) : UInt8 := b.getD i 0

/-- The big-endian word at offset `i`. -/
def wordAt (b : Bytes) (i : Nat) : UInt16 := be16 (byteAt b i) (byteAt b (i + 1))

/-- The two bytes of a word, in the order they are sent. -/
def wordBytes (v : UInt16) : Bytes := [hi8 v, lo8 v]

/-- Register `i` (`0` from 16 on; only used below). -/
def regAt (regs : Regs) (i : Nat) : UInt16 := regs[i]?.getD 0

theorem load_eq_byteAt {b : Bytes} {i : Nat} (h : i < b.length) : load b i = some (byteAt b i) := by
  rw [load_lt h, byteAt, List.getD_eq_getElem _ _ h]

/-- The bytes of `b`, in front of `rest`. -/
theorem read_received {b : Bytes} (rest : Cells UInt8) {i : Nat} (h : i < b.length) :
    read (b.map some ++ rest) i = some (byteAt b i) := by rw [read_known rest h, load_eq_byteAt h]

/-- The checked `get_u16` inside the received bytes. -/
theorem getU16_received {b : Bytes} (rest : Cells UInt8) {i : Nat} (h : i + 1 < b.length) :
    Checked.getU16 (b.map some ++ rest) i = some (wordAt b i) := by
  have h0 : read (b.map some ++ rest) i = some (byteAt b i) := read_received rest (by omega)
  have h1 : read (b.map some ++ rest) (i + 1) = some (byteAt b (i + 1)) := read_received rest h
  simp [Checked.getU16, h0, h1, wordAt]

/-! ## The verdict on a buffer -/

/-- What the handler decides about a buffer. -/
inductive Verdict
  | ignore
  | refuse (code : UInt8)
  | read (start count : UInt16)
  | write (reg value : UInt16)
  deriving DecidableEq

/-- The decision procedure of `handle_modbus_request`. -/
def verdict (b : Bytes) : Verdict :=
  if b.length < 8 then .ignore
  else if byteAt b 7 = 3 then
    if b.length < 12 then .refuse 3
    else if (wordAt b 10).toNat < 1 ∨ (wordAt b 10).toNat > 16
        ∨ (wordAt b 8).toNat + (wordAt b 10).toNat > 16 then .refuse 2
    else .read (wordAt b 8) (wordAt b 10)
  else if byteAt b 7 = 6 then
    if b.length < 12 then .refuse 3
    else if (wordAt b 8).toNat ≥ 16 then .refuse 2
    else .write (wordAt b 8) (wordAt b 10)
  else .refuse 1

/-- **What a read verdict means.** -/
theorem verdict_read_iff {b : Bytes} {start count : UInt16} :
    verdict b = .read start count ↔
      12 ≤ b.length ∧ byteAt b 7 = 3 ∧ wordAt b 8 = start ∧ wordAt b 10 = count ∧
        1 ≤ count.toNat ∧ start.toNat + count.toNat ≤ 16 := by
  unfold verdict
  constructor
  · intro h
    split_ifs at h with h8 h3 h12 hr h6
    cases h
    exact ⟨by omega, h3, rfl, rfl, by omega, by omega⟩
  · rintro ⟨hlen, h3, rfl, rfl, hc, hs⟩
    rw [if_neg (by omega), if_pos h3, if_neg (by omega), if_neg (by omega)]

/-- **What a write verdict means.** -/
theorem verdict_write_iff {b : Bytes} {reg value : UInt16} :
    verdict b = .write reg value ↔
      12 ≤ b.length ∧ byteAt b 7 = 6 ∧ wordAt b 8 = reg ∧ wordAt b 10 = value ∧ reg.toNat < 16 := by
  unfold verdict
  constructor
  · intro h
    split_ifs at h with h8 h3 h12 hr h6 h12' hr'
    cases h
    exact ⟨by omega, h6, rfl, rfl, by omega⟩
  · rintro ⟨hlen, h6, rfl, rfl, hr⟩
    have h3 : byteAt b 7 ≠ 3 := by rw [h6]; decide
    rw [if_neg (by omega), if_neg h3, if_pos h6, if_neg (by omega), if_neg (by omega)]

theorem verdict_ignore_iff {b : Bytes} : verdict b = .ignore ↔ b.length < 8 := by
  unfold verdict
  constructor
  · intro h
    split_ifs at h with h8
    exact h8
  · intro h; rw [if_pos h]

theorem verdict_refuse_length {b : Bytes} {code : UInt8} (h : verdict b = .refuse code) : 8 ≤ b.length := by
  have hne : ¬ b.length < 8 := by rw [← verdict_ignore_iff, h]; simp
  omega

/-- A refusal carries one of the three codes the code passes to `send_exception`. -/
theorem verdict_refuse_code {b : Bytes} {code : UInt8} (h : verdict b = .refuse code) :
    code = 1 ∨ code = 2 ∨ code = 3 := by
  unfold verdict at h
  split_ifs at h <;> cases h <;> decide

/-! ## The frames that are sent -/

/-- The bytes `send_exception` builds. -/
def exceptionFrame (b : Bytes) (code : UInt8) : Bytes :=
  b.take 4 ++ [0, 3, byteAt b 6, byteAt b 7 ||| 0x80, code]

/-- The register words of a read response, starting at offset 9. -/
def registerBytes (regs : Regs) (start count : Nat) : Bytes :=
  (List.range count).flatMap (fun i => wordBytes (regAt regs (start + i)))

/-- The bytes of a normal response to a read request. -/
def registersFrame (regs : Regs) (b : Bytes) (start count : Nat) : Bytes :=
  b.take 4 ++ wordBytes (UInt16.ofNat (3 + count * 2)) ++
    [byteAt b 6, byteAt b 7, UInt8.ofNat (count * 2)] ++ registerBytes regs start count

/-- The bytes sent in answer to `b`, if any. -/
def reply (regs : Regs) (b : Bytes) : Option Bytes :=
  match verdict b with
  | .ignore => none
  | .refuse code => some (exceptionFrame b code)
  | .read start count => some (registersFrame regs b start.toNat count.toNat)
  | .write _ _ => some (b.take 12)

/-- The registers after `b` has been handled. -/
def regsAfter (regs : Regs) (b : Bytes) : Regs :=
  match verdict b with
  | .write reg value => regs.setIfInBounds reg.toNat value
  | _ => regs

theorem reply_refuse {b : Bytes} {code : UInt8} (regs : Regs) (h : verdict b = .refuse code) :
    reply regs b = some (exceptionFrame b code) := by rw [reply, h]

theorem reply_read {b : Bytes} {start count : UInt16} (regs : Regs) (h : verdict b = .read start count) :
    reply regs b = some (registersFrame regs b start.toNat count.toNat) := by rw [reply, h]

theorem reply_write {b : Bytes} {reg value : UInt16} (regs : Regs) (h : verdict b = .write reg value) :
    reply regs b = some (b.take 12) := by rw [reply, h]

theorem registerBytes_succ (regs : Regs) (start count : Nat) :
    registerBytes regs start (count + 1) =
      registerBytes regs start count ++ wordBytes (regAt regs (start + count)) := by
  unfold registerBytes
  rw [List.range_succ, List.flatMap_append, List.flatMap_singleton]

@[simp] theorem length_registerBytes (regs : Regs) (start count : Nat) :
    (registerBytes regs start count).length = 2 * count := by
  induction count with
  | zero => rfl
  | succ n ih => rw [registerBytes_succ, List.length_append, ih]; simp [wordBytes]; omega

theorem length_exceptionFrame {b : Bytes} (h : 4 ≤ b.length) (code : UInt8) :
    (exceptionFrame b code).length = 9 := by
  simp [exceptionFrame]; omega

theorem length_registersFrame {b : Bytes} (h : 4 ≤ b.length) (regs : Regs) (start count : Nat) :
    (registersFrame regs b start count).length = 9 + 2 * count := by
  simp [registersFrame, wordBytes]; omega

/-! ## The response arrays, filled from the front -/

/-- `put_u16` at the end of what is known makes two more bytes known. -/
theorem known_putU16 {n off : Nat} {pre : Bytes} {m : Cells UInt8} (h : Known n pre m)
    (hoff : pre.length = off) (hlt : off + 2 ≤ n) (v : UInt16) :
    ∃ m', Checked.putU16 m off v = some m' ∧ Known n (pre ++ wordBytes v) m' := by
  subst hoff
  obtain ⟨m1, h1, f1⟩ := h.write (by omega) (hi8 v)
  have hlen : (pre ++ [hi8 v]).length = pre.length + 1 := by simp
  obtain ⟨m2, h2, f2⟩ := f1.write (by omega) (lo8 v)
  rw [hlen] at h2
  refine ⟨m2, by simp [Checked.putU16, h1, h2], ?_⟩
  simpa [wordBytes] using f2

theorem loadReg_lt (regs : Regs) {i : Nat} (h : i < 16) : loadReg regs i = some (regAt regs i) := by
  rw [loadReg, regAt, Vector.getElem?_eq_getElem h, Option.getD_some]

theorem storeReg_lt (regs : Regs) {i : Nat} (h : i < 16) (v : UInt16) :
    storeReg regs i v = some (regs.setIfInBounds i v) := by
  rw [storeReg, dif_pos h]
  congr 1
  apply Vector.ext
  intro j hj
  rw [Vector.getElem_set, Vector.getElem_setIfInBounds]

/-- The copy loop appends the requested registers. Induction on the number of iterations; the array has
    room for sixteen words after its nine header bytes. -/
theorem known_putRegs {pre : Bytes} {m : Cells UInt8} (regs : Regs) {start count : Nat} (h : Known 41 pre m)
    (hpre : pre.length = 9) (hle : start + count ≤ 16) :
    ∃ m', Checked.putRegs regs start count m = some m' ∧
      Known 41 (pre ++ registerBytes regs start count) m' := by
  induction count with
  | zero => exact ⟨m, rfl, by simpa [registerBytes] using h⟩
  | succ n ih =>
      obtain ⟨m1, h1, f1⟩ := ih (by omega)
      have hlen : (pre ++ registerBytes regs start n).length = 9 + n * 2 := by
        rw [List.length_append, length_registerBytes, hpre]; omega
      obtain ⟨m2, h2, f2⟩ := known_putU16 f1 hlen (by omega) (regAt regs (start + n))
      refine ⟨m2, ?_, ?_⟩
      · unfold Checked.putRegs at h1 ⊢
        rw [List.range_succ, List.foldlM_append, h1]
        simp only [Option.bind_eq_bind, Option.bind_some, List.foldlM_cons, List.foldlM_nil,
          loadReg_lt regs (show start + n < 16 by omega), h2, Option.pure_def]
      · rw [registerBytes_succ, ← List.append_assoc]; exact f2

/-- Both response builders start alike: the first four request bytes, a length word, and three bytes.
    The intermediate arrays are named so that the callers can follow the code step by step. -/
theorem known_header {n : Nat} (hn : 9 ≤ n) {b : Bytes} (rest : Cells UInt8) (h : 8 ≤ b.length) (w : UInt16)
    (x y z : UInt8) :
    ∃ m1 m2 m3 m4 m5, copy (List.replicate n none) (b.map some ++ rest) 4 = some m1 ∧
      Checked.putU16 m1 4 w = some m2 ∧ write m2 6 x = some m3 ∧ write m3 7 y = some m4 ∧
      write m4 8 z = some m5 ∧ Known n (b.take 4 ++ wordBytes w ++ [x, y, z]) m5 := by
  -- each write lands right behind what is known so far
  have hlen4 : (b.take 4).length = 4 := by rw [List.length_take]; omega
  obtain ⟨m1, h1, f1⟩ := Known.copy (k := 4) (List.length_replicate (n := n)) (by omega) rest
    (show 4 ≤ b.length by omega)
  obtain ⟨m2, h2, f2⟩ := known_putU16 f1 hlen4 (by omega) w
  have hlen6 : (b.take 4 ++ wordBytes w).length = 6 := by rw [List.length_append, hlen4]; rfl
  obtain ⟨m3, h3, f3⟩ := f2.write (by omega) x
  obtain ⟨m4, h4, f4⟩ := f3.write (by rw [List.length_append, hlen6]; exact (by omega : 6 + 1 < n)) y
  obtain ⟨m5, h5, f5⟩ := f4.write
    (by rw [List.length_append, List.length_append, hlen6]; exact (by omega : 6 + 1 + 1 < n)) z
  rw [hlen6] at h3
  rw [List.length_append, hlen6] at h4
  rw [List.length_append, List.length_append, hlen6] at h5
  refine ⟨m1, m2, m3, m4, m5, h1, h2, h3, h4, h5, ?_⟩
  simpa only [List.append_assoc, List.cons_append, List.nil_append] using f5

theorem length_header {b : Bytes} (h : 8 ≤ b.length) (w : UInt16) (x y z : UInt8) :
    (b.take 4 ++ wordBytes w ++ [x, y, z]).length = 9 := by
  simp only [List.length_append, List.length_take, wordBytes, List.length_cons, List.length_nil]
  omega

/-- **`send_exception`** builds the frame from received bytes only. -/
theorem sendException_eq {b : Bytes} (rest : Cells UInt8) (h : 8 ≤ b.length) (code : UInt8) :
    Checked.sendException (b.map some ++ rest) (byteAt b 7) code = some (exceptionFrame b code) := by
  have hunit : read (b.map some ++ rest) 6 = some (byteAt b 6) := read_received rest (by omega)
  obtain ⟨m1, m2, m3, m4, m5, h1, h2, h3, h4, h5, f⟩ := known_header (n := 9) (Nat.le_refl 9) rest h 3
    (byteAt b 6) (byteAt b 7 ||| 0x80) code
  have hframe : b.take 4 ++ wordBytes 3 ++ [byteAt b 6, byteAt b 7 ||| 0x80, code]
      = exceptionFrame b code := by rw [List.append_assoc]; rfl
  have hsend := f.readFront
  rw [length_header h, hframe] at hsend
  simp only [Checked.sendException, h1, h2, hunit, h3, h4, h5, hsend, Option.bind_eq_bind, Option.bind_some]

/-! ## The handler computes the closed form -/

/-- **The checked handler computes `reply` and `regsAfter`**, from the received bytes alone. -/
theorem checked_eq (regs : Regs) (b : Bytes) (rest : Cells UInt8) (sendRet : Int) :
    Checked.handleModbusRequest regs (b.map some ++ rest) b.length sendRet =
      some ⟨regsAfter regs b, reply regs b, if b.length < 8 then -1 else sendRet⟩ := by
  by_cases h8 : b.length < 8
  · have hv : verdict b = .ignore := verdict_ignore_iff.mpr h8
    simp [Checked.handleModbusRequest, h8, reply, regsAfter, hv]
  have hunit : read (b.map some ++ rest) 6 = some (byteAt b 6) := read_received rest (by omega)
  have hfn : read (b.map some ++ rest) 7 = some (byteAt b 7) := read_received rest (by omega)
  have hexc : ∀ code, Checked.sendException (b.map some ++ rest) (byteAt b 7) code
      = some (exceptionFrame b code) := by
    intro code
    exact sendException_eq rest (by omega) code
  unfold Checked.handleModbusRequest reply regsAfter verdict
  simp only [h8, if_false, hunit, hfn, Option.bind_eq_bind, Option.bind_some]
  by_cases h3 : byteAt b 7 = 3
  · simp only [h3, if_true]
    rw [h3] at hexc
    by_cases h12 : b.length < 12
    · simp [h12, hexc]
    have h8w : Checked.getU16 (b.map some ++ rest) 8 = some (wordAt b 8) := getU16_received rest (by omega)
    have h10w : Checked.getU16 (b.map some ++ rest) 10 = some (wordAt b 10) := getU16_received rest (by omega)
    simp only [h12, if_false, h8w, h10w, Option.bind_some]
    split_ifs with hr
    · simp [hexc]
    · -- the response array: header, then the registers appended by the loop
      obtain ⟨m1, m2, m3, m4, m5, h1, h2, h3', h4, h5, f⟩ := known_header (n := 41) (by omega) rest
        (show 8 ≤ b.length by omega) (UInt16.ofNat (3 + (wordAt b 10).toNat * 2)) (byteAt b 6) 3
        (UInt8.ofNat ((wordAt b 10).toNat * 2))
      have hlen9 := length_header (show 8 ≤ b.length by omega)
        (UInt16.ofNat (3 + (wordAt b 10).toNat * 2)) (byteAt b 6) 3
        (UInt8.ofNat ((wordAt b 10).toNat * 2))
      obtain ⟨m6, h6, f6⟩ := known_putRegs regs f hlen9
        (show (wordAt b 8).toNat + (wordAt b 10).toNat ≤ 16 by omega)
      have hsend := f6.readFront
      rw [List.length_append, hlen9, length_registerBytes, Nat.mul_comm 2] at hsend
      simp only [h1, h2, h3', h4, h5, h6, hsend, Option.bind_some, Option.pure_def, registersFrame, h3]
  · simp only [h3, if_false]
    by_cases h6 : byteAt b 7 = 6
    · simp only [h6, if_true]
      rw [h6] at hexc
      by_cases h12 : b.length < 12
      · simp [h12, hexc]
      have h8w : Checked.getU16 (b.map some ++ rest) 8 = some (wordAt b 8) := getU16_received rest (by omega)
      have h10w : Checked.getU16 (b.map some ++ rest) 10 = some (wordAt b 10) :=
        getU16_received rest (by omega)
      simp only [h12, if_false, h8w, h10w, Option.bind_some]
      split_ifs with hr
      · simp [hexc]
      · -- the register is stored before the echo is sent
        have hlt : (wordAt b 8).toNat < 16 := by omega
        have hfront : readFront (b.map some ++ rest) 12 = some (b.take 12) := readFront_known rest (by omega)
        have hset : storeReg regs (wordAt b 8).toNat (wordAt b 10)
            = some (regs.setIfInBounds (wordAt b 8).toNat (wordAt b 10)) :=
          storeReg_lt regs hlt _
        simp only [hset, hfront, Option.bind_some, Option.pure_def]
    · simp [h6, hexc]

/-- **The handler computes `reply` and `regsAfter`.** `b` is what `recv` delivered, `tail` what the receive
    buffer holds behind it. -/
theorem handle_eq (regs : Regs) (b tail : Bytes) (stack : Stack) (sendRet : Int) :
    handleModbusRequest regs (b ++ tail) b.length stack sendRet =
      some ⟨regsAfter regs b, reply regs b, if b.length < 8 then -1 else sendRet⟩ := by
  have hagree : Agrees (b.map some ++ List.replicate tail.length none) (b ++ tail) := agrees_known b rfl rfl
  obtain ⟨h, hh, rfl⟩ := Checked.handle_refines regs hagree b.length stack sendRet _
    (checked_eq regs b _ sendRet)
  exact hh

end Modbus
end Esp32Probes
