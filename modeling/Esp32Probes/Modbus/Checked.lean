import Esp32Probes.Lib.Poison
import Esp32Probes.Modbus.Handler

/-!
# `Modbus.Checked` — the request handler over poisoned memory

The text of `Modbus.Handler` once more, over memory in which a cell may be poisoned (`Lib.Poison`): the
response arrays hold nothing when they are declared, and of the receive buffer only the bytes that have just
been received may be used. Every read of `req`, every operand and every byte handed to `send` is a checked
read, so a result means that no stale and no indeterminate byte was used. `handle_refines` connects the
two: whatever the checked handler returns, the handler returns on every receive buffer that holds the received
bytes, with anything in the rest of it and in the response arrays.
-/

namespace Esp32Probes
namespace Modbus
namespace Checked

open CBuffer BigEndian Poison

/-! ## The checked handler -/

/-- `get_u16`, of two bytes that are in the buffer and have been written. -/
def getU16 (p : Cells UInt8) (off : Nat) : Option UInt16 := do
  let hi ← read p off
  let lo ← read p (off + 1)
  return be16 hi lo

/-- `put_u16` inside the buffer. -/
def putU16 (p : Cells UInt8) (off : Nat) (v : UInt16) : Option (Cells UInt8) := do
  let p ← write p off (hi8 v)
  write p (off + 1) (lo8 v)

/-- `send_exception` with its array poisoned: what it sends has been written. -/
def sendException (req : Cells UInt8) (function code : UInt8) : Option Bytes := do
  let resp ← copy (List.replicate 9 none) req 4
  let resp ← putU16 resp 4 3
  let unit ← read req 6
  let resp ← write resp 6 unit
  let resp ← write resp 7 (function ||| 0x80)
  let resp ← write resp 8 code
  readFront resp 9

/-- The loop over the registers of a read response, each with a checked index. -/
def putRegs (regs : Regs) (start count : Nat) (resp : Cells UInt8) : Option (Cells UInt8) :=
  (List.range count).foldlM (fun resp i => do
    let v ← loadReg regs (start + i)
    putU16 resp (9 + i * 2) v) resp

/-- `handle_modbus_request` with every access checked. -/
def handleModbusRequest (regs : Regs) (req : Cells UInt8) (len : Nat) (sendRet : Int) : Option Handled :=
  if len < 8 then some ⟨regs, none, -1⟩
  else do
    let unit ← read req 6
    let function ← read req 7
    if function = 3 then
      if len < 12 then
        let sent ← sendException req function 3
        return ⟨regs, some sent, sendRet⟩
      else
        let start ← getU16 req 8
        let count ← getU16 req 10
        if count.toNat < 1 ∨ count.toNat > 16 ∨ start.toNat + count.toNat > 16 then
          let sent ← sendException req function 2
          return ⟨regs, some sent, sendRet⟩
        else
          let resp ← copy (List.replicate 41 none) req 4
          let resp ← putU16 resp 4 (UInt16.ofNat (3 + count.toNat * 2))
          let resp ← write resp 6 unit
          let resp ← write resp 7 function
          let resp ← write resp 8 (UInt8.ofNat (count.toNat * 2))
          let resp ← putRegs regs start.toNat count.toNat resp
          let sent ← readFront resp (9 + count.toNat * 2)
          return ⟨regs, some sent, sendRet⟩
    else if function = 6 then
      if len < 12 then
        let sent ← sendException req function 3
        return ⟨regs, some sent, sendRet⟩
      else
        let reg ← getU16 req 8
        let value ← getU16 req 10
        if reg.toNat ≥ 16 then
          let sent ← sendException req function 2
          return ⟨regs, some sent, sendRet⟩
        else
          let regs ← storeReg regs reg.toNat value
          let sent ← readFront req 12
          return ⟨regs, some sent, sendRet⟩
    else
      let sent ← sendException req function 1
      return ⟨regs, some sent, sendRet⟩

/-! ## The handler refines it -/

/-- The checked `get_u16` reads what the real one reads. -/
theorem getU16_refines {p : Cells UInt8} {c : Bytes} (h : Agrees p c) (off : Nat) :
    Refines Eq (getU16 p off) (Modbus.getU16 c off) := by
  apply (h.read off).bind
  rintro hi _ rfl
  apply (h.read (off + 1)).bind
  rintro lo _ rfl
  exact Refines.pure rfl

theorem putU16_refines {p : Cells UInt8} {c : Bytes} (h : Agrees p c) (off : Nat) (v : UInt16) :
    Refines Agrees (putU16 p off v) (Modbus.putU16 c off v) := by
  apply (h.write off (hi8 v)).bind
  intro p' c' h'
  exact h'.write (off + 1) (lo8 v)

/-- What the checked `send_exception` sends is sent, whatever the array held before. -/
theorem sendException_refines {req : Cells UInt8} {c : Bytes} (h : Agrees req c) (function code : UInt8)
    (stack : Stack) :
    Refines Eq (sendException req function code) (Modbus.sendException c function code stack) := by
  have hresp : Agrees (List.replicate 9 none) stack.exc.toList := agrees_replicate (by simp)
  apply (hresp.copy h 4).bind
  intro _ _ h1
  apply (putU16_refines h1 4 3).bind
  intro _ _ h2
  apply (h.read 6).bind
  rintro unit _ rfl
  apply (h2.write 6 unit).bind
  intro _ _ h3
  apply (h3.write 7 (function ||| 0x80)).bind
  intro _ _ h4
  apply (h4.write 8 code).bind
  intro _ _ h5
  exact h5.readFront 9

theorem putRegs_refines (regs : Regs) (start count : Nat) {resp : Cells UInt8} {c : Bytes}
    (h : Agrees resp c) :
    Refines Agrees (putRegs regs start count resp) (Modbus.putRegs regs start count c) := by
  apply Refines.foldlM _ _ h
  intro p c i hp
  apply (Refines.refl (loadReg regs (start + i))).bind
  rintro v _ rfl
  exact putU16_refines hp (9 + i * 2) v

/-- The tail that all the branches ending in an exception share. -/
theorem refuse_refines (regs : Regs) {req : Cells UInt8} {c : Bytes} (h : Agrees req c)
    (function code : UInt8) (stack : Stack) (sendRet : Int) :
    Refines Eq (do let sent ← sendException req function code; return (⟨regs, some sent, sendRet⟩ : Handled))
      (do let sent ← Modbus.sendException c function code stack; return ⟨regs, some sent, sendRet⟩) := by
  apply (sendException_refines h function code stack).bind
  rintro sent _ rfl
  exact Refines.pure rfl

/-- **The handler refines the checked handler**, whatever the unknown cells hold. -/
theorem handle_refines (regs : Regs) {req : Cells UInt8} {c : Bytes} (h : Agrees req c) (len : Nat)
    (stack : Stack) (sendRet : Int) :
    Refines Eq (handleModbusRequest regs req len sendRet)
      (Modbus.handleModbusRequest regs c len stack sendRet) := by
  have hrefuse : ∀ function code, _ := fun function code => refuse_refines regs h function code stack sendRet
  apply Refines.ite
  · intro _
    exact Refines.refl _
  intro _
  apply (h.read 6).bind
  rintro unit _ rfl
  apply (h.read 7).bind
  rintro function _ rfl
  apply Refines.ite
  · intro _
    apply Refines.ite
    · intro _
      exact hrefuse function 3
    intro _
    apply (getU16_refines h 8).bind
    rintro start _ rfl
    apply (getU16_refines h 10).bind
    rintro count _ rfl
    apply Refines.ite
    · intro _
      exact hrefuse function 2
    intro _
    have hresp : Agrees (List.replicate 41 none) stack.resp.toList := agrees_replicate (by simp)
    apply (hresp.copy h 4).bind
    intro _ _ h1
    apply (putU16_refines h1 4 _).bind
    intro _ _ h2
    apply (h2.write 6 unit).bind
    intro _ _ h3
    apply (h3.write 7 function).bind
    intro _ _ h4
    apply (h4.write 8 _).bind
    intro _ _ h5
    apply (putRegs_refines regs start.toNat count.toNat h5).bind
    intro _ _ h6
    apply (h6.readFront _).bind
    rintro sent _ rfl
    exact Refines.pure rfl
  · intro _
    apply Refines.ite
    · intro _
      apply Refines.ite
      · intro _
        exact hrefuse function 3
      intro _
      apply (getU16_refines h 8).bind
      rintro reg _ rfl
      apply (getU16_refines h 10).bind
      rintro value _ rfl
      apply Refines.ite
      · intro _
        exact hrefuse function 2
      intro _
      apply (Refines.refl (storeReg regs reg.toNat value)).bind
      rintro regs' _ rfl
      apply (h.readFront 12).bind
      rintro sent _ rfl
      exact Refines.pure rfl
    · intro _
      exact hrefuse function 1

end Checked
end Modbus
end Esp32Probes
