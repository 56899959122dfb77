import Mathlib.Data.List.Basic
import Esp32Probes.Lib.CBuffer
import Esp32Probes.Lib.BigEndian

/-!
# `Modbus.Handler` — the request handler of the Modbus TCP probe

`handleModbusRequest` with its helpers, statement by statement, over checked buffers (`Lib.CBuffer`): the
result is `none` only if some access to `req`, to a response array or to `s_holding_regs` is out of bounds.
The response arrays are uninitialised locals, so their contents on entry (`Stack`) are an argument. What
`send` returns is chosen by the network and handed in as `sendRet`; the log calls are left out.
-/

namespace Esp32Probes
namespace Modbus

open CBuffer BigEndian

abbrev Bytes := List UInt8

/-- `static uint16_t s_holding_regs[16]`. -/
abbrev Regs := Vector UInt16 16

/-- The initialiser of `s_holding_regs`. -/
def sHoldingRegs : Regs :=
  #v[100, 101, 102, 103,
     104, 105, 106, 107,
     108, 109, 110, 111,
     112, 113, 114, 115]

/-- What the uninitialised response arrays hold on entry: `resp[9]` of `send_exception` and
    `resp[9 + 32]` of `handle_modbus_request`. -/
structure Stack where
  exc  : Vector UInt8 9
  resp : Vector UInt8 41
  deriving DecidableEq

/-- The effect of one call of `handle_modbus_request`: the registers afterwards, the bytes passed to
    `send` (if it is called), and the value returned. -/
structure Handled where
  regs : Regs
  sent : Option Bytes
  ret  : Int
  deriving DecidableEq

/-! ## Word access -/

/-- `get_u16`: a big-endian word of the buffer. -/
def getU16 (p : Bytes) (off : Nat) : Option UInt16 := do
  let hi ← load p off
  let lo ← load p (off + 1)
  return be16 hi lo

/-- `put_u16`: a word is written in big-endian order. -/
def putU16 (p : Bytes) (off : Nat) (v : UInt16) : Option Bytes := do
  let p ← store p off (hi8 v)
  store p (off + 1) (lo8 v)

/-- `s_holding_regs[i]` as a value. -/
def loadReg (regs : Regs) (i : Nat) : Option UInt16 := regs[i]?

/-- `s_holding_regs[i] = v`. -/
def storeReg (regs : Regs) (i : Nat) (v : UInt16) : Option Regs :=
  if h : i < 16 then some (regs.set i v) else none

/-! ## The handler -/

/-- `send_exception`: the nine bytes it sends. -/
def sendException (req : Bytes) (function code : UInt8) (stack : Stack) : Option Bytes := do
  let resp ← copyFront stack.exc.toList req 4
  let resp ← putU16 resp 4 3
  let unit ← load req 6
  let resp ← store resp 6 unit
  let resp ← store resp 7 (function ||| 0x80)
  let resp ← store resp 8 code
  front resp 9

/-- The loop `for (i = 0; i < count; i++) put_u16(resp + 9 + i * 2, s_holding_regs[start + i])`. -/
def putRegs (regs : Regs) (start count : Nat) (resp : Bytes) : Option Bytes :=
  (List.range count).foldlM (fun resp i => do
    let v ← loadReg regs (start + i)
    putU16 resp (9 + i * 2) v) resp

/-- `handle_modbus_request(sock, req, len)`. The operands are compared as C compares them, promoted to
    `int`, so `start + count` does not wrap. -/
def handleModbusRequest (regs : Regs) (req : Bytes) (len : Nat) (stack : Stack) (sendRet : Int) :
    Option Handled :=
  if len < 8 then some ⟨regs, none, -1⟩
  else do
    let unit ← load req 6
    let function ← load req 7
    -- FC03, read holding registers
    if function = 3 then
      if len < 12 then
        let sent ← sendException req function 3 stack
        return ⟨regs, some sent, sendRet⟩
      else
        let start ← getU16 req 8
        let count ← getU16 req 10
        if count.toNat < 1 ∨ count.toNat > 16 ∨ start.toNat + count.toNat > 16 then
          let sent ← sendException req function 2 stack
          return ⟨regs, some sent, sendRet⟩
        else
          let resp ← copyFront stack.resp.toList req 4
          let resp ← putU16 resp 4 (UInt16.ofNat (3 + count.toNat * 2))
          let resp ← store resp 6 unit
          let resp ← store resp 7 function
          let resp ← store resp 8 (UInt8.ofNat (count.toNat * 2))
          let resp ← putRegs regs start.toNat count.toNat resp
          let sent ← front resp (9 + count.toNat * 2)
          return ⟨regs, some sent, sendRet⟩
    -- FC06, write single register
    else if function = 6 then
      if len < 12 then
        let sent ← sendException req function 3 stack
        return ⟨regs, some sent, sendRet⟩
      else
        let reg ← getU16 req 8
        let value ← getU16 req 10
        if reg.toNat ≥ 16 then
          let sent ← sendException req function 2 stack
          return ⟨regs, some sent, sendRet⟩
        else
          let regs ← storeReg regs reg.toNat value
          -- the response is the request itself
          let sent ← front req 12
          return ⟨regs, some sent, sendRet⟩
    else
      let sent ← sendException req function 1 stack
      return ⟨regs, some sent, sendRet⟩

end Modbus
end Esp32Probes
