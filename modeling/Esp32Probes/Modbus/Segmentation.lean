import Esp32Probes.Lib.Framing
import Esp32Probes.Modbus.RegisterStore

/-!
# `Modbus.Segmentation` — what TCP segmentation can change

TCP delivers a byte stream; the task handles whatever one `recv` returns as one request. This file asks
which cuts of a stream of well-formed ADUs are invisible, that is, give the same bytes sent and the same
registers as one ADU per `recv`.

* `run_deliveries`: on one connection the task serves each chunk on its own (`Framing.serve`).
* `sameService_of_goodCut`: the good cuts are invisible, by the rule `Framing.serve_goodCut`.
* `coalesced_write_lost`: a cut that is not. `SharpCuts` shows that no cut but the good ones is invisible.
-/

namespace Esp32Probes
namespace Modbus

open Machine BigEndian Framing

/-! ## Requests and deliveries -/

/-- A well-formed Modbus/TCP request ADU. -/
structure Adu where
  bytes    : Bytes
  protocol : wordAt bytes 2 = 0
  declared : bytes.length = 6 + (wordAt bytes 4).toNat
  min      : 2 ≤ (wordAt bytes 4).toNat
  max      : (wordAt bytes 4).toNat ≤ 254
  pdu      : byteAt bytes 7 = 3 ∨ byteAt bytes 7 = 6 → bytes.length = 12

/-- One positive `recv`: the bytes, and what the environment supplies to their handling. -/
structure Delivery where
  buf     : Received
  stack   : Stack
  sendRet : Int

def Delivery.outcome (d : Delivery) : Outcome := .data d.buf d.stack d.sendRet

def Delivery.bytes (d : Delivery) : Bytes := d.buf.1

/-- The byte stream of a list of requests. -/
def stream (adus : List Adu) : Bytes := (adus.map Adu.bytes).flatten

/-- All bytes sent in a run. -/
def sentBytes (os : List (List SockCall)) : Bytes := (exchanges os).flatMap (fun x => x.reply.getD [])

/-- Two ways of receiving on a connection have the same effect: the same bytes are sent and the same
    registers remain. -/
def SameService (s : Server) (ds ds' : List Delivery) : Prop :=
  ∃ t os t' os', run step s (ds.map Delivery.outcome) = some (t, os) ∧
    run step s (ds'.map Delivery.outcome) = some (t', os') ∧ sentBytes os = sentBytes os' ∧ t.regs = t'.regs

/-! ## One connection serves chunk by chunk -/

/-- The handler as a function of the registers and one chunk. -/
def handleChunk (regs : Regs) (b : Bytes) : Regs × Bytes := (regsAfter regs b, (reply regs b).getD [])

theorem run_deliveries {s : Server} (hpc : s.pc = .recv) (ds : List Delivery) :
    ∃ t os, run step s (ds.map Delivery.outcome) = some (t, os) ∧
      (t.regs, sentBytes os) = serve handleChunk s.regs (ds.map Delivery.bytes) := by
  induction ds generalizing s with
  | nil => exact ⟨s, [], rfl, rfl⟩
  | cons d ds ih =>
      obtain ⟨calls, hs, hx⟩ := step_data hpc d.buf d.stack d.sendRet
      obtain ⟨t, os, hr, heq⟩ :=
        ih (s := { s with rx := d.buf.into s.rx, regs := regsAfter s.regs d.buf.1 }) hpc
      refine ⟨t, calls :: os, run_cons_iff.mpr ⟨_, calls, os, hs, hr, rfl⟩, ?_⟩
      have hsent : sentBytes (calls :: os) = (reply s.regs d.buf.1).getD [] ++ sentBytes os := by
        unfold sentBytes exchanges
        rw [List.filterMap_cons_some hx, List.flatMap_cons]
      have hrest : serve handleChunk (handleChunk s.regs d.bytes).1 (ds.map Delivery.bytes)
          = (t.regs, sentBytes os) := heq.symm
      rw [hsent, List.map_cons, serve, hrest]
      rfl

theorem sameService_iff {s : Server} (hpc : s.pc = .recv) (ds ds' : List Delivery) :
    SameService s ds ds' ↔
      serve handleChunk s.regs (ds.map Delivery.bytes) =
        serve handleChunk s.regs (ds'.map Delivery.bytes) := by
  obtain ⟨t, os, hr, h⟩ := run_deliveries hpc ds
  obtain ⟨t', os', hr', h'⟩ := run_deliveries hpc ds'
  rw [← h, ← h']
  constructor
  · rintro ⟨u, us, u', us', hu, hu', hb, hregs⟩
    rw [hr] at hu; rw [hr'] at hu'
    cases hu
    cases hu'
    rw [hb, hregs]
  · intro he
    obtain ⟨hregs, hb⟩ := Prod.mk.inj he
    exact ⟨t, os, t', os', hr, hr', hb, hregs⟩

/-! ## Good cuts are invisible -/

/-- How much of a request must arrive in one `recv`: all of an FC03 or FC06 request, otherwise the bytes up
    to the function code. -/
def need (b : Bytes) : Nat := if byteAt b 7 = 3 ∨ byteAt b 7 = 6 then 12 else 8

/-- A chunk of fewer than 8 bytes is dropped without an answer. -/
theorem handleChunk_quiet (regs : Regs) (b : Bytes) (h : b.length < 8) : handleChunk regs b = (regs, []) := by
  have hv : verdict b = .ignore := verdict_ignore_iff.mpr h
  simp [handleChunk, regsAfter, reply, hv]

theorem byteAt_of_isPrefix {c f : Bytes} (h : c <+: f) {i : Nat} (hi : i < c.length) :
    byteAt c i = byteAt f i := by
  obtain ⟨rest, rfl⟩ := h
  unfold byteAt
  rw [List.getD_append _ _ _ _ hi]

theorem take_of_isPrefix {c f : Bytes} (h : c <+: f) {n : Nat} (hn : n ≤ c.length) : c.take n = f.take n := by
  obtain ⟨rest, rfl⟩ := h
  rw [List.take_append_of_le_length hn]

theorem verdict_other {b : Bytes} (h8 : 8 ≤ b.length) (h3 : byteAt b 7 ≠ 3) (h6 : byteAt b 7 ≠ 6) :
    verdict b = .refuse 1 := by
  unfold verdict
  rw [if_neg (by omega), if_neg h3, if_neg h6]

/-- A prefix of a request that holds what is needed is handled like the request. -/
theorem handleChunk_prefix (a : Adu) (regs : Regs) (c : Bytes) (hc : c <+: a.bytes)
    (hneed : need a.bytes ≤ c.length) : handleChunk regs c = handleChunk regs a.bytes := by
  unfold need at hneed
  split_ifs at hneed with hfn
  · -- FC03 and FC06: the chunk is the whole request
    have hlen : c.length = a.bytes.length := by
      have hle := hc.length_le
      have hpdu := a.pdu hfn
      omega
    rw [hc.eq_of_length hlen]
  · -- any other function code is refused on sight of it
    rw [not_or] at hfn
    have h7 : byteAt c 7 = byteAt a.bytes 7 := byteAt_of_isPrefix hc (by omega)
    have h6 : byteAt c 6 = byteAt a.bytes 6 := byteAt_of_isPrefix hc (by omega)
    have hvc : verdict c = .refuse 1 := verdict_other hneed (h7 ▸ hfn.1) (h7 ▸ hfn.2)
    have hva : verdict a.bytes = .refuse 1 :=
      verdict_other (Nat.le_trans hneed hc.length_le) hfn.1 hfn.2
    have hframe : exceptionFrame c 1 = exceptionFrame a.bytes 1 := by
      rw [exceptionFrame, exceptionFrame, h6, h7, take_of_isPrefix hc (by omega)]
    rw [handleChunk, handleChunk, reply_refuse regs hvc, reply_refuse regs hva, hframe]
    simp [regsAfter, hvc, hva]

/-- **Good cuts are invisible**, from any server state with a connected client. -/
theorem sameService_of_goodCut {s : Server} (hpc : s.pc = .recv) {adus : List Adu} {cut whole : List Delivery}
    (hwhole : whole.map Delivery.bytes = adus.map Adu.bytes)
    (hcut : GoodCut need 8 (adus.map Adu.bytes) (cut.map Delivery.bytes)) : SameService s cut whole := by
  rw [sameService_iff hpc, hwhole]
  apply serve_goodCut handleChunk_quiet _ hcut
  intro f hf regs c hc hneed
  obtain ⟨a, _, rfl⟩ := List.mem_map.mp hf
  exact handleChunk_prefix a regs c hc hneed

/-! ## A lost write -/

/-- Two FC06 requests, writing 5 to register 0 and 7 to register 1. -/
def writeZero : Adu :=
  ⟨[0, 1, 0, 0, 0, 6, 1, 6, 0, 0, 0, 5], by decide, by decide, by decide, by decide, by decide⟩

def writeOne : Adu :=
  ⟨[0, 2, 0, 0, 0, 6, 1, 6, 0, 1, 0, 7], by decide, by decide, by decide, by decide, by decide⟩

/-- A server with a connected client, its registers untouched. -/
def connected : Server := ⟨.recv, 0, 1, zeroRx, sHoldingRegs⟩

/-- A `recv` of the given bytes into zeroed memory. -/
def deliver (buf : Received) : Delivery := ⟨buf, zeroStack, buf.1.length⟩

/-- **Coalesced requests are not served like separate ones.** When one `recv` returns both requests, only
    the first is answered, and register 1 is not written. -/
theorem coalesced_write_lost :
    ([deliver ⟨writeZero.bytes ++ writeOne.bytes, by decide⟩].map Delivery.bytes).flatten
        = stream [writeZero, writeOne] ∧
      [deliver ⟨writeZero.bytes, by decide⟩, deliver ⟨writeOne.bytes, by decide⟩].map Delivery.bytes
        = [writeZero, writeOne].map Adu.bytes ∧
      ¬ SameService connected [deliver ⟨writeZero.bytes ++ writeOne.bytes, by decide⟩]
          [deliver ⟨writeZero.bytes, by decide⟩, deliver ⟨writeOne.bytes, by decide⟩] := by
  refine ⟨by decide, by decide, ?_⟩
  rw [sameService_iff rfl]
  intro h
  exact absurd (congrArg (fun r => r.2.length) h) (by decide +kernel)

end Modbus
end Esp32Probes
