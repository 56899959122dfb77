import Esp32Probes.Lib.Machine
import Esp32Probes.Modbus.Reply

/-!
# `Modbus.Server` — the server task as a machine over the results of its system calls

`modbus_server_task` is three nested endless loops. Its control points are the calls that can fail
(`socket`, `bind`, `listen`, `accept`, `recv`); a step performs the call at the current control point, takes
its result from the environment (`Outcome`) and runs on to the next one. The output of a step is the list
of system calls it made, in order, with their arguments and results. A step is undefined only if the request
handler accesses memory out of bounds, and `step_isSome` shows that it never does.

The wire sees the task through its `exchanges`: each received buffer with the bytes sent in answer.
-/

namespace Esp32Probes
namespace Modbus

open Machine

/-- What one successful `recv` into `rx[260]` delivers. -/
abbrev Received := {b : Bytes // 1 ≤ b.length ∧ b.length ≤ 260}

/-- `uint8_t rx[260]`. -/
abbrev Rx := Vector UInt8 260

/-- `recv` overwrites the first bytes of `rx` and leaves the others as they were. -/
def Received.into (b : Received) (rx : Rx) : Rx :=
  ⟨(b.1 ++ rx.toList.drop b.1.length).toArray, by
    have h := b.2
    simp only [List.size_toArray, List.length_append, List.length_drop, Vector.length_toList]
    omega⟩

theorem Received.into_toList (b : Received) (rx : Rx) :
    (b.into rx).toList = b.1 ++ rx.toList.drop b.1.length := by
  simp [Received.into, Vector.toList]

/-! ## The task -/

/-- The result of the call at the current control point. `ok` carries the descriptor that `socket` and
    `accept` return and the indeterminate contents of the `rx` declared after `accept`; `data` is a
    positive result of `recv`, with what the uninitialised response arrays will hold and what `send`
    will return. Anything that is not a success of the call at hand is a failure of it. -/
inductive Outcome
  | fail
  | ok (fd : Nat) (rx : Rx)
  | data (buf : Received) (stack : Stack) (sendRet : Int)

/-- Control points: the calls of `modbus_server_task` whose result it tests. -/
inductive Pc
  | socket
  | bind
  | listen
  | accept
  | recv
  deriving DecidableEq

/-- The task's variables. `listenSock` keeps its value after `close`, as the C variable does. -/
structure Server where
  pc         : Pc
  listenSock : Int
  sock       : Int
  rx         : Rx
  regs       : Regs

/-- The system calls of the task, as they appear on its trace. -/
inductive SockCall
  | socket (ret : Option Nat)
  | setsockopt (fd : Int)
  | bind (fd : Int) (ok : Bool)
  | listen (fd : Int) (ok : Bool)
  | accept (fd : Int) (ret : Option Nat)
  | recv (fd : Int) (got : Option Bytes)
  | send (fd : Int) (bytes : Bytes) (ret : Int)
  | shutdown (fd : Int)
  | close (fd : Int)

/-- The task before its first step. -/
def init (rx : Rx) : Server := ⟨.socket, -1, -1, rx, sHoldingRegs⟩

/-- The `send` of a handled request, if it sends. -/
def sendCalls (fd : Int) (h : Handled) (sendRet : Int) : List SockCall :=
  match h.sent with
  | none => []
  | some bytes => [.send fd bytes sendRet]

/-- One step of `modbus_server_task`. -/
def step (s : Server) (o : Outcome) : Option (Server × List SockCall) :=
  match s.pc with
  | .socket =>
    match o with
    | .ok fd _ => some ({ s with pc := .bind, listenSock := fd }, [.socket (some fd), .setsockopt fd])
    | _ => some ({ s with listenSock := -1 }, [.socket none])
  | .bind =>
    match o with
    | .ok _ _ => some ({ s with pc := .listen }, [.bind s.listenSock true])
    | _ => some ({ s with pc := .socket }, [.bind s.listenSock false, .close s.listenSock])
  | .listen =>
    match o with
    | .ok _ _ => some ({ s with pc := .accept }, [.listen s.listenSock true])
    | _ => some ({ s with pc := .socket }, [.listen s.listenSock false, .close s.listenSock])
  | .accept =>
    match o with
    | .ok fd rx => some ({ s with pc := .recv, sock := fd, rx := rx }, [.accept s.listenSock (some fd)])
    | _ => some ({ s with pc := .socket }, [.accept s.listenSock none, .close s.listenSock])
  | .recv =>
    match o with
    | .data buf stack sendRet =>
      let rx := buf.into s.rx
      match handleModbusRequest s.regs rx.toList buf.1.length stack sendRet with
      | none => none
      | some h =>
        some ({ s with rx := rx, regs := h.regs }, .recv s.sock (some buf.1) :: sendCalls s.sock h sendRet)
    | _ => some ({ s with pc := .accept }, [.recv s.sock none, .shutdown s.sock, .close s.sock])

/-! ## Exchanges -/

/-- A received buffer and the bytes sent in answer, if any. -/
structure Exchange where
  request : Bytes
  reply   : Option Bytes
  deriving DecidableEq

/-- The bytes of the first `send` on a trace. -/
def firstSend : List SockCall → Option Bytes
  | .send _ bytes _ :: _ => some bytes
  | _ => none

/-- The exchange a step performs: a `recv` that delivered bytes, and the `send` after it. -/
def exchangeOf : List SockCall → Option Exchange
  | .recv _ (some request) :: rest => some ⟨request, firstSend rest⟩
  | _ => none

/-- The exchanges of a run, over all its connections. -/
def exchanges (os : List (List SockCall)) : List Exchange := os.filterMap exchangeOf

theorem exchanges_snoc (os : List (List SockCall)) (o : List SockCall) :
    exchanges (os ++ [o]) = exchanges os ++ (exchangeOf o).toList := by
  unfold exchanges
  rw [List.filterMap_append]
  cases h : exchangeOf o <;> simp [h]

/-! ## The steps of the task -/

/-- **The receive step.** The request is answered with `reply` and leaves `regsAfter`. -/
theorem step_data {s : Server} (hpc : s.pc = .recv) (buf : Received) (stack : Stack) (sendRet : Int) :
    ∃ calls, step s (.data buf stack sendRet)
        = some ({ s with rx := buf.into s.rx, regs := regsAfter s.regs buf.1 }, calls) ∧
      exchangeOf calls = some ⟨buf.1, reply s.regs buf.1⟩ := by
  have hh := handle_eq s.regs buf.1 (s.rx.toList.drop buf.1.length) stack sendRet
  rw [← Received.into_toList] at hh
  refine ⟨_, by simp only [step, hpc, hh]; rfl, ?_⟩
  cases h : reply s.regs buf.1 <;> rfl

/-- **Memory safety of the task.** No step accesses a buffer or the registers out of bounds. -/
theorem step_isSome (s : Server) (o : Outcome) : (step s o).isSome := by
  cases hpc : s.pc with
  | recv =>
      cases o with
      | data buf stack sendRet =>
          obtain ⟨calls, h, _⟩ := step_data hpc buf stack sendRet
          rw [h]; rfl
      | fail => simp [step, hpc]
      | ok fd rx => simp [step, hpc]
  | socket => cases o <;> simp [step, hpc]
  | bind => cases o <;> simp [step, hpc]
  | listen => cases o <;> simp [step, hpc]
  | accept => cases o <;> simp [step, hpc]

/-- The steps, one constructor a way in which the call at the control point ends. -/
inductive Stepped (s : Server) : Outcome → Server → List SockCall → Prop
  | socket (fd : Nat) (rx : Rx) (hpc : s.pc = .socket) :
      Stepped s (.ok fd rx) { s with pc := .bind, listenSock := fd } [.socket (some fd), .setsockopt fd]
  | socketFailed (o : Outcome) (hpc : s.pc = .socket) :
      Stepped s o { s with pc := .socket, listenSock := -1 } [.socket none]
  | bind (fd : Nat) (rx : Rx) (hpc : s.pc = .bind) :
      Stepped s (.ok fd rx) { s with pc := .listen } [.bind s.listenSock true]
  | bindFailed (o : Outcome) (hpc : s.pc = .bind) :
      Stepped s o { s with pc := .socket } [.bind s.listenSock false, .close s.listenSock]
  | listen (fd : Nat) (rx : Rx) (hpc : s.pc = .listen) :
      Stepped s (.ok fd rx) { s with pc := .accept } [.listen s.listenSock true]
  | listenFailed (o : Outcome) (hpc : s.pc = .listen) :
      Stepped s o { s with pc := .socket } [.listen s.listenSock false, .close s.listenSock]
  | accept (fd : Nat) (rx : Rx) (hpc : s.pc = .accept) :
      Stepped s (.ok fd rx) { s with pc := .recv, sock := fd, rx := rx } [.accept s.listenSock (some fd)]
  | acceptFailed (o : Outcome) (hpc : s.pc = .accept) :
      Stepped s o { s with pc := .socket } [.accept s.listenSock none, .close s.listenSock]
  | data (buf : Received) (stack : Stack) (sendRet : Int) (r : Handled) (hpc : s.pc = .recv) :
      Stepped s (.data buf stack sendRet) { s with pc := .recv, rx := buf.into s.rx, regs := r.regs }
        (.recv s.sock (some buf.1) :: sendCalls s.sock r sendRet)
  | recvFailed (o : Outcome) (hpc : s.pc = .recv) :
      Stepped s o { s with pc := .accept } [.recv s.sock none, .shutdown s.sock, .close s.sock]

theorem stepped_of_step {s s' : Server} {o : Outcome} {calls : List SockCall}
    (h : step s o = some (s', calls)) : Stepped s o s' calls := by
  unfold step at h
  cases hpc : s.pc with
  | socket =>
      rw [hpc] at h
      cases o with
      | ok fd rx => cases h; exact .socket fd rx hpc
      | _ => cases h; exact .socketFailed _ hpc
  | bind =>
      rw [hpc] at h
      cases o with
      | ok fd rx => cases h; exact .bind fd rx hpc
      | _ => cases h; exact .bindFailed _ hpc
  | listen =>
      rw [hpc] at h
      cases o with
      | ok fd rx => cases h; exact .listen fd rx hpc
      | _ => cases h; exact .listenFailed _ hpc
  | accept =>
      rw [hpc] at h
      cases o with
      | ok fd rx => cases h; exact .accept fd rx hpc
      | _ => cases h; exact .acceptFailed _ hpc
  | recv =>
      rw [hpc] at h
      cases o with
      | data buf stack sendRet =>
          simp only at h
          split at h
          · cases h
          · next r hr =>
            cases h
            exact .data buf stack sendRet r hpc
      | _ => cases h; exact .recvFailed _ hpc

/-- **What a step can do to the registers.** It handles one received buffer, or it exchanges nothing and
    leaves them alone. -/
theorem step_regs {s s' : Server} {o : Outcome} {calls : List SockCall} (h : step s o = some (s', calls)) :
    (∃ buf : Received, exchangeOf calls = some ⟨buf.1, reply s.regs buf.1⟩ ∧
        s'.regs = regsAfter s.regs buf.1) ∨
    (exchangeOf calls = none ∧ s'.regs = s.regs) := by
  cases stepped_of_step h with
  | data buf stack sendRet r hpc =>
      obtain ⟨calls', h', hx⟩ := step_data hpc buf stack sendRet
      rw [h'] at h
      obtain ⟨hs, hc⟩ := Prod.mk.inj (Option.some.inj h)
      refine Or.inl ⟨buf, ?_, ?_⟩
      · rw [← hc]
        exact hx
      · rw [← hs]
  | _ => exact Or.inr ⟨rfl, rfl⟩

end Modbus
end Esp32Probes
