import Esp32Probes.Lib.Handles
import Esp32Probes.Modbus.Server

/-!
# `Modbus.Sockets` — the server task neither leaks nor double-closes sockets

The system calls of `modbus_server_task`, read as operations on two kinds of sockets (`Lib.Handles`).
`openAt` says which sockets are open at each control point: the task holds what its position in the three
nested loops says it holds, although `listen_sock` keeps a stale descriptor after it has been closed. Each
step leads from the table of its control point to that of the next (`step_traverses`); `sockets_disciplined`
draws the consequences for whole runs, whatever the calls return.
-/

namespace Esp32Probes
namespace Modbus

open Machine Handles

/-! ## System calls as operations on sockets -/

inductive SockKind
  | listening
  | client
  deriving DecidableEq

/-- `accept` uses the listening socket and opens a client socket. -/
def SockCall.ops : SockCall → List (Op SockKind Int)
  | .socket none => []
  | .socket (some fd) => [.acquire .listening fd]
  | .setsockopt fd => [.use .listening fd]
  | .bind fd _ => [.use .listening fd]
  | .listen fd _ => [.use .listening fd]
  | .accept fd none => [.use .listening fd]
  | .accept fd (some sock) => [.use .listening fd, .acquire .client sock]
  | .recv fd _ => [.use .client fd]
  | .send fd _ _ => [.use .client fd]
  | .shutdown fd => [.use .client fd]
  | .close fd => [.release fd]

/-- The socket operations of a run, in order. -/
def sockOps (os : List (List SockCall)) : List (Op SockKind Int) := os.flatten.flatMap SockCall.ops

theorem sockOps_snoc (os : List (List SockCall)) (calls : List SockCall) :
    sockOps (os ++ [calls]) = sockOps os ++ calls.flatMap SockCall.ops := by
  simp [sockOps]

/-! ## What is open at each control point -/

/-- The sockets that are open when the task is at its control point. -/
def openAt (s : Server) : Table SockKind Int :=
  match s.pc with
  | .socket => []
  | .bind | .listen | .accept => [(.listening, s.listenSock)]
  | .recv => [(.client, s.sock), (.listening, s.listenSock)]

/-- The tables that occur: nothing, a listening socket, or a client on top of it. -/
inductive Nested : Table SockKind Int → Prop
  | closed : Nested []
  | listening (l : Int) : Nested [(.listening, l)]
  | client (c l : Int) : Nested [(.client, c), (.listening, l)]

theorem Nested.held_le {t : Table SockKind Int} (h : Nested t) (k : SockKind) : (held k t).length ≤ 1 := by
  cases h with
  | closed => exact Nat.zero_le 1
  | listening l => cases k <;> simp [held]
  | client c l => cases k <;> simp [held]

theorem Nested.client_under {t : Table SockKind Int} (h : Nested t) (hc : held .client t ≠ []) :
    held .listening t ≠ [] := by
  cases h with
  | closed => exact absurd rfl hc
  | listening l => exact absurd rfl hc
  | client c l => exact List.cons_ne_nil l []

/-! ## One step -/

/-- Using an open socket leaves the table as it is. -/
theorem traverses_use {k : SockKind} {fd : Int} {t t' : Table SockKind Int} {ops : List (Op SockKind Int)}
    (ht : Nested t) (hmem : (k, fd) ∈ t) (h : Traverses Nested t ops t') :
    Traverses Nested t (.use k fd :: ops) t' :=
  ⟨ht, t, perform_use.mpr ⟨hmem, rfl⟩, h⟩

/-- Closing the socket that was opened last. -/
theorem traverses_close {k : SockKind} {fd : Int} {t : Table SockKind Int} (ht : Nested ((k, fd) :: t))
    (ht' : Nested t) : Traverses Nested ((k, fd) :: t) [.release fd] t :=
  ⟨ht, t, by simp [perform, close], ht', rfl⟩

/-- A call on the listening socket that fails is followed by its `close`. -/
theorem traverses_abandon (l : Int) :
    Traverses Nested [(.listening, l)] [.use .listening l, .release l] [] :=
  traverses_use (.listening l) List.mem_cons_self (traverses_close (.listening l) .closed)

/-- A call on the listening socket that succeeds and opens nothing. -/
theorem traverses_listening (l : Int) :
    Traverses Nested [(.listening, l)] [.use .listening l] [(.listening, l)] :=
  traverses_use (.listening l) List.mem_cons_self ⟨.listening l, rfl⟩

theorem openAt_socket {s : Server} (hpc : s.pc = .socket) : openAt s = [] := by
  rw [openAt, hpc]

theorem openAt_listening {s : Server} (hpc : s.pc = .bind ∨ s.pc = .listen ∨ s.pc = .accept) :
    openAt s = [(.listening, s.listenSock)] := by
  rcases hpc with hpc | hpc | hpc <;> rw [openAt, hpc]

theorem openAt_recv {s : Server} (hpc : s.pc = .recv) :
    openAt s = [(.client, s.sock), (.listening, s.listenSock)] := by
  rw [openAt, hpc]

/-- **A step leads from the sockets of its control point to those of the next.** Every socket it uses or
    closes is open when it does. -/
theorem step_traverses {s s' : Server} {o : Outcome} {calls : List SockCall}
    (h : step s o = some (s', calls)) :
    Traverses Nested (openAt s) (calls.flatMap SockCall.ops) (openAt s') := by
  -- with a client connected, its socket can be used before anything else
  have huse : ∀ {ops t'}, Traverses Nested [(.client, s.sock), (.listening, s.listenSock)] ops t' →
      Traverses Nested [(.client, s.sock), (.listening, s.listenSock)] (.use .client s.sock :: ops) t' :=
    traverses_use (.client _ _) List.mem_cons_self
  cases stepped_of_step h with
  | socket fd rx hpc =>
      rw [openAt_socket hpc]
      exact ⟨.closed, _, rfl, traverses_listening fd⟩
  | socketFailed o hpc =>
      rw [openAt_socket hpc]
      exact ⟨.closed, rfl⟩
  | bind fd rx hpc =>
      rw [openAt_listening (Or.inl hpc)]
      exact traverses_listening s.listenSock
  | bindFailed o hpc =>
      rw [openAt_listening (Or.inl hpc)]
      exact traverses_abandon s.listenSock
  | listen fd rx hpc =>
      rw [openAt_listening (Or.inr (Or.inl hpc))]
      exact traverses_listening s.listenSock
  | listenFailed o hpc =>
      rw [openAt_listening (Or.inr (Or.inl hpc))]
      exact traverses_abandon s.listenSock
  | accept fd rx hpc =>
      rw [openAt_listening (Or.inr (Or.inr hpc))]
      exact traverses_use (.listening _) List.mem_cons_self ⟨.listening _, _, rfl, .client _ _, rfl⟩
  | acceptFailed o hpc =>
      -- `break`, and the `close` behind the inner loop
      rw [openAt_listening (Or.inr (Or.inr hpc))]
      exact traverses_abandon s.listenSock
  | data buf stack sendRet r hpc =>
      rw [openAt_recv hpc]
      apply huse
      -- the response, if there is one, goes to the same client
      unfold sendCalls
      cases r.sent with
      | none => exact ⟨.client _ _, rfl⟩
      | some bytes => exact huse ⟨.client _ _, rfl⟩
  | recvFailed o hpc =>
      rw [openAt_recv hpc]
      exact huse (huse (traverses_close (.client _ _) (.listening _)))

/-! ## Whole runs -/

/-- The sockets open after a run are those of the control point it has reached. -/
theorem run_traverses {rx : Rx} {s : Server} {es : List Outcome} {os : List (List SockCall)}
    (hrun : run step (init rx) es = some (s, os)) : Traverses Nested [] (sockOps os) (openAt s) := by
  apply run_invariant (I := fun _ os s => Traverses Nested [] (sockOps os) (openAt s)) _ _ hrun
  · exact ⟨.closed, rfl⟩
  · intro pre os m e m' calls hI hs
    rw [sockOps_snoc]
    exact hI.append (step_traverses hs)

/-- **Sockets are neither leaked nor closed twice.** For every sequence of results of the system calls, the
    task runs; and at every point of the run every socket used or closed so far was open at that time, at
    most one listening and one client socket are open, a client socket is open only while the listening
    socket is, and the sockets of either kind have been opened and closed in turns, each closed once before
    the next of its kind is opened. -/
theorem sockets_disciplined (rx : Rx) (es : List Outcome) :
    ∃ s os, run step (init rx) es = some (s, os) ∧
      ∀ pre, pre <+: sockOps os → ∃ t, replay [] pre = some t ∧
        (held .listening t).length ≤ 1 ∧ (held .client t).length ≤ 1 ∧
        (held .client t ≠ [] → held .listening t ≠ []) ∧
        Alternates (life .listening [] pre) ∧ Alternates (life .client [] pre) := by
  obtain ⟨s, os, hrun⟩ := run_total step_isSome (init rx) es
  refine ⟨s, os, hrun, ?_⟩
  intro pre hpre
  obtain ⟨t, hr, hT⟩ := (run_traverses hrun).of_isPrefix hpre
  have ht : Nested t := hT.last
  have hturns : ∀ k, Alternates (life k [] pre) := fun k =>
    hT.alternates (fun u hu => hu.held_le k)
  exact ⟨t, hr, ht.held_le .listening, ht.held_le .client, ht.client_under, hturns .listening, hturns .client⟩

end Modbus
end Esp32Probes
