import Esp32Probes.Lib.Machine
import Esp32Probes.Lib.WriteLog
import Esp32Probes.OpcUa.AddressSpace
import Esp32Probes.OpcUa.SdLog

/-!
# `OpcUa.ServerTask` — the loop of the OPC UA server task

`opcua_server_task` after a successful startup is one endless loop (nothing clears `opcua_running`): sample
the heap, publish six telemetry values, poll the command node, serve clients. The loop is a machine whose
control points are these statements (`Pc`). An event brings what the statement takes from outside: the heap
readings, the two variables that the SD task owns, the status codes of the node writes, the clients'
requests. The output of a step is the list of responses to the clients.

Only this task touches the nodes, and open62541 is built without multithreading, so clients are served in
`UA_Server_run_iterate` and nowhere else; how many requests one call serves is up to the event.
-/

namespace Esp32Probes
namespace OpcUa

open Machine WriteLog

/-! ## Variables -/

/-- The variables that the server task owns. -/
structure Globals where
  simulatedValue      : Int32
  firmwareStatus      : Int32
  resetCommand        : Int32
  lastCommandStatus   : Int32
  internalHeapFree    : Int32
  internalHeapMinFree : Int32
  psramFree           : Int32
  psramMinFree        : Int32
  deriving DecidableEq

/-- The values they are initialised with. -/
def Globals.init : Globals := ⟨1234, 1, 0, 0, 0, 0, 0, 0⟩

/-- What the heap functions return to `update_heap_status`. -/
structure HeapReading where
  internalFree    : UInt32
  internalMinFree : UInt32
  psramFree       : UInt32
  psramMinFree    : UInt32

/-- The nodes as the `add_*_node` functions create them. -/
def initialNodes (sd : SdGlobals) (g : Globals) : Nodes
  | .simulatedValue => .initial g.simulatedValue
  | .firmwareStatus => .initial g.firmwareStatus
  | .sdStatus => .initial sd.sdStatus
  | .sdAppendCount => .initial sd.sdAppendCount
  | .resetCommand => .initial g.resetCommand
  | .lastCommandStatus => .initial g.lastCommandStatus
  | .internalHeapFree => .initial g.internalHeapFree
  | .internalHeapMinFree => .initial g.internalHeapMinFree
  | .psramFree => .initial g.psramFree
  | .psramMinFree => .initial g.psramMinFree

/-! ## Clients -/

/-- The nodes that clients may write; a write to another node is refused and changes nothing. -/
inductive Writable
  | simulatedValue
  | resetCommand
  deriving DecidableEq

/-- The node of a mailbox that clients write. -/
def Writable.node : Writable → Node
  | .simulatedValue => .simulatedValue
  | .resetCommand => .resetCommand

/-- One client operation. Whether a write is accepted is the server's decision, known by its status. -/
inductive Request
  | read (name : Node)
  | write (name : Writable) (value : DataValue) (ret : StatusCode)
  deriving DecidableEq

/-- What a client is answered: a value, or the status of its write. -/
inductive Response
  | value (value : DataValue)
  | status (ret : StatusCode)
  deriving DecidableEq

/-- Serve one client operation. -/
def serveRequest (nodes : Nodes) : Request → Nodes × Response
  | .read name => (nodes, .value (nodes name))
  | .write name value ret =>
    (if ret = good then Function.update nodes name.node value else nodes, .status ret)

/-- `UA_Server_run_iterate`: serve the operations of one batch in order. -/
def runIterate : Nodes → List Request → Nodes × List Response
  | nodes, [] => (nodes, [])
  | nodes, r :: rs =>
    let (nodes', response) := serveRequest nodes r
    let (nodes'', responses) := runIterate nodes' rs
    (nodes'', response :: responses)

/-! ## The statements of the loop -/

/-- `update_heap_status`. -/
def updateHeapStatus (g : Globals) (h : HeapReading) : Globals :=
  { g with
    internalHeapFree := h.internalFree.toInt32
    internalHeapMinFree := h.internalMinFree.toInt32
    psramFree := h.psramFree.toInt32
    psramMinFree := h.psramMinFree.toInt32 }

/-- `process_command_nodes`; `ret` gives the status of the write to each node. The counter is an `int32_t`,
    so what is said about it below is said of fewer than 2^31 commands. -/
def processCommandNodes (lib : Open62541) (g : Globals) (nodes : Nodes) (ret : Node → StatusCode) :
    Globals × Nodes :=
  match readInt32Node lib nodes .resetCommand with
  | none => (g, nodes)
  | some commandValue =>
    if commandValue = 1 then
      let g := { g with simulatedValue := 1234, resetCommand := 0,
                        lastCommandStatus := g.lastCommandStatus + 1 }
      let nodes := writeInt32Node nodes .simulatedValue g.simulatedValue (ret .simulatedValue)
      let nodes := writeInt32Node nodes .resetCommand g.resetCommand (ret .resetCommand)
      let nodes := writeInt32Node nodes .lastCommandStatus g.lastCommandStatus (ret .lastCommandStatus)
      (g, nodes)
    else (g, nodes)

/-- The values published in each iteration, in the order of their `write_int32_node` calls. -/
inductive Telemetry
  | sdStatus
  | sdAppendCount
  | internalHeapFree
  | internalHeapMinFree
  | psramFree
  | psramMinFree
  deriving DecidableEq

/-- The node a telemetry value is published in. -/
def Telemetry.node : Telemetry → Node
  | .sdStatus => .sdStatus
  | .sdAppendCount => .sdAppendCount
  | .internalHeapFree => .internalHeapFree
  | .internalHeapMinFree => .internalHeapMinFree
  | .psramFree => .psramFree
  | .psramMinFree => .psramMinFree

/-- The variable that is published. -/
def Telemetry.value (sd : SdGlobals) (g : Globals) : Telemetry → Int32
  | .sdStatus => sd.sdStatus
  | .sdAppendCount => sd.sdAppendCount
  | .internalHeapFree => g.internalHeapFree
  | .internalHeapMinFree => g.internalHeapMinFree
  | .psramFree => g.psramFree
  | .psramMinFree => g.psramMinFree

/-! ## The loop -/

/-- Control points: the statements of the loop body. -/
inductive Pc
  | heap
  | publish (t : Telemetry)
  | command
  | serve
  deriving DecidableEq

/-- The statement after a telemetry write. -/
def Telemetry.next : Telemetry → Pc
  | .sdStatus => .publish .sdAppendCount
  | .sdAppendCount => .publish .internalHeapFree
  | .internalHeapFree => .publish .internalHeapMinFree
  | .internalHeapMinFree => .publish .psramFree
  | .psramFree => .publish .psramMinFree
  | .psramMinFree => .command

/-- What one statement of the loop takes from outside. -/
inductive Event
  | heap (reading : HeapReading)
  | publish (sd : SdGlobals) (ret : StatusCode)
  | command (ret : Node → StatusCode)
  | serve (batch : List Request)

/-- The state of the task: the control point, its globals and the nodes of the server. -/
structure Server where
  pc      : Pc
  globals : Globals
  nodes   : Nodes

/-- The server when it enters the loop; `sd` is what the SD variables held when the nodes were added. -/
def Server.init (sd : SdGlobals) : Server := ⟨.heap, .init, initialNodes sd .init⟩

/-- One statement of the loop. An event that does not belong to the statement at hand is no step. -/
def step (lib : Open62541) (s : Server) (e : Event) : Option (Server × List Response) :=
  match s.pc, e with
  | .heap, .heap reading =>
    some ({ s with pc := .publish .sdStatus, globals := updateHeapStatus s.globals reading }, [])
  | .publish t, .publish sd ret =>
    some ({ s with pc := t.next, nodes := writeInt32Node s.nodes t.node (t.value sd s.globals) ret }, [])
  | .command, .command ret =>
    let (globals, nodes) := processCommandNodes lib s.globals s.nodes ret
    some (⟨.serve, globals, nodes⟩, [])
  | .serve, .serve batch =>
    let (nodes, responses) := runIterate s.nodes batch
    some ({ s with pc := .heap, nodes := nodes }, responses)
  | _, _ => none

/-- All node writes of the statement succeed. -/
def Event.WritesSucceed : Event → Prop
  | .publish _ ret => ret = good
  | .command ret => ∀ n, ret n = good
  | _ => True

/-- The batch that the statement serves, if it serves one. -/
def Event.batch? : Event → Option (List Request)
  | .serve batch => some batch
  | _ => none

/-- The batches that clients sent, oldest first. -/
def batches (es : List Event) : List (List Request) := es.filterMap Event.batch?

theorem batches_append (es fs : List Event) : batches (es ++ fs) = batches es ++ batches fs := by
  unfold batches
  rw [List.filterMap_append]

theorem batches_snoc (es : List Event) (e : Event) : batches (es ++ [e]) = batches es ++ e.batch?.toList := by
  rw [batches_append]
  cases e <;> rfl

/-! ## What a batch of requests does -/

/-- The accepted writes of a batch, oldest first. -/
def acceptedWrites (batch : List Request) : List (Writable × DataValue) :=
  batch.filterMap (fun r => match r with
    | .write name value ret => if ret = good then some (name, value) else none
    | .read _ => none)

theorem Writable.node_injective : Function.Injective Writable.node := by
  intro a b h
  cases a <;> cases b <;> first | rfl | cases h

theorem runIterate_cons (nodes : Nodes) (r : Request) (rs : List Request) :
    (runIterate nodes (r :: rs)).1 = (runIterate (serveRequest nodes r).1 rs).1 := rfl

/-- **The writable nodes after a batch** are a replay of its accepted writes. -/
theorem runIterate_writable (nodes : Nodes) (batch : List Request) :
    (fun w : Writable => (runIterate nodes batch).1 w.node)
      = replay (fun w : Writable => nodes w.node) (acceptedWrites batch) := by
  induction batch generalizing nodes with
  | nil => rfl
  | cons r rs ih =>
      rw [runIterate_cons, ih]
      cases r with
      | read name => rfl
      | write name value ret =>
          by_cases h : ret = good
          · have hlog : acceptedWrites (.write name value ret :: rs) =
              (name, value) :: acceptedWrites rs := by
              simp [acceptedWrites, h]
            have hupd : (fun w : Writable => (serveRequest nodes (.write name value ret)).1 w.node)
                = Function.update (fun w : Writable => nodes w.node) name value := by
              funext w
              simp only [serveRequest, if_pos h, Function.update_apply, Writable.node_injective.eq_iff]
            rw [hlog, hupd]
            rfl
          · have hlog : acceptedWrites (.write name value ret :: rs) = acceptedWrites rs := by
              simp [acceptedWrites, h]
            have hupd : (serveRequest nodes (.write name value ret)).1 = nodes := by
              simp [serveRequest, h]
            rw [hlog, hupd]

/-- A writable node holds the last value accepted for it in the batch, if there is one. -/
theorem runIterate_latest (nodes : Nodes) (batch : List Request) (w : Writable) :
    (runIterate nodes batch).1 w.node = (latest (acceptedWrites batch) w).getD (nodes w.node) := by
  have h := congrFun (runIterate_writable nodes batch) w
  rw [replay_eq_valueAt] at h
  exact h

/-- Clients change no other node. -/
theorem runIterate_frame (nodes : Nodes) (batch : List Request) {name : Node}
    (h : ∀ w : Writable, name ≠ w.node) : (runIterate nodes batch).1 name = nodes name := by
  induction batch generalizing nodes with
  | nil => rfl
  | cons r rs ih =>
      rw [runIterate_cons, ih]
      cases r with
      | read n => rfl
      | write w value ret =>
          by_cases hret : ret = good
          · simp only [serveRequest, if_pos hret]
            exact Function.update_of_ne (h w) _ _
          · simp only [serveRequest, if_neg hret]

theorem runIterate_lastCommandStatus (nodes : Nodes) (batch : List Request) :
    (runIterate nodes batch).1 .lastCommandStatus = nodes .lastCommandStatus :=
  runIterate_frame nodes batch (fun w => by cases w <;> simp [Writable.node])

/-! ## What a poll does -/

/-- The data value is a command: it reads as a Good Int32 scalar equal to 1. -/
def Pending (lib : Open62541) (dv : DataValue) : Prop := int32OfRead (lib.readValue dv) = some 1

instance (lib : Open62541) (dv : DataValue) : Decidable (Pending lib dv) :=
  inferInstanceAs (Decidable (_ = _))

/-- An Int32 with Good status is a command if and only if it is 1. -/
theorem DataValue.Holds.pending_iff {lib : Open62541} {dv : DataValue} {v : Int32} (h : dv.Holds v) :
    Pending lib dv ↔ v = 1 := by
  rw [Pending, h.read]
  exact Option.some_inj

variable {lib : Open62541} {g : Globals} {nodes : Nodes} {ret : Node → StatusCode}

theorem processCommandNodes_idle (h : ¬ Pending lib (nodes .resetCommand)) :
    processCommandNodes lib g nodes ret = (g, nodes) := by
  unfold processCommandNodes readInt32Node
  unfold Pending at h
  split
  · rfl
  · next v hv =>
    -- the node reads as an Int32 other than 1
    rw [if_neg]
    rintro rfl
    exact h hv

/-- The nodes after a poll that found a command. -/
def resetNodes (nodes : Nodes) (ret : Node → StatusCode) (count : Int32) : Nodes :=
  writeInt32Node (writeInt32Node (writeInt32Node nodes .simulatedValue 1234 (ret .simulatedValue))
    .resetCommand 0 (ret .resetCommand)) .lastCommandStatus count (ret .lastCommandStatus)

theorem processCommandNodes_pending (h : Pending lib (nodes .resetCommand)) :
    processCommandNodes lib g nodes ret =
      ({ g with simulatedValue := 1234, resetCommand := 0, lastCommandStatus := g.lastCommandStatus + 1 },
        resetNodes nodes ret (g.lastCommandStatus + 1)) := by
  unfold processCommandNodes readInt32Node
  rw [h]
  rfl

/-- A poll leaves the telemetry variables alone. -/
theorem Telemetry.value_processCommandNodes (t : Telemetry) (sd : SdGlobals) :
    t.value sd (processCommandNodes lib g nodes ret).1 = t.value sd g := by
  by_cases h : Pending lib (nodes .resetCommand)
  · rw [processCommandNodes_pending h]
    cases t <;> rfl
  · rw [processCommandNodes_idle h]

/-- What each write of a reset does to its own node, and to it alone. -/
theorem resetNodes_apply (nodes : Nodes) (ret : Node → StatusCode) (count : Int32) :
    resetNodes nodes ret count .simulatedValue
        = (if ret .simulatedValue = good then .written 1234 else nodes .simulatedValue) ∧
      resetNodes nodes ret count .resetCommand
        = (if ret .resetCommand = good then .written 0 else nodes .resetCommand) ∧
      resetNodes nodes ret count .lastCommandStatus
        = (if ret .lastCommandStatus = good then .written count else nodes .lastCommandStatus) := by
  -- the three writes go to different nodes, so the order does not matter
  refine ⟨?_, ?_, ?_⟩
  · unfold resetNodes
    rw [writeInt32Node_ne (by decide), writeInt32Node_ne (by decide)]
    by_cases h : ret .simulatedValue = good <;> simp [h]
  · unfold resetNodes
    rw [writeInt32Node_ne (by decide)]
    by_cases h : ret .resetCommand = good <;> simp [h]
  · unfold resetNodes
    by_cases h : ret .lastCommandStatus = good <;> simp [h]

/-! ## The steps of the loop -/

/-- The steps, one constructor a statement of the loop body. -/
inductive Stepped (lib : Open62541) (s : Server) : Event → Server → List Response → Prop
  | heap (reading : HeapReading) (hpc : s.pc = .heap) : Stepped lib s (.heap reading)
      { s with pc := .publish .sdStatus, globals := updateHeapStatus s.globals reading } []
  | publish (t : Telemetry) (sd : SdGlobals) (ret : StatusCode) (hpc : s.pc = .publish t) :
      Stepped lib s (.publish sd ret)
        { s with pc := t.next, nodes := writeInt32Node s.nodes t.node (t.value sd s.globals) ret } []
  | command (ret : Node → StatusCode) (hpc : s.pc = .command) : Stepped lib s (.command ret)
      ⟨.serve, (processCommandNodes lib s.globals s.nodes ret).1,
        (processCommandNodes lib s.globals s.nodes ret).2⟩ []
  | serve (batch : List Request) (hpc : s.pc = .serve) : Stepped lib s (.serve batch)
      ⟨.heap, s.globals, (runIterate s.nodes batch).1⟩ (runIterate s.nodes batch).2

theorem stepped_of_step {s s' : Server} {e : Event} {out : List Response}
    (h : step lib s e = some (s', out)) : Stepped lib s e s' out := by
  -- an event that does not belong to the statement at hand is no step
  cases hpc : s.pc with
  | heap =>
      cases e with
      | heap reading =>
          simp only [step, hpc] at h
          cases h
          exact .heap reading hpc
      | _ => simp [step, hpc] at h
  | publish t =>
      cases e with
      | publish sd ret =>
          simp only [step, hpc] at h
          cases h
          exact .publish t sd ret hpc
      | _ => simp [step, hpc] at h
  | command =>
      cases e with
      | command ret =>
          simp only [step, hpc] at h
          cases h
          exact .command ret hpc
      | _ => simp [step, hpc] at h
  | serve =>
      cases e with
      | serve batch =>
          simp only [step, hpc] at h
          cases h
          exact .serve batch hpc
      | _ => simp [step, hpc] at h

/-- The nodes a command or a client can change. -/
def Node.IsCommand (n : Node) : Prop := n = .simulatedValue ∨ n = .resetCommand ∨ n = .lastCommandStatus

instance (n : Node) : Decidable n.IsCommand := inferInstanceAs (Decidable (_ ∨ _ ∨ _))

/-- A step that touches neither the command nodes nor the counter, and serves no one. -/
structure Quiet (s s' : Server) : Prop where
  before  : s.pc ≠ .serve
  pc      : s'.pc ≠ .serve
  counter : s'.globals.lastCommandStatus = s.globals.lastCommandStatus
  nodes   : ∀ n, n.IsCommand → s'.nodes n = s.nodes n

/-- Steps by what they do to the command nodes. -/
inductive StepKind (lib : Open62541) (s : Server) : Event → Server → List Response → Prop
  | heap (reading : HeapReading) {s' : Server} (h : Quiet s s') : StepKind lib s (.heap reading) s' []
  | publish (sd : SdGlobals) (ret : StatusCode) {s' : Server} (h : Quiet s s') :
      StepKind lib s (.publish sd ret) s' []
  | command (ret : Node → StatusCode) (hpc : s.pc = .command) : StepKind lib s (.command ret)
      ⟨.serve, (processCommandNodes lib s.globals s.nodes ret).1,
        (processCommandNodes lib s.globals s.nodes ret).2⟩ []
  | serve (batch : List Request) (hpc : s.pc = .serve) : StepKind lib s (.serve batch)
      ⟨.heap, s.globals, (runIterate s.nodes batch).1⟩ (runIterate s.nodes batch).2

/-- Publishing telemetry leaves the command nodes alone. -/
theorem Telemetry.not_isCommand (t : Telemetry) : ¬ t.node.IsCommand := by
  cases t <;> simp [Node.IsCommand, Telemetry.node]

theorem Telemetry.next_ne_serve (t : Telemetry) : t.next ≠ .serve := by
  cases t <;> simp [Telemetry.next]

theorem stepKind_of_step {s s' : Server} {e : Event} {out : List Response}
    (h : step lib s e = some (s', out)) : StepKind lib s e s' out := by
  cases stepped_of_step h with
  | heap reading hpc =>
      apply StepKind.heap
      exact ⟨by simp [hpc], by simp, rfl, fun _ _ => rfl⟩
  | publish t sd ret hpc =>
      apply StepKind.publish
      refine ⟨by simp [hpc], t.next_ne_serve, rfl, ?_⟩
      intro n hn
      apply writeInt32Node_ne
      rintro rfl
      exact t.not_isCommand hn
  | command ret hpc => exact .command ret hpc
  | serve batch hpc => exact .serve batch hpc

/-! ## Sample runs -/

/-- The statements of one iteration before its poll. -/
def publishing : List Event := .heap ⟨0, 0, 0, 0⟩ :: List.replicate 6 (.publish .init good)

/-- The same with the poll, whose writes end with the given status codes. -/
def pollWith (ret : Node → StatusCode) : List Event := publishing ++ [.command ret]

/-- The same with all writes of the poll succeeding. -/
def poll : List Event := pollWith (fun _ => good)

/-- One iteration that serves a batch, and the next one up to its poll. -/
def servedThenPolled (batch : List Request) : List Event := poll ++ .serve batch :: poll

/-- A client writes 1 to `reset_command`. -/
def resetRequest : Request := .write .resetCommand (.written 1) good

/-- A client writes 7777 to `simulated_value`. -/
def setRequest : Request := .write .simulatedValue (.written 7777) good

theorem writesSucceed_poll : ∀ e ∈ poll, e.WritesSucceed := by
  intro e he
  simp only [poll, pollWith, publishing, List.replicate, List.cons_append, List.nil_append, List.mem_cons,
    List.not_mem_nil, or_false] at he
  rcases he with rfl | rfl | rfl | rfl | rfl | rfl | rfl | rfl <;> simp [Event.WritesSucceed]

theorem writesSucceed_servedThenPolled (batch : List Request) :
    ∀ e ∈ servedThenPolled batch, e.WritesSucceed := by
  intro e he
  rcases List.mem_append.mp he with h | h
  · exact writesSucceed_poll e h
  · rcases List.mem_cons.mp h with rfl | h
    · exact trivial
    · exact writesSucceed_poll e h

end OpcUa
end Esp32Probes
