import Mathlib.Logic.Function.Basic
import Mathlib.Tactic.SplitIfs

/-!
# `OpcUa.AddressSpace` — the nodes of the OPC UA probe and the accesses of its server task

The ten variable nodes of the probe, each holding a `DataValue`, and the two functions through which the
server task accesses them: `write_int32_node` and `read_int32_node`.

The body of open62541 is not part of the repository. What the probe relies on is the structure `Open62541`:
how `UA_Server_readValue` presents a node's value, with the two laws that its documentation promises.
Whether a `UA_Server_writeValue` succeeds is chosen by the environment; one that succeeds stores the given
value with status Good, one that fails leaves the node as it was.
-/

namespace Esp32Probes
namespace OpcUa

/-! ## Values -/

abbrev StatusCode := UInt32

/-- `UA_STATUSCODE_GOOD`. -/
def good : StatusCode := 0

/-- A `UA_Variant`: empty, an Int32 scalar, or something else (another type, an array), which no code
    of the probe looks into. -/
inductive Variant
  | empty
  | int32 (v : Int32)
  | other (content : Nat)
  deriving DecidableEq

/-- A `UA_DataValue`; `hasValue` and `hasStatus` are the two `Option`s. The timestamps are left out. -/
structure DataValue where
  value  : Option Variant
  status : Option StatusCode
  deriving DecidableEq

/-- The value attribute that a variable node is created with. -/
def DataValue.initial (v : Int32) : DataValue := ⟨some (.int32 v), none⟩

/-- What a successful `UA_Server_writeValue` stores. -/
def DataValue.written (v : Int32) : DataValue := ⟨some (.int32 v), some good⟩

/-- The Int32 scalar a data value carries, whatever its status. -/
def DataValue.int32? (dv : DataValue) : Option Int32 :=
  match dv.value with
  | some (.int32 v) => some v
  | _ => none

/-- The data value is an Int32 scalar whose status is Good or absent. -/
def DataValue.Holds (dv : DataValue) (v : Int32) : Prop :=
  dv.value = some (.int32 v) ∧ dv.status.getD good = good

theorem DataValue.holds_initial (v : Int32) : (DataValue.initial v).Holds v := ⟨rfl, rfl⟩
theorem DataValue.holds_written (v : Int32) : (DataValue.written v).Holds v := ⟨rfl, rfl⟩

@[simp] theorem DataValue.int32?_written (v : Int32) : (DataValue.written v).int32? = some v := rfl

/-! ## Nodes -/

/-- The nodes `ns=1;s=...` of the probe. -/
inductive Node
  | simulatedValue
  | firmwareStatus
  | sdStatus
  | sdAppendCount
  | resetCommand
  | lastCommandStatus
  | internalHeapFree
  | internalHeapMinFree
  | psramFree
  | psramMinFree
  deriving DecidableEq

abbrev Nodes := Node → DataValue

/-! ## The library -/

/-- `UA_Server_readValue` on a node that holds the given value: the status it returns, and the variant it
    writes to `*out`. -/
structure Open62541 where
  readValue : DataValue → StatusCode × Variant
  /-- A value whose status is Good or absent is read as it is. -/
  read_good : ∀ dv v, dv.value = some v → dv.status.getD good = good → readValue dv = (good, v)
  /-- A read that succeeds returns the node's value, an empty variant if there is none. -/
  read_copy : ∀ dv, (readValue dv).1 = good → (readValue dv).2 = dv.value.getD .empty

/-- `BadUnexpectedError`, the status of a read that finds neither a status nor a value. -/
def badUnexpectedError : StatusCode := 0x80010000

/-- A library with these laws: a status that is present is returned, else a missing value is an error. -/
def Open62541.reference : Open62541 where
  readValue dv :=
    let ret := dv.status.getD (if dv.value.isSome then good else badUnexpectedError)
    (ret, if ret = good then dv.value.getD .empty else .empty)
  read_good := by
    rintro ⟨value, status⟩ v rfl h
    cases status with
    | none => rfl
    | some st =>
        -- a status that is present must be Good
        change st = good at h
        subst h
        rfl
  read_copy := by
    rintro ⟨value, status⟩ h
    exact if_pos h

variable {lib : Open62541}

/-! ## The two access functions -/

/-- `write_int32_node`; `ret` is what `UA_Server_writeValue` returns, and the caller never learns it. -/
def writeInt32Node (nodes : Nodes) (name : Node) (value : Int32) (ret : StatusCode) : Nodes :=
  if ret = good then Function.update nodes name (.written value) else nodes

/-- The test of `read_int32_node` on what `UA_Server_readValue` returned. -/
def int32OfRead : StatusCode × Variant → Option Int32
  | (ret, .int32 v) => if ret ≠ good then none else some v
  | _ => none

/-- `read_int32_node`: the value, if the read succeeds and finds an Int32 scalar. -/
def readInt32Node (lib : Open62541) (nodes : Nodes) (name : Node) : Option Int32 :=
  int32OfRead (lib.readValue (nodes name))

/-! ## Writing -/

@[simp] theorem writeInt32Node_self {nodes : Nodes} {name : Node} {value : Int32} :
    writeInt32Node nodes name value good name = .written value := by
  simp [writeInt32Node]

@[simp] theorem writeInt32Node_ne {nodes : Nodes} {name other : Node} {value : Int32} {ret : StatusCode}
    (h : other ≠ name) : writeInt32Node nodes name value ret other = nodes other := by
  unfold writeInt32Node
  split_ifs
  · exact Function.update_of_ne h _ _
  · rfl

@[simp] theorem writeInt32Node_bad {nodes : Nodes} {name : Node} {value : Int32} {ret : StatusCode}
    (h : ret ≠ good) : writeInt32Node nodes name value ret = nodes := if_neg h

/-! ## Reading -/

theorem int32OfRead_iff {r : StatusCode × Variant} {v : Int32} :
    int32OfRead r = some v ↔ r.1 = good ∧ r.2 = .int32 v := by
  obtain ⟨ret, variant⟩ := r
  cases variant with
  | int32 w => by_cases h : ret = good <;> simp [int32OfRead, h]
  | empty => simp [int32OfRead]
  | other c => simp [int32OfRead]

/-- A data value carries an Int32 scalar if its variant, or the empty one, is that scalar. -/
theorem int32?_iff {dv : DataValue} {v : Int32} : dv.int32? = some v ↔ dv.value.getD .empty = .int32 v := by
  obtain ⟨value, status⟩ := dv
  unfold DataValue.int32?
  cases value with
  | none => simp
  | some variant => cases variant <;> simp

/-- **A value that is read is there**, and a read that succeeds finds it. -/
theorem int32OfRead_readValue_iff {dv : DataValue} {v : Int32} :
    int32OfRead (lib.readValue dv) = some v ↔ (lib.readValue dv).1 = good ∧ dv.int32? = some v := by
  rw [int32OfRead_iff, int32?_iff]
  constructor
  · rintro ⟨hok, hv⟩
    exact ⟨hok, by rw [← lib.read_copy dv hok]; exact hv⟩
  · rintro ⟨hok, hv⟩
    exact ⟨hok, by rw [lib.read_copy dv hok]; exact hv⟩

@[simp] theorem int32OfRead_good (v : Int32) : int32OfRead (good, .int32 v) = some v := rfl

/-- **A value that was written is read back**, and so is one that was never written. -/
theorem DataValue.Holds.read {dv : DataValue} {v : Int32} (h : dv.Holds v) :
    int32OfRead (lib.readValue dv) = some v := by
  rw [lib.read_good dv _ h.1 h.2, int32OfRead_good]

theorem DataValue.Holds.int32? {dv : DataValue} {v : Int32} (h : dv.Holds v) : dv.int32? = some v := by
  unfold DataValue.int32?
  rw [h.1]

end OpcUa
end Esp32Probes
