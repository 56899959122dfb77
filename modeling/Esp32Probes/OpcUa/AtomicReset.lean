import Esp32Probes.OpcUa.ServerTask

/-!
# `OpcUa.AtomicReset` — the loop as an atomic reset object

What the command nodes are for, without the loop: an object with two writable values and a count of resets
(`ResetObject`). Clients are served in batches; a batch that leaves a command in `reset_command` ends with a
reset, which is one indivisible step.

`Refines` relates the server to the object: the object is one step ahead while a command waits for its poll.
`atomic_reset` concludes that clients get the same answers from both, and says what the nodes are between
two batches.
-/

namespace Esp32Probes
namespace OpcUa

open Machine WriteLog

/-! ## The object -/

/-- The command nodes as one object. The number of resets is unbounded here. -/
structure ResetObject where
  simulatedValue : DataValue
  resetCommand   : DataValue
  resets         : Nat
  deriving DecidableEq

namespace ResetObject

/-- The published count of resets. -/
def countValue (resets : Nat) : DataValue :=
  if resets = 0 then .initial 0 else .written (Int32.ofNat resets)

/-- The object before any request. -/
def init : ResetObject := ⟨.initial 1234, .initial 0, 0⟩

/-- What a client reads; the other nodes do not belong to the object. -/
def read (o : ResetObject) : Node → Option DataValue
  | .simulatedValue => some o.simulatedValue
  | .resetCommand => some o.resetCommand
  | .lastCommandStatus => some (countValue o.resets)
  | _ => none

/-- A client writes one of the two values. -/
def write (o : ResetObject) (dv : DataValue) : Writable → ResetObject
  | .simulatedValue => { o with simulatedValue := dv }
  | .resetCommand => { o with resetCommand := dv }

/-- One client operation and its response, if it is one on the object. -/
def request (o : ResetObject) : Request → ResetObject × Option Response
  | .read name => (o, (o.read name).map .value)
  | .write name value ret => (if ret = good then o.write value name else o, some (.status ret))

/-- A batch of client operations. -/
def serve (o : ResetObject) : List Request → ResetObject × List (Option Response)
  | [] => (o, [])
  | r :: rs =>
    let (o', response) := o.request r
    let (o'', responses) := o'.serve rs
    (o'', response :: responses)

/-- The atomic reset. -/
def reset (lib : Open62541) (o : ResetObject) : ResetObject :=
  if Pending lib o.resetCommand then ⟨.written 1234, .written 0, o.resets + 1⟩ else o

/-- A batch, and the reset it may have commanded; nothing else happens to the object. -/
def step (lib : Open62541) (o : ResetObject) (e : Event) : Option (ResetObject × List (Option Response)) :=
  match e with
  | .serve batch => some ((o.serve batch).1.reset lib, (o.serve batch).2)
  | _ => some (o, [])

variable {lib : Open62541}

theorem reset_reset (lib : Open62541) (o : ResetObject) : (o.reset lib).reset lib = o.reset lib := by
  by_cases h : Pending lib o.resetCommand
  · have hzero : ¬ Pending lib (.written 0) := by
      intro h
      exact absurd ((DataValue.holds_written 0).pending_iff.mp h) (by decide)
    simp [reset, h, hzero]
  · simp [reset, h]

theorem reset_idle {o : ResetObject} (h : ¬ Pending lib o.resetCommand) : o.reset lib = o := if_neg h

@[simp] theorem resets_request (o : ResetObject) (r : Request) : (o.request r).1.resets = o.resets := by
  cases r with
  | read name => rfl
  | write name value ret =>
      unfold request
      by_cases h : ret = good
      · cases name <;> simp [h, write]
      · simp [h]

@[simp] theorem resets_serve (o : ResetObject) (batch : List Request) :
    (o.serve batch).1.resets = o.resets := by
  induction batch generalizing o with
  | nil => rfl
  | cons r rs ih => exact (ih (o.request r).1).trans (resets_request o r)

/-- A reset never lowers the number of resets. -/
theorem resets_le_reset (lib : Open62541) (o : ResetObject) : o.resets ≤ (o.reset lib).resets := by
  unfold reset
  split
  · exact Nat.le_succ _
  · exact Nat.le_refl _

/-- Resets are never taken back. -/
theorem resets_le_run {o o' : ResetObject} {es : List Event} {os : List (List (Option Response))}
    (h : run (step lib) o es = some (o', os)) : o.resets ≤ o'.resets := by
  refine run_invariant (I := fun _ _ m => o.resets ≤ m.resets) (Nat.le_refl _) ?_ h
  intro _ _ m e m' out hle hstep
  cases e with
  | serve batch =>
      cases hstep
      have hserve := resets_serve m batch
      have hreset := resets_le_reset lib (m.serve batch).1
      omega
  | heap reading => cases hstep; exact hle
  | publish sd ret => cases hstep; exact hle
  | command ret => cases hstep; exact hle

end ResetObject

/-! ## What clients see of the server -/

/-- The object that the command nodes stand for, after a number of resets. -/
def objectOf (nodes : Nodes) (resets : Nat) : ResetObject :=
  ⟨nodes .simulatedValue, nodes .resetCommand, resets⟩

/-- The response, if the operation is one on the object. -/
def objectResponse : Request → Response → Option Response
  | .read name, response => if name.IsCommand then some response else none
  | .write _ _ _, response => some response

/-- The responses of a step to the operations on the object. -/
def clientView (e : Event) (out : List Response) : List (Option Response) :=
  match e with
  | .serve batch => List.zipWith objectResponse batch out
  | _ => []

/-- **One operation.** The server answers as the object does. -/
theorem serveRequest_object {nodes : Nodes} {k : Nat}
    (hcount : nodes .lastCommandStatus = ResetObject.countValue k) (r : Request) :
    objectOf (serveRequest nodes r).1 k = ((objectOf nodes k).request r).1 ∧
      objectResponse r (serveRequest nodes r).2 = ((objectOf nodes k).request r).2 ∧
      (serveRequest nodes r).1 .lastCommandStatus = ResetObject.countValue k := by
  cases r with
  | read name => cases name <;> exact ⟨rfl, by first | rfl | exact congrArg _ (congrArg _ hcount), hcount⟩
  | write name value ret =>
      refine ⟨?_, rfl, ?_⟩
      · by_cases h : ret = good
        · cases name <;>
            simp [serveRequest, ResetObject.request, h, objectOf, ResetObject.write, Writable.node]
        · simp [serveRequest, ResetObject.request, h]
      · by_cases h : ret = good
        · cases name <;> simp [serveRequest, h, Writable.node, hcount]
        · simp [serveRequest, h, hcount]

/-- **One batch.** -/
theorem runIterate_object {nodes : Nodes} {k : Nat}
    (hcount : nodes .lastCommandStatus = ResetObject.countValue k) (batch : List Request) :
    objectOf (runIterate nodes batch).1 k = ((objectOf nodes k).serve batch).1 ∧
      List.zipWith objectResponse batch (runIterate nodes batch).2 = ((objectOf nodes k).serve batch).2 := by
  induction batch generalizing nodes with
  | nil => exact ⟨rfl, rfl⟩
  | cons r rs ih =>
      obtain ⟨hobj, hresp, hcount'⟩ := serveRequest_object hcount r
      obtain ⟨hobj', hresp'⟩ := ih hcount'
      rw [hobj] at hobj' hresp'
      exact ⟨hobj', congrArg₂ List.cons hresp hresp'⟩

/-! ## The simulation -/

variable {lib : Open62541}

/-- The object that the server implements: it has already executed a command that waits for its poll. -/
structure Refines (lib : Open62541) (s : Server) (o : ResetObject) : Prop where
  object : ∃ k, s.globals.lastCommandStatus = Int32.ofNat k ∧
    s.nodes .lastCommandStatus = ResetObject.countValue k ∧ o = (objectOf s.nodes k).reset lib
  idle : s.pc = .serve → ¬ Pending lib (s.nodes .resetCommand)

theorem refines_init (sd : SdGlobals) : Refines lib (Server.init sd) .init where
  object := by
    refine ⟨0, rfl, rfl, (ResetObject.reset_idle ?_).symm⟩
    exact fun h => absurd ((DataValue.holds_initial 0).pending_iff.mp h) (by decide)
  idle := fun h => absurd h (by simp [Server.init])

/-- **The poll is the object's reset**, all of whose writes succeed. -/
theorem processCommandNodes_object (lib : Open62541) {g : Globals} {nodes : Nodes} {ret : Node → StatusCode}
    {k : Nat} (hret : ∀ n, ret n = good) (hg : g.lastCommandStatus = Int32.ofNat k)
    (hcount : nodes .lastCommandStatus = ResetObject.countValue k) :
    ∃ k', (processCommandNodes lib g nodes ret).1.lastCommandStatus = Int32.ofNat k' ∧
      (processCommandNodes lib g nodes ret).2 .lastCommandStatus = ResetObject.countValue k' ∧
      objectOf (processCommandNodes lib g nodes ret).2 k' = (objectOf nodes k).reset lib := by
  by_cases hp : Pending lib (nodes .resetCommand)
  · obtain ⟨hsim, hreset, hlast⟩ := resetNodes_apply nodes ret (g.lastCommandStatus + 1)
    rw [if_pos (hret _)] at hsim hreset hlast
    have hnext : g.lastCommandStatus + 1 = Int32.ofNat (k + 1) := by rw [hg, Int32.ofNat_add]; rfl
    rw [processCommandNodes_pending hp]
    refine ⟨k + 1, hnext, ?_, ?_⟩
    · change resetNodes _ _ _ _ = _
      rw [hlast, hnext, ResetObject.countValue, if_neg (Nat.succ_ne_zero k)]
    · change objectOf (resetNodes _ _ _) _ = _
      have hp' : Pending lib (objectOf nodes k).resetCommand := hp
      rw [objectOf, hsim, hreset, ResetObject.reset, if_pos hp']
      rfl
  · rw [processCommandNodes_idle hp]
    exact ⟨k, hg, hcount, (ResetObject.reset_idle hp).symm⟩

/-- **The server simulates the object**, statement by statement. -/
theorem refines_step {s s' : Server} {o : ResetObject} {e : Event} {out : List Response}
    (hw : e.WritesSucceed) (h : Refines lib s o) (hstep : step lib s e = some (s', out)) :
    ∃ o', ResetObject.step lib o e = some (o', clientView e out) ∧ Refines lib s' o' := by
  obtain ⟨k, hg, hcount, rfl⟩ := h.object
  have hquiet : ∀ s', Quiet s s' → Refines lib s' ((objectOf s.nodes k).reset lib) := by
    intro s' hq
    refine ⟨⟨k, by rw [hq.counter, hg], ?_, ?_⟩, fun hpc => absurd hpc hq.pc⟩
    · rw [hq.nodes _ (Or.inr (Or.inr rfl)), hcount]
    · rw [objectOf, objectOf, hq.nodes _ (Or.inl rfl), hq.nodes _ (Or.inr (Or.inl rfl))]
  cases stepKind_of_step hstep with
  | heap reading hq => exact ⟨_, rfl, hquiet s' hq⟩
  | publish sd ret hq => exact ⟨_, rfl, hquiet s' hq⟩
  | command ret hpc =>
      -- the server catches up with the object
      obtain ⟨k', hg', hcount', hobj⟩ := processCommandNodes_object lib hw hg hcount
      refine ⟨_, rfl, ⟨k', hg', hcount', ?_⟩, fun _ => ?_⟩
      · rw [hobj, ResetObject.reset_reset]
      · have hidle := congrArg ResetObject.resetCommand hobj
        change (processCommandNodes lib s.globals s.nodes ret).2 .resetCommand = _ at hidle
        change ¬ Pending lib ((processCommandNodes lib s.globals s.nodes ret).2 .resetCommand)
        rw [hidle]
        intro hp
        have hdone := congrArg ResetObject.resets (ResetObject.reset_reset lib (objectOf s.nodes k))
        rw [ResetObject.reset, if_pos hp] at hdone
        exact absurd hdone (Nat.succ_ne_self _)
  | serve batch hpc =>
      -- no command waits here, so object and nodes agree before the batch
      obtain ⟨hobj, hresp⟩ := runIterate_object hcount batch
      have hidle : (objectOf s.nodes k).reset lib = objectOf s.nodes k := ResetObject.reset_idle (h.idle hpc)
      refine ⟨(objectOf (runIterate s.nodes batch).1 k).reset lib, ?_, ⟨k, hg, ?_, rfl⟩,
        fun h => absurd h (by simp)⟩
      · rw [hidle, hobj]
        show some (_, _) = some (_, List.zipWith objectResponse batch (runIterate s.nodes batch).2)
        rw [hresp]
      · exact (runIterate_lastCommandStatus s.nodes batch).trans hcount

/-! ## Between two batches -/

/-- Without a batch nothing happens to the object. -/
theorem ResetObject.run_idle {o o' : ResetObject} {es : List Event} {os : List (List (Option Response))}
    (hes : ∀ e ∈ es, e.batch? = none) (h : run (ResetObject.step lib) o es = some (o', os)) : o' = o := by
  induction es generalizing o os with
  | nil => cases h; rfl
  | cons e es ih =>
      obtain ⟨o₁, out, os', hs, hr, _⟩ := run_cons_iff.mp h
      obtain ⟨he, hes'⟩ := List.forall_mem_cons.mp hes
      have ho : o₁ = o := by
        cases e with
        | serve batch => cases he
        | heap reading => cases hs; rfl
        | publish sd ret => cases hs; rfl
        | command ret => cases hs; rfl
      rw [ih hes' hr, ho]

theorem holds_countValue (k : Nat) : (ResetObject.countValue k).Holds (Int32.ofNat k) := by
  unfold ResetObject.countValue
  split_ifs with h
  · rw [h]; exact DataValue.holds_initial 0
  · exact DataValue.holds_written _

/-- What happens between the end of a batch (`s₁`) and the start of the next (`s₂`). -/
structure Between (lib : Open62541) (s₁ s₂ : Server) : Prop where
  /-- A batch that leaves a command is followed by a whole reset. -/
  reset : Pending lib (s₁.nodes .resetCommand) →
    s₂.nodes .simulatedValue = .written 1234 ∧ s₂.nodes .resetCommand = .written 0 ∧
      ∃ n m, (s₁.nodes .lastCommandStatus).Holds n ∧ (s₂.nodes .lastCommandStatus).Holds m ∧
        m.toInt = n.toInt + 1
  /-- Any other batch is followed by nothing. -/
  untouched : ¬ Pending lib (s₁.nodes .resetCommand) → ∀ n, n.IsCommand → s₂.nodes n = s₁.nodes n

theorem between_of_refines {s₁ s₂ : Server} {o : ResetObject} (h₁ : Refines lib s₁ o) (h₂ : Refines lib s₂ o)
    (hpc : s₂.pc = .serve) (hlt : o.resets < 2 ^ 31) : Between lib s₁ s₂ := by
  obtain ⟨k₁, _, hcount₁, hobj₁⟩ := h₁.object
  obtain ⟨k₂, _, hcount₂, hobj₂⟩ := h₂.object
  rw [ResetObject.reset_idle (h₂.idle hpc)] at hobj₂
  constructor
  · intro hp
    have hp' : Pending lib (objectOf s₁.nodes k₁).resetCommand := hp
    rw [ResetObject.reset, if_pos hp'] at hobj₁
    rw [hobj₂] at hobj₁ hlt
    obtain ⟨hsim, hreset, hk⟩ := ResetObject.mk.inj hobj₁
    change k₂ < 2 ^ 31 at hlt
    change k₂ = k₁ + 1 at hk
    refine ⟨hsim, hreset, Int32.ofNat k₁, Int32.ofNat k₂, ?_, ?_, ?_⟩
    · rw [hcount₁]; exact holds_countValue k₁
    · rw [hcount₂]; exact holds_countValue k₂
    · rw [Int32.toInt_ofNat_of_lt hlt, Int32.toInt_ofNat_of_lt (by omega)]; omega
  · intro hp
    have hidle : (objectOf s₁.nodes k₁).reset lib = objectOf s₁.nodes k₁ := ResetObject.reset_idle hp
    rw [hidle, hobj₂] at hobj₁
    obtain ⟨hsim, hreset, hk⟩ := ResetObject.mk.inj hobj₁
    rintro n (rfl | rfl | rfl)
    · exact hsim
    · exact hreset
    · rw [hcount₁, hcount₂, hk]

/-- **The loop refines the atomic reset object.** Over every run whose node writes succeed, clients get the
    answers of the object to everything they do with the command nodes, and no batch finds a command. While
    there are fewer than 2^31 resets, a batch that leaves a command is followed, before the next batch, by
    exactly one whole reset, and any other batch by no change of the command nodes at all. -/
theorem atomic_reset {sd : SdGlobals} {es : List Event} {os : List (List Response)} {t : Server}
    (hrun : run (step lib) (Server.init sd) es = some (t, os)) (hw : ∀ e ∈ es, e.WritesSucceed) :
    ∃ o, run (ResetObject.step lib) .init es = some (o, List.zipWith clientView es os) ∧
      (t.pc = .serve → ¬ Pending lib (t.nodes .resetCommand)) ∧
      (o.resets < 2 ^ 31 → ∀ pre batch mid post s₁ os₁ s₂ os₂,
        es = pre ++ [.serve batch] ++ (mid ++ post) → (∀ e ∈ mid, e.batch? = none) →
        run (step lib) (Server.init sd) (pre ++ [.serve batch]) = some (s₁, os₁) →
        run (step lib) s₁ mid = some (s₂, os₂) → s₂.pc = .serve → Between lib s₁ s₂) := by
  have hsim : ∀ s a (e : Event) s' out, e.WritesSucceed → Refines lib s a → step lib s e = some (s', out) →
      ∃ a', ResetObject.step lib a e = some (a', clientView e out) ∧ Refines lib s' a' :=
    fun _ _ _ _ _ hw h hs => refines_step hw h hs
  obtain ⟨o, hobj, href⟩ := run_simulation hsim hw (refines_init sd) hrun
  refine ⟨o, hobj, href.idle, ?_⟩
  rintro hlt pre batch mid post s₁ os₁ s₂ os₂ rfl hmid h₁ h₂ hpc
  obtain ⟨hw₁, hw₂⟩ := List.forall_mem_append.mp hw
  obtain ⟨o₁, hobj₁, href₁⟩ := run_simulation hsim hw₁ (refines_init sd) h₁
  obtain ⟨o₂, hobj₂, href₂⟩ := run_simulation hsim (List.forall_mem_append.mp hw₂).1 href₁ h₂
  rw [ResetObject.run_idle hmid hobj₂] at href₂
  -- the object at the batch has made no more resets than at the end
  obtain ⟨m, _, _, hm, hrest, _⟩ := run_append_iff.mp hobj
  rw [hobj₁] at hm
  cases hm
  exact between_of_refines href₁ href₂ hpc (Nat.lt_of_le_of_lt (ResetObject.resets_le_run hrest) hlt)

/-- A batch with a write and a reset, and a batch that reads the outcome. -/
def readOutcome : List Event :=
  servedThenPolled [setRequest, resetRequest] ++
    [.serve [.read .simulatedValue, .read .resetCommand, .read .lastCommandStatus]]

/-- Its clients get the answers of the object. -/
theorem atomic_reset_readOutcome :
    ∃ t os o, run (step .reference) (Server.init .init) readOutcome = some (t, os) ∧
      run (ResetObject.step .reference) .init readOutcome
        = some (o, List.zipWith clientView readOutcome os) := by
  have hw : ∀ e ∈ readOutcome, e.WritesSucceed := by
    intro e he
    rcases List.mem_append.mp he with h | h
    · exact writesSucceed_servedThenPolled _ e h
    · rw [List.mem_singleton.mp h]; exact trivial
  obtain ⟨t, os, hrun, _⟩ := run_of_check (step .reference) (Server.init .init) readOutcome
    (p := fun _ => True) (by decide +kernel)
  obtain ⟨o, hobj, _⟩ := atomic_reset hrun hw
  exact ⟨t, os, o, hrun, hobj⟩

end OpcUa
end Esp32Probes
