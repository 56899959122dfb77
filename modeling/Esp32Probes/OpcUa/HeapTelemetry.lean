import Esp32Probes.OpcUa.BootStatus
import Esp32Probes.OpcUa.HeapSampling

/-!
# `OpcUa.HeapTelemetry` — what clients read about the heap and the appends

The heap values are sampled over many steps of other tasks, so no two of the published numbers need belong
to one moment. They still fit together: `update_heap_status` reads what is free before it reads the
low-water mark, an iteration publishes both before it serves anyone, and the count is published as it is at
that moment.

`telemetry_consistent` says this for every interleaving: what is sampled comes from `Lib.LowWater`, what is
published from the order of the statements of the loop, and the order of the reads from `Lib.Machine`.
-/

namespace Esp32Probes
namespace OpcUa

open Machine LowWater

/-! ## What is claimed -/

/-- Both data values carry an Int32, the first one at most the second. -/
def DataValue.AtMost (a b : DataValue) : Prop :=
  ∃ x y, a.int32? = some x ∧ b.int32? = some y ∧ x.toInt ≤ y.toInt

theorem DataValue.AtMost.trans {a b c : DataValue} (h : a.AtMost b) (h' : b.AtMost c) : a.AtMost c := by
  obtain ⟨x, y, hx, hy, hle⟩ := h
  obtain ⟨y', z, hy', hz, hle'⟩ := h'
  rw [hy] at hy'
  obtain rfl := Option.some.inj hy'
  exact ⟨x, z, hx, hz, Int.le_trans hle hle'⟩

theorem DataValue.AtMost.refl_left {a b : DataValue} (h : a.AtMost b) : a.AtMost a := by
  obtain ⟨x, _, hx, _, _⟩ := h
  exact ⟨x, x, hx, hx, Int.le_refl _⟩

/-- The nodes of one moment fit together, and to the number of completed appends. -/
structure Consistent (nodes : Nodes) (appends : Nat) : Prop where
  internal : (nodes .internalHeapMinFree).AtMost (nodes .internalHeapFree)
  psram : (nodes .psramMinFree).AtMost (nodes .psramFree)
  count : ∃ c, (nodes .sdAppendCount).int32? = some c ∧ c.toInt ≤ appends

theorem Consistent.congr {nodes nodes' : Nodes} {appends : Nat} (h : Consistent nodes appends)
    (hsame : ∀ t : Telemetry, nodes' t.node = nodes t.node) : Consistent nodes' appends := by
  have hintMin : nodes' .internalHeapMinFree = nodes .internalHeapMinFree := hsame .internalHeapMinFree
  have hintFree : nodes' .internalHeapFree = nodes .internalHeapFree := hsame .internalHeapFree
  have hpsMin : nodes' .psramMinFree = nodes .psramMinFree := hsame .psramMinFree
  have hpsFree : nodes' .psramFree = nodes .psramFree := hsame .psramFree
  have hcount : nodes' .sdAppendCount = nodes .sdAppendCount := hsame .sdAppendCount
  constructor
  · rw [hintMin, hintFree]
    exact h.internal
  · rw [hpsMin, hpsFree]
    exact h.psram
  · rw [hcount]
    exact h.count

/-- The values that the reads of a node return in a batch. -/
def readValues (name : Node) (batch : List Request) (out : List Response) : List DataValue :=
  (batch.zip out).filterMap (fun r => match r with
    | (.read n, .value dv) => if n = name then some dv else none
    | _ => none)

/-- Reads of a node that clients cannot write all return what the node held before the batch. -/
theorem mem_readValues {nodes : Nodes} {batch : List Request} {name : Node} {dv : DataValue}
    (hname : ∀ w : Writable, name ≠ w.node) (h : dv ∈ readValues name batch (runIterate nodes batch).2) :
    dv = nodes name := by
  unfold readValues at h
  obtain ⟨⟨r, o⟩, hmem, hdv⟩ := List.mem_filterMap.mp h
  obtain ⟨i, hi⟩ := List.mem_iff_getElem?.mp hmem
  obtain ⟨hr, ho⟩ := List.getElem?_zip_eq_some.mp hi
  cases r with
  | write n v ret => cases hdv
  | read n =>
      cases o with
      | status ret => cases hdv
      | value v =>
          simp only [Option.ite_none_right_eq_some, Option.some.injEq] at hdv
          obtain ⟨rfl, rfl⟩ := hdv
          rw [Boot.runIterate_read hname hr] at ho
          cases ho
          rfl

/-! ## The published values -/

def Telemetry.index : Telemetry → Nat
  | .sdStatus => 0
  | .sdAppendCount => 1
  | .internalHeapFree => 2
  | .internalHeapMinFree => 3
  | .psramFree => 4
  | .psramMinFree => 5

/-- In the iteration at hand `t` has been published. -/
def Pc.Past (t : Telemetry) : Pc → Prop
  | .heap => False
  | .publish u => t.index < u.index
  | .command => True
  | .serve => True

theorem Telemetry.past_next {t u : Telemetry} (h : u.next.Past t) : t = u ∨ (Pc.publish u).Past t := by
  cases u <;> cases t <;> simp_all [Telemetry.next, Pc.Past, Telemetry.index]

/-- The values that `update_heap_status` provides. -/
def Telemetry.FromHeap (t : Telemetry) : Prop := t ≠ .sdStatus ∧ t ≠ .sdAppendCount

/-- Every heap value that has been published in this iteration is in its node. -/
def HeapPublished (srv : Server) : Prop :=
  ∀ t : Telemetry, t.FromHeap → srv.pc.Past t → ∀ sd, srv.nodes t.node = .written (t.value sd srv.globals)

/-- The heap values do not come from the SD variables. -/
theorem Telemetry.value_congr {t : Telemetry} (ht : t.FromHeap) (sd sd' : SdGlobals) (g : Globals) :
    t.value sd g = t.value sd' g := by
  cases t with
  | sdStatus => exact absurd rfl ht.1
  | sdAppendCount => exact absurd rfl ht.2
  | _ => rfl

theorem Telemetry.node_injective : Function.Injective Telemetry.node := by
  intro t u h
  cases t <;> cases u <;> first | rfl | cases h

/-- Clients can write no telemetry. -/
theorem Telemetry.node_ne_writable (t : Telemetry) (w : Writable) : t.node ≠ w.node := by
  cases t <;> cases w <;> simp [Telemetry.node, Writable.node]

variable {lib : Open62541}

/-- **One step** of the loop leaves the heap values that have been published in their nodes. -/
theorem HeapPublished.step {srv srv' : Server} {e : Event} {out : List Response} (h : HeapPublished srv)
    (hw : e.WritesSucceed) (hs : OpcUa.step lib srv e = some (srv', out)) : HeapPublished srv' := by
  intro t ht hpast sd
  cases stepped_of_step hs with
  | heap reading hpc => exact absurd hpast (Nat.not_lt_zero _)
  | publish u sd' ret hpc =>
      have hret : ret = good := hw
      subst hret
      rcases Telemetry.past_next hpast with rfl | hbefore
      · show writeInt32Node srv.nodes t.node _ good t.node = _
        rw [writeInt32Node_self, Telemetry.value_congr ht]
      · -- published before this statement, which writes another node
        have hne : t ≠ u := by
          rintro rfl
          exact Nat.lt_irrefl _ hbefore
        show writeInt32Node srv.nodes u.node _ good t.node = _
        rw [writeInt32Node_ne (fun heq => hne (Telemetry.node_injective heq))]
        apply h t ht
        rw [hpc]
        exact hbefore
  | command ret hpc =>
      show (processCommandNodes lib srv.globals srv.nodes ret).2 t.node = _
      rw [Boot.processCommandNodes_frame t.not_isCommand, Telemetry.value_processCommandNodes]
      apply h t ht
      rw [hpc]
      exact trivial
  | serve batch hpc => exact absurd hpast id

/-- A step of the loop writes the count as it is, or leaves its node alone. -/
theorem step_countNode {srv srv' : Server} {e : Event} {out : List Response}
    (hs : OpcUa.step lib srv e = some (srv', out)) :
    (∃ sd ret, e = .publish sd ret ∧ srv'.nodes .sdAppendCount = .written sd.sdAppendCount) ∨
      srv'.nodes .sdAppendCount = srv.nodes .sdAppendCount := by
  cases stepped_of_step hs with
  | heap reading hpc => exact Or.inr rfl
  | publish t sd ret hpc =>
      by_cases hret : ret = good
      · subst hret
        by_cases ht : t = .sdAppendCount
        · subst ht
          refine Or.inl ⟨sd, good, rfl, ?_⟩
          show writeInt32Node srv.nodes .sdAppendCount sd.sdAppendCount good .sdAppendCount = _
          exact writeInt32Node_self
        · refine Or.inr ?_
          show writeInt32Node srv.nodes t.node _ good .sdAppendCount = _
          apply writeInt32Node_ne
          intro heq
          have hnode : t.node = Telemetry.sdAppendCount.node := heq.symm
          exact ht (Telemetry.node_injective hnode)
      · refine Or.inr ?_
        show writeInt32Node srv.nodes t.node _ ret .sdAppendCount = _
        rw [writeInt32Node_bad hret]
  | command ret hpc => exact Or.inr (Boot.processCommandNodes_frame (by decide))
  | serve batch hpc =>
      refine Or.inr ?_
      exact runIterate_frame srv.nodes batch (Telemetry.node_ne_writable .sdAppendCount)

/-! ## The count -/

namespace Boot

/-- `sd_append_count` counts the appends, and its node holds what it was at some time. -/
structure Counted (s : System) : Prop where
  count : CountsAppends s.sd s.appends
  node : ∀ srv, s.server = .serving srv →
    ∃ n, n ≤ s.appends ∧ (srv.nodes .sdAppendCount).int32? = some (Int32.ofNat n)

theorem counted_init : Counted init where
  count := ⟨rfl, by decide⟩
  node := fun srv h => by cases h

/-- **One step** keeps the count, and its node what it was at some time. -/
theorem Counted.step {s s' : System} {e : Event} {out : List Response} (h : Counted s)
    (hs : Boot.step lib s e = some (s', out)) : Counted s' := by
  obtain ⟨hcount, hle⟩ := countsAppends_step h.count hs
  refine ⟨hcount, ?_⟩
  intro srv₁ hsrv₁
  cases serverStep_of_step hs with
  | same hsame =>
      obtain ⟨n, hn, hnode⟩ := h.node srv₁ (hsame.symm.trans hsrv₁)
      exact ⟨n, Nat.le_trans hn hle, hnode⟩
  | starting _ hnot => exact absurd hsrv₁ (hnot srv₁)
  | enter status _ hserving =>
      -- the node is created with the count
      rw [hserving] at hsrv₁
      cases hsrv₁
      refine ⟨s.appends, hle, ?_⟩
      rw [← h.count.1]
      rfl
  | @loop e' srv srv' he hserver hloop hserving =>
      rw [hserving] at hsrv₁
      cases hsrv₁
      rcases step_countNode hloop with ⟨sd, ret, he', hnode⟩ | hnode
      · obtain ⟨rfl, _⟩ := withSd_eq_publish he'
        refine ⟨s.appends, hle, ?_⟩
        rw [hnode, DataValue.int32?_written, h.count.1]
      · rw [hnode]
        obtain ⟨n, hn, hc⟩ := h.node srv hserver
        exact ⟨n, Nat.le_trans hn hle, hc⟩

/-- What the node of the count holds is at most the count. -/
theorem Counted.node_le {s : System} (h : Counted s) {srv : Server} (hsrv : s.server = .serving srv) :
    ∃ c, (srv.nodes .sdAppendCount).int32? = some c ∧ c.toInt ≤ s.appends ∧
      c.toInt ≤ s.sd.sdAppendCount.toInt := by
  obtain ⟨n, hn, hnode⟩ := h.node srv hsrv
  obtain ⟨hcount, hlt⟩ := h.count
  refine ⟨Int32.ofNat n, hnode, ?_, ?_⟩
  · rw [Int32.toInt_ofNat_of_lt (Nat.lt_of_le_of_lt hn hlt)]
    exact Int.ofNat_le.mpr hn
  · rw [hcount, Int32.toInt_ofNat_of_lt (Nat.lt_of_le_of_lt hn hlt), Int32.toInt_ofNat_of_lt hlt]
    exact Int.ofNat_le.mpr hn

/-- **The node of the count never goes down**, and a task that serves never stops. -/
theorem Counted.node_mono {s s' : System} {e : Event} {out : List Response} (h : Counted s)
    (hs : Boot.step lib s e = some (s', out)) {srv : Server} (hsrv : s.server = .serving srv) :
    ∃ srv', s'.server = .serving srv' ∧ (srv.nodes .sdAppendCount).AtMost (srv'.nodes .sdAppendCount) := by
  obtain ⟨c, hc, _, hle⟩ := h.node_le hsrv
  cases serverStep_of_step hs with
  | same hsame => exact ⟨srv, hsame.trans hsrv, c, c, hc, hc, Int.le_refl _⟩
  | starting hnot _ => exact absurd hsrv (hnot srv)
  | enter status hnot _ => exact absurd hsrv (hnot srv)
  | @loop e' srv₀ srv' he hserver hloop hserving =>
      rw [hsrv] at hserver
      cases hserver
      refine ⟨srv', hserving, ?_⟩
      rcases step_countNode hloop with ⟨sd, ret, he', hnode⟩ | hnode
      · obtain ⟨rfl, _⟩ := withSd_eq_publish he'
        refine ⟨c, s.sd.sdAppendCount, hc, ?_, hle⟩
        rw [hnode, DataValue.int32?_written]
      · rw [hnode]
        exact ⟨c, c, hc, hc, Int.le_refl _⟩

end Boot

/-! ## The invariant -/

namespace HeapSampling

variable {ι : Type*} {regions : Pool → List ι} {s s' : System ι} {e : Event ι} {out : List Response}

/-- Every pool is sampled soundly, what is published of it is what was sampled, and the count is right. -/
structure Inv (regions : Pool → List ι) (s : System ι) : Prop where
  rested : Rested regions s
  sound : ∀ p, Sound (regions p) s.heap (s.sampler p)
  published : ∀ srv, s.boot.server = .serving srv → HeapPublished srv
  counted : Boot.Counted s.boot

theorem inv_init (regions : Pool → List ι) (heap : ι → Gauge) : Inv regions (init regions heap) where
  rested := rested_init regions heap
  sound := by
    intro p
    cases p with
    | internal => exact covers_start heap (regions .internal)
    | psram => exact trivial
  published := fun srv h => by cases h
  counted := Boot.counted_init

theorem published_task {boot boot' : Boot.System} {e : Boot.Event}
    (h : ∀ srv, boot.server = .serving srv → HeapPublished srv) (hw : ∀ e', e = .server e' → e'.WritesSucceed)
    (hs : Boot.step lib boot e = some (boot', out)) :
    ∀ srv, boot'.server = .serving srv → HeapPublished srv := by
  intro srv₁ hsrv₁
  cases Boot.serverStep_of_step hs with
  | same hsame => exact h srv₁ (hsame.symm.trans hsrv₁)
  | starting _ hnot => exact absurd hsrv₁ (hnot srv₁)
  | enter status _ hserving =>
      -- the loop starts where nothing is published yet
      rw [hserving] at hsrv₁
      cases hsrv₁
      intro t _ hpast
      exact absurd hpast id
  | loop e' he hserver hloop hserving =>
      rw [hserving] at hsrv₁
      cases hsrv₁
      exact (h _ hserver).step (Boot.withSd_writesSucceed (hw e' he)) hloop

/-- **One step** keeps the invariant. -/
theorem inv_step [DecidableEq ι] (h : Inv regions s) (hw : e.WritesSucceed) (hfits : TotalFits s e)
    (hs : step lib regions s e = some (s', out)) : Inv regions s' := by
  have hrest : Rested regions s' := rested_step h.rested hs
  have hsound : ∀ p, Sound (regions p) s'.heap (s'.sampler p) := fun p =>
    (evolves_of_step h.rested hfits hs p).sound (h.sound p)
  rcases boot_of_step hs with ⟨hboot, _⟩ | ⟨e', hb, hw'⟩
  · refine ⟨hrest, hsound, ?_, ?_⟩
    · rw [hboot]
      exact h.published
    · rw [hboot]
      exact h.counted
  · exact ⟨hrest, hsound, published_task h.published (hw' hw) hb, h.counted.step hb⟩

/-! ## What is served -/

/-- When clients are served, the nodes hold the last sample of every pool. -/
theorem Inv.nodes_serve (h : Inv regions s) {srv : Server} (hsrv : s.boot.server = .serving srv)
    (hpc : srv.pc = .serve) (p : Pool) :
    srv.nodes p.free.node = .written (heapFree srv.globals p) ∧
      srv.nodes p.minFree.node = .written (heapMinFree srv.globals p) := by
  have hpub : ∀ t : Telemetry, t.FromHeap → srv.nodes t.node = .written (t.value .init srv.globals) := by
    intro t ht
    apply h.published srv hsrv t ht
    rw [hpc]
    exact trivial
  rw [← value_free .init, ← value_minFree .init]
  refine ⟨hpub p.free ?_, hpub p.minFree ?_⟩
  · cases p <;> simp [Pool.free, Telemetry.FromHeap]
  · cases p <;> simp [Pool.minFree, Telemetry.FromHeap]

/-- **What is served is consistent.** -/
theorem Inv.consistent (h : Inv regions s) {srv : Server} (hsrv : s.boot.server = .serving srv)
    (hpc : srv.pc = .serve) : Consistent srv.nodes s.boot.appends := by
  have hpool : ∀ p : Pool, (srv.nodes p.minFree.node).AtMost (srv.nodes p.free.node) := by
    intro p
    obtain ⟨hfree, hmin⟩ := h.nodes_serve hsrv hpc p
    have hsound := h.sound p
    rw [sampler_past hsrv (by simp [hpc])] at hsound
    rw [hfree, hmin]
    exact ⟨_, _, rfl, rfl, hsound.2⟩
  obtain ⟨c, hc, hle, _⟩ := h.counted.node_le hsrv
  exact ⟨hpool .internal, hpool .psram, c, hc, hle⟩

/-- If the step serves clients, each of them finds consistent nodes, whatever part of the batch has been
    served before. -/
def ServesConsistent (s : System ι) (e : Event ι) : Prop :=
  ∀ srv batch, s.boot.server = .serving srv → srv.pc = .serve → e = .task (.server (.serve batch)) →
    ∀ served, served <+: batch → Consistent (runIterate srv.nodes served).1 s.boot.appends

theorem Inv.servesConsistent (h : Inv regions s) (e : Event ι) : ServesConsistent s e := by
  rintro srv batch hsrv hpc - served -
  apply (h.consistent hsrv hpc).congr
  intro t
  exact runIterate_frame srv.nodes served (t.node_ne_writable)

/-! ## Successive reads -/

/-- What the reads of a node return in a step. -/
def readsOf (name : Node) : Event ι → List Response → List DataValue
  | .task (.server (.serve batch)), out => readValues name batch out
  | _, _ => []

/-- A step that lets a client read a telemetry node is a `UA_Server_run_iterate`, and the client reads what
    the node holds, before and after. -/
theorem mem_readsOf [DecidableEq ι] (hs : step lib regions s e = some (s', out)) {t : Telemetry}
    {dv : DataValue} (h : dv ∈ readsOf t.node e out) :
    ∃ srv srv', s.boot.server = .serving srv ∧ srv.pc = .serve ∧ s'.boot.server = .serving srv' ∧
      dv = srv.nodes t.node ∧ srv'.nodes t.node = srv.nodes t.node := by
  cases stepped_of_step hs with
  | task e hne hb =>
      cases Boot.stepped_of_step hb with
      | @server e srv srv' _ hserver hloop =>
          cases e with
          | serve batch =>
              cases OpcUa.stepped_of_step hloop with
              | serve _ hpc =>
                  refine ⟨srv, _, hserver, hpc, rfl, mem_readValues t.node_ne_writable h, ?_⟩
                  exact runIterate_frame srv.nodes batch t.node_ne_writable
          | _ => cases h
      | _ => cases h
  | _ => cases h

/-- What has been read of a low-water mark is at least the level of its pool. -/
def AboveLevel (regions : Pool → List ι) (p : Pool) (s : System ι) (dv : DataValue) : Prop :=
  ∃ x, dv.int32? = some x ∧ level (regions p) s.heap (s.sampler p) ≤ x.toInt

/-- The low-water mark that clients read is the level. -/
theorem Inv.read_minFree [DecidableEq ι] (h : Inv regions s) (hs : step lib regions s e = some (s', out))
    {p : Pool} {dv : DataValue} (hdv : dv ∈ readsOf p.minFree.node e out) :
    ∃ x, dv.int32? = some x ∧ x.toInt = level (regions p) s.heap (s.sampler p) := by
  obtain ⟨srv, _, hsrv, hpc, _, rfl, _⟩ := mem_readsOf hs hdv
  rw [(h.nodes_serve hsrv hpc p).2, sampler_past hsrv (by simp [hpc])]
  exact ⟨_, rfl, rfl⟩

/-- A step whose reads return the level, which never rises. -/
theorem follows_minFree [DecidableEq ι] (h : Inv regions s) (hfits : TotalFits s e)
    (hs : step lib regions s e = some (s', out)) (p : Pool) :
    Follows (AboveLevel regions p) (fun a b => b.AtMost a) s s' (readsOf p.minFree.node e out) := by
  have hlevel : level (regions p) s'.heap (s'.sampler p) ≤ level (regions p) s.heap (s.sampler p) :=
    (evolves_of_step h.rested hfits hs p).level_le (h.sound p)
  constructor
  · rintro b ⟨x, hx, hle⟩
    exact ⟨x, hx, Int.le_trans hlevel hle⟩
  · intro b hb
    obtain ⟨x, hx, heq⟩ := h.read_minFree hs hb
    exact ⟨x, hx, heq ▸ hlevel⟩
  · rintro a ⟨x, hx, hle⟩ b hb
    obtain ⟨y, hy, heq⟩ := h.read_minFree hs hb
    exact ⟨y, x, hy, hx, heq ▸ hle⟩
  · apply List.pairwise_of_forall_mem_list
    intro a ha b hb
    obtain ⟨x, hx, heq⟩ := h.read_minFree hs ha
    obtain ⟨y, hy, heq'⟩ := h.read_minFree hs hb
    exact ⟨y, x, hy, hx, Int.le_of_eq (heq'.trans heq.symm)⟩

/-- What has been read of the count is at most what its node holds. -/
def BelowCount (s : System ι) (dv : DataValue) : Prop :=
  ∃ srv, s.boot.server = .serving srv ∧ dv.AtMost (srv.nodes .sdAppendCount)

/-- The node of the count never goes down. -/
theorem Inv.node_mono [DecidableEq ι] (h : Inv regions s) (hs : step lib regions s e = some (s', out))
    {srv : Server} (hsrv : s.boot.server = .serving srv) :
    ∃ srv', s'.boot.server = .serving srv' ∧
      (srv.nodes .sdAppendCount).AtMost (srv'.nodes .sdAppendCount) := by
  rcases boot_of_step hs with ⟨hboot, _⟩ | ⟨e', hb, _⟩
  · obtain ⟨c, hc, _⟩ := h.counted.node_le hsrv
    rw [hboot]
    exact ⟨srv, hsrv, c, c, hc, hc, Int.le_refl _⟩
  · exact h.counted.node_mono hb hsrv

theorem follows_count [DecidableEq ι] (h : Inv regions s) (hs : step lib regions s e = some (s', out)) :
    Follows BelowCount DataValue.AtMost s s' (readsOf .sdAppendCount e out) := by
  have hread : ∀ dv ∈ readsOf .sdAppendCount e out, ∃ srv srv', s.boot.server = .serving srv ∧
      s'.boot.server = .serving srv' ∧ dv = srv.nodes .sdAppendCount ∧
      dv.AtMost (srv'.nodes .sdAppendCount) := by
    intro dv hdv
    obtain ⟨srv, _, hsrv, _, _, rfl, _⟩ := mem_readsOf (t := .sdAppendCount) hs hdv
    obtain ⟨srv', hsrv', hle⟩ := h.node_mono hs hsrv
    exact ⟨srv, srv', hsrv, hsrv', rfl, hle⟩
  constructor
  · rintro b ⟨srv, hsrv, hle⟩
    obtain ⟨srv', hsrv', hle'⟩ := h.node_mono hs hsrv
    exact ⟨srv', hsrv', hle.trans hle'⟩
  · intro b hb
    obtain ⟨_, srv', _, hsrv', _, hle⟩ := hread b hb
    exact ⟨srv', hsrv', hle⟩
  · rintro a ⟨srv, hsrv, hle⟩ b hb
    obtain ⟨srv₁, _, hsrv₁, _, rfl, _⟩ := hread b hb
    rw [hsrv] at hsrv₁
    cases hsrv₁
    exact hle
  · apply List.pairwise_of_forall_mem_list
    intro a ha b hb
    obtain ⟨srv, _, hsrv, _, rfl, hle⟩ := hread a ha
    obtain ⟨srv₁, _, hsrv₁, _, rfl, _⟩ := hread b hb
    rw [hsrv] at hsrv₁
    cases hsrv₁
    exact hle.refl_left

/-! ## Whole runs -/

/-- **Published telemetry is consistent.** Let the regions of both pools be any lists, the heap be in any
    state, and other tasks allocate, free and append at any moment, also inside the four calls of
    `update_heap_status`. In every run whose node writes succeed and whose totals fit in an `int32_t`, every
    client finds each low-water mark at most the free bytes and the count at most the number of completed
    appends; and over successive reads the low-water marks never go up and the count never goes down. -/
theorem telemetry_consistent [DecidableEq ι] {heap : ι → Gauge} {es : List (Event ι)}
    {os : List (List Response)} {t : System ι}
    (hrun : run (step lib regions) (init regions heap) es = some (t, os)) (hw : ∀ e ∈ es, e.WritesSucceed)
    (hfits : Along (step lib regions) (init regions heap) es (fun _ _ s e => TotalFits s e)) :
    Along (step lib regions) (init regions heap) es (fun _ _ s e => ServesConsistent s e) ∧
      (emitted (readsOf .internalHeapMinFree) es os).Pairwise (fun a b => b.AtMost a) ∧
      (emitted (readsOf .psramMinFree) es os).Pairwise (fun a b => b.AtMost a) ∧
      (emitted (readsOf .sdAppendCount) es os).Pairwise DataValue.AtMost := by
  have hinit : Inv regions (init regions heap) := inv_init regions heap
  have hguard := (along_of_forall hw).and hfits
  have hmin : ∀ p : Pool, (emitted (readsOf p.minFree.node) es os).Pairwise (fun a b => b.AtMost a) := by
    intro p
    apply emitted_pairwise (I := Inv regions) (R := AboveLevel regions p) hinit _ hguard hrun
    intro _ _ m e m' o h hg hs
    exact ⟨inv_step h hg.1 hg.2 hs, follows_minFree h hg.2 hs p⟩
  refine ⟨?_, hmin .internal, hmin .psram, ?_⟩
  · refine along_of_guarded (I := fun _ _ s => Inv regions s) hinit ?_ ?_ hguard
    · intro _ _ m e m' o h hg hs
      exact inv_step h hg.1 hg.2 hs
    · intro _ _ m e h
      exact h.servesConsistent e
  · apply emitted_pairwise (I := Inv regions) (R := BelowCount) hinit _ hguard hrun
    intro _ _ m e m' o h hg hs
    exact ⟨inv_step h hg.1 hg.2 hs, follows_count h hs⟩

/-! ## A sample run -/

/-- Two internal regions and one of PSRAM. -/
def sampleRegions : Pool → List Nat
  | .internal => [0, 1]
  | .psram => [2]

/-- Everything is free. -/
def sampleHeap : Nat → Gauge := fun _ => ⟨100, 100, Nat.le_refl _⟩

/-- A client that reads the telemetry. -/
def readAll : List Request :=
  [.read .internalHeapFree, .read .internalHeapMinFree, .read .psramFree, .read .psramMinFree,
    .read .sdAppendCount]

/-- The rest of an iteration after `update_heap_status`. -/
def sampleServing : List OpcUa.Event :=
  List.replicate 6 (.publish .init good) ++ [.command (fun _ => good), .serve readAll]

/-- One iteration; between the visits of the two internal regions a task allocates in the first one, and then
    frees part of that again. -/
def sampleIteration (free : Nat) : List (Event Nat) :=
  .sample :: .alloc 0 free :: .alloc 0 90 :: List.replicate 9 .sample ++
    sampleServing.map (fun e => .task (.server e))

/-- The server comes up and goes through two iterations. -/
def sampleRun : List (Event Nat) :=
  [.task .gotIp, .task .addNode, .task .addNode] ++ sampleIteration 40 ++ sampleIteration 30

theorem writesSucceed_sampleIteration (free : Nat) : ∀ e ∈ sampleIteration free, e.WritesSucceed := by
  intro e he
  rcases List.mem_append.mp he with h | h
  · simp only [List.replicate, List.mem_cons, List.not_mem_nil, or_false, or_self] at h
    rcases h with rfl | rfl | rfl | rfl <;> exact trivial
  · obtain ⟨e', he', rfl⟩ := List.mem_map.mp h
    simp only [sampleServing, List.replicate, List.cons_append, List.nil_append, List.mem_cons,
      List.not_mem_nil, or_false, or_self_left] at he'
    rcases he' with rfl | rfl | rfl
    · exact rfl
    · exact fun _ => rfl
    · exact trivial

theorem writesSucceed_sampleRun : ∀ e ∈ sampleRun, e.WritesSucceed := by
  intro e he
  rcases List.mem_append.mp he with h | h
  · rcases List.mem_append.mp h with h | h
    · simp only [List.mem_cons, List.not_mem_nil, or_false, or_self] at h
      rcases h with rfl | rfl <;> exact trivial
    · exact writesSucceed_sampleIteration 40 e h
  · exact writesSucceed_sampleIteration 30 e h

/-- What clients read in the sample run fits together. -/
theorem telemetry_consistent_sample :
    ∃ t os, run (step .reference sampleRegions) (init sampleRegions sampleHeap) sampleRun = some (t, os) ∧
      Along (step .reference sampleRegions) (init sampleRegions sampleHeap) sampleRun
        (fun _ _ s e => ServesConsistent s e) ∧
      (emitted (readsOf .internalHeapMinFree) sampleRun os).Pairwise (fun a b => b.AtMost a) ∧
      (emitted (readsOf .psramMinFree) sampleRun os).Pairwise (fun a b => b.AtMost a) ∧
      (emitted (readsOf .sdAppendCount) sampleRun os).Pairwise DataValue.AtMost := by
  obtain ⟨t, os, hrun, _⟩ := run_of_check (step .reference sampleRegions) (init sampleRegions sampleHeap)
    sampleRun (p := fun _ => True) (by decide +kernel)
  have hcheck : checkAlong (step .reference sampleRegions) (fun s e => decide (TotalFits s e))
      (init sampleRegions sampleHeap) sampleRun = true := by decide +kernel
  exact ⟨t, os, hrun, telemetry_consistent hrun writesSucceed_sampleRun (along_of_check hcheck)⟩

/-- The low-water marks that are read in it: of 200 bytes, 60 and later 70 have been in use. -/
example : (run (step .reference sampleRegions) (init sampleRegions sampleHeap) sampleRun).map
    (fun r => emitted (readsOf .internalHeapMinFree) sampleRun r.2) = some [.written 140, .written 130] := by
  decide +kernel

end HeapSampling

end OpcUa
end Esp32Probes
