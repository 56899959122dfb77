import Esp32Probes.Lib.LowWater
import Esp32Probes.OpcUa.BootTasks

/-!
# `OpcUa.HeapSampling` — update_heap_status while other tasks allocate and free

The loop of the server task took its heap readings from an event. Here they are computed: each of the four
calls of `update_heap_status` visits the regions of its pool one by one and adds up what is free now, or the
low-water marks, and between any two visits a task may change what is free in a region. A region is a gauge
of `Lib.LowWater`; the regions of a pool are a fixed list. Everything else is the machine of
`OpcUa.BootTasks`.

Two theorems connect the machine to others: `boot_run` forgets the visits and finds a run of the tasks, and
`evolves_of_step` finds in each pool, as the server task sees it, a sampler over its regions.
-/

namespace Esp32Probes
namespace OpcUa
namespace HeapSampling

open Machine LowWater

/-! ## The calls -/

/-- `MALLOC_CAP_INTERNAL` and `MALLOC_CAP_SPIRAM`. -/
inductive Pool
  | internal
  | psram
  deriving DecidableEq

/-- The calls of `update_heap_status`, in order. -/
inductive Call
  | internalFree
  | internalMinFree
  | psramFree
  | psramMinFree
  deriving DecidableEq

/-- The pool that a call measures. -/
def Call.pool : Call → Pool
  | .internalFree => .internal
  | .internalMinFree => .internal
  | .psramFree => .psram
  | .psramMinFree => .psram

/-- What a visit adds: in `heap_caps_get_free_size` what is free, in `heap_caps_get_minimum_free_size` the
    low-water mark. -/
def Call.found : Call → Gauge → Nat
  | .internalFree => Gauge.value
  | .internalMinFree => Gauge.low
  | .psramFree => Gauge.value
  | .psramMinFree => Gauge.low

/-- The next call of `update_heap_status`. -/
def Call.next : Call → Option Call
  | .internalFree => some .internalMinFree
  | .internalMinFree => some .psramFree
  | .psramFree => some .psramMinFree
  | .psramMinFree => none

/-- Keep what the call returns. -/
def Call.store (h : HeapReading) (ret : UInt32) : Call → HeapReading
  | .internalFree => { h with internalFree := ret }
  | .internalMinFree => { h with internalMinFree := ret }
  | .psramFree => { h with psramFree := ret }
  | .psramMinFree => { h with psramMinFree := ret }

/-! ## The machine -/

variable {ι : Type*}

/-- Where `update_heap_status` stands, or will start: the call it is in, how far that call has come, and what
    the calls before it returned. The variables they are assigned to are read by this task only, so the four
    assignments are made together when the last call returns. -/
structure Sampling (ι : Type*) where
  call    : Call
  scan    : Scan ι
  reading : HeapReading

/-- The first call, before its first region. -/
def Sampling.start (regions : Pool → List ι) : Sampling ι :=
  ⟨.internalFree, .start (regions .internal), ⟨0, 0, 0, 0⟩⟩

/-- The tasks, and the heap regions with their free bytes. -/
structure System (ι : Type*) where
  boot     : Boot.System
  heap     : ι → Gauge
  sampling : Sampling ι

/-- After `esp_eth_start`, with the heap in any state. -/
def init (regions : Pool → List ι) (heap : ι → Gauge) : System ι := ⟨Boot.init, heap, .start regions⟩

/-- A step of the tasks outside `update_heap_status`, a task that allocates or frees, or what
    `update_heap_status` does next. -/
inductive Event (ι : Type*)
  | task (e : Boot.Event)
  | alloc (region : ι) (free : Nat)
  | sample

/-- What the calls have returned once the present one has; a `size_t` has 32 bits. -/
def Sampling.returned (sm : Sampling ι) : HeapReading := sm.call.store sm.reading (UInt32.ofNat sm.scan.total)

/-- One step. While `update_heap_status` runs, a `sample` visits the next region, or returns from the call
    when there is none left. -/
def step [DecidableEq ι] (lib : Open62541) (regions : Pool → List ι) (s : System ι) :
    Event ι → Option (System ι × List Response)
  -- a heap reading does not come from outside any more
  | .task (.server (.heap _)) => none
  | .task e =>
    match Boot.step lib s.boot e with
    | none => none
    | some (boot, out) => some ({ s with boot := boot }, out)
  | .alloc region free =>
    some ({ s with heap := Function.update s.heap region ((s.heap region).set free) }, [])
  | .sample =>
    match s.boot.server with
    | .serving srv =>
      if srv.pc ≠ .heap then none
      else match s.sampling.scan.todo with
      | region :: todo =>
        let total := s.sampling.scan.total + s.sampling.call.found (s.heap region)
        some ({ s with sampling := { s.sampling with scan := ⟨total, todo⟩ } }, [])
      | [] =>
        match s.sampling.call.next with
        | some call =>
          some ({ s with sampling := ⟨call, .start (regions call.pool), s.sampling.returned⟩ }, [])
        | none =>
          match Boot.step lib s.boot (.server (.heap s.sampling.returned)) with
          | none => none
          | some (boot, out) => some ({ s with boot := boot, sampling := .start regions }, out)
    | _ => none

/-- All node writes of the step succeed. -/
def Event.WritesSucceed : Event ι → Prop
  | .task (.server e) => e.WritesSucceed
  | _ => True

/-- If a call returns in this step, its total is below 2^31. -/
def TotalFits (s : System ι) : Event ι → Prop
  | .sample => s.sampling.scan.todo = [] → s.sampling.scan.total < 2 ^ 31
  | _ => True

instance (s : System ι) (e : Event ι) : Decidable (TotalFits s e) := by
  unfold TotalFits
  split <;> infer_instance

/-- The steps, one constructor a branch of the machine. -/
inductive Stepped [DecidableEq ι] (lib : Open62541) (regions : Pool → List ι) (s : System ι) :
    Event ι → System ι → List Response → Prop
  | task (e : Boot.Event) {boot : Boot.System} {out : List Response}
      (hne : ∀ reading, e ≠ .server (.heap reading)) (hs : Boot.step lib s.boot e = some (boot, out)) :
      Stepped lib regions s (.task e) { s with boot := boot } out
  | alloc (region : ι) (free : Nat) : Stepped lib regions s (.alloc region free)
      { s with heap := Function.update s.heap region ((s.heap region).set free) } []
  | visit {srv : Server} (hsrv : s.boot.server = .serving srv) (hpc : srv.pc = .heap) {region : ι}
      {todo : List ι} (htodo : s.sampling.scan.todo = region :: todo) : Stepped lib regions s .sample
        { s with sampling := { s.sampling with
          scan := ⟨s.sampling.scan.total + s.sampling.call.found (s.heap region), todo⟩ } } []
  | next {srv : Server} (hsrv : s.boot.server = .serving srv) (hpc : srv.pc = .heap)
      (htodo : s.sampling.scan.todo = []) {call : Call} (hcall : s.sampling.call.next = some call) :
      Stepped lib regions s .sample
        { s with sampling := ⟨call, .start (regions call.pool), s.sampling.returned⟩ } []
  | last {srv : Server} (hsrv : s.boot.server = .serving srv) (hpc : srv.pc = .heap)
      (htodo : s.sampling.scan.todo = []) (hcall : s.sampling.call = .psramMinFree) :
      Stepped lib regions s .sample
        { s with
          boot := { s.boot with
            server := .serving ⟨.publish .sdStatus, updateHeapStatus srv.globals s.sampling.returned,
              srv.nodes⟩ }
          sampling := .start regions } []

theorem Call.eq_of_next_eq_none {c : Call} (h : c.next = none) : c = .psramMinFree := by
  cases c with
  | psramMinFree => rfl
  | _ => cases h

theorem stepped_of_step [DecidableEq ι] {lib : Open62541} {regions : Pool → List ι} {s s' : System ι}
    {e : Event ι} {out : List Response} (h : step lib regions s e = some (s', out)) :
    Stepped lib regions s e s' out := by
  cases e with
  | alloc region free => cases h; exact .alloc region free
  | task e =>
      -- only `update_heap_status` itself brings a heap reading
      have hne : ∀ reading, e ≠ .server (.heap reading) := by
        rintro reading rfl
        cases h
      have hstep : step lib regions s (.task e)
          = (match Boot.step lib s.boot e with
              | none => none
              | some (boot, out) => some ({ s with boot := boot }, out)) := by
        unfold step
        split
        · next reading heq =>
          cases heq
          exact absurd rfl (hne reading)
        · next heq => cases heq; rfl
        · next heq => cases heq
        · next heq => cases heq
      rw [hstep] at h
      cases hb : Boot.step lib s.boot e with
      | none => rw [hb] at h; cases h
      | some r => rw [hb] at h; cases h; exact .task e hne hb
  | sample =>
      simp only [step] at h
      cases hsrv : s.boot.server with
      | serving srv =>
          rw [hsrv] at h
          simp only [ne_eq, ite_not] at h
          split at h
          · next hpc =>
            cases htodo : s.sampling.scan.todo with
            | cons region todo =>
                rw [htodo] at h
                cases h
                exact .visit hsrv hpc htodo
            | nil =>
                rw [htodo] at h
                cases hcall : s.sampling.call.next with
                | some call =>
                    rw [hcall] at h
                    cases h
                    exact .next hsrv hpc htodo hcall
                | none =>
                    rw [hcall] at h
                    simp only [Boot.step, hsrv, Boot.withSd, OpcUa.step, hpc] at h
                    cases h
                    exact .last hsrv hpc htodo (Call.eq_of_next_eq_none hcall)
          · cases h
      | _ => rw [hsrv] at h; cases h

/-! ## The tasks alone -/

section Tasks

variable [DecidableEq ι] {lib : Open62541} {regions : Pool → List ι} {s s' : System ι} {e : Event ι}
  {out : List Response}

/-- A step is one of the three tasks, or they do not move and nothing is answered. -/
theorem boot_of_step (h : step lib regions s e = some (s', out)) :
    (s'.boot = s.boot ∧ out = []) ∨
      ∃ e', Boot.step lib s.boot e' = some (s'.boot, out) ∧
        (e.WritesSucceed → ∀ e'', e' = .server e'' → e''.WritesSucceed) := by
  cases stepped_of_step h with
  | task e' hne hb =>
      refine Or.inr ⟨e', hb, ?_⟩
      rintro hw e'' rfl
      exact hw
  | alloc region free => exact Or.inl ⟨rfl, rfl⟩
  | visit hsrv hpc htodo => exact Or.inl ⟨rfl, rfl⟩
  | next hsrv hpc htodo hcall => exact Or.inl ⟨rfl, rfl⟩
  | last hsrv hpc htodo hcall =>
      -- the four calls together are the statement that brought a reading from outside
      refine Or.inr ⟨.server (.heap s.sampling.returned), ?_, ?_⟩
      · simp only [Boot.step, hsrv, Boot.withSd, OpcUa.step, hpc]
      · rintro _ _ ⟨⟩
        exact trivial

/-- **The heap readings are some readings.** With the calls of `update_heap_status` taken together, every
    run is one of the three tasks with the same responses. -/
theorem boot_run {heap : ι → Gauge} {es : List (Event ι)} {os : List (List Response)} {t : System ι}
    (hrun : run (step lib regions) (init regions heap) es = some (t, os)) :
    ∃ es' os', run (Boot.step lib) Boot.init es' = some (t.boot, os') ∧ os'.flatten = os.flatten := by
  apply run_invariant (I := fun _ os t => ∃ es' os', run (Boot.step lib) Boot.init es' = some (t.boot, os') ∧
    os'.flatten = os.flatten) _ _ hrun
  · exact ⟨[], [], rfl, rfl⟩
  · rintro pre os m e m' out ⟨es', os', hrun', hos⟩ hs
    rcases boot_of_step hs with ⟨hboot, rfl⟩ | ⟨e', hb, _⟩
    · exact ⟨es', os', by rw [hboot]; exact hrun', by simp [hos]⟩
    · exact ⟨es' ++ [e'], os' ++ [out], run_snoc_iff.mpr ⟨_, _, _, hrun', hb, rfl⟩, by simp [hos]⟩

end Tasks

/-! ## A pool as a sampler -/

/-- A reading after its cast to `int32_t`. -/
def shown (x : UInt32) : Int := x.toInt32.toInt

/-- A reading below 2^31 survives the cast. -/
theorem shown_ofNat {n : Nat} (h : n < 2 ^ 31) : shown (UInt32.ofNat n) = n := by
  unfold shown
  rw [UInt32.toInt32_ofNat', Int32.toInt_ofNat_of_lt h]

/-- The reading of what is free. -/
def heapFree (g : Globals) : Pool → Int32
  | .internal => g.internalHeapFree
  | .psram => g.psramFree

/-- The reading of the low-water mark. -/
def heapMinFree (g : Globals) : Pool → Int32
  | .internal => g.internalHeapMinFree
  | .psram => g.psramMinFree

/-- The two values published of a pool. -/
def Pool.free : Pool → Telemetry
  | .internal => .internalHeapFree
  | .psram => .psramFree

/-- The published low-water mark of a pool. -/
def Pool.minFree : Pool → Telemetry
  | .internal => .internalHeapMinFree
  | .psram => .psramMinFree

theorem value_free (sd : SdGlobals) (g : Globals) (p : Pool) : p.free.value sd g = heapFree g p := by
  cases p <;> rfl

theorem value_minFree (sd : SdGlobals) (g : Globals) (p : Pool) : p.minFree.value sd g = heapMinFree g p := by
  cases p <;> rfl

/-- How far `update_heap_status` has come with a pool. -/
def Sampling.sampler (sm : Sampling ι) (p : Pool) : Sampler ι :=
  match p, sm.call with
  | .internal, .internalFree => .values sm.scan
  | .internal, .internalMinFree => .marks (shown sm.reading.internalFree) sm.scan
  | .internal, _ => .sampled (shown sm.reading.internalFree) (shown sm.reading.internalMinFree)
  | .psram, .psramFree => .values sm.scan
  | .psram, .psramMinFree => .marks (shown sm.reading.psramFree) sm.scan
  | .psram, _ => .waiting

/-- The pool in a state of the system: outside `update_heap_status` the variables hold its last sample. -/
def System.sampler (s : System ι) (p : Pool) : Sampler ι :=
  match s.boot.server with
  | .serving srv =>
    if srv.pc = .heap then s.sampling.sampler p
    else .sampled (heapFree srv.globals p).toInt (heapMinFree srv.globals p).toInt
  | _ => s.sampling.sampler p

/-- Outside `update_heap_status` its next run is prepared. -/
def Rested (regions : Pool → List ι) (s : System ι) : Prop :=
  ∀ srv, s.boot.server = .serving srv → srv.pc ≠ .heap → s.sampling = .start regions

variable {s s' : System ι} {regions : Pool → List ι} {lib : Open62541}

theorem sampler_heap {srv : Server} (hsrv : s.boot.server = .serving srv) (hpc : srv.pc = .heap) (p : Pool) :
    s.sampler p = s.sampling.sampler p := by
  unfold System.sampler
  rw [hsrv]
  exact if_pos hpc

theorem sampler_within {srv : Server} (hsrv : s.boot.server = .serving srv) (hpc : srv.pc = .heap)
    (sm : Sampling ι) (p : Pool) : System.sampler { s with sampling := sm } p = sm.sampler p :=
  sampler_heap (s := { s with sampling := sm }) hsrv hpc p

/-- After `update_heap_status` the sample of a pool is what the globals hold. -/
theorem sampler_past {srv : Server} (hsrv : s.boot.server = .serving srv) (hpc : srv.pc ≠ .heap) (p : Pool) :
    s.sampler p = .sampled (heapFree srv.globals p).toInt (heapMinFree srv.globals p).toInt := by
  unfold System.sampler
  rw [hsrv]
  exact if_neg hpc

theorem sampler_idle (hsrv : ∀ srv, s.boot.server ≠ .serving srv) (p : Pool) :
    s.sampler p = s.sampling.sampler p := by
  unfold System.sampler
  split
  · next srv h => exact absurd h (hsrv srv)
  · rfl

/-- A visit is one of the pool it is in; the other pool does not move. -/
theorem moves_visit (b : ι → Gauge) (is : List ι) {sm : Sampling ι} {region : ι} {todo : List ι}
    (htodo : sm.scan.todo = region :: todo) (p : Pool) :
    Moves b is (sm.sampler p)
      (Sampling.sampler { sm with scan := ⟨sm.scan.total + sm.call.found (b region), todo⟩ } p) := by
  obtain ⟨call, ⟨total, todo'⟩, reading⟩ := sm
  obtain rfl : todo' = region :: todo := htodo
  cases p with
  | internal =>
      cases call with
      | internalFree => exact .visitValue total region todo
      | internalMinFree => exact .visitMark _ total region todo
      | _ => exact .stay _
  | psram =>
      cases call with
      | psramFree => exact .visitValue total region todo
      | psramMinFree => exact .visitMark _ total region todo
      | _ => exact .stay _

/-- A call that returns turns its pool to the low marks, or completes its sample. -/
theorem moves_next (b : ι → Gauge) {sm : Sampling ι} (htodo : sm.scan.todo = [])
    (hfits : sm.scan.total < 2 ^ 31) {call : Call} (hcall : sm.call.next = some call) (p : Pool) :
    Moves b (regions p) (sm.sampler p)
      (Sampling.sampler ⟨call, .start (regions call.pool), sm.returned⟩ p) := by
  obtain ⟨call', ⟨total, todo⟩, reading⟩ := sm
  obtain rfl : todo = [] := htodo
  have hshown : shown (UInt32.ofNat total) = total := shown_ofNat hfits
  cases call' with
  | internalFree =>
      cases hcall
      cases p with
      | internal =>
          show Moves b _ (.values ⟨total, []⟩) (.marks (shown (UInt32.ofNat total)) _)
          rw [hshown]
          exact .turn total
      | psram => exact .stay _
  | internalMinFree =>
      cases hcall
      cases p with
      | internal =>
          show Moves b _ (.marks _ ⟨total, []⟩) (.sampled _ (shown (UInt32.ofNat total)))
          rw [hshown]
          exact .finish _ total
      | psram => exact .begin
  | psramFree =>
      cases hcall
      cases p with
      | internal => exact .stay _
      | psram =>
          show Moves b _ (.values ⟨total, []⟩) (.marks (shown (UInt32.ofNat total)) _)
          rw [hshown]
          exact .turn total
  | psramMinFree => cases hcall

/-- When the last call returns, the variables hold a sample of either pool. -/
theorem moves_last (b : ι → Gauge) (is : List ι) {sm : Sampling ι} (htodo : sm.scan.todo = [])
    (hfits : sm.scan.total < 2 ^ 31) (hcall : sm.call = .psramMinFree) (g : Globals) (p : Pool) :
    Moves b is (sm.sampler p) (.sampled (heapFree (updateHeapStatus g sm.returned) p).toInt
      (heapMinFree (updateHeapStatus g sm.returned) p).toInt) := by
  obtain ⟨call, ⟨total, todo⟩, reading⟩ := sm
  obtain rfl : todo = [] := htodo
  obtain rfl : call = .psramMinFree := hcall
  cases p with
  | internal => exact .stay _
  | psram =>
      show Moves b is (.marks _ ⟨total, []⟩) (.sampled _ (shown (UInt32.ofNat total)))
      rw [shown_ofNat hfits]
      exact .finish _ total

/-! ## The steps of a pool -/

/-- What a step outside `update_heap_status` does to the server task: nothing, a step of its start, or a
    statement of the loop, which either ends the iteration or leaves the heap variables alone. -/
inductive Shift : Boot.ServerPhase → Boot.ServerPhase → Prop
  | same (phase : Boot.ServerPhase) : Shift phase phase
  | starting {phase phase' : Boot.ServerPhase} (h : ∀ srv, phase ≠ .serving srv)
      (h' : ∀ srv, phase' = .serving srv → srv.pc = .heap) : Shift phase phase'
  | loop {srv srv' : Server} (hpc : srv.pc ≠ .heap) (h : srv'.pc = .heap ∨
      srv'.pc ≠ .heap ∧ heapFree srv'.globals = heapFree srv.globals ∧
        heapMinFree srv'.globals = heapMinFree srv.globals) : Shift (.serving srv) (.serving srv')

/-- A poll leaves the heap variables alone. -/
theorem heap_processCommandNodes (g : Globals) (nodes : Nodes) (ret : Node → StatusCode) :
    heapFree (processCommandNodes lib g nodes ret).1 = heapFree g ∧
      heapMinFree (processCommandNodes lib g nodes ret).1 = heapMinFree g := by
  constructor
  · funext p
    rw [← value_free .init, ← value_free .init, Telemetry.value_processCommandNodes]
  · funext p
    rw [← value_minFree .init, ← value_minFree .init, Telemetry.value_processCommandNodes]

theorem shift_loop {srv srv' : Server} {sd : SdGlobals} {e : OpcUa.Event} {out : List Response}
    (hne : ∀ reading, e ≠ .heap reading) (hs : OpcUa.step lib srv (Boot.withSd sd e) = some (srv', out)) :
    Shift (.serving srv) (.serving srv') := by
  cases e with
  | heap reading => exact absurd rfl (hne reading)
  | publish sd' ret =>
      cases OpcUa.stepped_of_step hs with
      | publish t _ _ hpc =>
          apply Shift.loop
          · simp [hpc]
          · refine Or.inr ⟨?_, rfl, rfl⟩
            cases t <;> simp [Telemetry.next]
  | command ret =>
      cases OpcUa.stepped_of_step hs with
      | command _ hpc =>
          apply Shift.loop
          · simp [hpc]
          · exact Or.inr ⟨by simp, heap_processCommandNodes srv.globals srv.nodes ret⟩
  | serve batch =>
      cases OpcUa.stepped_of_step hs with
      | serve _ hpc =>
          apply Shift.loop
          · simp [hpc]
          · exact Or.inl rfl

theorem shift_of_step {s s' : Boot.System} {e : Boot.Event} {out : List Response}
    (hne : ∀ reading, e ≠ .server (.heap reading)) (hs : Boot.step lib s e = some (s', out)) :
    Shift s.server s'.server := by
  cases Boot.serverStep_of_step hs with
  | same hsame =>
      rw [hsame]
      exact .same _
  | starting hidle hnot => exact .starting hidle (fun srv hsrv => absurd hsrv (hnot srv))
  | enter status hidle hserving =>
      apply Shift.starting hidle
      intro srv hsrv
      rw [hserving] at hsrv
      cases hsrv
      rfl
  | loop e' he hserver hloop hserving =>
      rw [hserver, hserving]
      apply shift_loop _ hloop
      rintro reading rfl
      exact hne reading he

/-- Outside `update_heap_status` a pool keeps its sample, until the iteration ends and the next one is
    begun. -/
theorem Shift.moves {boot : Boot.System} (h : Shift s.boot.server boot.server) (hrest : Rested regions s)
    (b : ι → Gauge) (p : Pool) :
    Moves b (regions p) (s.sampler p) (System.sampler { s with boot := boot } p) := by
  generalize hphase : s.boot.server = phase at h
  generalize hphase' : boot.server = phase' at h
  cases h with
  | same =>
      have hsame : System.sampler { s with boot := boot } p = s.sampler p := by
        unfold System.sampler
        rw [hphase, hphase']
      rw [hsame]
      exact .stay _
  | starting hidle hheap =>
      have hafter : System.sampler { s with boot := boot } p = s.sampling.sampler p := by
        unfold System.sampler
        split
        · next srv hsrv => exact if_pos (hheap srv (hphase'.symm.trans hsrv))
        · rfl
      rw [hafter, sampler_idle (fun srv hsrv => hidle srv (hphase.symm.trans hsrv))]
      exact .stay _
  | @loop srv srv' hpc hloop =>
      rw [sampler_past hphase hpc]
      rcases hloop with hpc' | ⟨hpc', hfree, hmin⟩
      · -- the iteration ends; what is sampled next begins with the internal pool
        rw [sampler_heap hphase' hpc']
        show Moves b (regions p) _ (s.sampling.sampler p)
        rw [hrest srv hphase hpc]
        cases p with
        | internal => exact .restart _ _
        | psram => exact .rest _ _
      · rw [sampler_past hphase' hpc', hfree, hmin]
        exact .stay _

theorem Shift.rested {boot : Boot.System} (h : Shift s.boot.server boot.server) (hrest : Rested regions s) :
    Rested regions { s with boot := boot } := by
  intro srv₁ (hsrv₁ : boot.server = .serving srv₁) hpc₁
  show s.sampling = .start regions
  generalize hphase : s.boot.server = phase at h
  rw [hsrv₁] at h
  cases h with
  | same => exact hrest srv₁ hphase hpc₁
  | starting hidle hheap => exact absurd (hheap srv₁ rfl) hpc₁
  | @loop srv _ hpc hloop => exact hrest srv hphase hpc

theorem rested_init (regions : Pool → List ι) (heap : ι → Gauge) : Rested regions (init regions heap) := by
  intro srv hsrv
  cases hsrv

variable [DecidableEq ι] {e : Event ι} {out : List Response}

/-- **One step** keeps the next run of `update_heap_status` prepared. -/
theorem rested_step (h : Rested regions s) (hs : step lib regions s e = some (s', out)) :
    Rested regions s' := by
  cases stepped_of_step hs with
  | task e hne hb => exact (shift_of_step hne hb).rested h
  | alloc region free => exact h
  | visit hsrv hpc htodo =>
      intro srv hsrv' hpc'
      rw [hsrv] at hsrv'
      cases hsrv'
      exact absurd hpc hpc'
  | next hsrv hpc htodo hcall =>
      intro srv hsrv' hpc'
      rw [hsrv] at hsrv'
      cases hsrv'
      exact absurd hpc hpc'
  | last hsrv hpc htodo hcall =>
      intro _ _ _
      rfl

/-- **A pool is a sampler over its regions.** -/
theorem evolves_of_step (hrest : Rested regions s) (hfits : TotalFits s e)
    (hs : step lib regions s e = some (s', out)) (p : Pool) :
    Evolves (regions p) s.heap (s.sampler p) s'.heap (s'.sampler p) := by
  cases stepped_of_step hs with
  | task e hne hb => exact .move ((shift_of_step hne hb).moves hrest s.heap p)
  | alloc region free => exact .sink (sinks_set s.heap region free)
  | visit hsrv hpc htodo =>
      apply Evolves.move
      rw [sampler_heap hsrv hpc, sampler_within hsrv hpc]
      exact moves_visit s.heap (regions p) htodo p
  | next hsrv hpc htodo hcall =>
      apply Evolves.move
      rw [sampler_heap hsrv hpc, sampler_within hsrv hpc]
      exact moves_next s.heap htodo (hfits htodo) hcall p
  | @last srv hsrv hpc htodo hcall =>
      apply Evolves.move
      rw [sampler_heap hsrv hpc]
      exact moves_last s.heap (regions p) htodo (hfits htodo) hcall srv.globals p

end HeapSampling
end OpcUa
end Esp32Probes
