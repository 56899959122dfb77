import Esp32Probes.OpcUa.BootTasks

/-!
# `OpcUa.BootStatus` — what clients can read about the SD card

`sd_status` is documented to be 1 when the card is mounted and append logging worked. The mount already sets
it to 1, before the first append, so there is a window in which a loop iteration can publish status 1 with
count 0. `boot_status` says that outside this window (`OutsideWindow`) no client is misled, and that a
failure of the bus or of the mount is reported for good. `early_ok` is a run through the window.
-/

namespace Esp32Probes
namespace OpcUa
namespace Boot

open Machine

variable {lib : Open62541}

/-! ## What is claimed of a step -/

/-- A client that reads `sd_status = 1` in this step does so after a completed append, and finds the count at
    least 1. -/
def StatusTruthful (s : System) (e : Event) : Prop :=
  ∀ srv batch, s.server = .serving srv → srv.pc = .serve → e = .server (.serve batch) →
    ∀ (i : Nat) dv, batch[i]? = some (.read .sdStatus) →
      (runIterate srv.nodes batch).2[i]? = some (.value dv) → dv.int32? = some sdStatusOk →
      1 ≤ s.appends ∧ ∃ c, (srv.nodes .sdAppendCount).int32? = some c ∧ 1 ≤ c.toInt

/-- The step does not publish the count in an iteration that has published status 1, before any append has
    completed. Only the loop writes the node of the status, so its value tells what this iteration has
    published, that is whether the mount had set `sd_status` by then. -/
def OutsideWindow (s : System) (e : Event) : Prop :=
  match s.server, e with
  | .serving srv, .server (.publish _ _) =>
    srv.pc = .publish .sdAppendCount → (srv.nodes .sdStatus).int32? = some sdStatusOk → 1 ≤ s.appends
  | _, _ => True

instance (s : System) (e : Event) : Decidable (OutsideWindow s e) := by
  unfold OutsideWindow
  split <;> infer_instance

/-! ## The loop and the two SD nodes -/

theorem processCommandNodes_frame {g : Globals} {nodes : Nodes} {ret : Node → StatusCode} {n : Node}
    (h : ¬ n.IsCommand) : (processCommandNodes lib g nodes ret).2 n = nodes n := by
  unfold Node.IsCommand at h
  rw [not_or, not_or] at h
  by_cases hp : Pending lib (nodes .resetCommand)
  · rw [processCommandNodes_pending hp]
    change resetNodes nodes ret _ n = _
    unfold resetNodes
    rw [writeInt32Node_ne h.2.2, writeInt32Node_ne h.2.1, writeInt32Node_ne h.1]
  · rw [processCommandNodes_idle hp]

/-- Before its two publications an iteration says nothing about the SD card. -/
def Unpublished (pc : Pc) : Prop := pc = .heap ∨ pc = .publish .sdStatus ∨ pc = .publish .sdAppendCount

/-- **The SD nodes along the loop.** A step publishes the count, or leaves both nodes alone, or ends where
    nothing is said about them. -/
theorem step_sdNodes {srv srv' : Server} {e : OpcUa.Event} {out : List Response} (hw : e.WritesSucceed)
    (h : OpcUa.step lib srv e = some (srv', out)) :
    Unpublished srv'.pc ∨
      (∃ sd ret, srv.pc = .publish .sdAppendCount ∧ e = .publish sd ret ∧
        srv'.nodes .sdStatus = srv.nodes .sdStatus ∧ srv'.nodes .sdAppendCount = .written sd.sdAppendCount) ∨
      (¬ Unpublished srv.pc ∧ srv'.nodes .sdStatus = srv.nodes .sdStatus ∧
        srv'.nodes .sdAppendCount = srv.nodes .sdAppendCount) := by
  cases OpcUa.stepped_of_step h with
  | heap reading hpc => exact Or.inl (Or.inr (Or.inl rfl))
  | publish t sd ret hpc =>
      have hret : ret = good := hw
      subst hret
      have hother : ∀ n, n ≠ t.node →
          writeInt32Node srv.nodes t.node (t.value sd srv.globals) good n = srv.nodes n := by
        intro n hn
        exact writeInt32Node_ne hn
      have hself : writeInt32Node srv.nodes t.node (t.value sd srv.globals) good t.node
          = .written (t.value sd srv.globals) := writeInt32Node_self
      cases t with
      | sdStatus => exact Or.inl (Or.inr (Or.inr rfl))
      | sdAppendCount =>
          exact Or.inr (Or.inl ⟨sd, good, hpc, rfl, hother .sdStatus (by decide), hself⟩)
      | _ =>
          refine Or.inr (Or.inr ⟨?_, hother .sdStatus (by decide), hother .sdAppendCount (by decide)⟩)
          simp [Unpublished, hpc]
  | command ret hpc =>
      refine Or.inr (Or.inr ⟨?_, processCommandNodes_frame (by decide),
        processCommandNodes_frame (by decide)⟩)
      simp [Unpublished, hpc]
  | serve batch hpc => exact Or.inl (Or.inl rfl)

/-! ## The count -/

/-- `sd_append_count` is the number of completed appends. -/
def CountsAppends (sd : SdGlobals) (appends : Nat) : Prop :=
  sd.sdAppendCount = Int32.ofNat appends ∧ appends < 2 ^ 31

theorem countsAppends_succ {sd sd' : SdGlobals} {n : Nat} (h : CountsAppends sd n)
    (hmax : sd.sdAppendCount ≠ Int32.maxValue) (hsucc : sd'.sdAppendCount = sd.sdAppendCount + 1) :
    CountsAppends sd' (n + 1) := by
  obtain ⟨hcount, hlt⟩ := h
  refine ⟨by rw [hsucc, hcount, Int32.ofNat_add]; rfl, ?_⟩
  have hne : n ≠ 2 ^ 31 - 1 := by
    rintro rfl
    exact hmax (by rw [hcount]; decide)
  omega

/-- The appends of `app_main` and of the logger keep the count right. -/
theorem countsAppends_append {sd sd' : SdGlobals} {pc : AppendPc} {opened : Bool} {next : Option AppendPc}
    {n : Nat} (h : CountsAppends sd n) (hstep : appendStep sd pc opened = some (sd', next)) :
    CountsAppends sd' (n + if pc = .count then 1 else 0) := by
  rcases appendStep_count hstep with ⟨hpc, hmax, hsucc⟩ | ⟨hpc, hsame⟩
  · rw [if_pos hpc]
    exact countsAppends_succ h hmax hsucc
  · rw [if_neg hpc]
    exact ⟨by rw [hsame]; exact h.1, h.2⟩

theorem countsAppends_main {sd sd' : SdGlobals} {pc pc' : MainPc} {c : Calls} {create : Bool} {n : Nat}
    (h : CountsAppends sd n) (hstep : mainStep sd pc c = some (sd', pc', create)) :
    CountsAppends sd' (n + if pc = .append .count then 1 else 0) := by
  cases pc with
  | append pc =>
      simp only [mainStep] at hstep
      cases happ : appendStep sd pc c.opened with
      | none => rw [happ] at hstep; cases hstep
      | some r =>
          rw [happ] at hstep
          cases hstep
          simpa using countsAppends_append h happ
  | bus => cases hstep; exact h
  | busFailed => cases hstep; exact h
  | mount => cases hstep; exact h
  | mountFailed => cases hstep; exact h
  | mounted => cases hstep; exact h
  | mountOk => cases hstep; exact h
  | createLogger => cases hstep; exact h
  | idle => cases hstep; exact h

theorem countsAppends_logger {sd sd' : SdGlobals} {pc pc' : LoggerPc} {opened : Bool} {n : Nat}
    (h : CountsAppends sd n) (hstep : loggerStep sd pc opened = some (sd', pc')) :
    CountsAppends sd' (n + if pc = .append .count then 1 else 0) := by
  cases pc with
  | absent => cases hstep
  | append pc =>
      simp only [loggerStep] at hstep
      cases happ : appendStep sd pc opened with
      | none => rw [happ] at hstep; cases hstep
      | some r =>
          rw [happ] at hstep
          cases hstep
          simpa using countsAppends_append h happ
  | delay => cases hstep; exact h

/-- **The count is right in every step**, and no append is ever taken back. -/
theorem countsAppends_step {s s' : System} {e : Event} {out : List Response}
    (h : CountsAppends s.sd s.appends) (hstep : Boot.step lib s e = some (s', out)) :
    CountsAppends s'.sd s'.appends ∧ s.appends ≤ s'.appends := by
  cases stepped_of_step hstep with
  | main c hm => exact ⟨countsAppends_main h hm, Nat.le_add_right _ _⟩
  | logger opened hl => exact ⟨countsAppends_logger h hl, Nat.le_add_right _ _⟩
  | _ => exact ⟨h, Nat.le_refl _⟩

/-! ## The invariant -/

/-- A published status 1 comes with a completed append and a published count of at least 1. -/
structure Published (s : System) : Prop where
  count : CountsAppends s.sd s.appends
  pair : ∀ srv, s.server = .serving srv → ¬ Unpublished srv.pc →
    (srv.nodes .sdStatus).int32? = some sdStatusOk →
    1 ≤ s.appends ∧ ∃ c, (srv.nodes .sdAppendCount).int32? = some c ∧ 1 ≤ c.toInt

theorem published_init : Published init where
  count := ⟨rfl, by decide⟩
  pair := fun srv h => by cases h

theorem Published.step {s s' : System} {e : Event} {out : List Response} (h : Published s)
    (hw : ∀ e', e = .server e' → e'.WritesSucceed) (hout : OutsideWindow s e)
    (hstep : Boot.step lib s e = some (s', out)) : Published s' := by
  obtain ⟨hcount', hle⟩ := countsAppends_step h.count hstep
  refine ⟨hcount', ?_⟩
  intro srv₁ hsrv₁ hpc hstatus
  cases serverStep_of_step hstep with
  | same hsame =>
      obtain ⟨happ, hc⟩ := h.pair srv₁ (hsame.symm.trans hsrv₁) hpc hstatus
      exact ⟨Nat.le_trans happ hle, hc⟩
  | starting _ hnot => exact absurd hsrv₁ (hnot srv₁)
  | enter status _ hserving =>
      -- the loop starts where nothing is published yet
      rw [hserving] at hsrv₁
      cases hsrv₁
      exact absurd (Or.inl rfl) hpc
  | @loop e' srv srv' he hserver hs hserving =>
      rw [hserving] at hsrv₁
      cases hsrv₁
      rcases step_sdNodes (withSd_writesSucceed (hw e' he)) hs with
        hun | ⟨sd, ret, hpc₀, he', hst, hcnt⟩ | ⟨hpc₀, hst, hcnt⟩
      · exact absurd hun hpc
      · -- the count is published: outside the window an append has completed
        rw [hst] at hstatus
        obtain ⟨rfl, sd₀, rfl⟩ := withSd_eq_publish he'
        have happ : 1 ≤ s.appends := by
          subst he
          unfold OutsideWindow at hout
          rw [hserver] at hout
          exact hout hpc₀ hstatus
        obtain ⟨hcount, hlt⟩ := h.count
        refine ⟨Nat.le_trans happ hle, s.sd.sdAppendCount, by rw [hcnt, DataValue.int32?_written], ?_⟩
        rw [hcount, Int32.toInt_ofNat_of_lt hlt]
        omega
      · -- both nodes are as they were
        rw [hst] at hstatus
        obtain ⟨happ, c, hc, hpos⟩ := h.pair srv hserver hpc₀ hstatus
        exact ⟨Nat.le_trans happ hle, c, by rw [hcnt]; exact hc, hpos⟩

/-- Reading a node that clients cannot write returns what the loop published. -/
theorem runIterate_read {nodes : Nodes} {batch : List Request} {name : Node}
    (hname : ∀ w : Writable, name ≠ w.node) {i : Nat} (hi : batch[i]? = some (.read name)) :
    (runIterate nodes batch).2[i]? = some (.value (nodes name)) := by
  induction batch generalizing nodes i with
  | nil => cases hi
  | cons r rs ih =>
      cases i with
      | zero =>
          obtain rfl := Option.some.inj hi
          rfl
      | succ i =>
          have hsame : (serveRequest nodes r).1 name = nodes name := runIterate_frame nodes [r] hname
          have hrest : (runIterate (serveRequest nodes r).1 rs).2[i]?
              = some (.value ((serveRequest nodes r).1 name)) := ih hi
          rw [hsame] at hrest
          exact hrest

theorem Published.statusTruthful {s : System} (h : Published s) (e : Event) : StatusTruthful s e := by
  rintro srv batch hsrv hpc rfl i dv hi hdv hstatus
  rw [runIterate_read (fun w => by cases w <;> simp [Writable.node]) hi] at hdv
  obtain rfl := Response.value.inj (Option.some.inj hdv)
  exact h.pair srv hsrv (by simp [Unpublished, hpc]) hstatus

/-! ## Failures before the first append -/

/-- The status that reports the failure `app_main` is in. -/
def failureCode : MainPc → Option Int32
  | .busFailed => some sdStatusBusInitFailed
  | .mountFailed => some sdStatusMountFailed
  | _ => none

/-- Nothing has been mounted or appended, and no task is there to do it. -/
def Unmounted (s : System) : Prop :=
  s.sd.sdMounted = false ∧ s.sd.sdAppendCount = 0 ∧ s.logger = .absent

theorem Unmounted.congr {s s' : System} (h : Unmounted s) (hmounted : s'.sd.sdMounted = s.sd.sdMounted)
    (hcount : s'.sd.sdAppendCount = s.sd.sdAppendCount) (hlogger : s'.logger = s.logger) : Unmounted s' := by
  obtain ⟨h1, h2, h3⟩ := h
  exact ⟨hmounted.trans h1, hcount.trans h2, hlogger.trans h3⟩

/-- `app_main` has not set `sd_mounted` yet. -/
def MainPc.Early (pc : MainPc) : Prop := pc = .bus ∨ pc = .mount ∨ pc = .mounted ∨ (failureCode pc).isSome

/-- The steps of the server leave the SD side alone. -/
theorem step_sdSide {s s' : System} {e : Event} {out : List Response}
    (h : Boot.step lib s e = some (s', out)) :
    (∃ c r, e = .main c ∧ mainStep s.sd s.main c = some r ∧ s'.sd = r.1 ∧ s'.main = r.2.1 ∧
        s'.logger = if r.2.2 = true then .append .check else s.logger) ∨
      (∃ opened r, e = .logger opened ∧ loggerStep s.sd s.logger opened = some r ∧ s'.main = s.main) ∨
      (s'.sd = s.sd ∧ s'.main = s.main ∧ s'.logger = s.logger) := by
  cases stepped_of_step h with
  | main c hm => exact Or.inl ⟨c, _, rfl, hm, rfl, rfl, rfl⟩
  | logger opened hl => exact Or.inr (Or.inl ⟨opened, _, rfl, hl, rfl⟩)
  | _ => exact Or.inr (Or.inr ⟨rfl, rfl, rfl⟩)

/-- Until `app_main` has mounted the card, nothing is mounted. -/
theorem unmounted_step {s s' : System} {e : Event} {out : List Response} (h : s.main.Early → Unmounted s)
    (hstep : Boot.step lib s e = some (s', out)) : s'.main.Early → Unmounted s' := by
  intro hearly
  rcases step_sdSide hstep with
    ⟨c, r, rfl, hm, hsd, hmain, hlog⟩ | ⟨opened, r, rfl, hl, hmain⟩ | ⟨hsd, hmain, hlog⟩
  · rw [hmain] at hearly
    have hkeep : s.main.Early → r.1 = s.sd → r.2.2 = false → Unmounted s' := by
      intro he hr hc
      apply (h he).congr
      · rw [hsd, hr]
      · rw [hsd, hr]
      · rw [hlog, hc]; rfl
    cases hpc : s.main with
    | bus =>
        rw [hpc] at hm
        obtain rfl := Option.some.inj hm
        exact hkeep (Or.inl hpc) rfl rfl
    | mount =>
        rw [hpc] at hm
        obtain rfl := Option.some.inj hm
        exact hkeep (Or.inr (Or.inl hpc)) rfl rfl
    | append pc =>
        rw [hpc] at hm
        simp only [mainStep] at hm
        cases happ : appendStep s.sd pc c.opened with
        | none => rw [happ] at hm; cases hm
        | some q =>
            obtain ⟨sd', next⟩ := q
            rw [happ] at hm
            obtain rfl := Option.some.inj hm
            cases next <;> simp [MainPc.Early, failureCode] at hearly
    | _ =>
        -- the other statements leave the part that is claimed about
        rw [hpc] at hm
        obtain rfl := Option.some.inj hm
        simp [MainPc.Early, failureCode] at hearly
  · -- there is no logger yet
    rw [hmain] at hearly
    rw [(h hearly).2.2] at hl
    cases hl
  · rw [hmain] at hearly
    exact (h hearly).congr (by rw [hsd]) (by rw [hsd]) hlog

/-- The failure `pc` with its code is being reported, or has been. -/
structure Reported (pc : MainPc) (code : Int32) (s : System) : Prop where
  status : s.main = pc ∨ ((s.main = .createLogger ∨ s.main = .idle) ∧ s.sd.sdStatus = code)
  unmounted : Unmounted s

theorem Reported.step {pc : MainPc} {code : Int32} {s s' : System} {e : Event} {out : List Response}
    (hcode : failureCode pc = some code) (h : Reported pc code s)
    (hstep : Boot.step lib s e = some (s', out)) :
    Reported pc code s' := by
  rcases step_sdSide hstep with
    ⟨c, r, rfl, hm, hsd, hmain, hlog⟩ | ⟨opened, r, rfl, hl, hmain⟩ | ⟨hsd, hmain, hlog⟩
  · have hkeep : r.1.sdMounted = s.sd.sdMounted → r.1.sdAppendCount = s.sd.sdAppendCount → r.2.2 = false →
        Unmounted s' := by
      intro hmounted hcount hc
      apply h.unmounted.congr
      · rw [hsd, hmounted]
      · rw [hsd, hcount]
      · rw [hlog, hc]; rfl
    rcases h.status with hpc | ⟨hpc | hpc, hst⟩
    · -- the statement that sets the status
      rw [hpc] at hm
      cases pc with
      | busFailed =>
          obtain rfl := Option.some.inj hm
          obtain rfl := Option.some.inj hcode
          exact ⟨Or.inr ⟨Or.inl hmain, by rw [hsd]⟩, hkeep rfl rfl rfl⟩
      | mountFailed =>
          obtain rfl := Option.some.inj hm
          obtain rfl := Option.some.inj hcode
          exact ⟨Or.inr ⟨Or.inl hmain, by rw [hsd]⟩, hkeep rfl rfl rfl⟩
      | _ => cases hcode
    · -- the card is not mounted, so no logger is created
      rw [hpc] at hm
      obtain rfl := Option.some.inj hm
      have hno : (s.sd.sdMounted && c.created) = false := by rw [h.unmounted.1, Bool.false_and]
      exact ⟨Or.inr ⟨Or.inr hmain, by rw [hsd]; exact hst⟩, hkeep rfl rfl hno⟩
    · rw [hpc] at hm
      obtain rfl := Option.some.inj hm
      exact ⟨Or.inr ⟨Or.inr hmain, by rw [hsd]; exact hst⟩, hkeep rfl rfl rfl⟩
  · -- there is no logger
    rw [h.unmounted.2.2] at hl
    cases hl
  · exact ⟨by rw [hmain, hsd]; exact h.status, h.unmounted.congr (by rw [hsd]) (by rw [hsd]) hlog⟩

/-- From a state in which the failure is being reported, it is reported for good. -/
theorem reported_run {pre post : List Event} {os os₁ : List (List Response)} {s t : System} {code : Int32}
    (hrun : run (step lib) init (pre ++ post) = some (t, os)) (hpre : run (step lib) init pre = some (s, os₁))
    (hcode : failureCode s.main = some code) :
    t.sd.sdAppendCount = 0 ∧ (t.main = s.main ∨ t.sd.sdStatus = code) := by
  obtain ⟨m, _, os₂, hm, hpost, _⟩ := run_append_iff.mp hrun
  rw [hpre] at hm
  cases hm
  have hunmounted : Unmounted s := by
    refine run_invariant (I := fun _ _ s => s.main.Early → Unmounted s) (fun _ => ⟨rfl, rfl, rfl⟩)
      (fun _ _ _ _ _ _ h hs => unmounted_step h hs) hpre ?_
    exact Or.inr (Or.inr (Or.inr (by rw [hcode]; rfl)))
  have hrep : Reported s.main code t :=
    run_invariant (I := fun _ _ t => Reported s.main code t) ⟨Or.inl rfl, hunmounted⟩
      (fun _ _ _ _ _ _ h hs => h.step hcode hs) hpost
  refine ⟨hrep.unmounted.2.1, ?_⟩
  rcases hrep.status with h | ⟨_, h⟩
  · exact Or.inl h
  · exact Or.inr h

/-- A run goes on with a statement of `app_main`. -/
theorem run_main {pre : List Event} {os : List (List Response)} {s : System} {c : Calls} {sd : SdGlobals}
    {pc : MainPc} {create : Bool} (hpre : run (step lib) init pre = some (s, os))
    (hmain : mainStep s.sd s.main c = some (sd, pc, create)) :
    ∃ s' os', run (step lib) init (pre ++ [.main c]) = some (s', os') ∧ s'.main = pc := by
  obtain ⟨s', hstep, hpc⟩ : ∃ s', step lib s (.main c) = some (s', []) ∧ s'.main = pc := by
    simp only [step, hmain]
    exact ⟨_, rfl, rfl⟩
  exact ⟨s', _, run_snoc_iff.mpr ⟨s, os, [], hpre, hstep, rfl⟩, hpc⟩

/-! ## The contract -/

/-- **What clients read about the SD card.** In every run of the three tasks whose node writes succeed: if
    every step is outside the window between the first status 1 and the first completed append, no client
    reads status 1 too early, or with a count below 1. And in any case, from the moment the bus or the mount
    has failed, the count stays 0, and the status, once `app_main` has set it, stays the code of the failure:
    said first of the statement `app_main` has come to, then of what `spi_bus_initialize` and
    `esp_vfs_fat_sdspi_mount` return. -/
theorem boot_status {es : List Event} {os : List (List Response)} {t : System}
    (hrun : run (step lib) init es = some (t, os)) (hw : ∀ e, .server e ∈ es → e.WritesSucceed) :
    (Along (step lib) init es (fun _ _ s e => OutsideWindow s e) →
        Along (step lib) init es (fun _ _ s e => StatusTruthful s e)) ∧
      (∀ pre post s os₁ code, es = pre ++ post → run (step lib) init pre = some (s, os₁) →
        failureCode s.main = some code →
        t.sd.sdAppendCount = 0 ∧ (t.main = s.main ∨ t.sd.sdStatus = code)) ∧
      ∀ pre c post s os₁, es = pre ++ .main c :: post → run (step lib) init pre = some (s, os₁) →
        (s.main = .bus → c.bus ≠ espOk → c.bus ≠ espErrInvalidState →
          t.sd.sdAppendCount = 0 ∧ (t.main = .busFailed ∨ t.sd.sdStatus = sdStatusBusInitFailed)) ∧
        (s.main = .mount → c.mount ≠ espOk →
          t.sd.sdAppendCount = 0 ∧ (t.main = .mountFailed ∨ t.sd.sdStatus = sdStatusMountFailed)) := by
  refine ⟨?_, ?_, ?_⟩
  · intro hout
    have hwrites : ∀ e ∈ es, ∀ e', e = .server e' → e'.WritesSucceed := by
      rintro e he e' rfl
      exact hw e' he
    refine along_of_guarded (I := fun _ _ s => Published s) published_init ?_ ?_
      (hout.and (along_of_forall hwrites))
    · intro _ _ m e m' o h hg hs
      exact h.step hg.2 hg.1 hs
    · intro _ _ m e h
      exact h.statusTruthful e
  · rintro pre post s os₁ code rfl hpre hcode
    exact reported_run hrun hpre hcode
  · rintro pre c post s os₁ rfl hpre
    have hfailed : ∀ pc code, failureCode pc = some code → mainStep s.sd s.main c = some (s.sd, pc, false) →
        t.sd.sdAppendCount = 0 ∧ (t.main = pc ∨ t.sd.sdStatus = code) := by
      intro pc code hcode hmain
      obtain ⟨s', os', hrun', rfl⟩ := run_main hpre hmain
      rw [List.append_cons] at hrun
      exact reported_run hrun hrun' hcode
    refine ⟨fun hpc hbus hstate => ?_, fun hpc hmount => ?_⟩
    · refine hfailed .busFailed sdStatusBusInitFailed rfl ?_
      simp [hpc, mainStep, hbus, hstate]
    · refine hfailed .mountFailed sdStatusMountFailed rfl ?_
      simp [hpc, mainStep, hmount]

/-! ## Through the window -/

/-- Calls that all succeed. -/
def okCalls : Calls := ⟨espOk, espOk, true, true⟩

/-- `app_main` mounts the card, up to and including `sd_status = SD_STATUS_OK`. -/
def mounting : List Event := List.replicate 4 (.main okCalls)

/-- The server task is started, and comes to its first `UA_Server_run_iterate`. -/
def serverUp : List Event := [.gotIp, .addNode, .addNode] ++ poll.map .server

/-- The server comes up after the mount, and an append runs only then. -/
def earlyServer : List Event := mounting ++ serverUp

/-- The server comes up after the first append. -/
def lateServer : List Event := mounting ++ List.replicate 5 (.main okCalls) ++ serverUp

theorem writesSucceed_serverUp {e : OpcUa.Event} (h : Event.server e ∈ serverUp) : e.WritesSucceed := by
  rcases List.mem_append.mp h with h | h
  · simp at h
  · obtain ⟨e', he', heq⟩ := List.mem_map.mp h
    obtain rfl := Event.server.inj heq
    exact writesSucceed_poll e' he'

theorem writesSucceed_earlyServer {e : OpcUa.Event} (h : Event.server e ∈ earlyServer) : e.WritesSucceed := by
  rcases List.mem_append.mp h with h | h
  · simp [mounting] at h
  · exact writesSucceed_serverUp h

theorem writesSucceed_lateServer {e : OpcUa.Event} (h : Event.server e ∈ lateServer) : e.WritesSucceed := by
  rcases List.mem_append.mp h with h | h
  · simp [mounting] at h
  · exact writesSucceed_serverUp h

/-- A client of the late server reads a status that is true. -/
theorem boot_status_late : Along (step .reference) init (lateServer ++ [.server (.serve [.read .sdStatus])])
    (fun _ _ s e => StatusTruthful s e) := by
  have hw : ∀ e, .server e ∈ lateServer ++ [.server (.serve [.read .sdStatus])] → e.WritesSucceed := by
    intro e he
    rcases List.mem_append.mp he with h | h
    · exact writesSucceed_lateServer h
    · obtain rfl := Event.server.inj (List.mem_singleton.mp h)
      exact trivial
  obtain ⟨t, os, hrun, _⟩ := run_of_check (step .reference) init
    (lateServer ++ [.server (.serve [.read .sdStatus])]) (p := fun _ => True) (by decide +kernel)
  have hcheck : checkAlong (step .reference) (fun s e => decide (OutsideWindow s e)) init
      (lateServer ++ [.server (.serve [.read .sdStatus])]) = true := by decide +kernel
  exact (boot_status hrun hw).1 (along_of_check hcheck)

/-- **Status 1 before the first append.** A client of the early server reads status 1 and count 0, and no
    append has completed. -/
theorem early_ok :
    (∀ e, .server e ∈ earlyServer → e.WritesSucceed) ∧
      ∃ s os, run (step .reference) init earlyServer = some (s, os) ∧ s.appends = 0 ∧
        (step .reference s (.server (.serve [.read .sdStatus, .read .sdAppendCount]))).map Prod.snd
          = some [.value (.written 1), .value (.written 0)] :=
  ⟨fun _ => writesSucceed_earlyServer, run_of_check _ _ _ (by decide +kernel)⟩

end Boot
end OpcUa
end Esp32Probes
