import Mathlib.Data.List.Induction

/-!
# `Lib.Machine` — machines that consume events and emit outputs

A step `σ → ε → Option (σ × ο)` reads the next event of its environment, moves to a new state and emits an
output; `none` means that the step has no defined result. `run` folds it over a list of events.

## Contents
- **Runs.** `run`, its decomposition over `++`, and `run_total`: a step that is always defined has a run
  over every list of events.
- **Histories.** `Along` quantifies over the steps of a run, each with the events and outputs before it.
- **Induction rules.** `run_invariant` (an invariant that may mention the history), `guarded_invariant` and
  `along_of_guarded` (an invariant that needs a side condition at every step), `along_congr`.
- **Emissions.** `emitted` collects what a view picks from events and outputs; `emitted_pairwise` orders it.
- **Simulation.** `run_simulation`: machines whose steps agree up to a relation emit the same outputs, seen
  through a view.
-/

namespace Machine

variable {σ τ ε ο : Type*}

/-- Run a step function over a list of events, collecting the outputs. -/
def run (step : σ → ε → Option (σ × ο)) : σ → List ε → Option (σ × List ο)
  | s, [] => some (s, [])
  | s, e :: es =>
    match step s e with
    | none => none
    | some (s', o) =>
      match run step s' es with
      | none => none
      | some (t, os) => some (t, o :: os)

variable {step : σ → ε → Option (σ × ο)}

@[simp] theorem run_nil (s : σ) : run step s [] = some (s, []) := rfl

theorem run_cons_iff {s t : σ} {e : ε} {es : List ε} {os : List ο} :
    run step s (e :: es) = some (t, os) ↔
      ∃ s' o os', step s e = some (s', o) ∧ run step s' es = some (t, os') ∧ os = o :: os' := by
  constructor
  · intro h
    unfold run at h
    split at h
    · exact absurd h (by simp)
    · next s' o hs =>
      split at h
      · exact absurd h (by simp)
      · next t' os' hr =>
        cases h
        exact ⟨s', o, os', hs, hr, rfl⟩
  · rintro ⟨s', o, os', hs, hr, rfl⟩
    simp [run, hs, hr]

theorem run_append_iff {s t : σ} {es fs : List ε} {os : List ο} :
    run step s (es ++ fs) = some (t, os) ↔
      ∃ m os₁ os₂, run step s es = some (m, os₁) ∧ run step m fs = some (t, os₂) ∧ os = os₁ ++ os₂ := by
  induction es generalizing s os with
  | nil => simp
  | cons e es ih =>
      rw [List.cons_append, run_cons_iff]
      constructor
      · rintro ⟨s', o, os', hs, hr, rfl⟩
        obtain ⟨m, os₁, os₂, h₁, h₂, rfl⟩ := ih.mp hr
        exact ⟨m, o :: os₁, os₂, run_cons_iff.mpr ⟨s', o, os₁, hs, h₁, rfl⟩, h₂, rfl⟩
      · rintro ⟨m, os', os₂, h, h₂, rfl⟩
        obtain ⟨s', o, os₁, hs, h₁, rfl⟩ := run_cons_iff.mp h
        exact ⟨s', o, os₁ ++ os₂, hs, ih.mpr ⟨m, os₁, os₂, h₁, h₂, rfl⟩, rfl⟩

theorem run_snoc_iff {s t : σ} {e : ε} {es : List ε} {os : List ο} :
    run step s (es ++ [e]) = some (t, os) ↔
      ∃ m os' o, run step s es = some (m, os') ∧ step m e = some (t, o) ∧ os = os' ++ [o] := by
  rw [run_append_iff]
  constructor
  · rintro ⟨m, os₁, os₂, h₁, h₂, rfl⟩
    obtain ⟨t', o, os', hs, hr, rfl⟩ := run_cons_iff.mp h₂
    cases hr
    exact ⟨m, os₁, o, h₁, hs, rfl⟩
  · rintro ⟨m, os', o, h₁, hs, rfl⟩
    exact ⟨m, os', [o], h₁, run_cons_iff.mpr ⟨t, o, [], hs, rfl, rfl⟩, rfl⟩

/-- A step that is always defined runs over every list of events. -/
theorem run_total (htot : ∀ s e, (step s e).isSome) (s : σ) (es : List ε) :
    ∃ t os, run step s es = some (t, os) := by
  induction es generalizing s with
  | nil => exact ⟨s, [], rfl⟩
  | cons e es ih =>
      obtain ⟨⟨s', o⟩, hs⟩ := Option.isSome_iff_exists.mp (htot s e)
      obtain ⟨t, os, hr⟩ := ih s'
      exact ⟨t, o :: os, run_cons_iff.mpr ⟨s', o, os, hs, hr, rfl⟩⟩

/-! ## The steps of a run, each with its history -/

/-- `P` holds at every step of the run over `es`: of the events and outputs before it, of the state it is
    taken from, and of its own event. -/
def Along (step : σ → ε → Option (σ × ο)) (s : σ) (es : List ε)
    (P : List ε → List ο → σ → ε → Prop) : Prop :=
  ∀ pre e post m os, es = pre ++ e :: post → run step s pre = some (m, os) → P pre os m e

theorem Along.of_prefix {s : σ} {es fs : List ε} {P : List ε → List ο → σ → ε → Prop}
    (h : Along step s (es ++ fs) P) : Along step s es P := by
  rintro pre e post m os rfl hr
  exact h pre e (post ++ fs) m os (by simp) hr

/-- The rest of a run, for a property that needs no history. -/
theorem Along.of_suffix {s m : σ} {es fs : List ε} {os : List ο} {P : σ → ε → Prop}
    (h : Along step s (es ++ fs) fun _ _ m e => P m e) (hrun : run step s es = some (m, os)) :
    Along step m fs fun _ _ m e => P m e := by
  rintro pre e post m' os' rfl hr
  refine h (es ++ pre) e post m' (os ++ os') (by simp) ?_
  exact run_append_iff.mpr ⟨m, os, os', hrun, hr, rfl⟩

/-- One more step. -/
theorem Along.snoc {s m : σ} {es : List ε} {e : ε} {os : List ο} {P : List ε → List ο → σ → ε → Prop}
    (h : Along step s es P) (hrun : run step s es = some (m, os)) (he : P es os m e) :
    Along step s (es ++ [e]) P := by
  intro pre e' post m' os' heq hr
  rcases List.eq_nil_or_concat post with rfl | ⟨post, x, rfl⟩
  · -- the last step
    obtain ⟨rfl, hlast⟩ := List.append_inj' heq rfl
    obtain rfl : e = e' := List.singleton_inj.mp hlast
    rw [hrun] at hr
    cases hr
    exact he
  · have heq' : es ++ [e] = (pre ++ e' :: post) ++ [x] := by simpa using heq
    exact h pre e' post m' os' (List.append_inj' heq' rfl).1 hr

theorem Along.and {s : σ} {es : List ε} {P Q : List ε → List ο → σ → ε → Prop} (hP : Along step s es P)
    (hQ : Along step s es Q) : Along step s es (fun pre os m e => P pre os m e ∧ Q pre os m e) := by
  intro pre e post m os he hr
  exact ⟨hP pre e post m os he hr, hQ pre e post m os he hr⟩

/-- A property of the events alone. -/
theorem along_of_forall {s : σ} {es : List ε} {G : ε → Prop} (h : ∀ e ∈ es, G e) :
    Along step s es (fun _ _ _ e => G e) := by
  rintro pre e post m os rfl _
  apply h
  exact List.mem_append_right _ List.mem_cons_self

/-- Check a step property that needs no history along a run. -/
def checkAlong (step : σ → ε → Option (σ × ο)) (p : σ → ε → Bool) : σ → List ε → Bool
  | _, [] => true
  | s, e :: es =>
    p s e && match step s e with
      | none => true
      | some (s', _) => checkAlong step p s' es

theorem along_of_check {P : σ → ε → Prop} [∀ m e, Decidable (P m e)] {s : σ} {es : List ε}
    (h : checkAlong step (fun m e => decide (P m e)) s es = true) :
    Along step s es (fun _ _ m e => P m e) := by
  induction es generalizing s with
  | nil =>
      intro pre e post m os he
      cases pre <;> cases he
  | cons e es ih =>
      obtain ⟨hhead, htail⟩ := Bool.and_eq_true_iff.mp h
      intro pre e' post m os he hr
      cases pre with
      | nil =>
          -- the step is the first one, taken from `s` itself
          cases he
          cases hr
          exact of_decide_eq_true hhead
      | cons d pre =>
          cases he
          obtain ⟨s', o, os', hs, hr', _⟩ := run_cons_iff.mp hr
          rw [hs] at htail
          exact ih htail pre e' post m os' rfl hr'

/-- Check that a run is defined and what holds of its last state. -/
theorem run_of_check (step : σ → ε → Option (σ × ο)) (s : σ) (es : List ε) {p : σ → Prop} [DecidablePred p]
    (h : (run step s es).any (fun r => p r.1) = true) : ∃ t os, run step s es = some (t, os) ∧ p t := by
  obtain ⟨⟨t, os⟩, hr, hp⟩ := (Option.any_eq_true _ _).mp h
  exact ⟨t, os, hr, of_decide_eq_true hp⟩

/-! ## Induction rules -/

/-- **Invariants of runs.** What holds initially and is preserved by every step holds after every run; the
    invariant may mention the events consumed and the outputs emitted so far. -/
theorem run_invariant {I : List ε → List ο → σ → Prop} {s : σ} (hinit : I [] [] s)
    (hstep : ∀ pre os m e m' o, I pre os m → step m e = some (m', o) →
      I (pre ++ [e]) (os ++ [o]) m')
    {es : List ε} {os : List ο} {t : σ} (hrun : run step s es = some (t, os)) : I es os t := by
  induction es using List.reverseRecOn generalizing os t with
  | nil =>
      cases hrun
      exact hinit
  | append_singleton pre e ih =>
      -- the run ends with one step from a state in which the invariant holds
      obtain ⟨m, os', o, hpre, hs, rfl⟩ := run_snoc_iff.mp hrun
      exact hstep pre os' m e t o (ih hpre) hs

/-- **Guarded invariants.** As `run_invariant`, for an invariant whose preservation needs the guard `G` at
    every step taken. -/
theorem guarded_invariant {G : List ε → List ο → σ → ε → Prop} {I : List ε → List ο → σ → Prop}
    {s : σ} (hinit : I [] [] s)
    (hstep : ∀ pre os m e m' o, I pre os m → G pre os m e → step m e = some (m', o) →
      I (pre ++ [e]) (os ++ [o]) m')
    {es : List ε} {os : List ο} {t : σ} (hG : Along step s es G)
    (hrun : run step s es = some (t, os)) : I es os t := by
  induction es using List.reverseRecOn generalizing os t with
  | nil =>
      cases hrun
      exact hinit
  | append_singleton pre e ih =>
      obtain ⟨m, os', o, hpre, hs, rfl⟩ := run_snoc_iff.mp hrun
      have hI : I pre os' m := ih hG.of_prefix hpre
      have hguard : G pre os' m e := hG pre e [] m os' rfl hpre
      exact hstep pre os' m e t o hI hguard hs

/-- What a guarded invariant implies holds at every step of a guarded run. -/
theorem along_of_guarded {G P : List ε → List ο → σ → ε → Prop} {I : List ε → List ο → σ → Prop} {s : σ}
    (hinit : I [] [] s)
    (hstep : ∀ pre os m e m' o, I pre os m → G pre os m e → step m e = some (m', o) →
      I (pre ++ [e]) (os ++ [o]) m')
    (hP : ∀ pre os m e, I pre os m → P pre os m e) {es : List ε} (hG : Along step s es G) :
    Along step s es P := by
  rintro pre e post m os rfl hr
  apply hP
  exact guarded_invariant hinit hstep hG.of_prefix hr

/-- Step properties that are equivalent under an invariant hold along the same runs. -/
theorem along_congr {I : List ε → List ο → σ → Prop} {P Q : List ε → List ο → σ → ε → Prop} {s : σ}
    (hI : ∀ es os t, run step s es = some (t, os) → I es os t)
    (hPQ : ∀ pre os m e, I pre os m → (P pre os m e ↔ Q pre os m e)) {es : List ε} :
    Along step s es P ↔ Along step s es Q := by
  constructor
  · intro h pre e post m os he hr
    exact (hPQ pre os m e (hI pre os m hr)).mp (h pre e post m os he hr)
  · intro h pre e post m os he hr
    exact (hPQ pre os m e (hI pre os m hr)).mpr (h pre e post m os he hr)

/-! ## Emissions -/

section Emissions

variable {β : Type*}

/-- What a view picks from the events and outputs of a run, oldest first. -/
def emitted (view : ε → ο → List β) (es : List ε) (os : List ο) : List β := (List.zipWith view es os).flatten

theorem emitted_snoc (view : ε → ο → List β) {es : List ε} {os : List ο} (h : es.length = os.length) (e : ε)
    (o : ο) : emitted view (es ++ [e]) (os ++ [o]) = emitted view es os ++ view e o := by
  unfold emitted
  rw [List.zipWith_append h, List.flatten_append]
  simp

/-- A step from `m` to `m'` that emits `bs`, when `R` says what may have been emitted before a state, and `Q`
    is the order of emissions. -/
structure Follows (R : σ → β → Prop) (Q : β → β → Prop) (m m' : σ) (bs : List β) : Prop where
  keep  : ∀ b, R m b → R m' b
  add   : ∀ b ∈ bs, R m' b
  after : ∀ a, R m a → ∀ b ∈ bs, Q a b
  among : bs.Pairwise Q

/-- **Ordered emissions.** If every step of a guarded run follows on, its emissions are in order. -/
theorem emitted_pairwise {G : List ε → List ο → σ → ε → Prop} {I : σ → Prop} {R : σ → β → Prop}
    {Q : β → β → Prop} {view : ε → ο → List β} {s : σ} (hinit : I s)
    (hstep : ∀ pre os m e m' o, I m → G pre os m e → step m e = some (m', o) →
      I m' ∧ Follows R Q m m' (view e o))
    {es : List ε} {os : List ο} {t : σ} (hG : Along step s es G) (hrun : run step s es = some (t, os)) :
    (emitted view es os).Pairwise Q := by
  have h : I t ∧ es.length = os.length ∧ (∀ b ∈ emitted view es os, R t b) ∧
      (emitted view es os).Pairwise Q := by
    apply guarded_invariant (I := fun es os t => I t ∧ es.length = os.length ∧
      (∀ b ∈ emitted view es os, R t b) ∧ (emitted view es os).Pairwise Q) _ _ hG hrun
    · exact ⟨hinit, rfl, fun b hb => absurd hb List.not_mem_nil, List.Pairwise.nil⟩
    · rintro pre os m e m' o ⟨hI, hlen, hknown, hord⟩ hg hs
      obtain ⟨hI', hf⟩ := hstep pre os m e m' o hI hg hs
      rw [emitted_snoc view hlen]
      refine ⟨hI', by simp [hlen], ?_, ?_⟩
      · intro b hb
        rcases List.mem_append.mp hb with hb | hb
        · exact hf.keep b (hknown b hb)
        · exact hf.add b hb
      · -- what is new comes after everything emitted so far
        apply List.pairwise_append.mpr
        refine ⟨hord, hf.among, ?_⟩
        intro a ha b hb
        exact hf.after a (hknown a ha) b hb
  exact h.2.2.2

end Emissions

/-! ## Simulation -/

/-- **Forward simulation.** If every step of the concrete machine on an event in `G` is matched by a step of
    the abstract one, whose output is the view `f` of the concrete output, then so is every run. -/
theorem run_simulation {ο' : Type*} {step' : τ → ε → Option (τ × ο')} {f : ε → ο → ο'} {G : ε → Prop}
    {R : σ → τ → Prop}
    (hsim : ∀ s a e s' o, G e → R s a → step s e = some (s', o) →
      ∃ a', step' a e = some (a', f e o) ∧ R s' a')
    {s t : σ} {a : τ} {es : List ε} {os : List ο} (hG : ∀ e ∈ es, G e) (hR : R s a)
    (hrun : run step s es = some (t, os)) :
    ∃ b, run step' a es = some (b, List.zipWith f es os) ∧ R t b := by
  induction es generalizing s a os with
  | nil =>
      cases hrun
      exact ⟨a, rfl, hR⟩
  | cons e es ih =>
      obtain ⟨s', o, os', hs, hr, rfl⟩ := run_cons_iff.mp hrun
      obtain ⟨he, hes⟩ := List.forall_mem_cons.mp hG
      obtain ⟨a', ha, hR'⟩ := hsim s a e s' o he hR hs
      obtain ⟨b, hb, hRb⟩ := ih hes hR' hr
      exact ⟨b, run_cons_iff.mpr ⟨a', f e o, _, ha, hb, rfl⟩, hRb⟩

end Machine
