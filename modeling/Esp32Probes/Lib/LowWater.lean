import Mathlib.Logic.Function.Basic

/-!
# `Lib.LowWater` — sampling a value and its low-water mark while both change

A bank of gauges, each with a value and the lowest value it has ever shown. A reader visits the gauges one by
one and adds up what it finds, while others set the gauges between two visits. It does so twice: first for
the values, then for the low marks. No moment need exist at which the bank showed either total.

## Contents
- **Gauges.** `Gauge`, whose mark is at most its value by construction, `Sinks` (no mark has risen), `lowSum`.
- **Scans.** `Covers`: what has been added up is at least the present marks of the gauges visited. `outlook`:
  what a scan of the marks would end with if nothing changed.
- **The sampler.** `Sampler` goes through the two scans over and over. `Evolves` is one step of it, or a
  change of the bank. `Evolves.sound` and `Evolves.level_le` say that a step keeps `Sound` and never raises
  `level`, so that every sample is ordered and no sample's mark exceeds an earlier one.
-/

namespace LowWater

variable {ι : Type*}

/-! ## Gauges -/

/-- A gauge and its low-water mark. -/
structure Gauge where
  value  : Nat
  low    : Nat
  low_le : low ≤ value

/-- A new value; the mark follows it down. -/
def Gauge.set (g : Gauge) (v : Nat) : Gauge := ⟨v, min g.low v, Nat.min_le_right _ _⟩

theorem Gauge.low_set (g : Gauge) (v : Nat) : (g.set v).low ≤ g.low := Nat.min_le_left _ _

/-- No low mark has risen. -/
def Sinks (b b' : ι → Gauge) : Prop := ∀ i, (b' i).low ≤ (b i).low

theorem sinks_set [DecidableEq ι] (b : ι → Gauge) (i : ι) (v : Nat) :
    Sinks b (Function.update b i ((b i).set v)) := by
  intro j
  by_cases hj : j = i
  · subst hj
    rw [Function.update_self]
    exact (b j).low_set v
  · have hsame : Function.update b i ((b i).set v) j = b j := Function.update_of_ne hj _ _
    exact Nat.le_of_eq (congrArg Gauge.low hsame)

/-- The sum of the low marks of some gauges. -/
def lowSum (b : ι → Gauge) : List ι → Nat
  | [] => 0
  | i :: is => (b i).low + lowSum b is

theorem lowSum_append (b : ι → Gauge) (is js : List ι) : lowSum b (is ++ js) = lowSum b is + lowSum b js := by
  induction is with
  | nil => exact (Nat.zero_add _).symm
  | cons i is ih =>
      show (b i).low + lowSum b (is ++ js) = (b i).low + lowSum b is + lowSum b js
      rw [ih, Nat.add_assoc]

theorem lowSum_le {b b' : ι → Gauge} (h : Sinks b b') (is : List ι) : lowSum b' is ≤ lowSum b is := by
  induction is with
  | nil => exact Nat.le_refl 0
  | cons i is ih => exact Nat.add_le_add (h i) ih

/-! ## Scans -/

/-- A scan that has added up `total` and still has to visit the gauges in `todo`. -/
structure Scan (ι : Type*) where
  total : Nat
  todo  : List ι

/-- A scan that has visited nothing yet. -/
def Scan.start (is : List ι) : Scan ι := ⟨0, is⟩

/-- The total is at least the sum of the present low marks of the gauges visited so far. -/
def Covers (b : ι → Gauge) (is : List ι) (sc : Scan ι) : Prop :=
  ∃ visited, is = visited ++ sc.todo ∧ lowSum b visited ≤ sc.total

theorem covers_start (b : ι → Gauge) (is : List ι) : Covers b is (.start is) := ⟨[], rfl, Nat.le_refl 0⟩

theorem Covers.sink {b b' : ι → Gauge} {is : List ι} {sc : Scan ι} (h : Covers b is sc) (hs : Sinks b b') :
    Covers b' is sc := by
  obtain ⟨visited, hi, hle⟩ := h
  exact ⟨visited, hi, Nat.le_trans (lowSum_le hs visited) hle⟩

/-- A visit adds the value of the gauge or its mark, in any case at least the mark. -/
theorem Covers.visit {b : ι → Gauge} {is rest : List ι} {total v : Nat} {i : ι}
    (h : Covers b is ⟨total, i :: rest⟩) (hv : (b i).low ≤ v) : Covers b is ⟨total + v, rest⟩ := by
  obtain ⟨visited, hi, hle⟩ := h
  refine ⟨visited ++ [i], ?_, ?_⟩
  · rw [hi, List.append_assoc]
    rfl
  · rw [lowSum_append]
    exact Nat.add_le_add hle hv

/-- What a finished scan has added up is at least the sum of the low-water marks. -/
theorem Covers.finish {b : ι → Gauge} {is : List ι} {total : Nat} (h : Covers b is ⟨total, []⟩) :
    lowSum b is ≤ total := by
  obtain ⟨visited, rfl, hle⟩ := h
  rw [List.append_nil]
  exact hle

/-- What a scan of the low marks would end with if the bank stayed as it is. -/
def outlook (b : ι → Gauge) (sc : Scan ι) : Nat := sc.total + lowSum b sc.todo

theorem outlook_start (b : ι → Gauge) (is : List ι) : outlook b (.start is) = lowSum b is := Nat.zero_add _

theorem outlook_sink {b b' : ι → Gauge} (h : Sinks b b') (sc : Scan ι) : outlook b' sc ≤ outlook b sc :=
  Nat.add_le_add_left (lowSum_le h sc.todo) _

theorem outlook_visit (b : ι → Gauge) (total : Nat) (i : ι) (rest : List ι) :
    outlook b ⟨total + (b i).low, rest⟩ = outlook b ⟨total, i :: rest⟩ := Nat.add_assoc _ _ _

/-! ## The sampler -/

/-- A reader that takes samples: waiting, adding up the values, adding up the low marks (with the total
    of the values at hand), or done with both totals. -/
inductive Sampler (ι : Type*)
  | waiting
  | values (sc : Scan ι)
  | marks (value : Int) (sc : Scan ι)
  | sampled (value low : Int)

/-- A step of the sampler over the gauges `is`. A sample may be followed by the next one at once. -/
inductive Moves (b : ι → Gauge) (is : List ι) : Sampler ι → Sampler ι → Prop
  | stay (a : Sampler ι) : Moves b is a a
  | begin : Moves b is .waiting (.values (.start is))
  | visitValue (total : Nat) (i : ι) (rest : List ι) :
      Moves b is (.values ⟨total, i :: rest⟩) (.values ⟨total + (b i).value, rest⟩)
  | turn (total : Nat) : Moves b is (.values ⟨total, []⟩) (.marks total (.start is))
  | visitMark (value : Int) (total : Nat) (i : ι) (rest : List ι) :
      Moves b is (.marks value ⟨total, i :: rest⟩) (.marks value ⟨total + (b i).low, rest⟩)
  | finish (value : Int) (total : Nat) : Moves b is (.marks value ⟨total, []⟩) (.sampled value total)
  | rest (value low : Int) : Moves b is (.sampled value low) .waiting
  | restart (value low : Int) : Moves b is (.sampled value low) (.values (.start is))

/-- The bank sinks, or the sampler makes a step. -/
inductive Evolves (is : List ι) (b : ι → Gauge) (a : Sampler ι) : (ι → Gauge) → Sampler ι → Prop
  | sink {b' : ι → Gauge} (h : Sinks b b') : Evolves is b a b' a
  | move {a' : Sampler ι} (h : Moves b is a a') : Evolves is b a b a'

/-- What holds at each stage of a sample. -/
def Sound (is : List ι) (b : ι → Gauge) : Sampler ι → Prop
  | .waiting => True
  | .values sc => Covers b is sc
  | .marks value sc => Covers b is sc ∧ (outlook b sc : Int) ≤ value
  | .sampled value low => (lowSum b is : Int) ≤ low ∧ low ≤ value

/-- The mark of the sample at hand, as far as it is known yet: no later sample will have a higher one. -/
def level (is : List ι) (b : ι → Gauge) : Sampler ι → Int
  | .waiting => lowSum b is
  | .values _ => lowSum b is
  | .marks _ sc => outlook b sc
  | .sampled _ low => low

variable {is : List ι} {b b' : ι → Gauge} {a a' : Sampler ι}

/-- Gauges that sink keep a sampler sound. -/
theorem Sound.sink (h : Sound is b a) (hs : Sinks b b') : Sound is b' a := by
  cases a with
  | waiting => exact trivial
  | values sc => exact Covers.sink h hs
  | marks value sc =>
      refine ⟨h.1.sink hs, ?_⟩
      exact Int.le_trans (Int.ofNat_le.mpr (outlook_sink hs sc)) h.2
  | sampled value low =>
      refine ⟨?_, h.2⟩
      exact Int.le_trans (Int.ofNat_le.mpr (lowSum_le hs is)) h.1

/-- Gauges that sink never raise the level. -/
theorem level_sink (hs : Sinks b b') (a : Sampler ι) : level is b' a ≤ level is b a := by
  cases a with
  | waiting => exact Int.ofNat_le.mpr (lowSum_le hs is)
  | values sc => exact Int.ofNat_le.mpr (lowSum_le hs is)
  | marks value sc => exact Int.ofNat_le.mpr (outlook_sink hs sc)
  | sampled value low => exact Int.le_refl low

/-- A step of the sampler keeps it sound. -/
theorem Sound.move (h : Sound is b a) (hm : Moves b is a a') : Sound is b a' := by
  cases hm with
  | stay => exact h
  | begin => exact covers_start b is
  | visitValue total i rest => exact Covers.visit h (b i).low_le
  | turn total =>
      -- the values were read first: their total is at least what the marks can still add up to
      refine ⟨covers_start b is, ?_⟩
      rw [outlook_start]
      exact Int.ofNat_le.mpr (Covers.finish h)
  | visitMark value total i rest =>
      refine ⟨h.1.visit (Nat.le_refl _), ?_⟩
      rw [outlook_visit]
      exact h.2
  | finish value total => exact ⟨Int.ofNat_le.mpr h.1.finish, h.2⟩
  | rest value low => exact trivial
  | restart value low => exact covers_start b is

/-- A step of the sampler never raises the level. -/
theorem level_move (h : Sound is b a) (hm : Moves b is a a') : level is b a' ≤ level is b a := by
  cases hm with
  | stay => exact Int.le_refl _
  | begin => exact Int.le_refl _
  | visitValue total i rest => exact Int.le_refl _
  | turn total => exact Int.ofNat_le.mpr (Nat.le_of_eq (outlook_start b is))
  | visitMark value total i rest => exact Int.ofNat_le.mpr (Nat.le_of_eq (outlook_visit b total i rest))
  | finish value total => exact Int.le_refl _
  | rest value low => exact h.1
  | restart value low => exact h.1

/-- **A step keeps the sampler sound.** -/
theorem Evolves.sound (he : Evolves is b a b' a') (h : Sound is b a) : Sound is b' a' := by
  cases he with
  | sink hs => exact h.sink hs
  | move hm => exact h.move hm

/-- **The level never rises.** -/
theorem Evolves.level_le (he : Evolves is b a b' a') (h : Sound is b a) : level is b' a' ≤ level is b a := by
  cases he with
  | sink hs => exact level_sink hs a
  | move hm => exact level_move h hm

end LowWater
