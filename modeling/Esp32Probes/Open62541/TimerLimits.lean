import Esp32Probes.Open62541.TimerSchedule

/-!
# Open62541.TimerLimits — when the times of the timer fit

The schedule computes without a bound, `timer.c` with `int64_t`. If no clock, base time or interval that is
passed in is beyond 2^60 units of 100 ns, about 3600 years, then every value that is computed fits, however
long the timer is used: `Tame` is the invariant, kept by each call and by each visit, and the checked
functions of `Timer` compute what the schedule says.

## Contents
- **What a call can do.** `call_queue`, `call_round`, `call_counter`, `batchTime_cases`.
- **Tame schedules.** `TimerCall.Bounded`, `Schedule.Tame`.
- **Checked arithmetic.** One equation for each function of `Timer` that computes with times.
-/

namespace Esp32Probes
namespace Open62541

open CHeap (Addr Heap)

/-! ## Batched times -/

/-- What the window comparison accepts is in the window. -/
theorem cmpBatchWindow_eq {earliest latest time : Int} (h : cmpBatchWindow earliest latest time = .eq) :
    earliest ≤ time ∧ time ≤ latest := by
  unfold cmpBatchWindow at h
  by_cases h1 : time < earliest
  · rw [if_pos h1] at h
    cases h
  · rw [if_neg h1] at h
    by_cases h2 : time > latest
    · rw [if_pos h2] at h
      cases h
    · omega

namespace Schedule

variable {s : Schedule} {script : Script} {now : Int} {fired : List Fired}

/-- The candidates of the batching are entries of the queue in the window. -/
theorem mem_windowOf {q : List Item} {earliest latest : Int} {c : Item} (h : c ∈ windowOf q earliest latest) :
    c ∈ q ∧ earliest ≤ c.nextTime ∧ c.nextTime ≤ latest := by
  obtain ⟨hmem, hwindow⟩ := mem_of_visits h
  exact ⟨(ZipTree.perm_build _ _ q).mem_iff.mp hmem, cmpBatchWindow_eq hwindow⟩

/-- The batched time is the original one or the one of a candidate that fits. -/
theorem batchScan_cases (interval adjusted : Int) (l : List Item) :
    batchScan interval adjusted l = adjusted ∨
      ∃ c ∈ l, batchScan interval adjusted l = c.nextTime ∧ fits interval c.interval = true := by
  induction l generalizing adjusted with
  | nil => exact .inl rfl
  | cons c l ih =>
      have hrest : ∀ adjusted',
          (adjusted' = adjusted ∨ adjusted' = c.nextTime ∧ fits interval c.interval = true) →
          batchScan interval adjusted' l = adjusted ∨ ∃ d ∈ c :: l,
            batchScan interval adjusted' l = d.nextTime ∧ fits interval d.interval = true := by
        intro adjusted' hadj
        rcases ih adjusted' with hsame | ⟨d, hd, htime, hfit⟩
        · rcases hadj with rfl | ⟨rfl, hfit⟩
          · exact .inl hsame
          · exact .inr ⟨c, List.mem_cons_self, hsame, hfit⟩
        · exact .inr ⟨d, List.mem_cons_of_mem _ hd, htime, hfit⟩
      unfold batchScan
      split_ifs with hzero hfit heq
      · exact hrest adjusted (.inl rfl)
      · exact hrest adjusted (.inl rfl)
      · exact .inr ⟨c, List.mem_cons_self, rfl, by simpa using hfit⟩
      · exact hrest c.nextTime (.inr ⟨rfl, by simpa using hfit⟩)

/-- The next time after batching is the one before, or the one of another entry that fits. -/
theorem batchTime_cases (q : List Item) (i : Item) :
    batchTime q i = i.nextTime ∨
      ∃ c ∈ q, batchTime q i = c.nextTime ∧ i.timerPolicy = .currentTime ∧
        i.nextTime - deviation i.interval ≤ c.nextTime ∧ c.nextTime ≤ i.nextTime + deviation i.interval ∧
        fits i.interval c.interval = true := by
  unfold batchTime
  by_cases hp : i.timerPolicy ≠ .currentTime
  · rw [if_pos hp]
    exact .inl rfl
  · rw [if_neg hp]
    rcases batchScan_cases i.interval i.nextTime (windowOf q (i.nextTime - deviation i.interval)
      (i.nextTime + deviation i.interval)) with hsame | ⟨c, hc, htime, hfit⟩
    · exact .inl hsame
    · obtain ⟨hq, hearly, hlate⟩ := mem_windowOf hc
      exact .inr ⟨c, hq, htime, not_not.mp hp, hearly, hlate, hfit⟩

/-! ## What a call can do -/

/-- The entries of the queue after a call: those from before, the one that was added, the one that was
    modified. -/
theorem call_queue (s : Schedule) (c : TimerCall) {j : Item} (hj : j ∈ (s.call c).1.queue) :
    j ∈ s.queue ∨
    (∃ cb application data interval now baseTime policy pick iv nt,
      c = .add cb application data interval now baseTime policy pick ∧
      firstTime interval now baseTime policy = some (iv, nt) ∧ j.id = s.idCounter + 1 ∧
      j.timerPolicy = policy ∧ j.interval = iv ∧ j.nextTime = batchTime s.queue { j with nextTime := nt }) ∨
    ∃ i ∈ s.queue, ∃ interval now baseTime policy iv nt, c = .modify i.id interval now baseTime policy ∧
      firstTime interval now baseTime policy = some (iv, nt) ∧
      j = rearm (s.queue.filter fun k => k.id ≠ i.id) iv nt policy i := by
  cases c with
  | add cb application data interval now baseTime policy pick =>
      have hj : j ∈ (s.add cb application data interval now baseTime policy pick).1.queue := hj
      rcases add_cases s cb application data interval now baseTime policy pick with
        ⟨status, heq, -⟩ | ⟨c, iv, nt, a, i, -, hfirst, -, -, hi, heq⟩
      · rw [heq] at hj
        exact .inl hj
      · rw [heq] at hj
        rcases mem_enqueue.mp hj with rfl | hj
        · refine .inr (.inl ⟨cb, application, data, interval, now, baseTime, policy, pick, iv, nt, rfl,
            hfirst, ?_⟩)
          rw [hi]
          exact ⟨rfl, rfl, rfl, rfl⟩
        · exact .inl hj
  | modify id interval now baseTime policy =>
      have hj : j ∈ (s.modify id interval now baseTime policy).1.queue := hj
      unfold Schedule.modify at hj
      cases hfirst : firstTime interval now baseTime policy with
      | none =>
          rw [hfirst] at hj
          exact .inl hj
      | some times =>
          rw [hfirst] at hj
          cases hfind : s.queue.find? (fun i => i.id = id) with
          | some i =>
              rw [hfind] at hj
              obtain ⟨hi, rfl⟩ := find_queue hfind
              rcases mem_enqueue.mp hj with hji | hj
              · exact .inr (.inr ⟨i, hi, interval, now, baseTime, policy, times.1, times.2, rfl, hfirst, hji⟩)
              · exact .inl (List.mem_filter.mp hj).1
          | none =>
              rw [hfind] at hj
              dsimp only at hj
              split_ifs at hj <;> exact .inl hj
  | remove id => exact .inl (List.mem_filter.mp hj).1

/-- The entries of the round after a call: only the one that was modified has new data. -/
theorem call_round (s : Schedule) (c : TimerCall) {j : Item} (hj : j ∈ (s.call c).1.pending) :
    ∃ i ∈ s.pending, j.id = i.id ∧ (i.cb = none → j.cb = none) ∧
      ((∃ interval now baseTime policy iv nt, c = .modify i.id interval now baseTime policy ∧
          firstTime interval now baseTime policy = some (iv, nt) ∧ j.interval = iv ∧
          j.nextTime = (rearm s.queue iv nt policy i).nextTime - iv) ∨
        j.timerPolicy = i.timerPolicy ∧ j.nextTime = i.nextTime ∧ j.interval = i.interval) := by
  cases c with
  | add cb application data interval now baseTime policy pick =>
      have hj : j ∈ (s.add cb application data interval now baseTime policy pick).1.pending := hj
      rcases add_cases s cb application data interval now baseTime policy pick with
        ⟨status, heq, -⟩ | ⟨c, iv, nt, a, i, -, -, -, -, -, heq⟩ <;>
      · rw [heq] at hj
        exact ⟨j, hj, rfl, id, .inr ⟨rfl, rfl, rfl⟩⟩
  | modify id interval now baseTime policy =>
      have hj : j ∈ (s.modify id interval now baseTime policy).1.pending := hj
      have hsame : j ∈ s.pending → _ := fun hj => (⟨j, hj, rfl, fun h => h, .inr ⟨rfl, rfl, rfl⟩⟩ :
        ∃ i ∈ s.pending, j.id = i.id ∧ (i.cb = none → j.cb = none) ∧
          ((∃ interval' now' bt p iv nt, TimerCall.modify id interval now baseTime policy =
              .modify i.id interval' now' bt p ∧ firstTime interval' now' bt p = some (iv, nt) ∧
              j.interval = iv ∧ j.nextTime = (rearm s.queue iv nt p i).nextTime - iv) ∨
            j.timerPolicy = i.timerPolicy ∧ j.nextTime = i.nextTime ∧ j.interval = i.interval))
      unfold Schedule.modify at hj
      cases hfirst : firstTime interval now baseTime policy with
      | none =>
          rw [hfirst] at hj
          exact hsame hj
      | some times =>
          rw [hfirst] at hj
          cases hfind : s.queue.find? (fun i => i.id = id) with
          | some i =>
              rw [hfind] at hj
              exact hsame hj
          | none =>
              rw [hfind] at hj
              dsimp only at hj
              split_ifs at hj
              · obtain ⟨i, hi, hij⟩ := List.mem_map.mp hj
                dsimp only at hij
                split_ifs at hij with hid
                · subst hij
                  exact ⟨i, hi, rfl, fun h => h,
                    .inl ⟨interval, now, baseTime, policy, times.1, times.2, by rw [hid], hfirst, rfl, rfl⟩⟩
                · exact hsame (hij ▸ hi)
              · exact hsame hj
  | remove id =>
      obtain ⟨i, hi, hij⟩ := List.mem_map.mp hj
      dsimp only at hij
      split_ifs at hij
      · subst hij
        exact ⟨i, hi, rfl, fun _ => rfl, .inr ⟨rfl, rfl, rfl⟩⟩
      · subst hij
        exact ⟨i, hi, rfl, fun h => h, .inr ⟨rfl, rfl, rfl⟩⟩

/-- Ids are handed out in ascending order. -/
theorem call_counter (s : Schedule) (c : TimerCall) : s.idCounter ≤ (s.call c).1.idCounter := by
  cases c with
  | add cb application data interval now baseTime policy pick =>
      show s.idCounter ≤ (s.add cb application data interval now baseTime policy pick).1.idCounter
      rcases add_cases s cb application data interval now baseTime policy pick with
        ⟨status, heq, -⟩ | ⟨c, iv, nt, a, i, -, -, -, -, -, heq⟩ <;> rw [heq]
      exact Nat.le_succ _
  | modify id interval now baseTime policy =>
      show s.idCounter ≤ (s.modify id interval now baseTime policy).1.idCounter
      unfold Schedule.modify
      cases firstTime interval now baseTime policy with
      | none => exact le_refl _
      | some times =>
          cases s.queue.find? (fun i => i.id = id) with
          | some i => exact le_refl _
          | none =>
              dsimp only
              split_ifs <;> exact le_refl _
  | remove id => exact le_refl _

theorem calls_counter (s : Schedule) (cs : List TimerCall) : s.idCounter ≤ (s.calls cs).idCounter := by
  induction cs generalizing s with
  | nil => exact le_refl _
  | cons c cs ih => exact le_trans (call_counter s c) (ih _)

theorem settle_counter (s : Schedule) (now : Int) : (s.settle now).idCounter = s.idCounter := by
  unfold settle
  cases s.pending with
  | nil => rfl
  | cons i rest =>
      dsimp only
      split_ifs <;> rfl

theorem execute_counter (script : Script) (s : Schedule) (fired : List Fired) (i : Item) :
    s.idCounter ≤ (s.execute script fired i).1.idCounter := by
  unfold execute
  cases i.cb with
  | none => exact le_refl _
  | some cb => exact calls_counter s _

theorem visit_counter (script : Script) (now : Int) (s : Schedule) (fired : List Fired) :
    s.idCounter ≤ (s.visit script now fired).1.idCounter := by
  unfold visit
  cases s.pending with
  | nil => exact le_refl _
  | cons i rest => exact le_trans (execute_counter script s fired i) (settle_counter _ now).ge

/-- A round does not take ids back. -/
theorem visits_counter (script : Script) (now : Int) (n : Nat) (s : Schedule) (fired : List Fired) :
    s.idCounter ≤ (s.visits script now n fired).1.idCounter := by
  induction n generalizing s fired with
  | zero => exact le_refl _
  | succ n ih => exact le_trans (visit_counter script now s fired) (ih _ _)

end Schedule

/-! ## Tame schedules -/

/-- The limit of the times and intervals that are passed in: 2^60. -/
def timeBound : Int := 1152921504606846976

/-- At most `bound` away from 0. -/
def Within (bound x : Int) : Prop := -bound ≤ x ∧ x ≤ bound

instance (bound x : Int) : Decidable (Within bound x) := inferInstanceAs (Decidable (_ ∧ _))

/-- The interval, the clock and the base time of a call. -/
def BoundedTimes (interval now : Int) (baseTime : Option Int) : Prop :=
  Within timeBound interval ∧ Within timeBound now ∧ ∀ base ∈ baseTime, Within timeBound base

instance (interval now : Int) (baseTime : Option Int) : Decidable (BoundedTimes interval now baseTime) :=
  inferInstanceAs (Decidable (_ ∧ _ ∧ _))

/-- A call whose times are within the limit. -/
def TimerCall.Bounded : TimerCall → Prop
  | .add _ _ _ interval now baseTime _ _ => BoundedTimes interval now baseTime
  | .modify _ interval now baseTime _ => BoundedTimes interval now baseTime
  | .remove _ => True

/-- How far the next times and intervals of the entries can get. An entry of the round that has been
    modified is early by an interval. -/
structure Schedule.Tame (s : Schedule) : Prop where
  queue   : ∀ i ∈ s.queue, Within (3 * timeBound) i.nextTime ∧ Within (2 * timeBound) i.interval
  pending : ∀ i ∈ s.pending, Within (5 * timeBound) i.nextTime ∧ Within (2 * timeBound) i.interval ∧
    i.nextTime + i.interval ≤ 3 * timeBound

/-- What is asked for is within twice the limit. -/
theorem firstTime_within {interval now : Int} {baseTime : Option Int} {timerPolicy : TimerPolicy}
    {iv nt : Int} (h : firstTime interval now baseTime timerPolicy = some (iv, nt))
    (hb : BoundedTimes interval now baseTime) :
    Within (2 * timeBound) nt ∧ Within (2 * timeBound) iv := by
  obtain ⟨hinterval, hnow, hbase⟩ := hb
  unfold Within at *
  rcases firstTime_cases h with ⟨-, -, ⟨base, hb, rfl, rfl⟩ | ⟨-, rfl, rfl⟩⟩ | ⟨-, rfl, hlow, hhigh⟩
  · have hnt := hbase _ hb
    omega
  · omega
  · omega

namespace Schedule

variable {s : Schedule} {script : Script} {now : Int} {fired : List Fired}

/-- A batched time is within the limit of the queue. -/
theorem batchTime_within {q : List Item} (hq : ∀ c ∈ q, Within (3 * timeBound) c.nextTime) {i : Item}
    (hi : Within (2 * timeBound) i.nextTime) : Within (3 * timeBound) (batchTime q i) := by
  rcases batchTime_cases q i with hsame | ⟨c, hc, htime, -⟩
  · rw [hsame]
    unfold Within at *
    omega
  · rw [htime]
    exact hq c hc

/-- **One call** keeps the times within their limits. -/
theorem Tame.call (h : s.Tame) {c : TimerCall} (hc : c.Bounded) : (s.call c).1.Tame := by
  have hqueue : ∀ c ∈ s.queue, Within (3 * timeBound) c.nextTime := fun c hc => (h.queue c hc).1
  refine ⟨fun j hj => ?_, fun j hj => ?_⟩
  · rcases call_queue s c hj with hj | ⟨_, _, _, _, _, _, _, _, iv, nt, rfl, hfirst, -, -, hiv, htime⟩ |
      ⟨i, hi, _, _, _, _, iv, nt, rfl, hfirst, rfl⟩
    · exact h.queue j hj
    · obtain ⟨hnt, hbound⟩ := firstTime_within hfirst hc
      rw [htime, hiv]
      exact ⟨batchTime_within hqueue hnt, hbound⟩
    · obtain ⟨hnt, hbound⟩ := firstTime_within hfirst hc
      exact ⟨batchTime_within (fun c hc => hqueue c (List.mem_filter.mp hc).1) hnt, hbound⟩
  · obtain ⟨i, hi, -, -, ⟨_, _, _, policy, iv, nt, rfl, hfirst, hiv, htime⟩ | ⟨-, htime, hiv⟩⟩ :=
      call_round s c hj
    · obtain ⟨hnt, hbound⟩ := firstTime_within hfirst hc
      have hbatch : Within (3 * timeBound) (rearm s.queue iv nt policy i).nextTime :=
        batchTime_within hqueue hnt
      rw [htime, hiv]
      unfold Within at *
      omega
    · rw [htime, hiv]
      exact h.pending i hi

/-- The calls of a callback keep the times within their limits. -/
theorem Tame.calls (h : s.Tame) {cs : List TimerCall} (hcs : ∀ c ∈ cs, c.Bounded) : (s.calls cs).Tame := by
  induction cs generalizing s with
  | nil => exact h
  | cons c cs ih => exact ih (h.call (hcs c List.mem_cons_self)) fun d hd => hcs d (List.mem_cons_of_mem _ hd)

theorem Tame.execute (h : s.Tame) (hscript : ∀ fired, ∀ c ∈ script fired, c.Bounded) (fired : List Fired)
    (i : Item) : (s.execute script fired i).1.Tame := by
  unfold Schedule.execute
  cases i.cb with
  | none => exact h
  | some cb => exact h.calls (hscript _)

/-- The time after an execution is not before the clock, and not far from it. -/
theorem following_within {nextTime interval : Int} {timerPolicy : TimerPolicy} (hpos : 0 < interval)
    (hnow : Within timeBound now) (hinterval : Within (2 * timeBound) interval)
    (hsum : nextTime + interval ≤ 3 * timeBound) :
    Within (3 * timeBound) (following now nextTime interval timerPolicy) := by
  have hgrid := gridTime_bounds now (nextTime + interval) hpos
  unfold following Within at *
  split_ifs <;> omega

/-- **One entry leaves the round** with a time within the limits. -/
theorem Tame.settle (h : s.Tame) (hok : s.Ok) (hnow : Within timeBound now) : (s.settle now).Tame := by
  unfold Schedule.settle
  cases hp : s.pending with
  | nil => exact h
  | cons i rest =>
      have hrest : ∀ j ∈ rest, j ∈ s.pending := fun j hj => hp ▸ List.mem_cons_of_mem _ hj
      have hi : i ∈ s.pending := hp ▸ List.mem_cons_self
      dsimp only
      split_ifs with hdone
      · exact ⟨h.queue, fun j hj => h.pending j (hrest j hj)⟩
      · refine ⟨fun j hj => ?_, fun j hj => h.pending j (hrest j hj)⟩
        rcases mem_enqueue.mp hj with rfl | hj
        · have hpos : 0 < i.interval := hok.cyclic i (List.mem_append_right _ hi) fun he => hdone (.inr he)
          obtain ⟨-, hinterval, hsum⟩ := h.pending i hi
          exact ⟨following_within hpos hnow hinterval hsum, hinterval⟩
        · exact h.queue j hj

/-- **One visit** keeps the times within their limits. -/
theorem Tame.visit (h : s.Tame) (hok : s.Ok) (hscript : ∀ fired, ∀ c ∈ script fired, c.Bounded)
    (hnow : Within timeBound now) (fired : List Fired) : (s.visit script now fired).1.Tame := by
  unfold Schedule.visit
  cases s.pending with
  | nil => exact h
  | cons i rest => exact (h.execute hscript fired i).settle (hok.execute script fired i) hnow

theorem Tame.visits (h : s.Tame) (hok : s.Ok) (hscript : ∀ fired, ∀ c ∈ script fired, c.Bounded)
    (hnow : Within timeBound now) (n : Nat) (fired : List Fired) : (s.visits script now n fired).1.Tame := by
  induction n generalizing s fired with
  | zero => exact h
  | succ n ih => exact ih (h.visit hok hscript hnow fired) (hok.visit script now fired) _

/-- An entry that is due is not later than the clock. -/
theorem Tame.startRound (h : s.Tame) (hnow : Within timeBound now) : (s.startRound now).Tame := by
  refine ⟨fun i hi => h.queue i (List.mem_filter.mp hi).1, fun i hi => ?_⟩
  obtain ⟨hmem, hdue⟩ := List.mem_filter.mp hi
  have hdue : i.nextTime ≤ now := of_decide_eq_true hdue
  obtain ⟨htime, hinterval⟩ := h.queue i hmem
  unfold Within at *
  omega

end Schedule

/-! ## Checked arithmetic -/

/-- What is within seven times the limit fits. -/
theorem dateTime_eq {x : Int} (h : Within (7 * timeBound) x) : dateTime x = some x := by
  unfold Within timeBound at h
  refine if_pos ?_
  unfold int64Min int64Max
  omega

/-- A remainder by an interval that is not 0. -/
theorem remainder_eq {a b : Int} (hb : b ≠ 0) (ha : Within (7 * timeBound) a) :
    remainder a b = some (a.tmod b) := by
  have hquotient : Within (7 * timeBound) (a.tdiv b) := by
    have hle : (a.tdiv b).natAbs ≤ a.natAbs := by
      rw [Int.natAbs_tdiv]
      exact Nat.div_le_self _ _
    unfold Within at *
    omega
  unfold remainder
  rw [if_neg hb, dateTime_eq hquotient]
  rfl

/-- **`calculateNextTime`** is the next time on the grid of the base time. -/
theorem calculateNextTime_eq {now base interval : Int} (hpos : 0 < interval) (hnow : Within timeBound now)
    (hbase : Within (6 * timeBound) base) (hinterval : Within (2 * timeBound) interval) :
    calculateNextTime now base interval = some (gridTime now base interval) := by
  have hdiff : Within (7 * timeBound) (now - base) := by
    unfold Within at *
    omega
  have hnonneg := Int.emod_nonneg (now - base) (Int.ne_of_gt hpos)
  have hlt := Int.emod_lt_of_pos (now - base) hpos
  -- the remainder of the source may be negative, the one of the grid is not
  have hdelay : (now - base).tmod interval =
      if (now - base).tmod interval < 0 then (now - base) % interval - interval
      else (now - base) % interval := by
    rw [Int.tmod_eq_emod]
    split_ifs <;> omega
  have hsum : Within (7 * timeBound) (now + interval) := by
    unfold Within at *
    omega
  have hgrid : Within (7 * timeBound) (gridTime now base interval) := by
    have hbounds := gridTime_bounds now base hpos
    unfold Within at *
    omega
  unfold calculateNextTime
  rw [dateTime_eq hdiff]
  simp only [Option.bind_eq_bind, Option.bind_some, remainder_eq (Int.ne_of_gt hpos) hdiff, dateTime_eq hsum]
  by_cases hneg : (now - base).tmod interval < 0
  · rw [if_pos hneg] at hdelay ⊢
    rw [hdelay, Int.sub_add_cancel, dateTime_eq (by unfold Within at *; omega)]
    exact dateTime_eq hgrid
  · rw [if_neg hneg] at hdelay ⊢
    rw [hdelay]
    exact dateTime_eq hgrid

/-- **The first time** of a timer, as `UA_Timer_add` and `UA_Timer_modify` compute it in two steps. -/
theorem firstTime_eq {interval now : Int} {baseTime : Option Int} (timerPolicy : TimerPolicy)
    (h : BoundedTimes interval now baseTime) :
    match firstTime interval now baseTime timerPolicy with
    | none => checkInterval interval now baseTime timerPolicy = some none
    | some (iv, nt) => ∃ bt, checkInterval interval now baseTime timerPolicy = some (some (iv, bt)) ∧
        initialTime iv now bt = some nt := by
  obtain ⟨hinterval, hnow, hbase⟩ := h
  unfold firstTime checkInterval
  by_cases hpos : interval ≤ 0
  · rw [if_pos hpos, if_pos hpos]
    by_cases hp : timerPolicy ≠ .once
    · rw [if_pos hp, if_pos hp]
    · rw [if_neg hp, if_neg hp]
      cases baseTime with
      | none =>
          refine ⟨none, rfl, dateTime_eq ?_⟩
          unfold Within at *
          omega
      | some base =>
          have hb := hbase base rfl
          have hback : now + (base - now) = base := by omega
          refine ⟨none, ?_, ?_⟩
          · dsimp only
            rw [dateTime_eq (by unfold Within at *; omega)]
            rfl
          · unfold initialTime
            rw [hback]
            exact dateTime_eq (by unfold Within at *; omega)
  · rw [if_neg hpos, if_neg hpos]
    cases baseTime with
    | none =>
        refine ⟨none, rfl, dateTime_eq ?_⟩
        unfold Within at *
        omega
    | some base =>
        have hb := hbase base rfl
        refine ⟨some base, rfl, calculateNextTime_eq (not_le.mp hpos) hnow ?_ ?_⟩
        · unfold Within at *
          omega
        · unfold Within at *
          omega

/-- The two tests of `findTimer2Batch`. -/
theorem intervalsFit_eq {te compare : Int} (hte : te ≠ 0) (hcompare : compare ≠ 0)
    (h : Within (2 * timeBound) te) (h' : Within (2 * timeBound) compare) :
    intervalsFit te compare = some (fits te compare) := by
  have hwide : ∀ {x : Int}, Within (2 * timeBound) x → Within (7 * timeBound) x := by
    intro x hx
    unfold Within timeBound at *
    omega
  unfold intervalsFit fits
  by_cases hlt : te < compare
  · rw [if_pos hlt, if_pos hlt, remainder_eq hte (hwide h')]
    simp only [Option.map_some, Int.dvd_iff_tmod_eq_zero]
  · rw [if_neg hlt, if_neg hlt]
    by_cases hgt : te > compare
    · rw [if_pos hgt, remainder_eq hcompare (hwide h)]
      simp only [Option.map_some, Int.dvd_iff_tmod_eq_zero]
    · obtain rfl : te = compare := by omega
      rw [if_neg hgt]
      simp

/-- **The time for the next regular execution.** -/
theorem nextExecution_eq {now nextTime interval : Int} (timerPolicy : TimerPolicy) (hpos : 0 < interval)
    (hnow : Within timeBound now) (htime : Within (5 * timeBound) nextTime)
    (hinterval : Within (2 * timeBound) interval) (hsum : nextTime + interval ≤ 3 * timeBound) :
    nextExecution now nextTime interval timerPolicy = some (following now nextTime interval timerPolicy) := by
  have hnext : Within (6 * timeBound) (nextTime + interval) := by
    unfold Within at *
    omega
  unfold nextExecution following
  rw [dateTime_eq (by unfold Within at *; omega)]
  simp only [Option.bind_eq_bind, Option.bind_some]
  by_cases hlate : nextTime + interval < now
  · rw [if_pos hlate, if_pos hlate]
    by_cases hp : timerPolicy = .currentTime
    · rw [if_pos hp, if_pos hp]
      exact dateTime_eq (by unfold Within at *; omega)
    · rw [if_neg hp, if_neg hp]
      exact calculateNextTime_eq hpos hnow hnext hinterval
  · rw [if_neg hlate, if_neg hlate]
    rfl

end Open62541
end Esp32Probes
