import Esp32Probes.Open62541.TimerRuns

/-!
# Open62541.TimerRounds — what a round of the schedule does

Four invariants of the visits of a round, each proved for one call, then for the calls of a callback, then for
one visit, then for all of them:

- `Pends`: the entries of the round still have the callbacks and the data with which the round started, except
  those that were removed since.
- `Gone`: a removed id is not executed any more.
- `Paced`: a cyclic entry that nobody modifies keeps its interval and moves on by at least one interval with
  each execution.
- `Current`: no entry of the queue is overdue.
-/

namespace Esp32Probes
namespace Open62541

open CHeap (Addr Heap)

namespace Schedule

variable {s : Schedule} {script : Script} {now : Int} {fired : List Fired}

/-! ## What is executed -/

/-- The ids that these calls remove. -/
def removedIds (cs : List TimerCall) : List Nat := cs.filterMap fun
  | .remove id => some id
  | _ => none

/-- The executions of a round with these entries: each entry once and in order, unless a callback that ran
    before has removed it. -/
def roundOf (script : Script) : List Fired → List Nat → List Fired → List Fired
  | fired, _, [] => fired
  | fired, removed, f :: due =>
    if f.id ∈ removed then roundOf script fired removed due
    else roundOf script (fired ++ [f]) (removed ++ removedIds (script (fired ++ [f]))) due

/-- An entry of the round and its execution, when these ids have been removed. -/
def Pends (removed : List Nat) (i : Item) (f : Fired) : Prop :=
  i.id = f.id ∧ i.application = f.application ∧ i.data = f.data ∧
    i.cb = if f.id ∈ removed then none else some f.cb

/-- A change of one entry of the round, and what is still expected of the entries. -/
theorem forall₂_change {removed : List Nat} {fs : List Fired} {g : Item → Item} {id : Nat}
    (h : List.Forall₂ (Pends removed) s.pending fs) {removed' : List Nat}
    (hg : ∀ i f, Pends removed i f → Pends removed' (if i.id = id then g i else i) f) :
    List.Forall₂ (Pends removed') (s.change id g).pending fs := by
  unfold change
  exact List.forall₂_map_left_iff.mpr (h.imp fun i f hif => hg i f hif)

/-- Only a removal changes what an entry of the round is going to execute. -/
theorem call_pends {removed : List Nat} {fs : List Fired} (h : List.Forall₂ (Pends removed) s.pending fs)
    (c : TimerCall) : List.Forall₂ (Pends (removed ++ removedIds [c])) (s.call c).1.pending fs := by
  cases c with
  | add cb application data interval now baseTime policy pick =>
      have hpending : (s.add cb application data interval now baseTime policy pick).1.pending =
        s.pending := by
        rcases add_cases s cb application data interval now baseTime policy pick with
          ⟨status, heq, -⟩ | ⟨c, iv, nt, a, i, -, -, -, -, -, heq⟩ <;> rw [heq]
      show List.Forall₂ (Pends (removed ++ []))
        (s.add cb application data interval now baseTime policy pick).1.pending fs
      rw [hpending, List.append_nil]
      exact h
  | modify id interval now baseTime policy =>
      show List.Forall₂ (Pends (removed ++ [])) (s.modify id interval now baseTime policy).1.pending fs
      rw [List.append_nil]
      unfold Schedule.modify
      cases firstTime interval now baseTime policy with
      | none => exact h
      | some times =>
          cases s.queue.find? (fun i => i.id = id) with
          | some i => exact h
          | none =>
              dsimp only
              split_ifs
              · refine forall₂_change h fun i f hif => ?_
                split_ifs
                · exact hif
                · exact hif
              · exact h
  | remove id =>
      refine forall₂_change (s := { s with queue := s.queue.filter fun i => i.id ≠ id }) h fun i f hif => ?_
      obtain ⟨hid, happ, hdata, hcb⟩ := hif
      show Pends (removed ++ [id]) _ f
      by_cases hi : i.id = id
      · rw [if_pos hi]
        exact ⟨hid, happ, hdata, (if_pos (List.mem_append_right _ (by simp [← hid, hi]))).symm⟩
      · rw [if_neg hi]
        refine ⟨hid, happ, hdata, hcb.trans ?_⟩
        have hmem : f.id ∈ removed ++ [id] ↔ f.id ∈ removed := by
          rw [List.mem_append, List.mem_singleton]
          exact or_iff_left fun he => hi (hid.trans he)
        rw [if_congr hmem rfl rfl]

/-- What is still expected after the calls of a callback: nothing of the ids that it removed. -/
theorem calls_pends {removed : List Nat} {fs : List Fired} (h : List.Forall₂ (Pends removed) s.pending fs)
    (cs : List TimerCall) : List.Forall₂ (Pends (removed ++ removedIds cs)) (s.calls cs).pending fs := by
  induction cs generalizing s removed with
  | nil =>
      show List.Forall₂ (Pends (removed ++ [])) s.pending fs
      rw [List.append_nil]
      exact h
  | cons c cs ih =>
      have hsplit : removedIds (c :: cs) = removedIds [c] ++ removedIds cs := by
        unfold removedIds
        rw [← List.filterMap_append]
        rfl
      rw [hsplit, ← List.append_assoc]
      exact ih (call_pends h c)

/-- The first entry leaves the round. -/
theorem settle_pending (s : Schedule) (now : Int) : (s.settle now).pending = s.pending.tail := by
  unfold settle
  cases hp : s.pending with
  | nil => rw [hp]; rfl
  | cons i rest =>
      dsimp only
      split_ifs <;> rfl

/-- **A round** executes `roundOf`, whatever its callbacks add or modify. -/
theorem visits_fired {removed : List Nat} {fs : List Fired} (h : List.Forall₂ (Pends removed) s.pending fs) :
    (s.visits script now fs.length fired).2 = roundOf script fired removed fs := by
  induction fs generalizing s fired removed with
  | nil => rfl
  | cons f fs ih =>
      obtain ⟨i, rest, hif, hrest, hp⟩ := List.forall₂_cons_right_iff.mp h
      obtain ⟨hid, happ, hdata, hcb⟩ := hif
      show ((s.visit script now fired).1.visits script now fs.length (s.visit script now fired).2).2 = _
      unfold roundOf visit
      rw [hp]
      dsimp only
      by_cases hf : f.id ∈ removed
      · rw [if_pos hf] at hcb
        rw [if_pos hf]
        have hexec : s.execute script fired i = (s, fired) := by
          unfold execute
          rw [hcb]
        rw [hexec]
        refine ih ?_
        rw [settle_pending, hp]
        exact hrest
      · rw [if_neg hf] at hcb
        rw [if_neg hf]
        have hexec : s.execute script fired i = (s.calls (script (fired ++ [f])), fired ++ [f]) := by
          unfold execute
          rw [hcb, hid, happ, hdata]
        rw [hexec]
        refine ih ?_
        rw [settle_pending]
        have hcalls := calls_pends h (script (fired ++ [f]))
        obtain ⟨i', rest', -, hrest', hp'⟩ := List.forall₂_cons_right_iff.mp hcalls
        rw [hp']
        exact hrest'

/-! ## Removed ids -/

/-- The id has been handed out and its entry is not going to be executed. -/
structure Gone (id : Nat) (s : Schedule) : Prop where
  old     : id ≤ s.idCounter
  queue   : ∀ i ∈ s.queue, i.id ≠ id
  pending : ∀ i ∈ s.pending, i.id = id → i.cb = none

/-- After its removal an id that was handed out is gone. -/
theorem gone_remove {id : Nat} (h : id ≤ s.idCounter) : Gone id (s.remove id) := by
  refine ⟨h, fun i hi => of_decide_eq_true (List.mem_filter.mp hi).2, fun j hj hid => ?_⟩
  obtain ⟨i, -, hij⟩ := List.mem_map.mp hj
  dsimp only at hij
  split_ifs at hij with hi
  · subst hij
    rfl
  · subst hij
    exact absurd hid hi

/-- **One call** does not bring an id back. -/
theorem Gone.call {id : Nat} (h : Gone id s) (c : TimerCall) : Gone id (s.call c).1 := by
  refine ⟨le_trans h.old (call_counter s c), fun j hj => ?_, fun j hj hid => ?_⟩
  · rcases call_queue s c hj with hj | ⟨_, _, _, _, _, _, _, _, _, _, -, -, hid, -⟩ | ⟨i, hi, _, _, _, _, _,
      _, -, -, rfl⟩
    · exact h.queue j hj
    · have hold := h.old
      omega
    · exact h.queue i hi
  · obtain ⟨i, hi, hji, hcb, -⟩ := call_round s c hj
    exact hcb (h.pending i hi (hji ▸ hid))

theorem Gone.calls {id : Nat} (h : Gone id s) (cs : List TimerCall) : Gone id (s.calls cs) := by
  induction cs generalizing s with
  | nil => exact h
  | cons c cs ih => exact ih (h.call c)

/-- A removal among the calls of a callback. -/
theorem gone_calls {id : Nat} (h : id ≤ s.idCounter) {cs : List TimerCall} (hcs : .remove id ∈ cs) :
    Gone id (s.calls cs) := by
  induction cs generalizing s with
  | nil => cases hcs
  | cons c cs ih =>
      rcases List.mem_cons.mp hcs with rfl | hcs
      · exact (gone_remove h).calls cs
      · exact ih (le_trans h (call_counter s c)) hcs

/-- What is gone is not put back into the queue. -/
theorem Gone.settle {id : Nat} (h : Gone id s) (now : Int) : Gone id (s.settle now) := by
  unfold Schedule.settle
  cases hp : s.pending with
  | nil => exact h
  | cons i rest =>
      have hrest : ∀ j ∈ rest, j.id = id → j.cb = none := fun j hj =>
        h.pending j (hp ▸ List.mem_cons_of_mem _ hj)
      dsimp only
      split_ifs with hdone
      · exact ⟨h.old, h.queue, hrest⟩
      · refine ⟨h.old, fun j hj => ?_, hrest⟩
        rcases mem_enqueue.mp hj with rfl | hj
        · exact fun hid => hdone (.inl (h.pending i (hp ▸ List.mem_cons_self) hid))
        · exact h.queue j hj

/-- A visit executes at most the first entry, and not a removed one. -/
theorem visit_fired (script : Script) (now : Int) (s : Schedule) (fired : List Fired) :
    ((s.visit script now fired).2 = fired ∧ (s.visit script now fired).1 = s.settle now) ∨
    ∃ i rest cb, s.pending = i :: rest ∧ i.cb = some cb ∧
      (s.visit script now fired).2 = fired ++ [⟨i.id, cb, i.application, i.data⟩] ∧
      (s.visit script now fired).1 =
        (s.calls (script (fired ++ [⟨i.id, cb, i.application, i.data⟩]))).settle now := by
  unfold visit
  cases hp : s.pending with
  | nil =>
      refine .inl ⟨rfl, ?_⟩
      unfold settle
      rw [hp]
  | cons i rest =>
      dsimp only
      unfold execute
      cases hcb : i.cb with
      | none => exact .inl ⟨rfl, rfl⟩
      | some cb => exact .inr ⟨i, rest, cb, rfl, hcb, rfl, rfl⟩

/-- **One visit** does not execute what is gone. -/
theorem Gone.visit {id : Nat} (h : Gone id s) (script : Script) (now : Int) (fired : List Fired) :
    Gone id (s.visit script now fired).1 ∧
      ∃ new, (s.visit script now fired).2 = fired ++ new ∧ ∀ f ∈ new, f.id ≠ id := by
  rcases visit_fired script now s fired with ⟨hf, hs⟩ | ⟨i, rest, cb, hp, hcb, hf, hs⟩
  · rw [hf, hs]
    exact ⟨h.settle now, [], by rw [List.append_nil], fun f hf => by cases hf⟩
  · rw [hf, hs]
    refine ⟨(h.calls _).settle now, _, rfl, fun f hf hid => ?_⟩
    rw [List.mem_singleton.mp hf] at hid
    have hnone := h.pending i (hp ▸ List.mem_cons_self) hid
    rw [hcb] at hnone
    cases hnone

theorem Gone.visits {id : Nat} (h : Gone id s) (script : Script) (now : Int) (n : Nat) (fired : List Fired) :
    Gone id (s.visits script now n fired).1 ∧
      ∃ new, (s.visits script now n fired).2 = fired ++ new ∧ ∀ f ∈ new, f.id ≠ id := by
  induction n generalizing s fired with
  | zero => exact ⟨h, [], by rw [List.append_nil]; rfl, fun f hf => by cases hf⟩
  | succ n ih =>
      obtain ⟨hgone, new, hnew, hids⟩ := h.visit script now fired
      obtain ⟨hgone', new', hnew', hids'⟩ := ih hgone (s.visit script now fired).2
      refine ⟨hgone', new ++ new', ?_, fun f hf => ?_⟩
      · rw [← List.append_assoc, ← hnew]
        exact hnew'
      · rcases List.mem_append.mp hf with hf | hf
        · exact hids f hf
        · exact hids' f hf

/-- **A removal inside a callback** holds from the next entry of the round on. -/
theorem visits_removed {id : Nat} (h : id ≤ s.idCounter) (script : Script) (now : Int) (n : Nat)
    (fired : List Fired) :
    ∃ new, (s.visits script now n fired).2 = fired ++ new ∧ ∀ pre x post, new = pre ++ x :: post →
      .remove id ∈ script (fired ++ (pre ++ [x])) →
      Gone id (s.visits script now n fired).1 ∧ ∀ f ∈ post, f.id ≠ id := by
  induction n generalizing s fired with
  | zero => exact ⟨[], by rw [List.append_nil]; rfl, fun pre x post he => by simp at he⟩
  | succ n ih =>
      have hcounter : id ≤ (s.visit script now fired).1.idCounter :=
        le_trans h (visit_counter script now s fired)
      obtain ⟨new, hnew, hids⟩ := ih hcounter (s.visit script now fired).2
      have hall : (s.visits script now (n + 1) fired) =
          (s.visit script now fired).1.visits script now n (s.visit script now fired).2 := rfl
      rw [hall]
      rcases visit_fired script now s fired with ⟨hf, hs⟩ | ⟨i, rest, cb, hp, hcb, hf, hs⟩
      · rw [hf] at hnew hids ⊢
        exact ⟨new, hnew, hids⟩
      · refine ⟨⟨i.id, cb, i.application, i.data⟩ :: new, ?_, fun pre x post hsplit hremove => ?_⟩
        · rw [hnew, hf, List.append_assoc]
          rfl
        · cases pre with
          | nil =>
              -- the callback that removes is the one of this visit
              obtain ⟨rfl, rfl⟩ := List.cons.inj hsplit
              have hgone : Gone id (s.visit script now fired).1 := by
                rw [hs]
                exact (gone_calls h hremove).settle now
              obtain ⟨hgone', new', hnew', hids'⟩ := hgone.visits script now n (s.visit script now fired).2
              have hsame : new = new' := List.append_cancel_left (hnew.symm.trans hnew')
              exact ⟨hgone', hsame ▸ hids'⟩
          | cons f pre =>
              rw [List.cons_append] at hsplit
              obtain ⟨rfl, hrest⟩ := List.cons.inj hsplit
              refine hids pre x post hrest ?_
              rw [hf, List.append_assoc]
              exact hremove

/-! ## The pace of a cyclic entry -/

/-- How often the timer with this id has been executed. -/
def executions (id : Nat) (fired : List Fired) : Nat := (fired.map Fired.id).count id

theorem executions_append (id : Nat) (fired : List Fired) (f : Fired) :
    executions id (fired ++ [f]) = executions id fired + if f.id = id then 1 else 0 := by
  unfold executions
  rw [List.map_append, List.count_append, List.map_singleton, List.count_singleton]
  by_cases h : f.id = id <;> simp [h]

/-- The call does not change the timing of this id. -/
def Leaves (id : Nat) (c : TimerCall) : Prop :=
  ∀ interval now baseTime policy, c ≠ .modify id interval now baseTime policy

/-- The entry with this id has its interval and its policy, and its next time is at least `base` and one
    interval for each execution; with a base time it stays in phase. -/
structure Paced (id : Nat) (interval base : Int) (policy : TimerPolicy) (n : Nat) (s : Schedule) : Prop where
  old   : id ≤ s.idCounter
  items : ∀ i ∈ s.items, i.id = id → i.timerPolicy = policy ∧ i.interval = interval ∧
    base + n * interval ≤ i.nextTime ∧ (policy = .baseTime → interval ∣ i.nextTime - base)

variable {id : Nat} {interval base : Int} {policy : TimerPolicy} {n : Nat}

/-- **One call** that leaves the timer alone keeps its pace. -/
theorem Paced.call (h : Paced id interval base policy n s) {c : TimerCall} (hc : Leaves id c) :
    Paced id interval base policy n (s.call c).1 := by
  refine ⟨le_trans h.old (call_counter s c), fun j hj hid => ?_⟩
  rcases List.mem_append.mp hj with hj | hj
  · rcases call_queue s c hj with hj | ⟨_, _, _, _, _, _, _, _, _, _, -, -, hnew, -⟩ |
      ⟨i, hi, iv, nw, bt, p, _, _, hmodify, -, hji⟩
    · exact h.items j (List.mem_append_left _ hj) hid
    · have hold := h.old
      omega
    · have hii : i.id = id := by rw [← hid, hji]; rfl
      exact absurd (hii ▸ hmodify) (hc iv nw bt p)
  · obtain ⟨i, hi, hji, -, ⟨iv, nw, bt, p, _, _, hmodify, -⟩ | ⟨hpol, htime, hiv⟩⟩ := call_round s c hj
    · exact absurd ((hji.symm.trans hid) ▸ hmodify) (hc iv nw bt p)
    · rw [hpol, htime, hiv]
      exact h.items i (List.mem_append_right _ hi) (hji.symm.trans hid)

theorem Paced.calls (h : Paced id interval base policy n s) {cs : List TimerCall}
    (hcs : ∀ c ∈ cs, Leaves id c) :
    Paced id interval base policy n (s.calls cs) := by
  induction cs generalizing s with
  | nil => exact h
  | cons c cs ih => exact ih (h.call (hcs c List.mem_cons_self)) fun d hd => hcs d (List.mem_cons_of_mem _ hd)

/-- Its next time is not after the time of the round while it is to be processed. -/
def Due (id : Nat) (now : Int) (s : Schedule) : Prop := ∀ i ∈ s.pending, i.id = id → i.nextTime ≤ now

/-- The entry stays due while the callbacks leave it alone. -/
theorem Due.calls (h : Due id now s) {cs : List TimerCall} (hcs : ∀ c ∈ cs, Leaves id c) :
    Due id now (s.calls cs) := by
  induction cs generalizing s with
  | nil => exact h
  | cons c cs ih =>
      refine ih (fun j hj hid => ?_) fun d hd => hcs d (List.mem_cons_of_mem _ hd)
      obtain ⟨i, hi, hji, -, ⟨iv, nw, bt, p, _, _, hmodify, -⟩ | ⟨-, htime, -⟩⟩ := call_round s c hj
      · exact absurd ((hji.symm.trans hid) ▸ hmodify) (hcs c List.mem_cons_self iv nw bt p)
      · rw [htime]
        exact h i hi (hji.symm.trans hid)

/-- The next execution is at least one interval later, and in phase unless the policy is the current time. -/
theorem following_late (now nextTime : Int) (policy : TimerPolicy) (hpos : 0 < interval) :
    nextTime + interval ≤ following now nextTime interval policy ∧
    now ≤ following now nextTime interval policy ∧
      (policy ≠ .currentTime → interval ∣ following now nextTime interval policy - nextTime) := by
  unfold following
  by_cases hlate : nextTime + interval < now
  · rw [if_pos hlate]
    by_cases hp : policy = .currentTime
    · rw [if_pos hp]
      exact ⟨by omega, by omega, fun hne => absurd hp hne⟩
    · rw [if_neg hp]
      have hlt := Int.emod_lt_of_pos (now - (nextTime + interval)) hpos
      have hsub : interval ∣ (now - (nextTime + interval)) - (now - (nextTime + interval)) % interval :=
        Int.dvd_self_sub_emod
      unfold gridTime
      refine ⟨by omega, by omega, fun _ => ?_⟩
      obtain ⟨k, hk⟩ := hsub
      have hmul := Int.mul_add interval k 2
      exact ⟨k + 2, by omega⟩
  · rw [if_neg hlate]
    exact ⟨le_refl _, by omega, fun _ => ⟨1, by omega⟩⟩

/-- Another entry leaves the round. -/
theorem Paced.settle_other (h : Paced id interval base policy n s) (now : Int)
    (hhead : ∀ i ∈ s.pending.head?, i.id ≠ id) : Paced id interval base policy n (s.settle now) := by
  refine ⟨h.old.trans_eq (settle_counter s now).symm, fun j hj hid => ?_⟩
  unfold Schedule.settle at hj
  cases hp : s.pending with
  | nil =>
      rw [hp] at hj
      exact h.items j hj hid
  | cons i rest =>
      rw [hp] at hj hhead
      have hrest : ∀ j ∈ rest, j ∈ s.items :=
        fun j hj => List.mem_append_right _ (hp ▸ List.mem_cons_of_mem _ hj)
      dsimp only at hj
      split_ifs at hj
      · rcases List.mem_append.mp hj with hj | hj
        · exact h.items j (List.mem_append_left _ hj) hid
        · exact h.items j (hrest j hj) hid
      · rcases List.mem_append.mp hj with hj | hj
        · rcases mem_enqueue.mp hj with rfl | hj
          · exact absurd hid (hhead i rfl)
          · exact h.items j (List.mem_append_left _ hj) hid
        · exact h.items j (hrest j hj) hid

/-- The entry itself leaves the round: it is dropped, or its next time is at least one interval later. -/
theorem Paced.settle_own (h : Paced id interval base policy n s) (hok : s.Ok) (hpos : 0 < interval)
    (now : Int) {i : Item} {rest : List Item} (hp : s.pending = i :: rest) (hi : i.id = id) :
    Paced id interval base policy (n + 1) (s.settle now) := by
  have hitems : i ∈ s.items := List.mem_append_right _ (hp ▸ List.mem_cons_self)
  -- no other entry has this id
  have hqueue : ∀ j ∈ s.queue, j.id ≠ id := by
    have hn := hok.ids
    unfold Schedule.items at hn
    rw [List.map_append] at hn
    exact fun j hj he => (List.nodup_append.mp hn).2.2 _ (List.mem_map_of_mem hj) _
      (List.mem_map_of_mem (hp ▸ List.mem_cons_self)) (he.trans hi.symm)
  have hrest : ∀ j ∈ rest, j.id ≠ id := by
    have hn := hok.ids
    unfold Schedule.items at hn
    rw [hp, List.map_append, List.map_cons] at hn
    have hcons := (List.nodup_cons.mp (List.nodup_append.mp hn).2.1).1
    exact fun j hj he => hcons (hi ▸ he ▸ List.mem_map_of_mem hj)
  obtain ⟨hpol, hiv, htime, hphase⟩ := h.items i hitems hi
  refine ⟨h.old.trans_eq (settle_counter s now).symm, fun j hj hid => ?_⟩
  unfold Schedule.settle at hj
  rw [hp] at hj
  dsimp only at hj
  split_ifs at hj with hdone
  · rcases List.mem_append.mp hj with hj | hj
    · exact absurd hid (hqueue j hj)
    · exact absurd hid (hrest j hj)
  · rcases List.mem_append.mp hj with hj | hj
    · rcases mem_enqueue.mp hj with rfl | hj
      · have hown : 0 < i.interval := hiv ▸ hpos
        obtain ⟨hlate, -, hdvd⟩ := following_late now i.nextTime i.timerPolicy hown
        have hagain : (again now i).nextTime = following now i.nextTime i.interval i.timerPolicy := rfl
        refine ⟨hpol, hiv, ?_, fun hbase => ?_⟩
        · rw [hagain]
          have hmul := Int.add_mul n 1 interval
          push_cast
          omega
        · rw [hagain]
          have hstep : i.interval ∣ following now i.nextTime i.interval i.timerPolicy - i.nextTime :=
            hdvd (by rw [hpol, hbase]; decide)
          rw [hiv] at hstep
          have hsum : following now i.nextTime interval i.timerPolicy - base =
              following now i.nextTime interval i.timerPolicy - i.nextTime + (i.nextTime - base) := by omega
          rw [hiv, hsum]
          exact Int.dvd_add hstep (hphase hbase)
      · exact absurd hid (hqueue j hj)
    · exact absurd hid (hrest j hj)

/-- A timer in the pace of one execution more is in pace. -/
theorem Paced.weaken (h : Paced id interval base policy (n + 1) s) (hpos : 0 < interval) :
    Paced id interval base policy n s := by
  refine ⟨h.old, fun i hi hid => ?_⟩
  obtain ⟨hpol, hiv, htime, hphase⟩ := h.items i hi hid
  have hmul := Int.add_mul n 1 interval
  push_cast at htime
  exact ⟨hpol, hiv, by omega, hphase⟩

/-- **One visit**: the entry is executed only when it is due, and then moves on by an interval. -/
theorem Paced.visit (h : Paced id interval base policy (executions id fired) s) (hok : s.Ok)
    (hpos : 0 < interval) (hdue : Due id now s) (hscript : ∀ fired, ∀ c ∈ script fired, Leaves id c) :
    Paced id interval base policy (executions id (s.visit script now fired).2) (s.visit script now fired).1 ∧
      Due id now (s.visit script now fired).1 ∧
      (executions id (s.visit script now fired).2 = executions id fired ∨
        executions id (s.visit script now fired).2 = executions id fired + 1 ∧
          base + executions id fired * interval ≤ now) := by
  have hduesettle : ∀ {s : Schedule}, Due id now s → Due id now (s.settle now) := fun {s} hdue j hj hid => by
    rw [settle_pending] at hj
    exact hdue j (List.mem_of_mem_tail hj) hid
  rcases visit_fired script now s fired with ⟨hf, hs⟩ | ⟨i, rest, cb, hp, hcb, hf, hs⟩
  · rw [hf, hs]
    refine ⟨?_, hduesettle hdue, .inl rfl⟩
    by_cases hhead : ∀ i ∈ s.pending.head?, i.id ≠ id
    · exact h.settle_other now hhead
    · obtain ⟨i, hi, hid⟩ : ∃ i ∈ s.pending.head?, i.id = id := by simpa using hhead
      obtain ⟨rest, hp⟩ := List.head?_eq_some_iff.mp hi
      exact (h.settle_own hok hpos now hp hid).weaken hpos
  · have hcs := hscript (fired ++ [⟨i.id, cb, i.application, i.data⟩])
    have haddrs := (calls_pending s (script (fired ++ [⟨i.id, cb, i.application, i.data⟩]))).2
    rw [hp] at haddrs
    obtain ⟨i₁, rest₁, hp₁, hi₁, -⟩ := List.map_eq_cons_iff.mp haddrs
    have hcalls := h.calls hcs
    have hokcalls := hok.calls (script (fired ++ [⟨i.id, cb, i.application, i.data⟩]))
    rw [hf, hs, executions_append]
    by_cases hid : i.id = id
    · rw [if_pos hid]
      refine ⟨hcalls.settle_own hokcalls hpos now hp₁ (hi₁.trans hid), hduesettle (hdue.calls hcs),
        .inr ⟨rfl, ?_⟩⟩
      have hi : i ∈ s.pending := hp ▸ List.mem_cons_self
      exact le_trans (h.items i (List.mem_append_right _ hi) hid).2.2.1 (hdue i hi hid)
    · rw [if_neg hid, Nat.add_zero]
      refine ⟨hcalls.settle_other now fun j hj => ?_, hduesettle (hdue.calls hcs), .inl rfl⟩
      rw [hp₁] at hj
      obtain rfl := Option.some.inj hj
      exact fun he => hid (hi₁.symm.trans he)

/-- **The visits of a round** keep the pace. -/
theorem Paced.visits (h : Paced id interval base policy (executions id fired) s) (hok : s.Ok)
    (hpos : 0 < interval) (hdue : Due id now s) (hscript : ∀ fired, ∀ c ∈ script fired, Leaves id c)
    (n : Nat) :
    Paced id interval base policy (executions id (s.visits script now n fired).2)
        (s.visits script now n fired).1 ∧
      (executions id (s.visits script now n fired).2 = executions id fired ∨
        base + ((executions id (s.visits script now n fired).2 : Int) - 1) * interval ≤ now) := by
  induction n generalizing s fired with
  | zero => exact ⟨h, .inl rfl⟩
  | succ n ih =>
      obtain ⟨hpaced, hdue', hcount⟩ := h.visit hok hpos hdue hscript
      obtain ⟨hpaced', hcount'⟩ := ih hpaced (hok.visit script now fired) hdue'
      refine ⟨hpaced', ?_⟩
      show executions id ((s.visit script now fired).1.visits script now n (s.visit script now fired).2).2 =
        _ ∨ _
      rcases hcount' with hsame | hbound
      · rcases hcount with hzero | ⟨hone, hnow⟩
        · exact .inl (hsame.trans hzero)
        · refine .inr ?_
          show base + ((executions id ((s.visit script now fired).1.visits script now n
            (s.visit script now fired).2).2 : Int) - 1) * interval ≤ now
          rw [hsame, hone]
          push_cast
          rw [Int.add_sub_cancel]
          exact hnow
      · exact .inr hbound

/-! ## Overdue entries -/

/-- The call reads a clock that is not behind and asks for a positive interval. -/
def Punctual (now : Int) : TimerCall → Prop
  | .add _ _ _ interval clock _ _ _ => 0 < interval ∧ now ≤ clock
  | .modify _ interval clock _ _ => 0 < interval ∧ now ≤ clock
  | .remove _ => True

/-- No entry of the queue is overdue. -/
def Current (now : Int) (s : Schedule) : Prop := ∀ i ∈ s.queue, now ≤ i.nextTime

/-- The first time is after the clock. -/
theorem firstTime_late {interval clock : Int} {baseTime : Option Int} {policy : TimerPolicy} {iv nt : Int}
    (hpos : 0 < interval) (h : firstTime interval clock baseTime policy = some (iv, nt)) :
    iv = interval ∧ clock < nt ∧ nt ≤ clock + interval := by
  rcases firstTime_cases h with ⟨hneg, -⟩ | ⟨-, hlate⟩
  · omega
  · exact hlate

/-- Batching moves a time only to another one that is not overdue. -/
theorem Current.batchTime {q : List Item} (hq : ∀ c ∈ q, now ≤ c.nextTime) {i : Item}
    (hi : now ≤ i.nextTime) :
    now ≤ batchTime q i := by
  rcases batchTime_cases q i with hsame | ⟨c, hc, htime, -⟩
  · rw [hsame]
    exact hi
  · rw [htime]
    exact hq c hc

/-- **One call** with a clock that is not behind leaves nothing overdue. -/
theorem Current.call (h : Current now s) {c : TimerCall} (hc : Punctual now c) :
    Current now (s.call c).1 := by
  intro j hj
  rcases call_queue s c hj with hj | ⟨cb, app, data, interval, clock, bt, policy, pick, iv, nt, rfl, hfirst,
    -, -, -, htime⟩ |
    ⟨i, hi, interval, clock, bt, policy, iv, nt, rfl, hfirst, rfl⟩
  · exact h j hj
  · obtain ⟨-, hlate, -⟩ := firstTime_late hc.1 hfirst
    rw [htime]
    have hnow : now ≤ nt := le_trans hc.2 (le_of_lt hlate)
    exact Current.batchTime h hnow
  · obtain ⟨-, hlate, -⟩ := firstTime_late hc.1 hfirst
    have hnow : now ≤ nt := le_trans hc.2 (le_of_lt hlate)
    exact Current.batchTime (fun c hc => h c (List.mem_filter.mp hc).1) hnow

theorem Current.calls (h : Current now s) {cs : List TimerCall} (hcs : ∀ c ∈ cs, Punctual now c) :
    Current now (s.calls cs) := by
  induction cs generalizing s with
  | nil => exact h
  | cons c cs ih => exact ih (h.call (hcs c List.mem_cons_self)) fun d hd => hcs d (List.mem_cons_of_mem _ hd)

/-- An entry that is put back is not overdue. -/
theorem Current.settle (h : Current now s) (hok : s.Ok) : Current now (s.settle now) := by
  intro j hj
  unfold Schedule.settle at hj
  cases hp : s.pending with
  | nil =>
      rw [hp] at hj
      exact h j hj
  | cons i rest =>
      rw [hp] at hj
      dsimp only at hj
      split_ifs at hj with hdone
      · exact h j hj
      · rcases mem_enqueue.mp hj with rfl | hj
        · have hpos : 0 < i.interval :=
            hok.cyclic i (List.mem_append_right _ (hp ▸ List.mem_cons_self)) fun he => hdone (.inr he)
          exact (following_late now i.nextTime i.timerPolicy hpos).2.1
        · exact h j hj

/-- **The visits of a round** leave nothing overdue. -/
theorem Current.visits (h : Current now s) (hok : s.Ok)
    (hscript : ∀ fired, ∀ c ∈ script fired, Punctual now c) (n : Nat) (fired : List Fired) :
    Current now (s.visits script now n fired).1 := by
  induction n generalizing s fired with
  | zero => exact h
  | succ n ih =>
      have hvisit : Current now (s.visit script now fired).1 := by
        rcases visit_fired script now s fired with ⟨-, hs⟩ | ⟨i, rest, cb, -, -, -, hs⟩
        · rw [hs]
          exact h.settle hok
        · rw [hs]
          exact (h.calls (hscript _)).settle (hok.calls _)
      exact ih hvisit (hok.visit script now fired) _

end Schedule

end Open62541
end Esp32Probes
