import Esp32Probes.Open62541.TimerRefines

/-!
# Open62541.TimerCalls — the calls of the interface

`UA_Timer_add`, `UA_Timer_modify` and `UA_Timer_remove` on the timer in memory: each ends, answers what the
schedule answers and keeps the simulation, also while a round is being processed.
-/

namespace Esp32Probes
namespace Open62541

open CHeap (Addr Heap)
open ZipTree (inorder IsZip)

variable {t : Timer} {s : Schedule} {T I : BinaryTree Addr} {a : Addr}

/-- The timer after a call that the schedule answers with `s'`. -/
def Reaches (t : Timer) (s : Schedule) (t' : Timer) (s' : Schedule) : Prop :=
  ∃ T' I', Sim t' s' T' I' ∧ Keeps (s.pending.map Item.addr) t.heap t'.heap

theorem Sim.reaches (h : Sim t s T I) : Reaches t s t s := ⟨T, I, h, Keeps.refl _ _⟩

/-- An entry with the times asked for can be batched with the queue. -/
theorem Schedule.Tame.batchBounds (h : s.Tame) {i : Item} (hnt : Within (2 * timeBound) i.nextTime)
    (hiv : Within (2 * timeBound) i.interval) : BatchBounds s.queue i :=
  ⟨fun j hj => (h.queue j hj).2, hnt, hiv⟩

/-- **`UA_Timer_add`** does what the schedule does, unless the counter of the ids wraps. -/
theorem timerAdd_sim (h : Sim t s T I) (htame : s.Tame) (callback : Option Callback) (application data : Nat)
    {interval now : Int} {baseTime : Option Int} (hb : BoundedTimes interval now baseTime)
    (timerPolicy : TimerPolicy) (pick : Option Addr)
    (hcounter : (s.add callback application data interval now baseTime timerPolicy pick).1.idCounter <
      2 ^ 64) :
    ∃ t', timerAdd t callback application data interval now baseTime timerPolicy pick =
        some (t', (s.add callback application data interval now baseTime timerPolicy pick).2) ∧
      Reaches t s t' (s.add callback application data interval now baseTime timerPolicy pick).1 := by
  revert hcounter
  unfold timerAdd Schedule.add
  cases callback with
  | none => exact fun _ => ⟨t, rfl, h.reaches⟩
  | some cb =>
      have hfirst := firstTime_eq timerPolicy hb
      cases htimes : firstTime interval now baseTime timerPolicy with
      | none =>
          rw [htimes] at hfirst
          simp only [hfirst, Option.bind_eq_bind, Option.bind_some]
          exact fun _ => ⟨t, rfl, h.reaches⟩
      | some times =>
          obtain ⟨iv, nt⟩ := times
          rw [htimes] at hfirst
          obtain ⟨bt, hcheck, hinit⟩ := hfirst
          obtain ⟨hnt, hiv⟩ := firstTime_within htimes hb
          simp only [hcheck, hinit, Option.bind_eq_bind, Option.bind_some]
          cases pick with
          | none => exact fun _ => ⟨t, rfl, h.reaches⟩
          | some a =>
              by_cases ha : a ∈ t.heap.live
              · have hmem : a ∈ s.items.map Item.addr := not_not.mp (mt h.not_live.mpr (not_not.mpr ha))
                simp only [Heap.malloc, if_pos ha, if_pos hmem]
                exact fun _ => ⟨t, rfl, h.reaches⟩
              · have hmem : a ∉ s.items.map Item.addr := h.not_live.mp ha
                simp only [CHeap.malloc_eq ha, if_neg hmem]
                intro hcounter
                -- the counter does not wrap
                have hwrap : (t.idCounter + 1) % 2 ^ 64 = t.idCounter + 1 :=
                  Nat.mod_eq_of_lt (h.counter ▸ hcounter)
                obtain ⟨e₁, he₁⟩ : ∃ e : TimerEntry, e = { t.heap.cell a with
                    interval := iv, cb := some cb, application := application, data := data, nextTime := nt,
                    timerPolicy := timerPolicy } := ⟨_, rfl⟩
                obtain ⟨e₂, he₂⟩ : ∃ e : TimerEntry, e = { e₁ with
                    nextTime := batchTime s.queue (itemOf a e₁), id := (t.idCounter + 1) % 2 ^ 64 } :=
                  ⟨_, rfl⟩
                obtain ⟨m, m', T', I', hm, hm', hsim, hkeeps⟩ := h.enroll ha e₂ ((t.idCounter + 1) % 2 ^ 64)
                rw [update_eq (Finset.mem_insert_self a _), Option.bind_some, ← he₁]
                have hbounds : BatchBounds s.queue (itemOf a e₁) := he₁ ▸ htame.batchBounds hnt hiv
                have hbatch := h.batch_withBlock ha e₁ t.idCounter hbounds
                have hid := update_withBlock t a { e₁ with nextTime := batchTime s.queue (itemOf a e₁) }
                  (fun e => { e with id := (t.idCounter + 1) % 2 ^ 64 }) ((t.idCounter + 1) % 2 ^ 64)
                rw [← he₂] at hid
                have hm : zipInsert timerTree (Timer.treeMem ⟨withBlock t.heap a e₂, t.tree, t.idTree,
                  (t.idCounter + 1) % 2 ^ 64⟩) a = some m := hm
                refine ⟨⟨m'.heap, m.root, m'.root, (t.idCounter + 1) % 2 ^ 64⟩,
                  (congrArg (Option.bind · _) hbatch).trans ((congrArg (Option.bind · _) hid).trans
                  ((congrArg (Option.bind · _) hm).trans ((congrArg (Option.bind · _) hm').trans ?_))),
                  T', I', ?_, hkeeps⟩
                · rw [h.counter]
                  exact congrArg (fun n =>
                    some ((⟨m'.heap, m.root, m'.root, (t.idCounter + 1) % 2 ^ 64⟩ : Timer),
                    TimerStatus.good, some n)) hwrap
                · have hitem : itemAt (withBlock t.heap a e₂) a = itemOf a e₂ := itemAt_setCell_self _ a e₂
                  have htime : batchTime s.queue (itemOf a e₁) = batchTime s.queue
                      ⟨a, t.idCounter + 1, timerPolicy, nt, iv, some cb, application, data⟩ := by
                    rw [he₁]
                    exact batchTime_congr _ rfl rfl rfl
                  rw [hitem, he₂, htime, he₁, hwrap] at hsim
                  rw [h.counter, hwrap]
                  exact hsim

/-- **`UA_Timer_modify`** does what the schedule does, for an entry of the queue and for one that is still
    to be processed in this round. -/
theorem timerModify_sim (h : Sim t s T I) (hok : s.Ok) (htame : s.Tame) (id : Nat) {interval now : Int}
    {baseTime : Option Int} (hb : BoundedTimes interval now baseTime) (timerPolicy : TimerPolicy) :
    ∃ t', timerModify t id interval now baseTime timerPolicy =
        some (t', (s.modify id interval now baseTime timerPolicy).2) ∧
      Reaches t s t' (s.modify id interval now baseTime timerPolicy).1 := by
  unfold timerModify Schedule.modify
  have hfirst := firstTime_eq timerPolicy hb
  cases htimes : firstTime interval now baseTime timerPolicy with
  | none =>
      rw [htimes] at hfirst
      simp only [hfirst, Option.bind_eq_bind, Option.bind_some]
      exact ⟨t, rfl, h.reaches⟩
  | some times =>
      obtain ⟨iv, nt⟩ := times
      rw [htimes] at hfirst
      obtain ⟨bt, hcheck, hinit⟩ := hfirst
      obtain ⟨hnt, hiv⟩ := firstTime_within htimes hb
      obtain ⟨found, hfound, hspec⟩ := find_spec h hok id
      simp only [hcheck, hinit, hfound, Option.bind_eq_bind, Option.bind_some]
      have hassigns : Assigns
          (fun e => { e with nextTime := nt, interval := iv, timerPolicy := timerPolicy })
          (fun i => { i with nextTime := nt, interval := iv, timerPolicy := timerPolicy }) :=
        ⟨fun _ => rfl, fun _ => rfl, fun _ => rfl, fun _ _ => rfl⟩
      cases found with
      | none =>
          obtain ⟨hfind, hpend⟩ := hspec
          simp only [hfind, hpend, if_false]
          exact ⟨t, rfl, h.reaches⟩
      | some a =>
          obtain ⟨haI, rfl, hwhere⟩ := hspec
          by_cases haT : a ∈ inorder T
          · rw [if_pos haT] at hwhere
            obtain ⟨m, T', hm, hloose, hsame, hkeeps⟩ := h.unhook hok haT
            simp only [hwhere, hm, Option.bind_some, Option.isNone_some]
            obtain ⟨t₁, ht₁, hloose₁, hitem₁, hkeeps₁⟩ := hloose.update hassigns
            have hbounds :
                BatchBounds (s.queue.filter fun i => i.id ≠ (t.heap.cell a).id) (itemAt t₁.heap a) := by
              rw [hitem₁]
              exact ⟨fun j hj => (htame.queue j (List.mem_filter.mp hj).1).2, hnt, hiv⟩
            obtain ⟨t₂, ht₂, hloose₂, hitem₂, hkeeps₂⟩ := hloose₁.batch hbounds
            obtain ⟨m₃, T₃, hm₃, hsim₃, hkeeps₃⟩ := hloose₂.insert
            simp only [ht₁, ht₂, hm₃, Option.bind_some, Bool.false_eq_true, if_false]
            refine ⟨t₂.setTree m₃, rfl, T₃, I, ?_, hkeeps.trans (hkeeps₁.trans (hkeeps₂.trans hkeeps₃))⟩
            have hitem : itemAt (t.setTree m).heap = itemAt t.heap := hsame
            rw [hitem₂, hitem₁, hitem] at hsim₃
            exact hsim₃
          · rw [if_neg haT] at hwhere
            obtain ⟨hfind, hpend⟩ := hwhere
            obtain ⟨m, T', hm, hsim, haT', hsame, hkeeps⟩ := h.lookup haI haT
            simp only [hfind, hpend, if_true, hm, Option.bind_some, Option.isNone_none]
            obtain ⟨t₁, ht₁, hsim₁, hitem₁, hid₁, hkeeps₁⟩ := hsim.update hok haI haT' hassigns
            have hok₁ := hok.change
              (g := fun i => { i with nextTime := nt, interval := iv, timerPolicy := timerPolicy })
              (fun _ => rfl) (fun _ => rfl) (fun _ _ => firstTime_interval htimes)
              ((t.setTree m).heap.cell a).id
            have hbounds : BatchBounds s.queue (itemAt t₁.heap a) := by
              rw [hitem₁]
              exact htame.batchBounds hnt hiv
            obtain ⟨t₂, ht₂, hsim₂, hitem₂, hid₂, hkeeps₂⟩ := hsim₁.batch hok₁ haI haT' hbounds
            have hok₂ := hok₁.change (g := fun i => { i with nextTime := batchTime s.queue i })
              (fun _ => rfl) (fun _ => rfl) (fun i hi => hok₁.cyclic i (List.mem_append_right _ hi))
              (t₁.heap.cell a).id
            -- the next time is put back by the interval that is added after the execution
            have htime : Within (3 * timeBound) (t₂.heap.cell a).nextTime := by
              have hbatch : (t₂.heap.cell a).nextTime = batchTime s.queue (itemAt t₁.heap a) :=
                congrArg Item.nextTime hitem₂
              rw [hbatch]
              exact Schedule.batchTime_within (fun c hc => (htame.queue c hc).1) hbounds.nextTime
            have hback : dateTime ((t₂.heap.cell a).nextTime - iv) = some ((t₂.heap.cell a).nextTime - iv) :=
              dateTime_eq (by unfold Within at *; omega)
            obtain ⟨t₃, ht₃, hsim₃, hkeeps₃⟩ := hsim₂.postpone hok₂ haI haT' iv
            have hlive₂ : a ∈ t₂.heap.live := hsim₂.ids.live a haI
            simp only [ht₁, ht₂, CHeap.load_eq hlive₂, hback, ht₃, Option.bind_some]
            have haddrs₁ := Schedule.map_change (g := fun i => { i with
              nextTime := nt, interval := iv, timerPolicy := timerPolicy }) s
                ((t.setTree m).heap.cell a).id Item.addr
              fun _ => rfl
            have haddrs₂ := (Schedule.map_change (g := fun i => { i with nextTime := batchTime s.queue i })
              (s.change ((t.setTree m).heap.cell a).id fun i => { i with
                nextTime := nt, interval := iv, timerPolicy := timerPolicy }) (t₁.heap.cell a).id Item.addr
              fun _ => rfl).trans haddrs₁
            have hid : ((t.setTree m).heap.cell a).id = (t.heap.cell a).id :=
              congrArg Item.id (congrFun hsame a)
            refine ⟨t₃, rfl, T', I, ?_,
              hkeeps.trans (hkeeps₁.trans ((haddrs₁ ▸ hkeeps₂).trans (haddrs₂ ▸ hkeeps₃)))⟩
            rw [hid₂, hid₁, hid] at hsim₃
            rw [Schedule.change_change s _ (g := fun i => { i with
              nextTime := nt, interval := iv, timerPolicy := timerPolicy }) fun _ => rfl,
              Schedule.change_change s _ ?_] at hsim₃
            · exact hsim₃
            · exact fun _ => rfl

/-- **`UA_Timer_remove`** does what the schedule does: an entry of the queue is freed, one that is still to be
    processed only loses its callback. -/
theorem timerRemove_sim (h : Sim t s T I) (hok : s.Ok) (id : Nat) :
    ∃ t', timerRemove t id = some t' ∧ Reaches t s t' (s.remove id) := by
  unfold timerRemove Schedule.remove
  obtain ⟨found, hfound, hspec⟩ := find_spec h hok id
  simp only [hfound, Option.bind_eq_bind, Option.bind_some]
  cases found with
  | none =>
      obtain ⟨hfind, hpend⟩ := hspec
      rw [Schedule.filter_of_find_none hfind, Schedule.change_of_notMem _ hpend]
      exact ⟨t, rfl, h.reaches⟩
  | some a =>
      obtain ⟨haI, rfl, hwhere⟩ := hspec
      by_cases haT : a ∈ inorder T
      · obtain ⟨m, T', hm, hloose, hsame, hkeeps⟩ := h.unhook hok haT
        obtain ⟨m₂, hp, I', hm₂, hfree, hsim, hkeeps₂⟩ := hloose.drop
        have hfree : ((t.setTree m).setIdTree m₂).heap.free a = some hp := hfree
        simp only [hm, hm₂, hfree, Option.bind_some, Option.isSome_some, if_true]
        refine ⟨_, rfl, T', I', ?_, hkeeps.trans hkeeps₂⟩
        -- no entry of the round has its id
        have hpend : (t.heap.cell a).id ∉ s.pending.map Item.id := by
          intro hp
          obtain ⟨i, hi, hid⟩ := List.mem_map.mp hp
          have hia : i.addr = a := by
            refine h.id_inj hok (h.pending_mem hi) haI ?_
            rw [h.pending i hi] at hid
            exact hid
          exact h.not_pending haT (hia ▸ List.mem_map_of_mem hi)
        rw [Schedule.change_of_notMem
          (s := { s with queue := s.queue.filter fun i => i.id ≠ (t.heap.cell a).id }) _ hpend]
        exact hsim
      · rw [if_neg haT] at hwhere
        obtain ⟨m, T', hm, hsim, haT', hsame, hkeeps⟩ := h.lookup haI haT
        have hassigns : Assigns (fun e => { e with cb := none }) (fun i => { i with cb := none }) :=
          ⟨fun _ => rfl, fun _ => rfl, fun _ => rfl, fun _ _ => rfl⟩
        obtain ⟨t₁, ht₁, hsim₁, -, -, hkeeps₁⟩ := hsim.update hok haI haT' hassigns
        have hid : ((t.setTree m).heap.cell a).id = (t.heap.cell a).id := congrArg Item.id (congrFun hsame a)
        simp only [hm, ht₁, Option.bind_some, Option.isSome_none, Bool.false_eq_true, if_false]
        refine ⟨t₁, rfl, T', I, ?_, hkeeps.trans hkeeps₁⟩
        rw [Schedule.filter_of_find_none hwhere.1]
        rw [hid] at hsim₁
        exact hsim₁

/-! ## Calls -/

/-- **One call** with times within the limit. -/
theorem call_sim (h : Sim t s T I) (hok : s.Ok) (htame : s.Tame) {c : TimerCall} (hc : c.Bounded)
    (hcounter : (s.call c).1.idCounter < 2 ^ 64) :
    ∃ t', t.call c = some (t', (s.call c).2) ∧ Reaches t s t' (s.call c).1 := by
  cases c with
  | add cb application data interval now baseTime policy pick =>
      exact timerAdd_sim h htame cb application data hc policy pick hcounter
  | modify id interval now baseTime policy =>
      obtain ⟨t', ht', hreach⟩ := timerModify_sim h hok htame id hc policy
      exact ⟨t', (congrArg (Option.bind · _) ht').trans rfl, hreach⟩
  | remove id =>
      obtain ⟨t', ht', hreach⟩ := timerRemove_sim h hok id
      exact ⟨t', (congrArg (Option.bind · _) ht').trans rfl, hreach⟩

/-- The calls of a callback. -/
theorem calls_sim (h : Sim t s T I) (hok : s.Ok) (htame : s.Tame) {cs : List TimerCall}
    (hcs : ∀ c ∈ cs, c.Bounded) (hcounter : (s.calls cs).idCounter < 2 ^ 64) :
    ∃ t', t.calls cs = some t' ∧ Reaches t s t' (s.calls cs) := by
  induction cs generalizing t s T I with
  | nil => exact ⟨t, rfl, h.reaches⟩
  | cons c cs ih =>
      have hc : c.Bounded := hcs c List.mem_cons_self
      have hcounter₁ : (s.call c).1.idCounter < 2 ^ 64 :=
        lt_of_le_of_lt (Schedule.calls_counter (s.call c).1 cs) hcounter
      obtain ⟨t₁, ht₁, T₁, I₁, hsim₁, hkeeps₁⟩ := call_sim h hok htame hc hcounter₁
      obtain ⟨t₂, ht₂, T₂, I₂, hsim₂, hkeeps₂⟩ :=
        ih hsim₁ (hok.call c) (htame.call hc) (fun d hd => hcs d (List.mem_cons_of_mem _ hd)) hcounter
      refine ⟨t₂, ?_, T₂, I₂, hsim₂, hkeeps₁.trans ?_⟩
      · unfold Timer.calls
        rw [ht₁]
        exact ht₂
      · exact (Schedule.call_pending s c).1 ▸ hkeeps₂

end Open62541
end Esp32Probes
