import Esp32Probes.Open62541.TimerLimits

/-!
# Open62541.TimerRefines — the timer in memory is the schedule

`Sim` relates a timer in memory to a schedule: the time-sorted tree holds the queue, the id-sorted tree
holds all entries, and no other block is allocated. Every function of `timer.c` keeps it and answers what
the schedule answers, as long as the times are within the limits of `TimerLimits`. The entries of a round
hang in a tree of their own, whose pointers no call touches (`Keeps`), so that the iteration of
`UA_Timer_process` finds them as they were.
-/

namespace Esp32Probes
namespace Open62541

open CHeap (Addr Heap)
open ZipTree (inorder IsZip)

/-! ## Entries -/

/-- What the schedule knows of the entry at `a`. -/
def itemOf (a : Addr) (e : TimerEntry) : Item :=
  ⟨a, e.id, e.timerPolicy, e.nextTime, e.interval, e.cb, e.application, e.data⟩

/-- The item of the entry that is at `a` in memory. -/
def itemAt (h : Heap TimerEntry) (a : Addr) : Item := itemOf a (h.cell a)

theorem timerTree_lawful : timerTree.Lawful := fun _ _ => rfl

theorem timerIdTree_lawful : timerIdTree.Lawful := fun _ _ => rfl

theorem elemKey_timerTree (h : Heap TimerEntry) (a : Addr) : elemKey timerTree h a = (itemAt h a).key := rfl

/-- The pointers of the time-sorted tree do not matter to the items. -/
theorem itemAt_same {h h' : Heap TimerEntry} (hs : SameData timerTree h h') : itemAt h' = itemAt h :=
  funext fun a => by
    obtain ⟨z, hz⟩ := hs.cell a
    unfold itemAt
    rw [hz]
    rfl

/-- The pointers of the id-sorted tree do not matter to the items. -/
theorem itemAt_same_id {h h' : Heap TimerEntry} (hs : SameData timerIdTree h h') : itemAt h' = itemAt h :=
  funext fun a => by
    obtain ⟨z, hz⟩ := hs.cell a
    unfold itemAt
    rw [hz]
    rfl

/-- Operations on the time-sorted tree leave the other tree alone. -/
theorem idEntry_same {h h' : Heap TimerEntry} (hs : SameData timerTree h h') (a : Addr) :
    (h'.cell a).idTreeEntry = (h.cell a).idTreeEntry ∧ (h'.cell a).id = (h.cell a).id := by
  obtain ⟨z, hz⟩ := hs.cell a
  rw [hz]
  exact ⟨rfl, rfl⟩

/-- Operations on the id-sorted tree leave the other tree alone. -/
theorem treeEntry_same {h h' : Heap TimerEntry} (hs : SameData timerIdTree h h') (a : Addr) :
    (h'.cell a).treeEntry = (h.cell a).treeEntry ∧ (h'.cell a).nextTime = (h.cell a).nextTime := by
  obtain ⟨z, hz⟩ := hs.cell a
  rw [hz]
  exact ⟨rfl, rfl⟩

/-- The heap with another entry at `a`. -/
def setCell (h : Heap TimerEntry) (a : Addr) (e : TimerEntry) : Heap TimerEntry :=
  { h with cell := Function.update h.cell a e }

theorem setCell_self (h : Heap TimerEntry) (a : Addr) (e : TimerEntry) : (setCell h a e).cell a = e :=
  Function.update_self _ _ _

theorem setCell_ne (h : Heap TimerEntry) {a b : Addr} (e : TimerEntry) (hb : b ≠ a) :
    (setCell h a e).cell b = h.cell b := Function.update_of_ne hb _ _

theorem itemAt_setCell_ne (h : Heap TimerEntry) {a b : Addr} (e : TimerEntry) (hb : b ≠ a) :
    itemAt (setCell h a e) b = itemAt h b := by
  unfold itemAt
  rw [setCell_ne h e hb]

theorem itemAt_setCell_self (h : Heap TimerEntry) (a : Addr) (e : TimerEntry) :
    itemAt (setCell h a e) a = itemOf a e := congrArg (itemOf a) (setCell_self h a e)

/-- Only the last of two assignments counts. -/
theorem setCell_setCell (h : Heap TimerEntry) (a : Addr) (e e' : TimerEntry) :
    setCell (setCell h a e) a e' = setCell h a e' := by
  unfold setCell
  rw [Function.update_idem]

/-- Assignments to an allocated entry succeed. -/
theorem update_eq {t : Timer} {a : Addr} (ha : a ∈ t.heap.live) (f : TimerEntry → TimerEntry) :
    t.update a f = some { t with heap := setCell t.heap a (f (t.heap.cell a)) } := by
  unfold Timer.update
  rw [CHeap.load_eq ha]
  simp only [Option.bind_eq_bind, Option.bind_some, CHeap.store_eq ha]
  rfl

/-- A tree in memory stays as long as its elements keep their pointers and keys. -/
theorem Holds.of_same {ε κ : Type} [LinearOrder κ] {Z : ZipFunctions ε κ} {m m' : Mem ε} {T : BinaryTree Addr}
    (h : Holds Z m T) (hroot : m'.root = m.root) (hlive : ∀ a ∈ inorder T, a ∈ m'.heap.live)
    (hcell : ∀ a ∈ inorder T, Z.field (m'.heap.cell a) = Z.field (m.heap.cell a) ∧
      Z.keyfield (m'.heap.cell a) = Z.keyfield (m.heap.cell a)) : Holds Z m' T := by
  refine ⟨?_, hlive, h.zip.congr (fun a ha => ?_) fun _ _ => rfl⟩
  · rw [hroot]
    refine h.rep.frame fun s a ha => ?_
    show (Z.field _).get s = (Z.field _).get s
    rw [(hcell a ha).1]
  · show toLex (Z.keyfield _, a) = toLex (Z.keyfield _, a)
    rw [(hcell a ha).2]

/-- Outside its elements an operation leaves the pointers alone. -/
theorem Touches.field {ε κ : Type} {Z : ZipFunctions ε κ} {l : List Addr} {h h' : Heap ε}
    (ht : Touches Z l h h') {a : Addr} (ha : a ∉ l) : Z.field (h'.cell a) = Z.field (h.cell a) := by
  have hleft := ht.frame .left a ha
  have hright := ht.frame .right a ha
  cases hz : Z.field (h'.cell a)
  cases hz' : Z.field (h.cell a)
  rw [hz, hz'] at hleft hright
  exact congrArg₂ ZipEntry.mk hleft hright

/-- The pointers that `UA_Timer_process` follows are not written. -/
def Keeps (l : List Addr) (h h' : Heap TimerEntry) : Prop :=
  ∀ a ∈ l, (h'.cell a).treeEntry = (h.cell a).treeEntry

theorem Keeps.refl (l : List Addr) (h : Heap TimerEntry) : Keeps l h h := fun _ _ => rfl

theorem Keeps.trans {l : List Addr} {h₁ h₂ h₃ : Heap TimerEntry} (h12 : Keeps l h₁ h₂) (h23 : Keeps l h₂ h₃) :
    Keeps l h₁ h₃ := fun a ha => (h23 a ha).trans (h12 a ha)

/-- An assignment that leaves the pointers of the time-sorted tree alone. -/
theorem Keeps.setCell {l : List Addr} {h : Heap TimerEntry} {a : Addr} {e : TimerEntry}
    (hentry : e.treeEntry = (h.cell a).treeEntry) : Keeps l h (Open62541.setCell h a e) := by
  intro b _
  by_cases hba : b = a
  · rw [hba, setCell_self]
    exact hentry
  · rw [setCell_ne _ _ hba]

/-- Assignments to fields other than the pointers and the id, and what they mean for the item. -/
structure Assigns (f : TimerEntry → TimerEntry) (g : Item → Item) : Prop where
  treeEntry   : ∀ e, (f e).treeEntry = e.treeEntry
  idTreeEntry : ∀ e, (f e).idTreeEntry = e.idTreeEntry
  id          : ∀ e, (f e).id = e.id
  item        : ∀ a e, itemOf a (f e) = g (itemOf a e)

/-! ## The time-sorted tree and the queue -/

/-- **Insertion** into the time-sorted tree puts the entry in its place in the queue. -/
theorem treeInsert {m : Mem TimerEntry} {T : BinaryTree Addr} (h : Holds timerTree m T) {a : Addr}
    (ha : a ∈ m.heap.live) (haT : a ∉ inorder T) :
    ∃ m' T', zipInsert timerTree m a = some m' ∧ Holds timerTree m' T' ∧ (inorder T').Perm (a :: inorder T) ∧
      (inorder T').map (itemAt m'.heap) = enqueue ((inorder T).map (itemAt m.heap)) (itemAt m.heap a) ∧
      Touches timerTree (a :: inorder T) m.heap m'.heap := by
  obtain ⟨m', hm', ht, hh⟩ := zipInsert_spec timerTree_lawful h ha haT
  have hperm := ZipTree.perm_insert (elemKey timerTree m.heap) rank a T
  refine ⟨m', _, hm', hh, hperm, ?_, ht⟩
  rw [itemAt_same ht.data]
  refine eq_enqueue ?_ ?_ ?_ ((hperm.map _).trans (List.Perm.of_eq rfl))
  · rw [List.pairwise_map]
    have hsorted := hh.zip.sorted
    rw [ht.data.elemKey] at hsorted
    exact hsorted
  · rw [List.pairwise_map]
    exact h.zip.sorted
  · intro j hj
    obtain ⟨b, hb, rfl⟩ := List.mem_map.mp hj
    refine Item.key_ne fun he => haT ?_
    have hba : b = a := he
    exact hba ▸ hb

/-- **Removal** from the time-sorted tree takes the entry out of the queue. -/
theorem treeRemove {m : Mem TimerEntry} {T : BinaryTree Addr} (h : Holds timerTree m T) {a : Addr}
    (ha : a ∈ m.heap.live) :
    ∃ m' T', zipRemove timerTree m a = some (m', if a ∈ inorder T then some a else none) ∧
      Holds timerTree m' T' ∧
      inorder T' = (inorder T).filter (fun b => decide (b ≠ a)) ∧
      Touches timerTree (inorder T) m.heap m'.heap := by
  obtain ⟨m', hm', ht, hh⟩ := zipRemove_spec timerTree_lawful h ha
  refine ⟨m', _, hm', hh, ?_, ht⟩
  rw [ZipTree.inorder_remove h.zip]
  exact List.filter_congr fun b _ => decide_eq_decide.mpr (elemKey_injective timerTree m.heap).ne_iff

/-- The window that the tree in memory shows is the one of the queue. -/
theorem windowOf_eq {m : Mem TimerEntry} {T : BinaryTree Addr} (h : Holds timerTree m T)
    (earliest latest : Int) :
    windowOf ((inorder T).map (itemAt m.heap)) earliest latest =
      (visits (fun a => cmpBatchWindow earliest latest (m.heap.cell a).nextTime) T).map (itemAt m.heap) := by
  have hzip : IsZip Item.key (fun c => rank c.addr) (T.map (itemAt m.heap)) :=
    h.zip.map (fun _ _ => rfl) fun _ _ => rfl
  have hranks : ((inorder T).map (itemAt m.heap)).Pairwise fun a b => rank a.addr ≠ rank b.addr := by
    rw [List.pairwise_map]
    exact h.zip.nodup.imp fun hne he => hne (rank_injective he)
  unfold windowOf
  rw [← hzip.eq_build (by rw [ZipTree.inorder_map]) hranks, visits_map]
  rfl

/-- The callback scans the candidates as the schedule does; its assertion holds on them. -/
theorem iterUntil_findTimer2Batch {h : Heap TimerEntry} {interval : Int} (earliest latest adjusted : Int)
    (hiv : Within (2 * timeBound) interval) {l : List Addr}
    (hl : ∀ a ∈ l, a ∈ h.live ∧ (earliest ≤ (h.cell a).nextTime ∧ (h.cell a).nextTime ≤ latest) ∧
      Within (2 * timeBound) (h.cell a).interval) :
    ∃ res, iterUntil (findTimer2Batch h earliest latest interval) adjusted l =
      some (batchScan interval adjusted (l.map (itemAt h)), res) := by
  induction l generalizing adjusted with
  | nil => exact ⟨none, rfl⟩
  | cons a l ih =>
      obtain ⟨ha, hwindow, hbound⟩ := hl a List.mem_cons_self
      have hrest : ∀ b ∈ l, b ∈ h.live ∧ (earliest ≤ (h.cell b).nextTime ∧ (h.cell b).nextTime ≤ latest) ∧
          Within (2 * timeBound) (h.cell b).interval := fun b hb => hl b (List.mem_cons_of_mem _ hb)
      unfold iterUntil findTimer2Batch
      rw [CHeap.load_eq ha]
      simp only [Option.bind_eq_bind, Option.bind_some, hwindow, and_self, if_true, List.map_cons]
      rw [batchScan, show (itemAt h a).interval = (h.cell a).interval from rfl,
        show (itemAt h a).nextTime = (h.cell a).nextTime from rfl]
      by_cases h1 : interval = 0 ∨ (h.cell a).interval = 0
      · simp only [h1, if_true]
        exact ih _ hrest
      · obtain ⟨hne, hne'⟩ := not_or.mp h1
        have hfit := intervalsFit_eq hne hne' hiv hbound
        by_cases h2 : fits interval (h.cell a).interval = false
        · simp only [h1, if_false, hfit, Option.bind_some, h2, if_true]
          exact ih _ hrest
        · by_cases h3 : interval = (h.cell a).interval
          · simp only [h1, if_false, hfit, Option.bind_some, h2, if_pos h3]
            exact ⟨some (), rfl⟩
          · simp only [h1, if_false, hfit, Option.bind_some, h2, if_neg h3]
            exact ih _ hrest

/-- The search of the window ends and finds what the schedule finds in its queue. -/
theorem iterBatch_spec {t : Timer} {T : BinaryTree Addr} (h : Holds timerTree t.treeMem T)
    (earliest latest adjusted : Int) {interval : Int} (hiv : Within (2 * timeBound) interval)
    (hT : ∀ a ∈ inorder T, Within (2 * timeBound) (t.heap.cell a).interval) :
    ∃ res, zipIterKey timerTree t.heap (cmpBatchWindow earliest latest)
        (findTimer2Batch t.heap earliest latest interval) t.fuel adjusted t.tree =
      some (batchScan interval adjusted (windowOf ((inorder T).map (itemAt t.heap)) earliest latest),
        res) := by
  have hfuel : T.height ≤ t.fuel := le_trans (ZipTree.height_le_numNodes T) (le_of_lt h.numNodes_lt)
  have hwindow : windowOf ((inorder T).map (itemAt t.heap)) earliest latest =
      (visits (fun a => cmpBatchWindow earliest latest (t.heap.cell a).nextTime) T).map (itemAt t.heap) :=
    windowOf_eq h earliest latest
  obtain ⟨res, hscan⟩ := iterUntil_findTimer2Batch (h := t.heap) earliest latest adjusted hiv
    (l := visits (fun a => cmpBatchWindow earliest latest (t.heap.cell a).nextTime) T)
    (fun a ha => ⟨h.live a (mem_of_visits ha).1, cmpBatchWindow_eq (mem_of_visits ha).2,
      hT a (mem_of_visits ha).1⟩)
  have hiter := zipIterKey_spec (Z := timerTree) (m := t.treeMem) (cmpBatchWindow earliest latest)
    (findTimer2Batch t.heap earliest latest interval) T adjusted h.rep h.live hfuel
  rw [hwindow]
  exact ⟨res, hiter.trans hscan⟩

/-- The times of an entry that is batched, and the intervals of the queue. -/
structure BatchBounds (q : List Item) (i : Item) : Prop where
  queue    : ∀ j ∈ q, Within (2 * timeBound) j.interval
  nextTime : Within (2 * timeBound) i.nextTime
  interval : Within (2 * timeBound) i.interval

/-- The window is less than the limit wide. -/
theorem deviation_bounds {interval : Int} (h : Within (2 * timeBound) interval) :
    Within timeBound (deviation interval) := by
  have hquarter : (interval.tdiv 4).natAbs = interval.natAbs / 4 := Int.natAbs_tdiv interval 4
  unfold deviation datetimeSec Within timeBound at *
  split_ifs <;> omega

/-- **Batching** sets the next time to what the schedule computes from the queue. -/
theorem batchTimerEntry_spec {t : Timer} {T : BinaryTree Addr} (h : Holds timerTree t.treeMem T) {te : Addr}
    (hte : te ∈ t.heap.live) (hb : BatchBounds ((inorder T).map (itemAt t.heap)) (itemAt t.heap te)) :
    batchTimerEntry t te = some { t with heap := setCell t.heap te { t.heap.cell te with
      nextTime := batchTime ((inorder T).map (itemAt t.heap)) (itemAt t.heap te) } } := by
  have hinterval : Within (2 * timeBound) (t.heap.cell te).interval := hb.interval
  have hnext : Within (2 * timeBound) (t.heap.cell te).nextTime := hb.nextTime
  have hdeviate := deviation_bounds hinterval
  unfold batchTimerEntry batchTime
  rw [CHeap.load_eq hte]
  simp only [Option.bind_eq_bind, Option.bind_some]
  rw [show (itemAt t.heap te).timerPolicy = (t.heap.cell te).timerPolicy from rfl]
  by_cases hp : (t.heap.cell te).timerPolicy ≠ .currentTime
  · rw [if_pos hp, if_pos hp]
    show some t = some { t with heap := setCell t.heap te (t.heap.cell te) }
    unfold setCell
    rw [Function.update_eq_self]
  · rw [if_neg hp, if_neg hp]
    obtain ⟨res, hiter⟩ := iterBatch_spec h ((t.heap.cell te).nextTime - deviation (t.heap.cell te).interval)
      ((t.heap.cell te).nextTime + deviation (t.heap.cell te).interval) (t.heap.cell te).nextTime hinterval
      fun a ha => hb.queue _ (List.mem_map_of_mem ha)
    rw [show (if (t.heap.cell te).interval.tdiv 4 > datetimeSec then datetimeSec
      else (t.heap.cell te).interval.tdiv 4) = deviation (t.heap.cell te).interval from rfl,
      dateTime_eq (by unfold Within at *; omega), Option.bind_some,
      dateTime_eq (by unfold Within at *; omega), Option.bind_some, hiter]
    simp only [Option.bind_some, update_eq hte]
    rfl

/-! ## The simulation -/

/-- The timer in memory and the schedule, with the two trees in memory. -/
structure Sim (t : Timer) (s : Schedule) (T I : BinaryTree Addr) : Prop where
  tree    : Holds timerTree t.treeMem T
  ids     : Holds timerIdTree t.idTreeMem I
  perm    : (inorder T ++ s.pending.map Item.addr).Perm (inorder I)
  live    : ∀ a ∈ t.heap.live, a ∈ inorder I
  queue   : s.queue = (inorder T).map (itemAt t.heap)
  pending : ∀ i ∈ s.pending, i = itemAt t.heap i.addr
  counter : s.idCounter = t.idCounter

variable {t : Timer} {s : Schedule} {T I : BinaryTree Addr}

/-- The id-sorted tree has the entries of the schedule. -/
theorem Sim.mem_items (h : Sim t s T I) {a : Addr} : a ∈ inorder I ↔ a ∈ s.items.map Item.addr := by
  rw [← h.perm.mem_iff]
  unfold Schedule.items
  rw [List.map_append, h.queue, List.map_map]
  have hid : (Item.addr ∘ itemAt t.heap) = id := rfl
  rw [hid, List.map_id]

/-- Exactly these entries are allocated. -/
theorem Sim.not_live (h : Sim t s T I) {a : Addr} : a ∉ t.heap.live ↔ a ∉ s.items.map Item.addr := by
  rw [← h.mem_items]
  exact not_congr ⟨h.live a, h.ids.live a⟩

theorem Sim.mem_ids (h : Sim t s T I) {a : Addr} (ha : a ∈ inorder T) : a ∈ inorder I :=
  h.perm.mem_iff.mp (List.mem_append_left _ ha)

theorem Sim.pending_mem (h : Sim t s T I) {i : Item} (hi : i ∈ s.pending) : i.addr ∈ inorder I :=
  h.perm.mem_iff.mp (List.mem_append_right _ (List.mem_map_of_mem hi))

/-- No entry is in the queue and in the round. -/
theorem Sim.not_pending (h : Sim t s T I) {a : Addr} (ha : a ∈ inorder T) : a ∉ s.pending.map Item.addr := by
  have hn := h.perm.nodup_iff.mpr h.ids.zip.nodup
  exact fun hp => (List.nodup_append.mp hn).2.2 a ha a hp rfl

/-- An entry is the one with its id. -/
theorem Sim.id_inj (h : Sim t s T I) (hok : s.Ok) {a b : Addr} (ha : a ∈ inorder I) (hb : b ∈ inorder I)
    (he : (t.heap.cell a).id = (t.heap.cell b).id) : a = b := by
  have hitem : ∀ c ∈ inorder I, itemAt t.heap c ∈ s.items := by
    intro c hc
    rcases List.mem_append.mp (h.perm.mem_iff.mpr hc) with hc | hc
    · exact List.mem_append_left _ (h.queue ▸ List.mem_map_of_mem hc)
    · obtain ⟨i, hi, rfl⟩ := List.mem_map.mp hc
      exact List.mem_append_right _ (h.pending i hi ▸ hi)
  have hinj := List.inj_on_of_nodup_map hok.ids (hitem a ha) (hitem b hb) he
  exact congrArg Item.addr hinj

/-! ## Searching an id -/

/-- What `ZIP_FIND` finds in the tree of the ids: an entry of the queue, one of the round, or nothing. -/
theorem find_spec (h : Sim t s T I) (hok : s.Ok) (id : Nat) :
    ∃ found, zipFind timerIdTree t.heap id t.fuel t.idTree = some found ∧
      match found with
      | none => s.queue.find? (fun i => i.id = id) = none ∧ id ∉ s.pending.map Item.id
      | some a => a ∈ inorder I ∧ (t.heap.cell a).id = id ∧
          if a ∈ inorder T then s.queue.find? (fun i => i.id = id) = some (itemAt t.heap a)
          else s.queue.find? (fun i => i.id = id) = none ∧ id ∈ s.pending.map Item.id := by
  have hfuel : I.height ≤ t.fuel := le_trans (ZipTree.height_le_numNodes I) (le_of_lt h.ids.numNodes_lt)
  obtain ⟨found, hfound, hspec⟩ :=
    zipFind_spec timerIdTree_lawful (m := t.idTreeMem) id I h.ids.rep h.ids.live
    h.ids.zip hfuel
  refine ⟨found, hfound, ?_⟩
  cases found with
  | none =>
      refine ⟨List.find?_eq_none.mpr fun i hi => ?_, fun hp => ?_⟩
      · rw [h.queue] at hi
        obtain ⟨a, ha, rfl⟩ := List.mem_map.mp hi
        have hne : (itemAt t.heap a).id ≠ id := hspec a (h.mem_ids ha)
        simpa using hne
      · obtain ⟨i, hi, hid⟩ := List.mem_map.mp hp
        refine hspec i.addr (h.pending_mem hi) ?_
        rw [h.pending i hi] at hid
        exact hid
  | some a =>
      obtain ⟨ha, hid⟩ := hspec
      refine ⟨ha, hid, ?_⟩
      split_ifs with haT
      · -- the only entry of the queue with this id
        cases hf : s.queue.find? (fun i => i.id = id) with
        | none =>
            have hq : itemAt t.heap a ∈ s.queue := h.queue ▸ List.mem_map_of_mem haT
            have hne : (itemAt t.heap a).id ≠ id := by simpa using List.find?_eq_none.mp hf _ hq
            exact absurd hid hne
        | some i =>
            obtain ⟨hi, hii⟩ := Schedule.find_queue hf
            rw [h.queue] at hi
            obtain ⟨b, hb, rfl⟩ := List.mem_map.mp hi
            rw [h.id_inj hok (h.mem_ids hb) ha (hii.trans hid.symm)]
      · constructor
        · refine List.find?_eq_none.mpr fun i hi => ?_
          rw [h.queue] at hi
          obtain ⟨b, hb, rfl⟩ := List.mem_map.mp hi
          have hne : (itemAt t.heap b).id ≠ id := fun he =>
            haT (h.id_inj hok (h.mem_ids hb) ha (he.trans hid.symm) ▸ hb)
          simpa using hne
        · rcases List.mem_append.mp (h.perm.mem_iff.mpr ha) with hc | hc
          · exact absurd hc haT
          · obtain ⟨i, hi, rfl⟩ := List.mem_map.mp hc
            refine List.mem_map.mpr ⟨i, hi, ?_⟩
            rw [h.pending i hi]
            exact hid

/-! ## An entry outside the queue -/

/-- The timer and the schedule while one entry is neither in the queue nor in the round. -/
structure Loose (t : Timer) (s : Schedule) (T I : BinaryTree Addr) (a : Addr) : Prop where
  tree    : Holds timerTree t.treeMem T
  ids     : Holds timerIdTree t.idTreeMem I
  perm    : (a :: (inorder T ++ s.pending.map Item.addr)).Perm (inorder I)
  live    : ∀ b ∈ t.heap.live, b ∈ inorder I
  queue   : s.queue = (inorder T).map (itemAt t.heap)
  pending : ∀ i ∈ s.pending, i = itemAt t.heap i.addr
  counter : s.idCounter = t.idCounter

variable {a : Addr}

theorem Loose.mem (h : Loose t s T I a) : a ∈ inorder I := h.perm.mem_iff.mp List.mem_cons_self

/-- A loose entry is neither in the queue nor in the round. -/
theorem Loose.not_mem (h : Loose t s T I a) : a ∉ inorder T ++ s.pending.map Item.addr :=
  (List.nodup_cons.mp (h.perm.nodup_iff.mpr h.ids.zip.nodup)).1

theorem Loose.not_tree (h : Loose t s T I a) :
    a ∉ inorder T := fun ha => h.not_mem (List.mem_append_left _ ha)

theorem Loose.pending_ne (h : Loose t s T I a) {i : Item} (hi : i ∈ s.pending) : i.addr ≠ a := fun he =>
  h.not_mem (List.mem_append_right _ (he ▸ List.mem_map_of_mem hi))

theorem Loose.not_pending (h : Loose t s T I a) {b : Addr} (hb : b ∈ s.pending.map Item.addr) :
    b ∉ inorder T := by
  have hn := (List.nodup_cons.mp (h.perm.nodup_iff.mpr h.ids.zip.nodup)).2
  exact fun hT => (List.nodup_append.mp hn).2.2 b hT b hb rfl

/-- Assignments to the entry outside the queue. -/
theorem Loose.setCell (h : Loose t s T I a) {e : TimerEntry} (hid : e.id = (t.heap.cell a).id)
    (hentry : e.idTreeEntry = (t.heap.cell a).idTreeEntry) :
    Loose { t with heap := setCell t.heap a e } s T I a := by
  refine ⟨h.tree.of_same rfl h.tree.live fun b hb => ?_, h.ids.of_same rfl h.ids.live fun b hb => ?_, h.perm,
    h.live, ?_, fun i hi => ?_, h.counter⟩
  · have hba : b ≠ a := fun he => h.not_tree (he ▸ hb)
    show timerTree.field ((Open62541.setCell t.heap a e).cell b) = _ ∧
      timerTree.keyfield ((Open62541.setCell t.heap a e).cell b) = _
    rw [setCell_ne _ _ hba]
    exact ⟨rfl, rfl⟩
  · show timerIdTree.field ((Open62541.setCell t.heap a e).cell b) = _ ∧
      timerIdTree.keyfield ((Open62541.setCell t.heap a e).cell b) = _
    by_cases hba : b = a
    · subst hba
      rw [setCell_self]
      exact ⟨hentry, hid⟩
    · rw [setCell_ne _ _ hba]
      exact ⟨rfl, rfl⟩
  · rw [h.queue]
    refine List.map_congr_left fun b hb => ?_
    have hba : b ≠ a := fun he => h.not_tree (he ▸ hb)
    exact (itemAt_setCell_ne _ _ hba).symm
  · exact (h.pending i hi).trans (itemAt_setCell_ne _ _ (h.pending_ne hi)).symm

/-- Assignments to a loose entry change nothing that the schedule knows. -/
theorem Loose.update (h : Loose t s T I a) {f : TimerEntry → TimerEntry} {g : Item → Item}
    (hf : Assigns f g) :
    ∃ t', t.update a f = some t' ∧ Loose t' s T I a ∧ itemAt t'.heap a = g (itemAt t.heap a) ∧
      Keeps (s.pending.map Item.addr) t.heap t'.heap := by
  refine ⟨_, update_eq (h.ids.live a h.mem) f, h.setCell (hf.id _) (hf.idTreeEntry _), ?_,
    Keeps.setCell (hf.treeEntry _)⟩
  exact (itemAt_setCell_self _ _ _).trans (hf.item a _)

/-- Batching a loose entry looks at the queue alone. -/
theorem Loose.batch (h : Loose t s T I a) (hb : BatchBounds s.queue (itemAt t.heap a)) :
    ∃ t', batchTimerEntry t a = some t' ∧ Loose t' s T I a ∧
      itemAt t'.heap a = { itemAt t.heap a with nextTime := batchTime s.queue (itemAt t.heap a) } ∧
      Keeps (s.pending.map Item.addr) t.heap t'.heap := by
  have hbatch := batchTimerEntry_spec h.tree (h.ids.live a h.mem) (h.queue ▸ hb)
  rw [← h.queue] at hbatch
  exact ⟨_, hbatch, h.setCell rfl rfl, itemAt_setCell_self _ _ _, Keeps.setCell rfl⟩

/-- The entry goes into the queue. -/
theorem Loose.insert (h : Loose t s T I a) :
    ∃ m T', zipInsert timerTree t.treeMem a = some m ∧
      Sim (t.setTree m) { s with queue := enqueue s.queue (itemAt t.heap a) } T' I ∧
      Keeps (s.pending.map Item.addr) t.heap m.heap := by
  have ha : a ∈ t.heap.live := h.ids.live a h.mem
  obtain ⟨m, T', hm, hh, hperm, hqueue, ht⟩ := treeInsert h.tree ha h.not_tree
  refine ⟨m, T', hm, ⟨hh, h.ids.of_same rfl (fun b hb => ?_) fun b _ => ?_, ?_, fun b hb => ?_, ?_,
    fun i hi => ?_, h.counter⟩, fun b hb => ?_⟩
  · exact ht.data.live ▸ h.ids.live b hb
  · exact idEntry_same ht.data b
  · exact (hperm.append_right _).trans h.perm
  · exact h.live b (ht.data.live ▸ hb)
  · show enqueue s.queue (itemAt t.heap a) = (inorder T').map (itemAt m.heap)
    rw [hqueue, h.queue]
    rfl
  · show i = itemAt m.heap i.addr
    rw [itemAt_same ht.data]
    exact h.pending i hi
  · refine ht.field fun hmem => ?_
    rcases List.mem_cons.mp hmem with hba | hbT
    · exact h.not_mem (List.mem_append_right _ (hba ▸ hb))
    · exact h.not_pending hb hbT

/-- The entry is taken out of the tree of the ids and freed. -/
theorem Loose.drop (h : Loose t s T I a) :
    ∃ m hp I', zipRemove timerIdTree t.idTreeMem a = some (m, some a) ∧ m.heap.free a = some hp ∧
      Sim { t.setIdTree m with heap := hp } s T I' ∧ Keeps (s.pending.map Item.addr) t.heap hp := by
  have ha : a ∈ t.heap.live := h.ids.live a h.mem
  obtain ⟨m, hm, ht, hh⟩ := zipRemove_spec timerIdTree_lawful h.ids ha
  rw [if_pos h.mem] at hm
  have hlive : m.heap.live = t.heap.live := ht.data.live
  refine ⟨m, { m.heap with live := m.heap.live.erase a },
    ZipTree.remove (elemKey timerIdTree t.idTreeMem.heap) rank a I,
    hm, CHeap.free_eq (hlive ▸ ha), ⟨?_, ?_, ?_, ?_, ?_, ?_,
    h.counter⟩, fun b _ => (treeEntry_same ht.data b).1⟩
  · refine h.tree.of_same rfl (fun b hb => ?_) fun b _ => treeEntry_same ht.data b
    exact Finset.mem_erase.mpr ⟨fun he => h.not_tree (he ▸ hb), hlive ▸ h.tree.live b hb⟩
  · refine hh.of_same rfl (fun b hb => ?_) fun b _ => ⟨rfl, rfl⟩
    have hmem := (ZipTree.mem_remove h.ids.zip (elemKey_injective timerIdTree _) a b).mp hb
    exact Finset.mem_erase.mpr ⟨hmem.2, hlive ▸ h.ids.live b hmem.1⟩
  · rw [ZipTree.inorder_remove h.ids.zip]
    refine List.Perm.trans ?_ (h.perm.filter _)
    rw [List.filter_cons_of_neg (by simp), List.filter_eq_self.mpr fun b hb => ?_]
    exact decide_eq_true ((elemKey_injective timerIdTree _).ne fun he => h.not_mem (he ▸ hb))
  · intro b hb
    obtain ⟨hba, hb⟩ := Finset.mem_erase.mp hb
    exact (ZipTree.mem_remove h.ids.zip (elemKey_injective timerIdTree _) a b).mpr ⟨h.live b (hlive ▸ hb),
      hba⟩
  · show s.queue = (inorder T).map (itemAt m.heap)
    rw [itemAt_same_id ht.data]
    exact h.queue
  · intro i hi
    show i = itemAt m.heap i.addr
    rw [itemAt_same_id ht.data]
    exact h.pending i hi

/-- An entry of the queue is taken out of the time-sorted tree. -/
theorem Sim.unhook (h : Sim t s T I) (hok : s.Ok) (ha : a ∈ inorder T) :
    ∃ m T', zipRemove timerTree t.treeMem a = some (m, some a) ∧
      Loose (t.setTree m) { s with queue := s.queue.filter (fun i => i.id ≠ (t.heap.cell a).id) } T' I a ∧
      itemAt m.heap = itemAt t.heap ∧ Keeps (s.pending.map Item.addr) t.heap m.heap := by
  obtain ⟨m, T', hm, hh, hinorder, ht⟩ := treeRemove h.tree (h.tree.live a ha)
  rw [if_pos ha] at hm
  have hperm : (a :: inorder T').Perm (inorder T) := by
    rw [hinorder]
    have hn := h.tree.zip.nodup
    have herase : (inorder T).filter (fun b => decide (b ≠ a)) = (inorder T).erase a := by
      rw [hn.erase_eq_filter]
      exact List.filter_congr fun b _ => by simp [bne, BEq.beq]
    rw [herase]
    exact (List.perm_cons_erase ha).symm
  refine ⟨m, T', hm, ⟨hh, h.ids.of_same rfl (fun b hb => ht.data.live ▸ h.ids.live b hb) fun b _ =>
    idEntry_same ht.data b, ?_, fun b hb => h.live b (ht.data.live ▸ hb), ?_, fun i hi => ?_, h.counter⟩,
    itemAt_same ht.data, fun b hb => ht.field fun hbT => h.not_pending hbT hb⟩
  · exact (hperm.append_right _).trans h.perm
  · show s.queue.filter _ = (inorder T').map (itemAt m.heap)
    rw [itemAt_same ht.data, hinorder, h.queue, List.filter_map]
    congr 1
    refine List.filter_congr fun b hb => decide_eq_decide.mpr (not_congr ⟨fun he => ?_, fun he => ?_⟩)
    · exact h.id_inj hok (h.mem_ids hb) (h.mem_ids ha) he
    · rw [he]
      rfl
  · show i = itemAt m.heap i.addr
    rw [itemAt_same ht.data]
    exact h.pending i hi

/-- An entry of the round is not found in the time-sorted tree, which stays as it is. -/
theorem Sim.lookup (h : Sim t s T I) (ha : a ∈ inorder I) (haT : a ∉ inorder T) :
    ∃ m T', zipRemove timerTree t.treeMem a = some (m, none) ∧ Sim (t.setTree m) s T' I ∧ a ∉ inorder T' ∧
      itemAt m.heap = itemAt t.heap ∧ Keeps (s.pending.map Item.addr) t.heap m.heap := by
  obtain ⟨m, T', hm, hh, hinorder, ht⟩ := treeRemove h.tree (h.ids.live a ha)
  rw [if_neg haT] at hm
  have hsame : inorder T' = inorder T := by
    rw [hinorder]
    exact List.filter_eq_self.mpr fun b hb => decide_eq_true fun he => haT (he ▸ hb)
  refine ⟨m, T', hm, ⟨hh, h.ids.of_same rfl (fun b hb => ht.data.live ▸ h.ids.live b hb) fun b _ =>
    idEntry_same ht.data b, ?_, fun b hb => h.live b (ht.data.live ▸ hb), ?_, fun i hi => ?_, h.counter⟩, ?_,
    itemAt_same ht.data, fun b hb => ht.field fun hbT => h.not_pending hbT hb⟩
  · rw [hsame]
    exact h.perm
  · show s.queue = (inorder T').map (itemAt m.heap)
    rw [itemAt_same ht.data, hsame]
    exact h.queue
  · show i = itemAt m.heap i.addr
    rw [itemAt_same ht.data]
    exact h.pending i hi
  · rw [hsame]
    exact haT

/-- Assignments to an entry of the round. -/
theorem Sim.setCell (h : Sim t s T I) (hok : s.Ok) (ha : a ∈ inorder I) (haT : a ∉ inorder T) {e : TimerEntry}
    (hid : e.id = (t.heap.cell a).id) (hentry : e.idTreeEntry = (t.heap.cell a).idTreeEntry) {f : Item → Item}
    (hf : f (itemAt t.heap a) = itemAt (Open62541.setCell t.heap a e) a) :
    Sim { t with heap := Open62541.setCell t.heap a e } (s.change (t.heap.cell a).id f) T I := by
  have hitem : ∀ i ∈ s.pending, (if i.id = (t.heap.cell a).id then f i else i) =
      itemAt (Open62541.setCell t.heap a e) i.addr := by
    intro i hi
    have heq := h.pending i hi
    split_ifs with hii
    · have hia : i.addr = a := by
        refine h.id_inj hok (h.pending_mem hi) ha ?_
        rw [heq] at hii
        exact hii
      rw [heq, hia, hf]
      rfl
    · have hia : i.addr ≠ a := fun he => hii (by rw [heq, he]; rfl)
      rw [itemAt_setCell_ne _ _ hia]
      exact heq
  have haddrs : (s.change (t.heap.cell a).id f).pending.map Item.addr = s.pending.map Item.addr := by
    unfold Schedule.change
    rw [List.map_map]
    refine List.map_congr_left fun i hi => ?_
    show Item.addr (if i.id = (t.heap.cell a).id then f i else i) = i.addr
    rw [hitem i hi]
    rfl
  refine ⟨h.tree.of_same rfl h.tree.live fun b hb => ?_, h.ids.of_same rfl h.ids.live fun b hb => ?_, ?_,
    h.live, ?_, fun j hj => ?_, h.counter⟩
  · have hba : b ≠ a := fun he => haT (he ▸ hb)
    show timerTree.field ((Open62541.setCell t.heap a e).cell b) = _ ∧
      timerTree.keyfield ((Open62541.setCell t.heap a e).cell b) = _
    rw [setCell_ne _ _ hba]
    exact ⟨rfl, rfl⟩
  · show timerIdTree.field ((Open62541.setCell t.heap a e).cell b) = _ ∧
      timerIdTree.keyfield ((Open62541.setCell t.heap a e).cell b) = _
    by_cases hba : b = a
    · subst hba
      rw [setCell_self]
      exact ⟨hentry, hid⟩
    · rw [setCell_ne _ _ hba]
      exact ⟨rfl, rfl⟩
  · rw [haddrs]
    exact h.perm
  · show s.queue = _
    rw [h.queue]
    refine List.map_congr_left fun b hb => ?_
    have hba : b ≠ a := fun he => haT (he ▸ hb)
    exact (itemAt_setCell_ne _ _ hba).symm
  · obtain ⟨i, hi, rfl⟩ := List.mem_map.mp hj
    rw [hitem i hi]
    rfl

/-- Assignments to an entry of the round change its item. -/
theorem Sim.update (h : Sim t s T I) (hok : s.Ok) (ha : a ∈ inorder I) (haT : a ∉ inorder T)
    {f : TimerEntry → TimerEntry} {g : Item → Item} (hf : Assigns f g) :
    ∃ t', t.update a f = some t' ∧
      Sim t' (s.change (t.heap.cell a).id g) T I ∧ itemAt t'.heap a = g (itemAt t.heap a) ∧
      (t'.heap.cell a).id = (t.heap.cell a).id ∧ Keeps (s.pending.map Item.addr) t.heap t'.heap := by
  refine ⟨_, update_eq (h.ids.live a ha) f, h.setCell hok ha haT (hf.id _) (hf.idTreeEntry _) ?_, ?_, ?_,
    Keeps.setCell (hf.treeEntry _)⟩
  · exact (hf.item a _).symm.trans (itemAt_setCell_self _ _ _).symm
  · exact (itemAt_setCell_self _ _ _).trans (hf.item a _)
  · exact (congrArg TimerEntry.id (setCell_self _ _ _)).trans (hf.id _)

/-- Batching an entry of the round looks at the queue alone. -/
theorem Sim.batch (h : Sim t s T I) (hok : s.Ok) (ha : a ∈ inorder I) (haT : a ∉ inorder T)
    (hb : BatchBounds s.queue (itemAt t.heap a)) :
    ∃ t', batchTimerEntry t a = some t' ∧
      Sim t' (s.change (t.heap.cell a).id fun i => { i with nextTime := batchTime s.queue i }) T I ∧
      itemAt t'.heap a = { itemAt t.heap a with nextTime := batchTime s.queue (itemAt t.heap a) } ∧
      (t'.heap.cell a).id = (t.heap.cell a).id ∧ Keeps (s.pending.map Item.addr) t.heap t'.heap := by
  have hbatch := batchTimerEntry_spec h.tree (h.ids.live a ha) (h.queue ▸ hb)
  rw [← h.queue] at hbatch
  obtain ⟨e, he⟩ : ∃ e : TimerEntry, e =
    { t.heap.cell a with nextTime := batchTime s.queue (itemAt t.heap a) } :=
    ⟨_, rfl⟩
  rw [← he] at hbatch
  have hid : e.id = (t.heap.cell a).id := he ▸ rfl
  have hitem : itemAt (Open62541.setCell t.heap a e) a =
      { itemAt t.heap a with nextTime := batchTime s.queue (itemAt t.heap a) } := by
    rw [itemAt_setCell_self, he]
    rfl
  exact ⟨_, hbatch, h.setCell hok ha haT hid (he ▸ rfl) hitem.symm, hitem,
    (congrArg TimerEntry.id (setCell_self _ _ _)).trans hid, Keeps.setCell (he ▸ rfl)⟩

/-- The next time of an entry of the round is put back by an interval. -/
theorem Sim.postpone (h : Sim t s T I) (hok : s.Ok) (ha : a ∈ inorder I) (haT : a ∉ inorder T)
    (interval : Int) :
    ∃ t', t.update a (fun e => { e with nextTime := (t.heap.cell a).nextTime - interval }) = some t' ∧
      Sim t' (s.change (t.heap.cell a).id fun i => { i with nextTime := i.nextTime - interval }) T I ∧
      Keeps (s.pending.map Item.addr) t.heap t'.heap := by
  obtain ⟨e, he⟩ : ∃ e : TimerEntry, e =
    { t.heap.cell a with nextTime := (t.heap.cell a).nextTime - interval } :=
    ⟨_, rfl⟩
  have hupdate := update_eq (h.ids.live a ha)
    (fun e => { e with nextTime := (t.heap.cell a).nextTime - interval })
  rw [← he] at hupdate
  refine ⟨_, hupdate, h.setCell hok ha haT (he ▸ rfl) (he ▸ rfl) ?_, Keeps.setCell (he ▸ rfl)⟩
  rw [itemAt_setCell_self, he]
  rfl

/-! ## A new entry -/

/-- Batching depends on the policy, the time and the interval of the entry. -/
theorem batchTime_congr (q : List Item) {i j : Item} (hp : i.timerPolicy = j.timerPolicy)
    (ht : i.nextTime = j.nextTime) (hi : i.interval = j.interval) : batchTime q i = batchTime q j := by
  unfold batchTime
  rw [hp, ht, hi]

/-- The heap with a new block, whatever is written to it. -/
def withBlock (h : Heap TimerEntry) (a : Addr) (e : TimerEntry) : Heap TimerEntry :=
  Open62541.setCell { h with live := insert a h.live } a e

/-- A block that was free is at none of the entries. -/
theorem Sim.new_ne (h : Sim t s T I) (ha : a ∉ t.heap.live) {b : Addr} (hb : b ∈ inorder I) : b ≠ a :=
  fun he => ha (he ▸ h.ids.live b hb)

/-- The two trees are where they were while the new block is filled. -/
theorem Sim.withBlock (h : Sim t s T I) (ha : a ∉ t.heap.live) (e : TimerEntry) :
    Holds timerTree ⟨Open62541.withBlock t.heap a e, t.tree⟩ T ∧
      Holds timerIdTree ⟨Open62541.withBlock t.heap a e, t.idTree⟩ I ∧
      s.queue = (inorder T).map (itemAt (Open62541.withBlock t.heap a e)) ∧
      ∀ i ∈ s.pending, i = itemAt (Open62541.withBlock t.heap a e) i.addr := by
  have hcell : ∀ b ∈ inorder I, (Open62541.withBlock t.heap a e).cell b = t.heap.cell b := fun b hb =>
    setCell_ne _ _ (h.new_ne ha hb)
  have hitem : ∀ b ∈ inorder I, itemAt (Open62541.withBlock t.heap a e) b = itemAt t.heap b := fun b hb => by
    unfold itemAt
    rw [hcell b hb]
  refine ⟨?_, ?_, ?_, fun i hi => ?_⟩
  · refine h.tree.of_same rfl (fun b hb => Finset.mem_insert_of_mem (h.tree.live b hb)) fun b hb => ?_
    show timerTree.field ((Open62541.withBlock t.heap a e).cell b) = _ ∧
      timerTree.keyfield ((Open62541.withBlock t.heap a e).cell b) = _
    rw [hcell b (h.mem_ids hb)]
    exact ⟨rfl, rfl⟩
  · refine h.ids.of_same rfl (fun b hb => Finset.mem_insert_of_mem (h.ids.live b hb)) fun b hb => ?_
    show timerIdTree.field ((Open62541.withBlock t.heap a e).cell b) = _ ∧
      timerIdTree.keyfield ((Open62541.withBlock t.heap a e).cell b) = _
    rw [hcell b hb]
    exact ⟨rfl, rfl⟩
  · rw [h.queue]
    exact List.map_congr_left fun b hb => (hitem b (h.mem_ids hb)).symm
  · rw [hitem _ (h.pending_mem hi)]
    exact h.pending i hi

/-- Assignments to a new block. -/
theorem update_withBlock (t : Timer) (a : Addr) (e : TimerEntry) (f : TimerEntry → TimerEntry) (n : Nat) :
    Timer.update ⟨Open62541.withBlock t.heap a e, t.tree, t.idTree, n⟩ a f =
      some ⟨Open62541.withBlock t.heap a (f e), t.tree, t.idTree, n⟩ := by
  rw [update_eq (Finset.mem_insert_self a _)]
  unfold Open62541.withBlock
  simp only [setCell_self, setCell_setCell]

/-- Batching a new block that is in no tree yet. -/
theorem Sim.batch_withBlock (h : Sim t s T I) (ha : a ∉ t.heap.live) (e : TimerEntry) (n : Nat)
    (hb : BatchBounds s.queue (itemOf a e)) :
    batchTimerEntry ⟨Open62541.withBlock t.heap a e, t.tree, t.idTree, n⟩ a =
      some ⟨Open62541.withBlock t.heap a { e with nextTime := batchTime s.queue (itemOf a e) }, t.tree,
        t.idTree, n⟩ := by
  obtain ⟨htree, -, hqueue, -⟩ := h.withBlock ha e
  have hitem : itemAt (Open62541.withBlock t.heap a e) a = itemOf a e := itemAt_setCell_self _ a e
  have hbatch := batchTimerEntry_spec (t := ⟨Open62541.withBlock t.heap a e, t.tree, t.idTree, n⟩) htree
    (Finset.mem_insert_self a _) (by rw [← hqueue, hitem]; exact hb)
  rw [hbatch, ← hqueue]
  unfold Open62541.withBlock
  simp only [itemAt_setCell_self, setCell_self, setCell_setCell]

/-- A new entry goes into both trees. -/
theorem Sim.enroll (h : Sim t s T I) (ha : a ∉ t.heap.live) (e : TimerEntry) (n : Nat) :
    ∃ m m' T' I', zipInsert timerTree ⟨Open62541.withBlock t.heap a e, t.tree⟩ a = some m ∧
      zipInsert timerIdTree ⟨m.heap, t.idTree⟩ a = some m' ∧
      Sim ⟨m'.heap, m.root, m'.root, n⟩ { s with
        queue := enqueue s.queue (itemAt (Open62541.withBlock t.heap a e) a)
        idCounter := n } T' I' ∧
      Keeps (s.pending.map Item.addr) t.heap m'.heap := by
  obtain ⟨htree, hids, hqueue, hpending⟩ := h.withBlock ha e
  have haI : a ∉ inorder I := fun hm => ha (h.ids.live a hm)
  have haT : a ∉ inorder T := fun hm => haI (h.mem_ids hm)
  have hlive : a ∈ (Open62541.withBlock t.heap a e).live := Finset.mem_insert_self a _
  obtain ⟨m, T', hm, hT', hperm, hitems, ht⟩ := treeInsert htree hlive haT
  have hids' : Holds timerIdTree ⟨m.heap, t.idTree⟩ I :=
    hids.of_same rfl (fun b hb => ht.data.live ▸ hids.live b hb) fun b _ => idEntry_same ht.data b
  have hlive' : a ∈ m.heap.live := ht.data.live ▸ hlive
  obtain ⟨m', hm', ht', hI'⟩ := zipInsert_spec timerIdTree_lawful hids' hlive' haI
  have hpermI := ZipTree.perm_insert (elemKey timerIdTree m.heap) rank a I
  have hitem : itemAt m'.heap = itemAt (Open62541.withBlock t.heap a e) :=
    (itemAt_same_id ht'.data).trans (itemAt_same ht.data)
  refine ⟨m, m', T', _, hm, hm', ⟨?_, hI', ?_, ?_, ?_, ?_, rfl⟩, ?_⟩
  · exact hT'.of_same rfl (fun b hb => ht'.data.live ▸ hT'.live b hb) fun b _ => treeEntry_same ht'.data b
  · refine (hperm.append_right _).trans (List.Perm.trans ?_ hpermI.symm)
    exact (h.perm.cons a)
  · intro b hb
    have hb' : b ∈ insert a t.heap.live := by
      have hlive2 : m'.heap.live = (Open62541.withBlock t.heap a e).live := ht'.data.live.trans ht.data.live
      have hb : b ∈ m'.heap.live := hb
      rw [hlive2] at hb
      exact hb
    rcases Finset.mem_insert.mp hb' with hba | hb'
    · exact hpermI.mem_iff.mpr (hba ▸ List.mem_cons_self)
    · exact hpermI.mem_iff.mpr (List.mem_cons_of_mem _ (h.live b hb'))
  · show enqueue s.queue _ = (inorder T').map (itemAt m'.heap)
    rw [hitem, ← itemAt_same ht.data, hitems, hqueue]
    rw [itemAt_same ht.data]
  · intro i hi
    show i = itemAt m'.heap i.addr
    rw [hitem]
    exact hpending i hi
  · intro b hb
    obtain ⟨i, hi, rfl⟩ := List.mem_map.mp hb
    have hia : i.addr ≠ a := h.new_ne ha (h.pending_mem hi)
    have hnot : i.addr ∉ a :: inorder T := by
      intro hm
      rcases List.mem_cons.mp hm with he | hT
      · exact hia he
      · exact h.not_pending hT hb
    calc (m'.heap.cell i.addr).treeEntry = (m.heap.cell i.addr).treeEntry := (treeEntry_same ht'.data _).1
      _ = ((Open62541.withBlock t.heap a e).cell i.addr).treeEntry := ht.field hnot
      _ = (t.heap.cell i.addr).treeEntry := congrArg _ (setCell_ne _ _ hia)

end Open62541
end Esp32Probes
