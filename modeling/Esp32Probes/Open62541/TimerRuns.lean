import Esp32Probes.Open62541.TimerCalls

/-!
# Open62541.TimerRuns — rounds of processing and whole runs

`UA_Timer_process` iterates over the tree of the entries that are due while their callbacks change the
timer. The iteration reads the pointers of an entry before its callback runs and no call writes to the
pointers of the entries still ahead, so that the round is the one of the schedule.

A run is `Admissible` if its times are within the limit of `TimerLimits` and the counter of the ids does not
wrap; `run_sim` is about these runs.
-/

namespace Esp32Probes
namespace Open62541

open CHeap (Addr Heap)
open ZipTree (inorder IsZip)

variable {t : Timer} {s : Schedule} {T I : BinaryTree Addr}

/-! ## One entry -/

/-- The first entry of the round leaves it. -/
theorem Sim.loosen (h : Sim t s T I) {i : Item} {rest : List Item} (hp : s.pending = i :: rest) :
    Loose t { s with pending := rest } T I i.addr := by
  refine ⟨h.tree, h.ids, ?_, h.live, h.queue, fun j hj => h.pending j (hp ▸ List.mem_cons_of_mem _ hj),
    h.counter⟩
  have hperm := h.perm
  rw [hp] at hperm
  exact List.perm_middle.symm.trans hperm

/-- The callback is executed on the timer as on the schedule. -/
theorem executeCallback_sim {st : Running} {script : Script} (h : Sim st.timer s T I) (hok : s.Ok)
    (htame : s.Tame) (hscript : ∀ fired, ∀ c ∈ script fired, c.Bounded) {i : Item} (hi : i ∈ s.pending)
    (hcounter : (s.execute script st.fired i).1.idCounter < 2 ^ 64) :
    ∃ st', executeCallback script st (st.timer.heap.cell i.addr) = some st' ∧
      st'.fired = (s.execute script st.fired i).2 ∧
      Reaches st.timer s st'.timer (s.execute script st.fired i).1 := by
  have hitem : i = itemAt st.timer.heap i.addr := h.pending i hi
  have hcb : (st.timer.heap.cell i.addr).cb = i.cb := (congrArg Item.cb hitem).symm
  revert hcounter
  unfold executeCallback Schedule.execute
  rw [hcb]
  cases hc : i.cb with
  | none => exact fun _ => ⟨st, rfl, rfl, h.reaches⟩
  | some cb =>
      intro hcounter
      have hfired : (⟨(st.timer.heap.cell i.addr).id, cb, (st.timer.heap.cell i.addr).application,
          (st.timer.heap.cell i.addr).data⟩ : Fired) = ⟨i.id, cb, i.application, i.data⟩ := by
        rw [hitem]
        rfl
      dsimp only
      rw [hfired]
      obtain ⟨t', ht', hreach⟩ := calls_sim h hok htame (hscript _) hcounter
      exact ⟨⟨t', _⟩, by rw [ht']; rfl, rfl, hreach⟩

/-- **`processEntryCallback`** visits the first entry of the round. -/
theorem processEntryCallback_sim {st : Running} {script : Script} {now : Int} (h : Sim st.timer s T I)
    (hok : s.Ok) (htame : s.Tame) (hscript : ∀ fired, ∀ c ∈ script fired, c.Bounded)
    (hnow : Within timeBound now) {i : Item} {rest : List Item} (hp : s.pending = i :: rest)
    (hcounter : (s.visit script now st.fired).1.idCounter < 2 ^ 64) :
    ∃ st' T' I', processEntryCallback script now st i.addr = some (st', none) ∧
      st'.fired = (s.visit script now st.fired).2 ∧ Sim st'.timer (s.visit script now st.fired).1 T' I' ∧
      Keeps (rest.map Item.addr) st.timer.heap st'.timer.heap := by
  have hi : i ∈ s.pending := hp ▸ List.mem_cons_self
  have hvisit : s.visit script now st.fired =
      ((s.execute script st.fired i).1.settle now, (s.execute script st.fired i).2) := by
    unfold Schedule.visit
    rw [hp]
  rw [hvisit, Schedule.settle_counter] at hcounter
  obtain ⟨st₁, hst₁, hfired, T₁, I₁, hsim₁, hkeeps₁⟩ := executeCallback_sim h hok htame hscript hi hcounter
  have htame₁ := htame.execute hscript st.fired i
  have hok₁ : (s.execute script st.fired i).1.Ok := hok.execute script st.fired i
  have hrest : ∀ a ∈ rest.map Item.addr, a ∈ s.pending.map Item.addr := fun a ha => by
    rw [hp]
    exact List.mem_cons_of_mem _ ha
  -- the callback has not changed which entry is the first one
  obtain ⟨i₁, rest₁, hp₁, hi₁, hrest₁⟩ : ∃ i₁ rest₁, (s.execute script st.fired i).1.pending = i₁ :: rest₁ ∧
      i₁.addr = i.addr ∧ rest₁.map Item.addr = rest.map Item.addr := by
    have haddrs := (Schedule.execute_pending script s st.fired i).1
    rw [hp] at haddrs
    exact List.map_eq_cons_iff.mp haddrs |>.imp fun i₁ h => h.imp fun rest₁ h => h
  have hloose := hsim₁.loosen hp₁
  have hitem₁ : i₁ = itemAt st₁.timer.heap i.addr := hi₁ ▸ hsim₁.pending i₁ (hp₁ ▸ List.mem_cons_self)
  rw [hi₁] at hloose
  have hlive : i.addr ∈ st.timer.heap.live := h.ids.live _ (h.pending_mem hi)
  have hlive₁ : i.addr ∈ st₁.timer.heap.live := hsim₁.ids.live _ hloose.mem
  have hcb : (st₁.timer.heap.cell i.addr).cb = i₁.cb := (congrArg Item.cb hitem₁).symm
  have hpolicy : (st₁.timer.heap.cell i.addr).timerPolicy = i₁.timerPolicy :=
    (congrArg Item.timerPolicy hitem₁).symm
  unfold processEntryCallback
  rw [hvisit, CHeap.load_eq hlive]
  simp only [Option.bind_eq_bind, Option.bind_some, hst₁, CHeap.load_eq hlive₁, hcb, hpolicy]
  unfold Schedule.settle
  rw [hp₁]
  by_cases hdone : i₁.cb = none ∨ i₁.timerPolicy = .once
  · obtain ⟨m, hp', I', hm, hfree, hsim', hkeeps'⟩ := hloose.drop
    have hfree : (st₁.timer.setIdTree m).heap.free i.addr = some hp' := hfree
    simp only [if_pos hdone, hm, hfree, Option.bind_some]
    refine ⟨_, T₁, I', rfl, hfired, hsim', fun a ha => ?_⟩
    exact (hkeeps' a (by rw [hrest₁]; exact ha)).trans (hkeeps₁ a (hrest a ha))
  · have hcyclic : 0 < i₁.interval :=
      hok₁.cyclic i₁ (List.mem_append_right _ (hp₁ ▸ List.mem_cons_self)) fun he => hdone (.inr he)
    obtain ⟨htime₁, hinterval₁, hsum⟩ := htame₁.pending i₁ (hp₁ ▸ List.mem_cons_self)
    have hnext := nextExecution_eq i₁.timerPolicy hcyclic hnow htime₁ hinterval₁ hsum
    have htime : (st₁.timer.heap.cell i.addr).nextTime = i₁.nextTime := (congrArg Item.nextTime hitem₁).symm
    have hinterval : (st₁.timer.heap.cell i.addr).interval = i₁.interval :=
      (congrArg Item.interval hitem₁).symm
    have hassigns : Assigns
        (fun e => { e with nextTime := following now i₁.nextTime i₁.interval i₁.timerPolicy })
        (fun i => { i with nextTime := following now i₁.nextTime i₁.interval i₁.timerPolicy }) :=
      ⟨fun _ => rfl, fun _ => rfl, fun _ => rfl, fun _ _ => rfl⟩
    obtain ⟨t₂, ht₂, hloose₂, hitem₂, hkeeps₂⟩ := hloose.update hassigns
    obtain ⟨m, T₂, hm, hsim₂, hkeeps₃⟩ := hloose₂.insert
    simp only [if_neg hdone, htime, hinterval, hnext, ht₂, hm, Option.bind_some]
    refine ⟨_, T₂, I₁, rfl, hfired, ?_, fun a ha => ?_⟩
    · rw [hitem₂, ← hitem₁] at hsim₂
      exact hsim₂
    · have ha' : a ∈ rest₁.map Item.addr := by
        rw [hrest₁]
        exact ha
      exact ((hkeeps₃ a ha').trans (hkeeps₂ a ha')).trans (hkeeps₁ a (hrest a ha))

/-! ## The iteration -/

/-- Visits can be made in two parts. -/
theorem Schedule.visits_add (script : Script) (now : Int) (m n : Nat) (s : Schedule) (fired : List Fired) :
    s.visits script now (m + n) fired =
      (s.visits script now m fired).1.visits script now n (s.visits script now m fired).2 := by
  induction m generalizing s fired with
  | zero => rw [Nat.zero_add]; rfl
  | succ m ih =>
      rw [Nat.succ_add]
      exact ih _ _

/-- A visit takes the first entry out of the round and changes the data of the others only. -/
theorem Schedule.visit_pending (script : Script) (now : Int) (s : Schedule) (fired : List Fired) :
    (s.visit script now fired).1.pending.map Item.addr = (s.pending.map Item.addr).tail := by
  unfold Schedule.visit
  cases hp : s.pending with
  | nil =>
      dsimp only
      rw [hp]
      rfl
  | cons i rest =>
      have haddrs := (Schedule.execute_pending script s fired i).1
      rw [hp] at haddrs
      dsimp only
      unfold Schedule.settle
      cases hp₁ : (s.execute script fired i).1.pending with
      | nil =>
          rw [hp₁] at haddrs
          cases haddrs
      | cons i₁ rest₁ =>
          rw [hp₁] at haddrs
          have htail : rest₁.map Item.addr = rest.map Item.addr := (List.cons.inj haddrs).2
          dsimp only
          split_ifs <;> exact htail

theorem Schedule.visits_pending (script : Script) (now : Int) (n : Nat) (s : Schedule) (fired : List Fired) :
    (s.visits script now n fired).1.pending.map Item.addr = (s.pending.map Item.addr).drop n := by
  induction n generalizing s fired with
  | zero => rfl
  | succ n ih =>
      refine (ih _ _).trans ?_
      rw [Schedule.visit_pending, List.drop_tail]

/-- After as many visits as there are entries the round is over. -/
theorem Schedule.visits_idle (script : Script) (now : Int) (s : Schedule) (fired : List Fired) :
    (s.visits script now s.pending.length fired).1.pending = [] := by
  have haddrs := Schedule.visits_pending script now s.pending.length s fired
  rw [List.drop_eq_nil_of_le (by rw [List.length_map])] at haddrs
  exact List.map_eq_nil_iff.mp haddrs

/-- **`__ZIP_ITER`** over the part `p` of the tree of the round visits its entries, whatever their callbacks
    do to the timer. -/
theorem iterRound {script : Script} {now : Int} (hscript : ∀ fired, ∀ c ∈ script fired, c.Bounded)
    (hnow : Within timeBound now) (p : BinaryTree Addr) {n : Nat} (st : Running) {v : Option Addr}
    (rest : List Addr) (h : Sim st.timer s T I) (hok : s.Ok) (htame : s.Tame)
    (hrep : Rep (links timerTree ⟨st.timer.heap, v⟩) v p)
    (hp : s.pending.map Item.addr = inorder p ++ rest) (hn : p.height ≤ n)
    (hcounter : (s.visits script now p.numNodes st.fired).1.idCounter < 2 ^ 64) :
    ∃ st' T' I', zipIter (fun (st : Running) p => (st.timer.heap.load p).map (·.treeEntry))
        (processEntryCallback script now) n st v = some (st', none) ∧
      st'.fired = (s.visits script now p.numNodes st.fired).2 ∧
      Sim st'.timer (s.visits script now p.numNodes st.fired).1 T' I' ∧
      (s.visits script now p.numNodes st.fired).1.pending.map Item.addr = rest ∧
      Keeps rest st.timer.heap st'.timer.heap := by
  induction p generalizing n st v rest s T I with
  | nil =>
      obtain rfl : v = none := hrep
      exact ⟨st, T, I, by unfold zipIter; rfl, rfl, h, hp, Keeps.refl _ _⟩
  | node a l r ihl ihr =>
      obtain ⟨rfl, hl, hr⟩ := hrep
      obtain ⟨n, rfl⟩ : ∃ k, n = k + 1 := ⟨n - 1, by simp only [BinaryTree.height] at hn; omega⟩
      simp only [BinaryTree.height] at hn
      have haddrs : s.pending.map Item.addr = inorder l ++ (a :: (inorder r ++ rest)) := by
        rw [hp]
        exact List.append_assoc _ _ _
      have ha : a ∈ st.timer.heap.live := by
        refine h.ids.live a (h.perm.mem_iff.mp (List.mem_append_right _ ?_))
        rw [haddrs]
        exact List.mem_append_right _ List.mem_cons_self
      have hleft : Rep (links timerTree ⟨st.timer.heap, (st.timer.heap.cell a).treeEntry.left⟩)
          (st.timer.heap.cell a).treeEntry.left l := hl.frame fun _ _ _ => rfl
      have hvisits : s.visits script now (BinaryTree.node a l r).numNodes st.fired =
          ((s.visits script now l.numNodes st.fired).1.visit script now
            (s.visits script now l.numNodes st.fired).2).1.visits script now r.numNodes
              ((s.visits script now l.numNodes st.fired).1.visit script now
                (s.visits script now l.numNodes st.fired).2).2 := by
        rw [show (BinaryTree.node a l r).numNodes = l.numNodes + (1 + r.numNodes) by
          simp only [BinaryTree.numNodes]; omega, Schedule.visits_add, Schedule.visits_add]
        rfl
      rw [hvisits] at hcounter ⊢
      -- ids are handed out in ascending order, also by the last callback
      have hcounter₂ := lt_of_le_of_lt (Schedule.visits_counter script now r.numNodes _ _) hcounter
      have hcounter₁ := lt_of_le_of_lt (Schedule.visit_counter script now _ _) hcounter₂
      -- the left side of the tree, the entry itself, the right side
      obtain ⟨st₁, T₁, I₁, hiter₁, hfired₁, hsim₁, hp₁, hkeeps₁⟩ :=
        ihl (n := n) st _ h hok htame hleft haddrs (by omega) hcounter₁
      have hok₁ := hok.visits script now l.numNodes st.fired
      have htame₁ := htame.visits hok hscript hnow l.numNodes st.fired
      obtain ⟨i, rest', hcons, rfl, hrest'⟩ := List.map_eq_cons_iff.mp hp₁
      rw [← hfired₁] at hcounter₂ hcounter ⊢
      obtain ⟨st₂, T₂, I₂, hcb, hfired₂, hsim₂, hkeeps₂⟩ :=
        processEntryCallback_sim hsim₁ hok₁ htame₁ hscript hnow hcons hcounter₂
      rw [← hfired₂] at hcounter ⊢
      have hok₂ := hok₁.visit script now st₁.fired
      have htame₂ := htame₁.visit hok₁ hscript hnow st₁.fired
      have hp₂ := Schedule.visit_pending script now (s.visits script now l.numNodes st.fired).1 st₁.fired
      rw [hp₁, List.tail_cons] at hp₂
      rw [hrest'] at hkeeps₂
      have hright : Rep (links timerTree ⟨st₂.timer.heap, (st.timer.heap.cell i.addr).treeEntry.right⟩)
          (st.timer.heap.cell i.addr).treeEntry.right r := by
        refine hr.frame fun side b hb => ?_
        have hb : b ∈ inorder r ++ rest := List.mem_append_left _ hb
        exact congrArg (ZipEntry.get · side) ((hkeeps₂ b hb).trans (hkeeps₁ b (List.mem_cons_of_mem _ hb)))
      obtain ⟨st₃, T₃, I₃, hiter₃, hfired₃, hsim₃, hp₃, hkeeps₃⟩ :=
        ihr (n := n) st₂ _ hsim₂ hok₂ htame₂ hright hp₂ (by omega) hcounter
      refine ⟨st₃, T₃, I₃, ?_, hfired₃, hsim₃, hp₃, fun b hb => ?_⟩
      · unfold zipIter
        rw [CHeap.load_eq ha]
        simp only [Option.map_some, Option.bind_eq_bind, Option.bind_some, hiter₁, hcb]
        exact hiter₃
      · have hb' : b ∈ inorder r ++ rest := List.mem_append_right _ hb
        exact (hkeeps₃ b hb).trans ((hkeeps₂ b hb').trans (hkeeps₁ b (List.mem_cons_of_mem _ hb')))

/-! ## `UA_Timer_process` -/

theorem firstNextTime_sim (h : Sim t s T I) : firstNextTime t = some s.next := by
  unfold firstNextTime Schedule.next
  rw [zipMin_spec h.tree, h.queue]
  simp only [Option.bind_eq_bind, Option.bind_some]
  cases hT : inorder T with
  | nil => rfl
  | cons a l =>
      have ha : a ∈ t.heap.live := h.tree.live a (hT ▸ List.mem_cons_self)
      show (t.heap.load a).bind _ = _
      rw [CHeap.load_eq ha]
      rfl

/-- The tree of the entries that are due and the rest of the queue. -/
theorem startRound_sim (h : Sim t s T I) (hp : s.pending = []) (now : Int) :
    ∃ hp v r T₁ T₂, zipUnzip timerTree t.treeMem now = some (hp, v, r) ∧
      Sim ⟨hp, r, t.idTree, t.idCounter⟩ (s.startRound now) T₂ I ∧ Rep (links timerTree ⟨hp, v⟩) v T₁ ∧
      (s.startRound now).pending.map Item.addr = inorder T₁ := by
  obtain ⟨hp', v, r, hunzip, ht, hv, hr⟩ := zipUnzip_spec timerTree_lawful h.tree now
  obtain ⟨hdue, hrest⟩ := ZipTree.inorder_split (cuts_upTo h.tree.zip now)
  have hfilter : ∀ p : Item → Bool, s.queue.filter p =
      ((inorder T).filter (p ∘ itemAt t.heap)).map (itemAt hp') := by
    intro p
    rw [h.queue, itemAt_same ht.data, List.filter_map]
    rfl
  have hpending : (s.startRound now).pending =
      (inorder (ZipTree.split (upTo timerTree t.treeMem.heap now) T).1).map (itemAt hp') := by
    rw [hdue]
    exact hfilter _
  have hqueue : (s.startRound now).queue =
      (inorder (ZipTree.split (upTo timerTree t.treeMem.heap now) T).2).map (itemAt hp') := by
    rw [hrest]
    exact hfilter _
  have haddrs : (s.startRound now).pending.map Item.addr =
      inorder (ZipTree.split (upTo timerTree t.treeMem.heap now) T).1 := by
    rw [hpending, List.map_map]
    exact List.map_id _
  refine ⟨hp', v, r, _, _, hunzip, ⟨hr, ?_, ?_, fun b hb => ?_, hqueue, fun i hi => ?_, h.counter⟩, ?_,
    haddrs⟩
  · exact h.ids.of_same rfl (fun b hb => ht.data.live ▸ h.ids.live b hb) fun b _ => idEntry_same ht.data b
  · have hperm := h.perm
    rw [hp, List.map_nil, List.append_nil] at hperm
    rw [haddrs]
    exact (List.perm_append_comm.trans (ZipTree.perm_split _ _)).trans hperm
  · have hb : b ∈ hp'.live := hb
    rw [ht.data.live] at hb
    exact h.live b hb
  · rw [hpending] at hi
    obtain ⟨b, -, rfl⟩ := List.mem_map.mp hi
    rfl
  · exact hv.rep

theorem noneReady_sim (h : Sim t s T I) (now : Int) (hq : ∀ i ∈ s.queue, now < i.nextTime) :
    noneReady t now = some true := by
  unfold noneReady
  rw [zipMin_spec h.tree]
  simp only [Option.bind_eq_bind, Option.bind_some]
  cases hT : inorder T with
  | nil => rfl
  | cons a l =>
      have ha : a ∈ inorder T := hT ▸ List.mem_cons_self
      show (t.heap.load a).bind _ = _
      have hlive : a ∈ t.heap.live := h.tree.live a ha
      rw [CHeap.load_eq hlive]
      have hlate : now < (itemAt t.heap a).nextTime := hq _ (h.queue ▸ List.mem_map_of_mem ha)
      exact congrArg some (decide_eq_true hlate)

/-- **`UA_Timer_process`** never fails, executes the callbacks that the schedule executes, and answers with
    the time of the next entry. -/
theorem timerProcess_sim {st : Running} {script : Script} {now : Int} (h : Sim st.timer s T I) (hok : s.Ok)
    (htame : s.Tame) (hp : s.pending = []) (hscript : ∀ fired, ∀ c ∈ script fired, c.Bounded)
    (hnow : Within timeBound now) (hcounter : (s.process script st.fired now).1.1.idCounter < 2 ^ 64) :
    ∃ st' T' I', timerProcess script st now = some (st', (s.process script st.fired now).2) ∧
      st'.fired = (s.process script st.fired now).1.2 ∧
      Sim st'.timer (s.process script st.fired now).1.1 T' I' ∧
      (s.process script st.fired now).1.1.pending = [] := by
  obtain ⟨hp', v, r, T₁, T₂, hunzip, hsim, hrep, haddrs⟩ := startRound_sim h hp now
  have hlate : ∀ i ∈ (s.startRound now).queue, now < i.nextTime := by
    intro i hi
    simpa using (List.mem_filter.mp hi).2
  have hok' : (s.startRound now).Ok := hok.startRound hp now
  have hlength : (s.startRound now).pending.length = T₁.numNodes := by
    rw [← ZipTree.length_inorder, ← haddrs, List.length_map]
  have hfuel : T₁.height ≤ Timer.fuel ⟨hp', r, st.timer.idTree, st.timer.idCounter⟩ := by
    have hn : (inorder T₁).Nodup :=
      haddrs ▸ (List.nodup_append.mp (hsim.perm.nodup_iff.mpr hsim.ids.zip.nodup)).2.1
    have hcard := CHeap.length_le_card (h := hp') hn fun a ha => hsim.ids.live a
      (hsim.perm.mem_iff.mp (List.mem_append_right _ (haddrs ▸ ha)))
    rw [ZipTree.length_inorder] at hcard
    exact le_trans (ZipTree.height_le_numNodes T₁) (Nat.le_succ_of_le hcard)
  obtain ⟨st', T', I', hiter, hfired, hsim', hend, -⟩ := iterRound hscript hnow T₁
    ⟨⟨hp', r, st.timer.idTree, st.timer.idCounter⟩, st.fired⟩ [] hsim hok' (htame.startRound hnow) hrep
    (by rw [haddrs, List.append_nil]) hfuel (hlength ▸ hcounter)
  unfold timerProcess Schedule.process
  rw [hunzip]
  simp only [Option.bind_eq_bind, Option.bind_some, noneReady_sim hsim now hlate, if_true, hiter]
  rw [hlength, firstNextTime_sim hsim']
  exact ⟨st', T', I', rfl, hfired, hsim', List.map_eq_nil_iff.mp hend⟩

/-! ## `UA_Timer_clear` -/

/-- The iteration that frees the entries it visits. -/
theorem iterFree (p : BinaryTree Addr) {n : Nat} {h : Heap TimerEntry} {v : Option Addr}
    (hrep : Rep (links timerIdTree ⟨h, v⟩) v p) (hnodup : (inorder p).Nodup)
    (hlive : ∀ a ∈ inorder p, a ∈ h.live) (hn : p.height ≤ n) :
    zipIter (fun (h : Heap TimerEntry) p => (h.load p).map (·.idTreeEntry))
        (fun h p => (h.free p).map fun h => (h, (none : Option Unit))) n h v =
      some ({ h with live := h.live \ (inorder p).toFinset }, none) := by
  induction p generalizing n h v with
  | nil =>
      obtain rfl : v = none := hrep
      unfold zipIter
      simp
  | node a l r ihl ihr =>
      obtain ⟨rfl, hl, hr⟩ := hrep
      obtain ⟨n, rfl⟩ : ∃ k, n = k + 1 := ⟨n - 1, by simp only [BinaryTree.height] at hn; omega⟩
      simp only [BinaryTree.height] at hn
      rw [ZipTree.inorder_node] at hnodup hlive
      obtain ⟨hnl, hnar, hdisj⟩ := List.nodup_append.mp hnodup
      obtain ⟨har, hnr⟩ := List.nodup_cons.mp hnar
      have ha : a ∈ h.live := hlive a (List.mem_append_right _ List.mem_cons_self)
      have hal : a ∉ inorder l := fun hm => hdisj a hm a List.mem_cons_self rfl
      -- the left side, the entry, the right side
      have hleft := ihl (n := n) (h := h) (v := (h.cell a).idTreeEntry.left) (hl.frame fun _ _ _ => rfl) hnl
        (fun b hb => hlive b (List.mem_append_left _ hb)) (by omega)
      have ha₁ : a ∈ h.live \ (inorder l).toFinset :=
        Finset.mem_sdiff.mpr ⟨ha, fun hm => hal (List.mem_toFinset.mp hm)⟩
      have hright := ihr (n := n) (h := ⟨(h.live \ (inorder l).toFinset).erase a, h.cell⟩)
        (v := (h.cell a).idTreeEntry.right) (hr.frame fun _ _ _ => rfl) hnr (fun b hb => ?_) (by omega)
      · unfold zipIter
        rw [CHeap.load_eq ha]
        simp only [Option.map_some, Option.bind_eq_bind, Option.bind_some, hleft]
        rw [CHeap.free_eq ha₁]
        simp only [Option.map_some, Option.bind_some, hright]
        congr 3
        ext b
        simp only [Finset.mem_sdiff, Finset.mem_erase, List.mem_toFinset, ZipTree.inorder_node,
          List.mem_append, List.mem_cons]
        tauto
      · have hbl : b ∉ inorder l := fun hm => hdisj b hm b (List.mem_cons_of_mem _ hb) rfl
        refine Finset.mem_erase.mpr ⟨fun he => har (he ▸ hb), Finset.mem_sdiff.mpr ⟨?_, ?_⟩⟩
        · exact hlive b (List.mem_append_right _ (List.mem_cons_of_mem _ hb))
        · exact fun hm => hbl (List.mem_toFinset.mp hm)

/-- **`UA_Timer_clear`** frees every entry. -/
theorem timerClear_sim (h : Sim t s T I) :
    ∃ t', timerClear t = some t' ∧ t'.heap.live = ∅ ∧ t'.tree = none ∧ t'.idTree = none ∧
      t'.idCounter = 0 := by
  have hfuel : I.height ≤ t.fuel := le_trans (ZipTree.height_le_numNodes I) (le_of_lt h.ids.numNodes_lt)
  have hiter :=
    iterFree I (n := t.fuel) (h := t.heap) (v := t.idTree) h.ids.rep h.ids.zip.nodup h.ids.live hfuel
  unfold timerClear
  rw [hiter]
  refine ⟨_, rfl, Finset.sdiff_eq_empty_iff_subset.mpr fun a ha => ?_, rfl, rfl, rfl⟩
  exact List.mem_toFinset.mpr (h.live a ha)

/-! ## Runs -/

/-- What the application and the event loop do with the timer. -/
inductive TimerEvent
  | call (c : TimerCall)
  | process (script : Script) (now : Int)
  | clear

/-- What they are answered. -/
inductive TimerAnswer
  | status (code : TimerStatus) (callbackId : Option Nat)
  | next (time : Int)
  | cleared
deriving DecidableEq

/-- One event on the timer in memory. -/
def Running.step (st : Running) : TimerEvent → Option (Running × TimerAnswer)
  | .call c => do
    let (t, status, callbackId) ← st.timer.call c
    return (⟨t, st.fired⟩, .status status callbackId)
  | .process script now => do
    let (st, next) ← timerProcess script st now
    return (st, .next next)
  | .clear => do return (⟨← timerClear st.timer, st.fired⟩, .cleared)

/-- A run on the timer in memory, with its answers. -/
def Running.run (st : Running) : List TimerEvent → Option (Running × List TimerAnswer)
  | [] => some (st, [])
  | e :: es => do
    let (st, answer) ← st.step e
    let (st, answers) ← st.run es
    return (st, answer :: answers)

/-- A timer after `UA_Timer_init`, whatever the memory contains. -/
def Running.start (cell : Addr → TimerEntry) : Running := ⟨timerInit ⟨∅, cell⟩, []⟩

/-- One event on the schedule. -/
def Schedule.step (s : Schedule) (fired : List Fired) : TimerEvent → (Schedule × List Fired) × TimerAnswer
  | .call c => (((s.call c).1, fired), .status (s.call c).2.1 (s.call c).2.2)
  | .process script now => ((s.process script fired now).1, .next (s.process script fired now).2)
  | .clear => ((Schedule.start, fired), .cleared)

/-- A run on the schedule, with its answers. -/
def Schedule.run (s : Schedule) (fired : List Fired) :
    List TimerEvent → (Schedule × List Fired) × List TimerAnswer
  | [] => ((s, fired), [])
  | e :: es =>
    let r := s.step fired e
    let rs := r.1.1.run r.1.2 es
    (rs.1, r.2 :: rs.2)

/-! ## Admissible runs -/

/-- The times of the event, and those that its callbacks pass in, are within the limit. -/
def TimerEvent.Bounded : TimerEvent → Prop
  | .call c => c.Bounded
  | .process script now => Within timeBound now ∧ ∀ fired, ∀ c ∈ script fired, c.Bounded
  | .clear => True

/-- Fewer than 2^64 timers are added before the timer is cleared: the counter of the ids does not wrap. -/
def Schedule.FewAdds (s : Schedule) (fired : List Fired) : List TimerEvent → Prop
  | [] => True
  | e :: es => (s.step fired e).1.1.idCounter < 2 ^ 64 ∧ (s.step fired e).1.1.FewAdds (s.step fired e).1.2 es

instance decidableFewAdds (s : Schedule) (fired : List Fired) :
    (es : List TimerEvent) → Decidable (s.FewAdds fired es)
  | [] => inferInstanceAs (Decidable True)
  | e :: es =>
    have := decidableFewAdds (s.step fired e).1.1 (s.step fired e).1.2 es
    inferInstanceAs (Decidable (_ ∧ _))

/-- **The runs the results are about**: the times are within the limit and the ids do not wrap. -/
structure Admissible (s : Schedule) (fired : List Fired) (es : List TimerEvent) : Prop where
  bounded : ∀ e ∈ es, e.Bounded
  few     : s.FewAdds fired es

/-- Parts of an admissible run. -/
theorem admissible_append {fired : List Fired} {es es' : List TimerEvent} :
    Admissible s fired (es ++ es') ↔
      Admissible s fired es ∧ Admissible (s.run fired es).1.1 (s.run fired es).1.2 es' := by
  induction es generalizing s fired with
  | nil => exact ⟨fun h => ⟨⟨by simp, trivial⟩, h⟩, fun h => h.2⟩
  | cons e es ih =>
      constructor
      · intro h
        obtain ⟨he, hes⟩ := List.forall_mem_cons.mp h.bounded
        obtain ⟨h₁, h₂⟩ := ih.mp ⟨hes, h.few.2⟩
        exact ⟨⟨List.forall_mem_cons.mpr ⟨he, h₁.bounded⟩, h.few.1, h₁.few⟩, h₂⟩
      · intro h
        obtain ⟨he, hes⟩ := List.forall_mem_cons.mp h.1.bounded
        have hrest := ih.mpr ⟨⟨hes, h.1.few.2⟩, h.2⟩
        exact ⟨List.forall_mem_cons.mpr ⟨he, hrest.bounded⟩, h.1.few.1, hrest.few⟩

/-- A timer in memory and its schedule between two events. -/
structure Settled (st : Running) (s : Schedule) (fired : List Fired) : Prop where
  sim   : ∃ T I, Sim st.timer s T I
  ok    : s.Ok
  tame  : s.Tame
  idle  : s.pending = []
  fired : st.fired = fired

/-- A timer without entries. -/
theorem settled_empty (cell : Addr → TimerEntry) (fired : List Fired) :
    Settled ⟨⟨⟨∅, cell⟩, none, none, 0⟩, fired⟩ Schedule.start fired := by
  have hnil : ∀ {κ : Type} [LinearOrder κ] (Z : ZipFunctions TimerEntry κ) (h : Heap TimerEntry),
      Holds Z ⟨h, none⟩ .nil := fun _ _ => ⟨rfl, fun _ ha => (List.not_mem_nil ha).elim, ZipTree.isZip_nil⟩
  refine ⟨⟨.nil, .nil, hnil _ _, hnil _ _, .nil, fun a ha => absurd ha (Finset.notMem_empty a), rfl,
    fun i hi => ?_, rfl⟩,
    ⟨.nil, .nil, .nil, fun i hi => ?_, fun i hi => ?_, fun i hi => ?_⟩, ⟨fun i hi => ?_, fun i hi => ?_⟩, rfl,
    rfl⟩ <;>
    cases hi

theorem settled_start (cell : Addr → TimerEntry) : Settled (Running.start cell) Schedule.start [] :=
  settled_empty cell []

/-- **One event** on the timer and on the schedule. -/
theorem step_sim {st : Running} {fired : List Fired} (h : Settled st s fired) {e : TimerEvent}
    (he : e.Bounded) (hcounter : (s.step fired e).1.1.idCounter < 2 ^ 64) :
    ∃ st', st.step e = some (st', (s.step fired e).2) ∧
      Settled st' (s.step fired e).1.1 (s.step fired e).1.2 := by
  obtain ⟨⟨T, I, hsim⟩, hok, htame, hidle, rfl⟩ := h
  cases e with
  | call c =>
      obtain ⟨t', ht', T', I', hsim', -⟩ := call_sim hsim hok htame he hcounter
      refine ⟨⟨t', st.fired⟩, (congrArg (Option.bind · _) ht').trans rfl, ⟨T', I', hsim'⟩, hok.call c,
        htame.call he, ?_, rfl⟩
      have haddrs := (Schedule.call_pending s c).1
      rw [hidle] at haddrs
      exact List.map_eq_nil_iff.mp haddrs
  | process script now =>
      obtain ⟨hnow, hscript⟩ := he
      obtain ⟨st', T', I', hst', hfired, hsim', hidle'⟩ :=
        timerProcess_sim hsim hok htame hidle hscript hnow hcounter
      refine ⟨st', (congrArg (Option.bind · _) hst').trans rfl, ⟨T', I', hsim'⟩, ?_, ?_, hidle', hfired⟩
      · exact (hok.startRound hidle now).visits script now _ st.fired
      · exact (htame.startRound hnow).visits (hok.startRound hidle now) hscript hnow _ st.fired
  | clear =>
      obtain ⟨t', ht', hlive, htree, hids, hzero⟩ := timerClear_sim hsim
      refine ⟨⟨t', st.fired⟩, (congrArg (Option.bind · _) ht').trans rfl, ?_⟩
      obtain ⟨⟨live, cell⟩, tree, idTree, idCounter⟩ := t'
      obtain rfl : live = ∅ := hlive
      obtain rfl : tree = none := htree
      obtain rfl : idTree = none := hids
      obtain rfl : idCounter = 0 := hzero
      exact settled_empty cell st.fired

/-- **Runs.** Whatever is called and whatever the callbacks do, the timer never fails and answers what the
    schedule answers, as long as the run is admissible. -/
theorem run_sim {st : Running} {fired : List Fired} (h : Settled st s fired) {es : List TimerEvent}
    (hes : Admissible s fired es) :
    ∃ st', st.run es = some (st', (s.run fired es).2) ∧
      Settled st' (s.run fired es).1.1 (s.run fired es).1.2 := by
  induction es generalizing st s fired with
  | nil => exact ⟨st, rfl, h⟩
  | cons e es ih =>
      obtain ⟨he, hrest⟩ := List.forall_mem_cons.mp hes.bounded
      obtain ⟨st₁, hst₁, hsettled₁⟩ := step_sim h he hes.few.1
      obtain ⟨st₂, hst₂, hsettled₂⟩ := ih hsettled₁ ⟨hrest, hes.few.2⟩
      refine ⟨st₂, ?_, hsettled₂⟩
      unfold Running.run
      rw [hst₁]
      simp only [Option.bind_eq_bind, Option.bind_some, hst₂]
      rfl

end Open62541
end Esp32Probes
