import Esp32Probes.Open62541.Timer
import Esp32Probes.Open62541.ZipTraverse

/-!
# Open62541.ZipHistory — what the pointers of a tree remember

The shape of a zip tree is decided by the keys and the ranks of its elements. So the pointers in memory tell
nothing of the order of the operations that led to them, and to split a tree and to zip it again changes no
byte. The last section is about the one operation that damages a tree: `__ZIP_INSERT` of an element that is
already there.
-/

namespace Esp32Probes
namespace Open62541

open CHeap (Addr Heap)
open ZipTree (inorder IsZip)

variable {ε κ : Type} [LinearOrder κ] {Z : ZipFunctions ε κ}

/-! ## Pointers and trees -/

/-- A tree decides the root pointer and the pointers of its elements. -/
theorem Rep.links_eq {L L' : Edge → Option Addr} {v v' : Option Addr} {t : BinaryTree Addr} (h : Rep L v t)
    (h' : Rep L' v' t) : v = v' ∧ ∀ s, ∀ a ∈ inorder t, L (.child s a) = L' (.child s a) := by
  induction t generalizing v v' with
  | nil => exact ⟨h.trans h'.symm, fun _ _ ha => (List.not_mem_nil ha).elim⟩
  | node a l r ihl ihr =>
      obtain ⟨hv, hl, hr⟩ := h
      obtain ⟨hv', hl', hr'⟩ := h'
      obtain ⟨hleft, hlinks⟩ := ihl hl hl'
      obtain ⟨hright, hrinks⟩ := ihr hr hr'
      refine ⟨hv.trans hv'.symm, fun s b hb => ?_⟩
      rcases List.mem_append.mp hb with hb | hb
      · exact hlinks s b hb
      · rcases List.mem_cons.mp hb with rfl | hb
        · cases s
          · exact hleft
          · exact hright
        · exact hrinks s b hb

omit [LinearOrder κ] in
theorem field_eq {m m' : Mem ε} {a : Addr} (h : ∀ s, links Z m (.child s a) = links Z m' (.child s a)) :
    Z.field (m.heap.cell a) = Z.field (m'.heap.cell a) :=
  congrArg₂ ZipEntry.mk (h .left) (h .right)

omit [LinearOrder κ] in
/-- Memories with the same data and the same pointers are the same. -/
theorem mem_eq {m m' : Mem ε} (hs : SameData Z m.heap m'.heap) (hroot : m'.root = m.root)
    (hlinks : ∀ s a, links Z m' (.child s a) = links Z m (.child s a)) : m' = m := by
  obtain ⟨h, root⟩ := m
  obtain ⟨h', root'⟩ := m'
  obtain ⟨live, cell⟩ := h
  obtain ⟨live', cell'⟩ := h'
  obtain rfl : root' = root := hroot
  obtain rfl : live' = live := hs.live
  have hcell : cell' = cell := funext fun a => by
    obtain ⟨z, hz⟩ := hs.cell a
    have hz : cell' a = Z.setField (cell a) z := hz
    have hfield : Z.field (cell' a) = Z.field (cell a) := field_eq fun s => hlinks s a
    rw [hz, Z.field_setField] at hfield
    rw [hz, hfield, Z.setField_field]
  rw [hcell]

/-! ## Any order of operations -/

/-- An operation of the program on a tree. -/
inductive ZipOp
  | insert (x : Addr)
  | remove (x : Addr)
deriving DecidableEq

/-- What an operation does to the memory. -/
def zipOp (Z : ZipFunctions ε κ) (m : Mem ε) : ZipOp → Option (Mem ε)
  | .insert x => zipInsert Z m x
  | .remove x => (zipRemove Z m x).map Prod.fst

/-- A sequence of operations. -/
def zipOps (Z : ZipFunctions ε κ) (m : Mem ε) : List ZipOp → Option (Mem ε)
  | [] => some m
  | op :: ops => (zipOp Z m op).bind fun m => zipOps Z m ops

/-- The elements after these operations. -/
def present (s : Finset Addr) : List ZipOp → Finset Addr
  | [] => s
  | .insert x :: ops => present (insert x s) ops
  | .remove x :: ops => present (s.erase x) ops

/-- The elements are allocated, and none is inserted that is in the tree. -/
def Proper (live s : Finset Addr) : List ZipOp → Prop
  | [] => True
  | .insert x :: ops => x ∈ live ∧ x ∉ s ∧ Proper live (insert x s) ops
  | .remove x :: ops => x ∈ live ∧ Proper live (s.erase x) ops

/-- **A run of operations** keeps the tree in memory and its elements those present. -/
theorem zipOps_holds (hZ : Z.Lawful) {ops : List ZipOp} {m : Mem ε} {t : BinaryTree Addr} (h : Holds Z m t)
    {s : Finset Addr} (hs : ∀ a, a ∈ inorder t ↔ a ∈ s) (hops : Proper m.heap.live s ops) :
    ∃ m' t', zipOps Z m ops = some m' ∧ Holds Z m' t' ∧ SameData Z m.heap m'.heap ∧
      ∀ a, a ∈ inorder t' ↔ a ∈ present s ops := by
  induction ops generalizing m t s with
  | nil => exact ⟨m, t, rfl, h, SameData.refl _, hs⟩
  | cons op ops ih =>
      cases op with
      | insert x =>
          obtain ⟨hx, hxs, hrest⟩ := hops
          obtain ⟨m₁, hm₁, ht, hh⟩ := zipInsert_spec hZ h hx fun hm => hxs ((hs x).mp hm)
          obtain ⟨m₂, t₂, hm₂, hh₂, hs₂, hmem⟩ := ih hh (s := insert x s)
            (fun a => by rw [ZipTree.mem_insert, hs, Finset.mem_insert]) (ht.data.live ▸ hrest)
          exact ⟨m₂, t₂, (congrArg (Option.bind · _) hm₁).trans hm₂, hh₂, ht.data.trans hs₂, hmem⟩
      | remove x =>
          obtain ⟨hx, hrest⟩ := hops
          obtain ⟨m₁, hm₁, ht, hh⟩ := zipRemove_spec hZ h hx
          obtain ⟨m₂, t₂, hm₂, hh₂, hs₂, hmem⟩ := ih hh (s := s.erase x)
            (fun a => by rw [ZipTree.mem_remove h.zip (elemKey_injective Z _), hs, Finset.mem_erase,
              and_comm])
            (ht.data.live ▸ hrest)
          refine ⟨m₂, t₂, ?_, hh₂, ht.data.trans hs₂, hmem⟩
          have hop : zipOp Z m (.remove x) = some m₁ := congrArg (Option.map Prod.fst) hm₁
          exact (congrArg (Option.bind · _) hop).trans hm₂

theorem holds_nil (Z : ZipFunctions ε κ) (h : Heap ε) : Holds Z ⟨h, none⟩ .nil :=
  ⟨rfl, fun _ ha => (List.not_mem_nil ha).elim, ZipTree.isZip_nil⟩

/-- Three timer entries whose ids are their addresses. -/
def threeEntries : Heap TimerEntry :=
  ⟨{4096, 8192, 12288}, fun a => ⟨⟨none, none⟩, .once, 0, 0, none, 0, 0, ⟨none, none⟩, a⟩⟩

/-- **History independence.** Two sequences of insertions and removals that leave the same elements leave the
    same root and the same pointers in every element. -/
theorem pointers_independent_of_history (hZ : Z.Lawful) (h : Heap ε) (ops ops' : List ZipOp)
    (hops : Proper h.live ∅ ops) (hops' : Proper h.live ∅ ops') (hsame : present ∅ ops = present ∅ ops') :
    ∃ m m', zipOps Z ⟨h, none⟩ ops = some m ∧ zipOps Z ⟨h, none⟩ ops' = some m' ∧ m.root = m'.root ∧
      ∀ a ∈ present ∅ ops, Z.field (m.heap.cell a) = Z.field (m'.heap.cell a) := by
  obtain ⟨m, t, hm, hh, hs, hmem⟩ := zipOps_holds hZ (holds_nil Z h) (s := ∅) (by simp) hops
  obtain ⟨m', t', hm', hh', hs', hmem'⟩ := zipOps_holds hZ (holds_nil Z h) (s := ∅) (by simp) hops'
  have hzip' : IsZip (elemKey Z m.heap) rank t' := by
    refine hh'.zip.congr (fun a _ => ?_) fun _ _ => rfl
    rw [hs.elemKey, hs'.elemKey]
  -- both trees are the one with these elements
  obtain rfl : t = t' := by
    refine hh.zip.ext hzip' ((List.perm_ext_iff_of_nodup hh.zip.nodup hzip'.nodup).mpr fun a => ?_)
    rw [hmem, hmem', hsame]
  obtain ⟨hroot, hlinks⟩ := hh.rep.links_eq hh'.rep
  exact ⟨m, m', hm, hm', hroot, fun a ha => field_eq fun s => hlinks s a ((hmem a).mpr ha)⟩

/-- A longer way to the elements of `twoOps`. -/
def fourOps : List ZipOp := [.insert 4096, .insert 8192, .remove 4096, .insert 12288]

def twoOps : List ZipOp := [.insert 12288, .insert 8192]

theorem pointers_independent_of_history_timer :
    ∃ m m', zipOps timerIdTree ⟨threeEntries, none⟩ fourOps = some m ∧
      zipOps timerIdTree ⟨threeEntries, none⟩ twoOps = some m' ∧ m.root = m'.root ∧
      ∀ a ∈ present ∅ fourOps, timerIdTree.field (m.heap.cell a) = timerIdTree.field (m'.heap.cell a) :=
  pointers_independent_of_history (fun _ _ => rfl) threeEntries fourOps twoOps
    (by simp [fourOps, Proper, threeEntries]) (by simp [twoOps, Proper, threeEntries]) (by decide)

/-- **Lookups.** After any insertions and removals `ZIP_FIND` finds an element with the key unless there is
    none, `ZIP_MIN` the first element, and `ZIP_ITER_KEY` visits the elements that compare equal, each once
    and in order, until the callback answers. -/
theorem lookups (hZ : Z.Lawful) (h : Heap ε) (ops : List ZipOp) (hops : Proper h.live ∅ ops) :
    ∃ m, zipOps Z ⟨h, none⟩ ops = some m ∧
      (∀ key, ∃ found, zipFind Z m.heap key m.fuel m.root = some found ∧
        match found with
        | some a => a ∈ present ∅ ops ∧ Z.keyfield (h.cell a) = key
        | none => ∀ a ∈ present ∅ ops, Z.keyfield (h.cell a) ≠ key) ∧
      (∃ found, zipMin Z m = some found ∧
        match found with
        | some a => a ∈ present ∅ ops ∧ ∀ b ∈ present ∅ ops, elemKey Z h a ≤ elemKey Z h b
        | none => present ∅ ops = ∅) ∧
      ∀ (cmp : κ → ZipCmp), (∀ a b, a ≤ b → (cmp b = .more → cmp a = .more) ∧
        (cmp a = .less → cmp b = .less)) →
        ∃ l : List Addr, l.Pairwise (fun a b => elemKey Z h a < elemKey Z h b) ∧
          (∀ a, a ∈ l ↔ a ∈ present ∅ ops ∧ cmp (Z.keyfield (h.cell a)) = .eq) ∧
          ∀ (σ ω : Type) (cb : σ → Addr → Option (σ × Option ω)) (st : σ),
            zipIterKey Z m.heap cmp cb m.fuel st m.root = iterUntil cb st l := by
  obtain ⟨m, t, hm, hh, hs, hmem⟩ := zipOps_holds hZ (holds_nil Z h) (s := ∅) (by simp) hops
  have hfuel : t.height ≤ m.fuel := le_trans (ZipTree.height_le_numNodes t) (le_of_lt hh.numNodes_lt)
  have hsorted : (inorder t).Pairwise fun a b => elemKey Z h a < elemKey Z h b := by
    have hsorted := hh.zip.sorted
    rw [hs.elemKey] at hsorted
    exact hsorted
  refine ⟨m, hm, fun key => ?_, ⟨_, zipMin_spec hh, ?_⟩, fun cmp hcmp => ?_⟩
  · obtain ⟨found, hfound, hspec⟩ := zipFind_spec hZ key t hh.rep hh.live hh.zip hfuel
    refine ⟨found, hfound, ?_⟩
    cases found with
    | none => exact fun a ha => hs.keyfield a ▸ hspec a ((hmem a).mpr ha)
    | some a => exact ⟨(hmem a).mp hspec.1, hs.keyfield a ▸ hspec.2⟩
  · cases hT : inorder t with
    | nil => exact Finset.eq_empty_of_forall_notMem fun a ha => by simpa [hT] using (hmem a).mpr ha
    | cons a l =>
        rw [hT] at hsorted
        refine ⟨(hmem a).mp (hT ▸ List.mem_cons_self), fun b hb => ?_⟩
        rcases List.mem_cons.mp (hT ▸ (hmem b).mpr hb) with rfl | hbl
        · exact le_refl _
        · exact le_of_lt ((List.pairwise_cons.mp hsorted).1 b hbl)
  · refine ⟨(inorder t).filter fun a => cmp (Z.keyfield (m.heap.cell a)) = .eq, hsorted.filter _, fun a => ?_,
      fun σ ω cb st => ?_⟩
    · rw [List.mem_filter, hmem, decide_eq_true_eq, hs.keyfield]
    · rw [zipIterKey_spec cmp cb t st hh.rep hh.live hfuel, visits_eq_filter]
      refine hh.zip.sorted.imp fun hab => hcmp _ _ ?_
      exact (Prod.Lex.toLex_lt_toLex.mp hab).elim le_of_lt fun he => le_of_eq he.1

theorem lookups_timer :
    ∃ m, zipOps timerIdTree ⟨threeEntries, none⟩ twoOps = some m ∧
      (∀ key, ∃ found, zipFind timerIdTree m.heap key m.fuel m.root = some found ∧
        match found with
        | some a => a ∈ present ∅ twoOps ∧ timerIdTree.keyfield (threeEntries.cell a) = key
        | none => ∀ a ∈ present ∅ twoOps, timerIdTree.keyfield (threeEntries.cell a) ≠ key) ∧
      (∃ found, zipMin timerIdTree m = some found ∧
        match found with
        | some a => a ∈ present ∅ twoOps ∧
            ∀ b ∈ present ∅ twoOps, elemKey timerIdTree threeEntries a ≤ elemKey timerIdTree threeEntries b
        | none => present ∅ twoOps = ∅) ∧
      ∀ (cmp : Nat → ZipCmp), (∀ a b, a ≤ b → (cmp b = .more → cmp a = .more) ∧
        (cmp a = .less → cmp b = .less)) →
        ∃ l : List Addr, l.Pairwise (fun a b => elemKey timerIdTree threeEntries a <
          elemKey timerIdTree threeEntries b) ∧
          (∀ a, a ∈ l ↔ a ∈ present ∅ twoOps ∧ cmp (timerIdTree.keyfield (threeEntries.cell a)) = .eq) ∧
          ∀ (σ ω : Type) (cb : σ → Addr → Option (σ × Option ω)) (st : σ),
            zipIterKey timerIdTree m.heap cmp cb m.fuel st m.root = iterUntil cb st l :=
  lookups (fun _ _ => rfl) threeEntries twoOps (by simp [twoOps, Proper, threeEntries])

/-! ## Unzip and zip -/

/-- **Unzip and zip** give every byte back. -/
theorem zipZip_zipUnzip (hZ : Z.Lawful) (h : Heap ε) (ops : List ZipOp) (hops : Proper h.live ∅ ops)
    (key : κ) :
    ∃ m h' l r, zipOps Z ⟨h, none⟩ ops = some m ∧ zipUnzip Z m key = some (h', l, r) ∧
      zipZip Z h' l r = some m := by
  obtain ⟨m, t, hm, hh, -, -⟩ := zipOps_holds hZ (holds_nil Z h) (s := ∅) (by simp) hops
  obtain ⟨h', l, r, hunzip, ht, hl, hr⟩ := zipUnzip_spec hZ hh key
  have hperm := ZipTree.perm_split (upTo Z m.heap key) t
  have hlive : ∀ a ∈ inorder (ZipTree.split (upTo Z m.heap key) t).1 ++
      inorder (ZipTree.split (upTo Z m.heap key) t).2, a ∈ h'.live := fun a ha =>
    ht.data.live ▸ hh.live a (hperm.mem_iff.mp ha)
  obtain ⟨m', hzip, hs, hrep, hframe⟩ := zipZip_spec (m := ⟨h', l⟩) hl.rep (hr.rep.frame fun _ _ _ => rfl)
    (hperm.nodup_iff.mpr hh.zip.nodup) hlive
  rw [ZipTree.zip_split hh.zip rank_injective (cuts_upTo hh.zip key)] at hrep
  obtain ⟨hroot, hlinks⟩ := hrep.links_eq hh.rep
  have hback : m' = m := by
    refine mem_eq (ht.data.trans hs) hroot fun s a => ?_
    by_cases ha : a ∈ inorder t
    · exact hlinks s a ha
    · exact (hframe s a fun hm => ha (hperm.mem_iff.mp hm)).trans (ht.frame s a ha)
  exact ⟨m, h', l, r, hm, hunzip, hback ▸ hzip⟩

theorem zipZip_zipUnzip_timer :
    ∃ m h' l r, zipOps timerIdTree ⟨threeEntries, none⟩ [.insert 4096, .insert 12288, .insert 8192] = some m ∧
      zipUnzip timerIdTree m 8192 = some (h', l, r) ∧ zipZip timerIdTree h' l r = some m :=
  zipZip_zipUnzip (fun _ _ => rfl) threeEntries [.insert 4096, .insert 12288, .insert 8192]
    (by simp [Proper, threeEntries]) 8192

/-! ## Inserting an element twice -/

/-- The tree without what hangs below `x`. -/
def cutBelow (x : Addr) : BinaryTree Addr → BinaryTree Addr
  | .nil => .nil
  | .node a l r => if a = x then .node a .nil .nil else .node a (cutBelow x l) (cutBelow x r)

/-- What hangs below `x`. -/
def below (x : Addr) : BinaryTree Addr → List Addr
  | .nil => []
  | .node a l r => if a = x then inorder l ++ inorder r else below x l ++ below x r

theorem perm_cutBelow (x : Addr) (t : BinaryTree Addr) :
    (inorder (cutBelow x t) ++ below x t).Perm (inorder t) := by
  induction t with
  | nil => exact .nil
  | node a l r ihl ihr =>
      unfold cutBelow below
      split_ifs
      · show (a :: (inorder l ++ inorder r)).Perm _
        exact List.perm_middle.symm
      · have hswap : ∀ A B C D : List Addr, ((A ++ a :: C) ++ (B ++ D)).Perm (a :: ((A ++ B) ++ (C ++ D))) :=
          fun A B C D => List.perm_iff_count.mpr fun b => by
            simp only [List.count_append, List.count_cons]
            omega
        exact (hswap _ _ _ _).trans (((ihl.append ihr).cons a).trans List.perm_middle.symm)

theorem cutBelow_sublist (x : Addr) (t : BinaryTree Addr) : (inorder (cutBelow x t)).Sublist (inorder t) := by
  induction t with
  | nil => exact .slnil
  | node a l r ihl ihr =>
      unfold cutBelow
      split_ifs
      · exact (List.nil_sublist _).append ((List.nil_sublist _).cons_cons a)
      · exact ihl.append (ihr.cons_cons a)

theorem rep_cutBelow {L L' : Edge → Option Addr} {x : Addr} {v : Option Addr} {t : BinaryTree Addr}
    (h : Rep L v t)
    (hx : ∀ s, L' (.child s x) = none) (hother : ∀ s a, a ≠ x → L' (.child s a) = L (.child s a)) :
    Rep L' v (cutBelow x t) := by
  induction t generalizing v with
  | nil => exact h
  | node a l r ihl ihr =>
      obtain ⟨rfl, hl, hr⟩ := h
      unfold cutBelow
      split_ifs with ha
      · exact ⟨rfl, ha ▸ hx .left, ha ▸ hx .right⟩
      · refine ⟨rfl, ?_, ?_⟩
        · rw [hother .left a ha]
          exact ihl hl
        · rw [hother .right a ha]
          exact ihr hr

theorem isZip_cutBelow {κ : Type*} [LinearOrder κ] {key : Addr → κ} {x : Addr} {t : BinaryTree Addr}
    (h : IsZip key rank t) : IsZip key rank (cutBelow x t) := by
  refine ⟨h.sorted.sublist (cutBelow_sublist x t), ?_⟩
  have hheap := h.heaped
  clear h
  induction t with
  | nil => trivial
  | node a l r ihl ihr =>
      obtain ⟨hl, hr, hhl, hhr⟩ := hheap
      unfold cutBelow
      split_ifs
      · exact ⟨by simp, by simp, trivial, trivial⟩
      · exact ⟨fun b hb => hl b ((cutBelow_sublist x l).subset hb), fun b hb =>
          hr b ((cutBelow_sublist x r).subset hb), ihl hhl, ihr hhr⟩

/-- The search of `__ZIP_INSERT` ends at the element itself if the tree has it. -/
theorem insertDescend_present (hZ : Z.Lawful) {m m' : Mem ε} {x : Addr} {t : BinaryTree Addr} {n : Nat}
    {prev : Option Addr} {order : ZipCmp} {cur : Addr} (hrep : Rep (links Z m) (some cur) t)
    (hlive : ∀ a ∈ inorder t, a ∈ m'.heap.live) (hzip : IsZip (elemKey Z m'.heap) rank t) (hx : x ∈ inorder t)
    (hother : ∀ s a, a ≠ x → links Z m' (.child s a) = links Z m (.child s a)) (hn : t.numNodes < n) :
    insertDescend Z m' x n prev order cur = some none := by
  induction t generalizing n prev order cur with
  | nil => cases hrep
  | node a l r ihl ihr =>
      obtain ⟨hca, hl, hr⟩ := hrep
      obtain rfl : cur = a := Option.some.inj hca
      obtain ⟨n, rfl⟩ : ∃ k, n = k + 1 := ⟨n - 1, by omega⟩
      simp only [BinaryTree.numNodes] at hn
      unfold insertDescend
      by_cases hxa : x = cur
      · rw [hxa, zipUniqueCmp_self]
        rfl
      · have hcur : cur ∈ m'.heap.live := hlive cur (List.mem_append_right _ List.mem_cons_self)
        have hne : cur ≠ x := fun he => hxa he.symm
        rw [zipUniqueCmp_eq hZ (hlive x hx) hcur hxa]
        rcases List.mem_append.mp hx with hxl | hxr
        · -- to the left
          have hlt : elemKey Z m'.heap x < elemKey Z m'.heap cur := hzip.lt_root hxl
          have hrank : ¬rank cur < rank x := lt_asymm (hzip.heaped.1 x hxl)
          obtain ⟨next, hnext⟩ : ∃ next, links Z m (.child .left cur) = some next := by
            cases l with
            | nil => cases hxl
            | node b l' r' => exact ⟨b, hl.1⟩
          rw [hnext] at hl
          simp only [hlt, if_true, Option.bind_eq_bind, Option.bind_some, reduceCtorEq, if_false,
            zipRankCmp_less, hrank, readEdge_eq (e := .child .left cur) hcur, hother .left cur hne, hnext]
          exact ihl hl (fun b hb => hlive b (List.mem_append_left _ hb)) hzip.left hxl (by omega)
        · -- to the right
          have hxr : x ∈ inorder r := (List.mem_cons.mp hxr).resolve_left hxa
          have hlt : ¬elemKey Z m'.heap x < elemKey Z m'.heap cur := lt_asymm (hzip.root_lt hxr)
          have hrank : ¬rank cur < rank x := lt_asymm (hzip.heaped.2.1 x hxr)
          obtain ⟨next, hnext⟩ : ∃ next, links Z m (.child .right cur) = some next := by
            cases r with
            | nil => cases hxr
            | node b l' r' => exact ⟨b, hr.1⟩
          rw [hnext] at hr
          simp only [hlt, if_false, Option.bind_eq_bind, Option.bind_some, reduceCtorEq, zipRankCmp_less,
            if_true, hrank, readEdge_eq (e := .child .right cur) hcur, hother .right cur hne, hnext]
          exact ihr hr (fun b hb =>
            hlive b (List.mem_append_right _ (List.mem_cons_of_mem _ hb))) hzip.right hxr
            (by omega)

/-- **An element that is inserted again** loses its subtrees: the search that finds it comes after its
    pointers have been cleared. The rest of the tree stays. -/
theorem zipInsert_present (hZ : Z.Lawful) (h : Heap ε) (ops : List ZipOp) (hops : Proper h.live ∅ ops)
    {x : Addr} (hx : x ∈ present ∅ ops) :
    ∃ m m' t, zipOps Z ⟨h, none⟩ ops = some m ∧ Holds Z m t ∧ zipInsert Z m x = some m' ∧
      Holds Z m' (cutBelow x t) ∧ (inorder (cutBelow x t) ++ below x t).Perm (inorder t) := by
  obtain ⟨m, t, hm, hh, -, hmem⟩ := zipOps_holds hZ (holds_nil Z h) (s := ∅) (by simp) hops
  have hxt : x ∈ inorder t := (hmem x).mpr hx
  have hlive : x ∈ m.heap.live := hh.live x hxt
  obtain ⟨m₁, hm₁, hl₁, hs₁⟩ := writeEdge_eq (Z := Z) (e := .child .left x) hlive none
  obtain ⟨m₂, hm₂, hl₂, hs₂⟩ := writeEdge_eq (Z := Z) (m := m₁) (e := .child .right x)
    (Edge.Live.same (e := .child .right x) hlive hs₁) none
  have hs := hs₁.trans hs₂
  have hother : ∀ s a, a ≠ x → links Z m₂ (.child s a) = links Z m (.child s a) := by
    intro s a ha
    rw [hl₂, Function.update_of_ne (by simp [ha]), hl₁, Function.update_of_ne (by simp [ha])]
  have hclear : ∀ s, links Z m₂ (.child s x) = none := by
    intro s
    cases s with
    | left => rw [hl₂, Function.update_of_ne (by simp), hl₁, Function.update_self]
    | right => rw [hl₂, Function.update_self]
  have hroot : m₂.root = m.root := by
    have hlinks : links Z m₂ .root = links Z m .root := by
      rw [hl₂, Function.update_of_ne (by simp), hl₁, Function.update_of_ne (by simp)]
    exact hlinks
  have hzip : IsZip (elemKey Z m₂.heap) rank t := by
    rw [hs.elemKey]
    exact hh.zip
  have hrep := hh.rep
  have hfuel : t.numNodes < m₂.fuel := by
    have hlt := hh.numNodes_lt
    unfold Mem.fuel at hlt ⊢
    rw [hs.live]
    exact hlt
  refine ⟨m, m₂, t, hm, hh, ?_, ⟨?_, fun a ha => ?_, isZip_cutBelow hzip⟩, perm_cutBelow x t⟩
  · unfold zipInsert
    simp only [hm₁, hm₂, Option.bind_eq_bind, Option.bind_some]
    cases hcur : m₂.root with
    | none =>
        rw [← hroot, hcur] at hrep
        cases t with
        | nil => cases hxt
        | node a l r => cases hrep.1
    | some cur =>
        rw [← hroot, hcur] at hrep
        simp only [insertDescend_present hZ hrep (fun a ha => hs.live ▸ hh.live a ha) hzip hxt hother hfuel,
          Option.bind_some]
        rfl
  · rw [hroot]
    exact rep_cutBelow hh.rep hclear hother
  · rw [hs.live]
    exact hh.live a ((cutBelow_sublist x t).subset ha)

theorem zipInsert_present_timer :
    ∃ m m' t, zipOps timerIdTree ⟨threeEntries, none⟩ [.insert 4096, .insert 12288, .insert 8192] = some m ∧
      Holds timerIdTree m t ∧ zipInsert timerIdTree m 12288 = some m' ∧
      Holds timerIdTree m' (cutBelow 12288 t) ∧
      (inorder (cutBelow 12288 t) ++ below 12288 t).Perm (inorder t) :=
  zipInsert_present (fun _ _ => rfl) threeEntries [.insert 4096, .insert 12288, .insert 8192]
    (by simp [Proper, threeEntries]) (by decide)

end Open62541
end Esp32Probes
