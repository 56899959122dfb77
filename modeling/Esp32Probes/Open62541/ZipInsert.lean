import Esp32Probes.Open62541.ZipMemory

/-!
# Open62541.ZipInsert — insertion and removal on the heap

`__ZIP_INSERT`, `__ZIP_ZIP` and `__ZIP_REMOVE` compute `ZipTree.insert`, `ZipTree.zip` and `ZipTree.remove` of
the tree in memory. Each search lemma is stated for the edge at which the search stands and a tree below it,
together with the writes that follow the search, so that the induction is over that tree.
-/

namespace Esp32Probes
namespace Open62541

open CHeap (Addr Heap)
open ZipTree (inorder IsZip)

variable {ε κ : Type}

/-! ## The two orders -/

/-- The order of `__ZIP_RANK_CMP`. -/
def rank (p : Addr) : ℕ ×ₗ ℕ := toLex ((zipPtrHash p).toNat, p)

/-- Different elements have different ranks, by the tie-break on the address. -/
theorem rank_injective : Function.Injective rank := fun _ _ h => congrArg (fun x => (ofLex x).2) h

theorem zipRankCmp_less {p q : Addr} : zipRankCmp p q = .less ↔ rank p < rank q := by
  unfold zipRankCmp rank
  rw [Prod.Lex.toLex_lt_toLex]
  by_cases h : zipPtrHash p = zipPtrHash q
  · simp [h]
  · have hne : (zipPtrHash p).toNat ≠ (zipPtrHash q).toNat := fun he => h (UInt32.toNat_inj.mp he)
    simp [h, hne, UInt32.lt_iff_toNat_lt]

/-- The key of an element with its address, which decides between equal keys (`__ZIP_UNIQUE_CMP`). -/
def elemKey (Z : ZipFunctions ε κ) (h : Heap ε) (p : Addr) : κ ×ₗ Addr := toLex (Z.keyfield (h.cell p), p)

/-- Different elements have different keys, by the tie-break on the address. -/
theorem elemKey_injective (Z : ZipFunctions ε κ) (h : Heap ε) : Function.Injective (elemKey Z h) :=
  fun _ _ he => congrArg (fun x => (ofLex x).2) he

variable {Z : ZipFunctions ε κ}

theorem SameData.elemKey {h h' : Heap ε} (hs : SameData Z h h') : elemKey Z h' = elemKey Z h :=
  funext fun p => by
    unfold Open62541.elemKey
    rw [hs.keyfield]

theorem zipUniqueCmp_self (h : Heap ε) (p : Addr) : zipUniqueCmp Z h p p = some .eq := if_pos rfl

variable [LinearOrder κ]

/-- The comparison is the one of a linear order. -/
def ZipFunctions.Lawful (Z : ZipFunctions ε κ) : Prop :=
  ∀ a b, Z.cmp a b = if a = b then .eq else if a < b then .less else .more

/-- `__ZIP_UNIQUE_CMP` compares the keys of different elements. -/
theorem zipUniqueCmp_eq (hZ : Z.Lawful) {h : Heap ε} {p q : Addr} (hp : p ∈ h.live) (hq : q ∈ h.live)
    (hne : p ≠ q) :
    zipUniqueCmp Z h p q = some (if elemKey Z h p < elemKey Z h q then .less else .more) := by
  unfold zipUniqueCmp elemKey
  rw [if_neg hne, CHeap.load_eq hp, CHeap.load_eq hq]
  simp only [Option.bind_eq_bind, Option.bind_some, hZ _ _, Prod.Lex.toLex_lt_toLex]
  show some _ = some _
  congr 1
  by_cases heq : Z.keyfield (h.cell p) = Z.keyfield (h.cell q)
  · simp [heq]
  · by_cases hlt : Z.keyfield (h.cell p) < Z.keyfield (h.cell q)
    · simp [heq, hlt]
    · simp [heq, hlt]

/-- The memory holds a zip tree of allocated elements. -/
structure Holds (Z : ZipFunctions ε κ) (m : Mem ε) (t : BinaryTree Addr) : Prop where
  rep  : Rep (links Z m) m.root t
  live : ∀ a ∈ inorder t, a ∈ m.heap.live
  zip  : IsZip (elemKey Z m.heap) rank t

theorem Holds.numNodes_lt {m : Mem ε} {t : BinaryTree Addr} (h : Holds Z m t) : t.numNodes < m.fuel := by
  rw [← ZipTree.length_inorder]
  exact Nat.lt_succ_of_le (CHeap.length_le_card h.zip.nodup h.live)

/-! ## Insertion -/

omit [LinearOrder κ] in
/-- `x` gets the tree at `a` on one side; what does not belong there moves to the other side. -/
theorem insertMove_spec {m : Mem ε} {x a : Addr} {s : Side} (keep : ZipCmp) {q : Addr → Bool}
    (inner outer : BinaryTree Addr)
    (hq : ∀ h', SameData Z m.heap h' → ∀ b ∈ inorder inner,
      (zipUniqueCmp Z h' x b).map (· == keep) = some (q b)) (ha : q a = true)
    (hrep : Rep (links Z m) (some a) (mkNode s a inner outer)) (hnone : links Z m (.child s x) = none)
    (hlive : ∀ b ∈ inorder (mkNode s a inner outer), b ∈ m.heap.live) (hx : x ∈ m.heap.live)
    (hxt : x ∉ inorder (mkNode s a inner outer)) (hnodup : (inorder (mkNode s a inner outer)).Nodup) :
    ∃ m1 m2, writeEdge Z m (.child s.flip x) (some a) = some m1 ∧
      zipInsertMove Z s keep x m1 (.child s x) a = some m2 ∧ SameData Z m.heap m2.heap ∧
      Rep (links Z m2) (some x) (mkNode s x (cut s q (mkNode s a inner outer)).2
        (cut s q (mkNode s a inner outer)).1) ∧
      ∀ e, ¬e.On (x :: inorder (mkNode s a inner outer)) → links Z m2 e = links Z m e := by
  obtain ⟨-, hin, hout⟩ := rep_mkNode.mp hrep
  obtain ⟨haio, hio⟩ := List.nodup_cons.mp ((perm_mkNode s a inner outer).nodup_iff.mp hnodup)
  have hma : a ∈ inorder (mkNode s a inner outer) := mem_mkNode.mpr (.inl rfl)
  have hmin : ∀ b ∈ inorder inner, b ∈ inorder (mkNode s a inner outer) := fun b hb =>
    mem_mkNode.mpr (.inr (.inl hb))
  have hmout : ∀ b ∈ inorder outer, b ∈ inorder (mkNode s a inner outer) := fun b hb =>
    mem_mkNode.mpr (.inr (.inr hb))
  have hxa : x ≠ a := fun he => hxt (he ▸ hma)
  obtain ⟨m1, hm1, hl1, hs1⟩ := writeEdge_eq (Z := Z) (e := .child s.flip x) hx (some a)
  have hkeep1 : ∀ s', ∀ b ∈ inorder (mkNode s a inner outer), links Z m1 (.child s' b) =
    links Z m (.child s' b) := by
    intro s' b hb
    rw [hl1, Function.update_of_ne]
    intro he
    cases he
    exact hxt hb
  have hcard : inner.numNodes < m1.fuel := by
    have hlen := CHeap.length_le_card (List.nodup_append.mp hio).1 fun b hb => hs1.live ▸ hlive b (hmin b hb)
    rw [ZipTree.length_inorder] at hlen
    exact Nat.lt_succ_of_le hlen
  obtain ⟨m2, hm2, hs2, hkept, hmoved, hframe⟩ := moveLoop_spec
    (fun m cand => (zipUniqueCmp Z m.heap x cand).map (· == keep)) (insertRelink_relinks Z s) inner (q := q)
      (m := m1)
    (.child s x) a
    (fun m' hs b hb => hq m'.heap (hs1.trans hs) b hb)
    (by rw [hkeep1 s a hma]; exact hin.frame fun s' b hb => hkeep1 s' b (hmin b hb))
    (by rw [hl1, Function.update_of_ne (by simp)]; exact hnone) (by simpa using hxa)
    (fun h => hxt (hmin x h)) (fun h => haio (List.mem_append_left _ h)) (List.nodup_append.mp hio).1
    (fun b hb => hs1.live ▸ hlive b (hmin b hb)) (hs1.live ▸ hlive a hma)
    (Edge.Live.same (e := .child s x) hx hs1) hcard
  have hxin : x ∉ inorder inner := fun h => hxt (hmin x h)
  have hain : a ∉ inorder inner := fun h => haio (List.mem_append_left _ h)
  refine ⟨m1, m2, hm1, hm2, hs1.trans hs2, ?_, fun e he => ?_⟩
  · rw [cut_stays inner outer ha, rep_mkNode]
    refine ⟨rfl, hmoved, rep_mkNode.mpr ⟨?_, hkept, ?_⟩⟩
    · rw [hframe (.child s.flip x) (by simp) (by simp) hxin, hl1, Function.update_self]
    · rw [hframe (.child s.flip a) (by simp) (by simp [Ne.symm hxa]) hain, hkeep1 _ a hma]
      refine hout.frame fun s' b hb => ?_
      have hbin : b ∉ inorder inner := fun h => (List.nodup_append.mp hio).2.2 b h b hb rfl
      have hba : b ≠ a := fun he => haio (he ▸ List.mem_append_right _ hb)
      have hbx : b ≠ x := fun he => hxt (he ▸ hmout b hb)
      rw [hframe (.child s' b) (by simp [hba]) (by simp [hbx]) hbin, hkeep1 s' b (hmout b hb)]
  · have hex : e ≠ .child s x := Edge.ne_child he List.mem_cons_self s
    have hex' : e ≠ .child s.flip x := Edge.ne_child he List.mem_cons_self _
    have hea : e ≠ .child s a := Edge.ne_child he (List.mem_cons_of_mem _ hma) s
    rw [hframe e hea hex (Edge.not_on he fun b hb => List.mem_cons_of_mem _ (hmin b hb)), hl1,
      Function.update_of_ne hex']

/-- The edge that `prev` and `prev_order` stand for. -/
def edgeOf (prev : Option Addr) (prevOrder : ZipCmp) : Edge :=
  match prev with
  | none => .root
  | some p => .child (if prevOrder = .more then .right else .left) p

omit [LinearOrder κ] in
/-- The first assignment of the linking part goes to the edge at which the search has stopped. -/
theorem insertLink_eq {m m1 : Mem ε} {x : Addr} {prev cur : Option Addr} {prevOrder curOrder : ZipCmp}
    (hroot : cur = m.root ↔ prev = none) (hm1 : writeEdge Z m (edgeOf prev prevOrder) (some x) = some m1) :
    insertLink Z m x ⟨prev, prevOrder, cur, curOrder⟩ = insertReinsert Z x curOrder m1 cur := by
  unfold insertLink
  cases prev with
  | none =>
      have hw : writeEdge Z m .root (some x) = some m1 := hm1
      simp only [hroot.mpr rfl, if_true, hw, Option.bind_eq_bind, Option.bind_some]
  | some p =>
      have hne : cur ≠ m.root := fun h => Option.some_ne_none p (hroot.mp h)
      by_cases ho : prevOrder = .more
      · have hw : writeEdge Z m (.child .right p) (some x) = some m1 := by simpa [edgeOf, ho] using hm1
        simp only [hne, ho, if_true, if_false, hw, Option.bind_eq_bind, Option.bind_some]
      · have hw : writeEdge Z m (.child .left p) (some x) = some m1 := by simpa [edgeOf, ho] using hm1
        simp only [hne, ho, if_false, hw, Option.bind_eq_bind, Option.bind_some]

theorem zipUniqueCmp_more (hZ : Z.Lawful) {h : Heap ε} {p q : Addr} (hp : p ∈ h.live) (hq : q ∈ h.live)
    (hne : p ≠ q) :
    (zipUniqueCmp Z h p q).map (· == .more) = some (decide (elemKey Z h q < elemKey Z h p)) := by
  rw [zipUniqueCmp_eq hZ hp hq hne]
  rcases lt_trichotomy (elemKey Z h p) (elemKey Z h q) with h1 | h1 | h1
  · simp [h1, lt_asymm h1]
  · exact absurd (elemKey_injective Z h h1) hne
  · simp [h1, lt_asymm h1]

theorem zipUniqueCmp_less (hZ : Z.Lawful) {h : Heap ε} {p q : Addr} (hp : p ∈ h.live) (hq : q ∈ h.live)
    (hne : p ≠ q) :
    (zipUniqueCmp Z h p q).map (· == .less) = some (decide (elemKey Z h p < elemKey Z h q)) := by
  rw [zipUniqueCmp_eq hZ hp hq hne]
  by_cases h1 : elemKey Z h p < elemKey Z h q
  · simp [h1]
  · simp [h1]

/-- From any edge that leads to the tree, the search and the links that follow insert `x` there. -/
def InsertsBelow (Z : ZipFunctions ε κ) (m : Mem ε) (x : Addr) (t : BinaryTree Addr) : Prop :=
  ∀ (n : Nat) (prev : Option Addr) (prevOrder : ZipCmp) (cur : Addr),
    links Z m (edgeOf prev prevOrder) = some cur → Rep (links Z m) (some cur) t →
    (edgeOf prev prevOrder).Live m.heap → ¬(edgeOf prev prevOrder).On (x :: inorder t) →
    (prev = none ∨ ∃ r, m.root = some r ∧ r ∉ inorder t) → t.numNodes < n →
    ∃ d m', insertDescend Z m x n prev prevOrder cur = some (some d) ∧ insertLink Z m x d = some m' ∧
      SameData Z m.heap m'.heap ∧
      Rep (links Z m') (links Z m' (edgeOf prev prevOrder)) (ZipTree.insert (elemKey Z m.heap) rank x t) ∧
      ∀ e, e ≠ edgeOf prev prevOrder → ¬e.On (x :: inorder t) → links Z m' e = links Z m e

/-- The search stops at an element of a lower rank: `x` takes its place. -/
theorem insertsBelow_here (hZ : Z.Lawful) {m : Mem ε} {x a : Addr} {l r : BinaryTree Addr}
    (hx : x ∈ m.heap.live) (hx0 : ∀ s, links Z m (.child s x) = none)
    (hlive : ∀ b ∈ inorder (.node a l r), b ∈ m.heap.live) (hxt : x ∉ inorder (.node a l r))
    (hnodup : (inorder (.node a l r)).Nodup) (hrank : rank a < rank x) : InsertsBelow Z m x
    (.node a l r) := by
  intro n prev prevOrder cur hcur hrep hel het hroot hn
  obtain ⟨n, rfl⟩ : ∃ k, n = k + 1 := ⟨n - 1, by omega⟩
  obtain rfl : cur = a := Option.some.inj hrep.1
  have hma : cur ∈ inorder (.node cur l r) := List.mem_append_right _ List.mem_cons_self
  have hxa : x ≠ cur := fun he => hxt (he ▸ hma)
  have hcurroot : some cur = m.root ↔ prev = none := by
    refine ⟨fun h => hroot.resolve_right ?_, fun h => ?_⟩
    · rintro ⟨r', hr', hnot⟩
      exact hnot (Option.some.inj (h.trans hr') ▸ hma)
    · subst h
      exact hcur.symm
  obtain ⟨m1, hm1, hl1, hs1⟩ := writeEdge_eq hel (some x)
  have hkeep1 : ∀ e, e ≠ edgeOf prev prevOrder → links Z m1 e = links Z m e := fun e he => by
    rw [hl1, Function.update_of_ne he]
  have hrep1 : Rep (links Z m1) (some cur) (.node cur l r) := hrep.frame fun s b hb =>
    hkeep1 _ (Edge.ne_child het (List.mem_cons_of_mem _ hb) s).symm
  have hx1 : x ∈ m1.heap.live := hs1.live ▸ hx
  have hlive1 : ∀ b ∈ inorder (.node cur l r), b ∈ m1.heap.live := fun b hb => hs1.live ▸ hlive b hb
  have hnone1 : ∀ s, links Z m1 (.child s x) = none := fun s => by
    rw [hkeep1 _ (Edge.ne_child het List.mem_cons_self s).symm]
    exact hx0 s
  have hstays : ∀ h', SameData Z m1.heap h' → ∀ b ∈ inorder (.node cur l r), x ∈ h'.live ∧ b ∈ h'.live ∧
    x ≠ b :=
    fun h' hs b hb => ⟨hs.live ▸ hx1, hs.live ▸ hlive1 b hb, fun he => hxt (he ▸ hb)⟩
  have hdesc : insertDescend Z m x (n + 1) prev prevOrder cur = some (some ⟨prev, prevOrder, some cur,
      if elemKey Z m.heap x < elemKey Z m.heap cur then .less else .more⟩) := by
    unfold insertDescend
    rw [zipUniqueCmp_eq hZ hx (hlive cur hma) hxa]
    have hne : (if elemKey Z m.heap x < elemKey Z m.heap cur then ZipCmp.less else .more) ≠ .eq := by
      split_ifs <;> decide
    simp only [Option.bind_eq_bind, Option.bind_some, hne, if_false, zipRankCmp_less.mpr hrank, if_true]
    rfl
  have hinsert : ∀ p : Addr → Bool,
      (∀ b ∈ inorder (.node cur l r), p b = decide (elemKey Z m.heap b < elemKey Z m.heap x)) →
      ZipTree.insert (elemKey Z m.heap) rank x (.node cur l r) =
        .node x (ZipTree.split p (.node cur l r)).1 (ZipTree.split p (.node cur l r)).2 := by
    intro p hp
    rw [ZipTree.split_congr hp]
    exact if_pos hrank
  by_cases hlt : elemKey Z m.heap x < elemKey Z m.heap cur
  · -- `x < cur`: `cur` goes to the right of `x`
    rw [if_pos hlt] at hdesc
    obtain ⟨m2, m3, hm2, hm3, hs3, hrep3, hframe3⟩ := insertMove_spec (Z := Z) (s := .left) .less
      (q := fun b => decide (elemKey Z m.heap x < elemKey Z m.heap b)) l r
      (fun h' hs b hb => by
        obtain ⟨h1, h2, h3⟩ := hstays h' hs b (List.mem_append_left _ hb)
        rw [zipUniqueCmp_less hZ h1 h2 h3, (hs1.trans hs).elemKey])
      (decide_eq_true hlt) hrep1 (hnone1 _) hlive1 hx1 hxt hnodup
    refine ⟨_, m3, hdesc, ?_, hs1.trans hs3, ?_, fun e he heo => ?_⟩
    · rw [insertLink_eq hcurroot hm1]
      show (writeEdge Z m1 (.child .right x) (some cur) >>= fun m2 => _) = _
      rw [show writeEdge Z m1 (.child .right x) (some cur) = some m2 from hm2]
      exact hm3
    · rw [hframe3 _ het, hl1, Function.update_self,
        hinsert (fun b => !decide (elemKey Z m.heap x < elemKey Z m.heap b))]
      · exact hrep3
      · intro b hb
        have hne : elemKey Z m.heap b ≠ elemKey Z m.heap x := fun he =>
          hxt (elemKey_injective Z _ he ▸ hb)
        rcases lt_or_gt_of_ne hne with h1 | h1
        · simp [h1, lt_asymm h1]
        · simp [h1, lt_asymm h1]
    · rw [hframe3 e heo, hkeep1 e he]
  · have hgt : elemKey Z m.heap cur < elemKey Z m.heap x :=
      lt_of_le_of_ne (not_lt.mp hlt) fun he => hxa (elemKey_injective Z _ he).symm
    rw [if_neg hlt] at hdesc
    obtain ⟨m2, m3, hm2, hm3, hs3, hrep3, hframe3⟩ := insertMove_spec (Z := Z) (s := .right) .more
      (q := fun b => decide (elemKey Z m.heap b < elemKey Z m.heap x)) r l
      (fun h' hs b hb => by
        obtain ⟨h1, h2, h3⟩ := hstays h' hs b (List.mem_append_right _ (List.mem_cons_of_mem _ hb))
        rw [zipUniqueCmp_more hZ h1 h2 h3, (hs1.trans hs).elemKey])
      (decide_eq_true hgt) hrep1 (hnone1 _) hlive1 hx1 hxt hnodup
    refine ⟨_, m3, hdesc, ?_, hs1.trans hs3, ?_, fun e he heo => ?_⟩
    · rw [insertLink_eq hcurroot hm1]
      show (writeEdge Z m1 (.child .left x) (some cur) >>= fun m2 => _) = _
      rw [show writeEdge Z m1 (.child .left x) (some cur) = some m2 from hm2]
      exact hm3
    · rw [hframe3 _ het, hl1, Function.update_self, hinsert _ fun _ _ => rfl]
      exact hrep3
    · rw [hframe3 e heo, hkeep1 e he]

/-- The search goes on below an element of a higher rank. -/
theorem insertsBelow_deeper (hZ : Z.Lawful) {m : Mem ε} {x a : Addr} {s : Side}
    {below other : BinaryTree Addr} (hx : x ∈ m.heap.live) (hx0 : ∀ s, links Z m (.child s x) = none)
    (hlive : ∀ b ∈ inorder (mkNode s a below other), b ∈ m.heap.live)
    (hxt : x ∉ inorder (mkNode s a below other))
    (hnodup : (inorder (mkNode s a below other)).Nodup) (hrank : ¬rank a < rank x)
    (hside : s = if elemKey Z m.heap x < elemKey Z m.heap a then .left else .right)
    (ih : InsertsBelow Z m x below) : InsertsBelow Z m x (mkNode s a below other) := by
  intro n prev prevOrder cur hcur hrep hel het hroot hn
  obtain ⟨n, rfl⟩ : ∃ k, n = k + 1 := ⟨n - 1, by omega⟩
  obtain ⟨hca, hbelow, hother⟩ := rep_mkNode.mp hrep
  obtain rfl : cur = a := Option.some.inj hca
  obtain ⟨hcbo, hbo⟩ := List.nodup_cons.mp ((perm_mkNode s cur below other).nodup_iff.mp hnodup)
  have hma : cur ∈ inorder (mkNode s cur below other) := mem_mkNode.mpr (.inl rfl)
  have hmb : ∀ b ∈ inorder below, b ∈ inorder (mkNode s cur below other) := fun b hb =>
    mem_mkNode.mpr (.inr (.inl hb))
  have hmo : ∀ b ∈ inorder other, b ∈ inorder (mkNode s cur below other) := fun b hb =>
    mem_mkNode.mpr (.inr (.inr hb))
  have hxa : x ≠ cur := fun he => hxt (he ▸ hma)
  have hcb : cur ∉ inorder below := fun h => hcbo (List.mem_append_left _ h)
  have hinsert : ZipTree.insert (elemKey Z m.heap) rank x (mkNode s cur below other) =
      mkNode s cur (ZipTree.insert (elemKey Z m.heap) rank x below) other := by
    by_cases hlt : elemKey Z m.heap x < elemKey Z m.heap cur
    · rw [hside, if_pos hlt]
      exact (if_neg hrank).trans (if_neg (lt_asymm hlt))
    · have hgt : elemKey Z m.heap cur < elemKey Z m.heap x :=
        lt_of_le_of_ne (not_lt.mp hlt) fun he => hxa (elemKey_injective Z _ he).symm
      rw [hside, if_neg hlt]
      exact (if_neg hrank).trans (if_pos hgt)
  have hdesc : insertDescend Z m x (n + 1) prev prevOrder cur =
      match links Z m (.child s cur) with
      | none => some (some ⟨some cur, if s = .left then .less else .more, none,
        if s = .left then .less else .more⟩)
      | some next => insertDescend Z m x n (some cur) (if s = .left then .less else .more) next := by
    rw [insertDescend, zipUniqueCmp_eq hZ hx (hlive cur hma) hxa]
    by_cases hlt : elemKey Z m.heap x < elemKey Z m.heap cur
    · have hs : s = .left := by rw [hside, if_pos hlt]
      subst hs
      rw [if_pos hlt]
      simp only [Option.bind_eq_bind, Option.bind_some, reduceCtorEq, if_false, zipRankCmp_less, hrank,
        readEdge_eq (e := .child .left cur) (hlive cur hma), if_true]
      rfl
    · have hs : s = .right := by rw [hside, if_neg hlt]
      subst hs
      rw [if_neg hlt]
      simp only [Option.bind_eq_bind, Option.bind_some, reduceCtorEq, if_false, zipRankCmp_less, hrank,
        if_true, readEdge_eq (e := .child .right cur) (hlive cur hma)]
      rfl
  have hedge : edgeOf (some cur) (if s = .left then .less else .more) = .child s cur := by
    cases s <;> rfl
  have hroot' : ∃ r, m.root = some r ∧ r ∉ inorder below := by
    rcases hroot with hp | ⟨r, hr, hnot⟩
    · subst hp
      exact ⟨cur, hcur, hcb⟩
    · exact ⟨r, hr, fun h => hnot (hmb r h)⟩
  have hnot : cur ∉ x :: inorder below := by
    intro h
    rcases List.mem_cons.mp h with h | h
    · exact hxa h.symm
    · exact hcb h
  -- wherever the pointer below `cur` ends up, the rest of the tree stays
  have hwhole : ∀ m' : Mem ε, Rep (links Z m') (links Z m' (.child s cur))
        (ZipTree.insert (elemKey Z m.heap) rank x below) →
      (∀ e, e ≠ .child s cur → ¬e.On (x :: inorder below) → links Z m' e = links Z m e) →
      Rep (links Z m') (links Z m' (edgeOf prev prevOrder)) (mkNode s cur
        (ZipTree.insert (elemKey Z m.heap) rank x below) other) := by
    intro m' hrep' hframe
    refine Rep.rehang hcur hother hrep' hframe (Edge.not_on het fun b hb => ?_) hnot fun b hb => ⟨?_, ?_⟩
    · rcases List.mem_cons.mp hb with h | h
      · exact List.mem_cons_of_mem _ (h ▸ hma)
      · rcases List.mem_cons.mp h with h | h
        · exact h ▸ List.mem_cons_self
        · exact List.mem_cons_of_mem _ (hmb b h)
    · exact fun he => hcbo (he ▸ List.mem_append_right _ hb)
    · intro h
      rcases List.mem_cons.mp h with h | h
      · exact hxt (h ▸ hmo b hb)
      · exact (List.nodup_append.mp hbo).2.2 b h b hb rfl
  rw [hinsert]
  cases hnext : links Z m (.child s cur) with
  | none =>
      rw [hnext] at hbelow hdesc
      cases below with
      | node b l' r' => cases hbelow.1
      | nil =>
          obtain ⟨m', hm', hl', hs'⟩ := writeEdge_eq (Z := Z) (e := .child s cur) (hlive cur hma) (some x)
          have hframe : ∀ e, e ≠ .child s cur → links Z m' e = links Z m e := fun e he => by
            rw [hl', Function.update_of_ne he]
          refine ⟨_, m', hdesc, ?_, hs', hwhole m' ⟨?_, ?_, ?_⟩ fun e he _ => hframe e he, fun e _ heo => ?_⟩
          · have hw : writeEdge Z m (edgeOf (some cur) (if s = .left then .less else .more)) (some x) =
              some m' := by
              rw [hedge]
              exact hm'
            rw [insertLink_eq ?_ hw]
            · rfl
            · obtain ⟨r, hr, -⟩ := hroot'
              simp [hr]
          · rw [hl', Function.update_self]
          · rw [hframe _ (by simp [hxa])]
            exact hx0 _
          · rw [hframe _ (by simp [hxa])]
            exact hx0 _
          · exact hframe e (Edge.ne_child heo (List.mem_cons_of_mem _ hma) s)
  | some next =>
      rw [hnext] at hbelow hdesc
      have hsize : below.numNodes < n := by
        have hlen := (perm_mkNode s cur below other).length_eq
        simp only [List.length_cons, List.length_append, ZipTree.length_inorder] at hlen
        omega
      obtain ⟨d, m', hd, hlink, hs', hrep', hframe⟩ :=
        ih n (some cur) (if s = .left then .less else .more) next
        (by rw [hedge]; exact hnext) hbelow (by rw [hedge]; exact hlive cur hma) (by rw [hedge]; exact hnot)
        (.inr hroot') hsize
      rw [hedge] at hrep' hframe
      refine ⟨d, m', hdesc.trans hd, hlink, hs', hwhole m' hrep' hframe, fun e he heo => ?_⟩
      refine hframe e (Edge.ne_child heo (List.mem_cons_of_mem _ hma) s) (Edge.not_on heo fun b hb => ?_)
      rcases List.mem_cons.mp hb with h | h
      · exact h ▸ List.mem_cons_self
      · exact List.mem_cons_of_mem _ (hmb b h)

/-- The insertion below any subtree, by induction on it. -/
theorem insertsBelow (hZ : Z.Lawful) {m : Mem ε} {x : Addr} (hx : x ∈ m.heap.live)
    (hx0 : ∀ s, links Z m (.child s x) = none) (t : BinaryTree Addr)
    (hlive : ∀ b ∈ inorder t, b ∈ m.heap.live)
    (hxt : x ∉ inorder t) (hnodup : (inorder t).Nodup) : InsertsBelow Z m x t := by
  induction t with
  | nil =>
      intro n prev prevOrder cur _ hrep
      cases hrep
  | node a l r ihl ihr =>
      by_cases hrank : rank a < rank x
      · exact insertsBelow_here hZ hx hx0 hlive hxt hnodup hrank
      · by_cases hlt : elemKey Z m.heap x < elemKey Z m.heap a
        · refine insertsBelow_deeper (s := .left) hZ hx hx0 hlive hxt hnodup hrank (if_pos hlt).symm
            (ihl ?_ ?_ ?_)
          · exact fun b hb => hlive b (List.mem_append_left _ hb)
          · exact fun h => hxt (List.mem_append_left _ h)
          · exact ZipTree.nodup_left hnodup
        · refine insertsBelow_deeper (s := .right) hZ hx hx0 hlive hxt hnodup hrank (if_neg hlt).symm
            (ihr ?_ ?_ ?_)
          · exact fun b hb => hlive b (List.mem_append_right _ (List.mem_cons_of_mem _ hb))
          · exact fun h => hxt (List.mem_append_right _ (List.mem_cons_of_mem _ h))
          · exact ZipTree.nodup_right hnodup

/-- What an operation may do to the memory: the pointers of these elements and the root. -/
structure Touches (Z : ZipFunctions ε κ) (l : List Addr) (h h' : Heap ε) : Prop where
  data  : SameData Z h h'
  frame : ∀ s, ∀ a, a ∉ l → (Z.field (h'.cell a)).get s = (Z.field (h.cell a)).get s

/-- **`__ZIP_INSERT`** puts a new element into the tree in memory. -/
theorem zipInsert_spec (hZ : Z.Lawful) {m : Mem ε} {t : BinaryTree Addr} (h : Holds Z m t) {x : Addr}
    (hx : x ∈ m.heap.live) (hxt : x ∉ inorder t) :
    ∃ m', zipInsert Z m x = some m' ∧ Touches Z (x :: inorder t) m.heap m'.heap ∧
      Holds Z m' (ZipTree.insert (elemKey Z m.heap) rank x t) := by
  obtain ⟨m1, hm1, hl1, hs1⟩ := writeEdge_eq (Z := Z) (e := .child .left x) hx none
  obtain ⟨m2, hm2, hl2, hs2⟩ := writeEdge_eq (Z := Z) (m := m1) (e := .child .right x)
    (Edge.Live.same (e := .child .right x) hx hs1) none
  have hs12 := hs1.trans hs2
  have hkeep : ∀ e, ¬e.On [x] → links Z m2 e = links Z m e := fun e he => by
    rw [hl2, Function.update_of_ne (Edge.ne_child he (List.mem_singleton_self x) _), hl1,
      Function.update_of_ne (Edge.ne_child he (List.mem_singleton_self x) _)]
  have hx0 : ∀ s, links Z m2 (.child s x) = none := fun s => by
    cases s with
    | left => rw [hl2, Function.update_of_ne (by simp), hl1, Function.update_self]
    | right => rw [hl2, Function.update_self]
  have hroot2 : m2.root = m.root := hkeep .root fun h => h
  have hrep2 : Rep (links Z m2) m.root t := h.rep.frame fun s a ha =>
    hkeep _ fun hax => hxt (List.mem_singleton.mp hax ▸ ha)
  have hlive2 : ∀ a ∈ inorder t, a ∈ m2.heap.live := fun a ha => hs12.live ▸ h.live a ha
  have hx2 : x ∈ m2.heap.live := hs12.live ▸ hx
  have hfin : ∀ m', Rep (links Z m') m'.root (ZipTree.insert (elemKey Z m.heap) rank x t) →
      SameData Z m.heap m'.heap → Holds Z m' (ZipTree.insert (elemKey Z m.heap) rank x t) := by
    intro m' hrep' hs'
    refine ⟨hrep', fun a ha => hs'.live ▸ ?_, ?_⟩
    · rcases (ZipTree.mem_insert _ _ x a t).mp ha with h1 | h1
      · exact h1 ▸ hx
      · exact h.live a h1
    · rw [hs'.elemKey]
      exact h.zip.insert (fun a ha he => hxt (elemKey_injective Z _ he ▸ ha)) fun a ha he =>
        hxt (rank_injective he ▸ ha)
  unfold zipInsert
  simp only [Option.bind_eq_bind, hm1, Option.bind_some, hm2]
  cases hr : m.root with
  | none =>
      rw [hr] at hrep2
      cases t with
      | node a l r => cases hrep2.1
      | nil =>
          obtain ⟨m3, hm3, hl3, hs3⟩ := writeEdge_eq (Z := Z) (m := m2) (e := .root) trivial (some x)
          rw [hroot2, hr]
          refine ⟨m3, hm3, ⟨hs12.trans hs3, fun s a ha => ?_⟩, hfin m3 ⟨?_, ?_, ?_⟩ (hs12.trans hs3)⟩
          · show links Z m3 (.child s a) = links Z m (.child s a)
            rw [hl3, Function.update_of_ne (by simp), hkeep (.child s a) ha]
          · show links Z m3 .root = some x
            rw [hl3, Function.update_self]
          · show links Z m3 (.child .left x) = none
            rw [hl3, Function.update_of_ne (by simp), hx0]
          · show links Z m3 (.child .right x) = none
            rw [hl3, Function.update_of_ne (by simp), hx0]
  | some r =>
      have hnum : t.numNodes < m2.fuel := by
        rw [Mem.fuel, hs12.live]
        exact h.numNodes_lt
      rw [hr] at hrep2
      obtain ⟨d, m3, hd, hlink, hs3, hrep3, hframe3⟩ := insertsBelow hZ hx2 hx0 t hlive2 hxt h.zip.nodup
        m2.fuel none .eq r (hroot2.trans hr) hrep2 trivial (fun h => h) (.inl rfl) hnum
      rw [hroot2, hr]
      refine ⟨m3, ?_, ⟨hs12.trans hs3, fun s a ha => ?_⟩, hfin m3 ?_ (hs12.trans hs3)⟩
      · simp only [hd, Option.bind_some]
        exact hlink
      · show links Z m3 (.child s a) = links Z m (.child s a)
        rw [hframe3 (.child s a) (by simp [edgeOf]) ha, hkeep (.child s a) fun hax => ha ?_]
        exact List.mem_singleton.mp hax ▸ List.mem_cons_self
      · rw [hs12.elemKey] at hrep3
        exact hrep3

/-! ## Zipping and removal -/

omit [LinearOrder κ] in
/-- One round of the loop of `__ZIP_ZIP`: `b` is hooked in at `e`, the rest goes below `b` on the side `s`. -/
theorem zipRound {m m1 : Mem ε} {e : Edge} {s : Side} {b : Addr} {inner outer : BinaryTree Addr}
    {l all : List Addr} (hout : Rep (links Z m) (links Z m (.child s.flip b)) outer)
    (hl1 : links Z m1 = Function.update (links Z m) e (some b)) (hperm : all.Perm (b :: (l ++ inorder outer)))
    (hnodup : all.Nodup) (het : ¬e.On all) {m' : Mem ε}
    (hrep' : Rep (links Z m') (links Z m' (.child s b)) inner)
    (hframe' : ∀ e', e' ≠ .child s b → ¬e'.On l → links Z m' e' = links Z m1 e') :
    Rep (links Z m') (links Z m' e) (mkNode s b inner outer) ∧
      ∀ e', e' ≠ e → ¬e'.On all → links Z m' e' = links Z m e' := by
  have hmem : ∀ c, c ∈ all ↔ c ∈ b :: (l ++ inorder outer) := fun c => hperm.mem_iff
  obtain ⟨hb, hlo⟩ := List.nodup_cons.mp (hperm.nodup_iff.mp hnodup)
  have hkeep : ∀ s', ∀ c ∈ all, links Z m1 (.child s' c) = links Z m (.child s' c) := fun s' c hc => by
    rw [hl1, Function.update_of_ne (Edge.ne_child het hc s').symm]
  have hball : b ∈ all := (hmem b).mpr List.mem_cons_self
  have hlall : ∀ c ∈ l, c ∈ all :=
    fun c hc => (hmem c).mpr (List.mem_cons_of_mem _ (List.mem_append_left _ hc))
  have hoall : ∀ c ∈ inorder outer, c ∈ all := fun c hc =>
    (hmem c).mpr (List.mem_cons_of_mem _ (List.mem_append_right _ hc))
  constructor
  · refine Rep.rehang (by rw [hl1, Function.update_self]) ?_ hrep' hframe' ?_ ?_ fun c hc => ⟨?_, ?_⟩
    · rw [hkeep _ b hball]
      exact hout.frame fun s' c hc => hkeep s' c (hoall c hc)
    · refine Edge.not_on het fun c hc => ?_
      rcases List.mem_cons.mp hc with h | h
      · exact h ▸ hball
      · exact hlall c h
    · exact fun h => hb (List.mem_append_left _ h)
    · exact fun h => hb (h ▸ List.mem_append_right _ hc)
    · exact fun h => (List.nodup_append.mp hlo).2.2 c h c hc rfl
  · intro e' he' hon
    rw [hframe' e' (Edge.ne_child hon hball s) (Edge.not_on hon hlall), hl1, Function.update_of_ne he']

omit [LinearOrder κ] in
/-- **The loop of `__ZIP_ZIP`** links the zipped tree below an edge. -/
theorem zipLoop_spec (tl tr : BinaryTree Addr) {n : Nat} {m : Mem ε} {e : Edge} {l r : Option Addr}
    (hl : Rep (links Z m) l tl) (hr : Rep (links Z m) r tr) (hel : e.Live m.heap)
    (het : ¬e.On (inorder tl ++ inorder tr)) (hnodup : (inorder tl ++ inorder tr).Nodup)
    (hlive : ∀ a ∈ inorder tl ++ inorder tr, a ∈ m.heap.live) (hn : tl.numNodes + tr.numNodes < n) :
    ∃ m', zipLoop Z n m e l r = some m' ∧ SameData Z m.heap m'.heap ∧
      Rep (links Z m') (links Z m' e) (ZipTree.zip rank tl tr) ∧
      ∀ e', e' ≠ e → ¬e'.On (inorder tl ++ inorder tr) → links Z m' e' = links Z m e' := by
  induction tl, tr using ZipTree.zip.induct rank generalizing n m e l r with
  | case1 tr =>
      obtain ⟨n, rfl⟩ : ∃ k, n = k + 1 := ⟨n - 1, by omega⟩
      obtain rfl : l = none := hl
      obtain ⟨m', hm', hl', hs'⟩ := writeEdge_eq hel r
      refine ⟨m', ?_, hs', ?_, fun e' he' _ => by rw [hl', Function.update_of_ne he']⟩
      · unfold zipLoop
        exact hm'
      · rw [ZipTree.zip_nil_left, hl', Function.update_self]
        refine hr.frame fun s a ha => Function.update_of_ne ?_ _ _
        exact (Edge.ne_child het (List.mem_append_right _ ha) s).symm
  | case2 a la ra =>
      obtain ⟨n, rfl⟩ : ∃ k, n = k + 1 := ⟨n - 1, by omega⟩
      obtain rfl : l = some a := hl.1
      obtain rfl : r = none := hr
      obtain ⟨m', hm', hl', hs'⟩ := writeEdge_eq hel (some a)
      refine ⟨m', ?_, hs', ?_, fun e' he' _ => by rw [hl', Function.update_of_ne he']⟩
      · unfold zipLoop
        exact hm'
      · rw [ZipTree.zip_nil_right, hl', Function.update_self]
        refine hl.frame fun s b hb => Function.update_of_ne ?_ _ _
        exact (Edge.ne_child het (List.mem_append_left _ hb) s).symm
  | case3 a la ra b lb rb hlt ih =>
      obtain ⟨n, rfl⟩ : ∃ k, n = k + 1 := ⟨n - 1, by omega⟩
      obtain rfl : l = some a := hl.1
      obtain ⟨rfl, hlb, hrb⟩ := hr
      obtain ⟨m1, hm1, hl1, hs1⟩ := writeEdge_eq hel (some b)
      have hperm : (inorder (.node a la ra) ++ inorder (.node b lb rb)).Perm
          (b :: ((inorder (.node a la ra) ++ inorder lb) ++ inorder rb)) := by
        rw [ZipTree.inorder_node b lb rb, List.append_assoc, ← List.append_assoc, ← List.append_assoc]
        exact List.perm_middle
      obtain ⟨hb, hlo⟩ := List.nodup_cons.mp (hperm.nodup_iff.mp hnodup)
      have hsub : ∀ c ∈ inorder (.node a la ra) ++ inorder lb,
          c ∈ inorder (.node a la ra) ++ inorder (.node b lb rb) := fun c hc =>
        hperm.mem_iff.mpr (List.mem_cons_of_mem _ (List.mem_append_left _ hc))
      have hball : b ∈ inorder (.node a la ra) ++ inorder (.node b lb rb) :=
        hperm.mem_iff.mpr List.mem_cons_self
      have hbl : (Edge.child .left b).Live m1.heap := Edge.Live.same (e := .child .left b) (hlive b hball) hs1
      have hkeep : ∀ s, ∀ c ∈ inorder (.node a la ra) ++ inorder (.node b lb rb),
          links Z m1 (.child s c) = links Z m (.child s c) := fun s c hc => by
        rw [hl1, Function.update_of_ne (Edge.ne_child het hc s).symm]
      obtain ⟨m', hm', hs', hrep', hframe'⟩ := ih (n := n) (m := m1) (e := .child .left b) (l := some a)
        (r := links Z m1 (.child .left b)) (hl.frame fun s c hc => hkeep s c (List.mem_append_left _ hc))
        (by rw [hkeep _ b hball]
            exact hlb.frame fun s c hc => hkeep s c (hsub c (List.mem_append_right _ hc)))
        hbl (fun h => hb (List.mem_append_left _ h)) (List.nodup_append.mp hlo).1
        (fun c hc => hs1.live ▸ hlive c (hsub c hc)) (by simp only [BinaryTree.numNodes] at hn ⊢; omega)
      obtain ⟨hrep, hframe⟩ := zipRound (s := .left) hrb hl1 hperm hnodup het hrep' hframe'
      refine ⟨m', ?_, hs1.trans hs', ?_, hframe⟩
      · unfold zipLoop
        simp only [zipRankCmp_less.mpr hlt, if_true, Option.bind_eq_bind, hm1, Option.bind_some,
          readEdge_eq hbl]
        exact hm'
      · rw [ZipTree.zip, if_pos hlt]
        exact hrep
  | case4 a la ra b lb rb hlt ih =>
      obtain ⟨n, rfl⟩ : ∃ k, n = k + 1 := ⟨n - 1, by omega⟩
      obtain ⟨rfl, hla, hra⟩ := hl
      obtain rfl : r = some b := hr.1
      obtain ⟨m1, hm1, hl1, hs1⟩ := writeEdge_eq hel (some a)
      have hperm : (inorder (.node a la ra) ++ inorder (.node b lb rb)).Perm
          (a :: ((inorder ra ++ inorder (.node b lb rb)) ++ inorder la)) := by
        rw [ZipTree.inorder_node a la ra, List.append_assoc, List.cons_append]
        exact List.perm_middle.trans (List.perm_append_comm.cons a)
      obtain ⟨ha, hlo⟩ := List.nodup_cons.mp (hperm.nodup_iff.mp hnodup)
      have hsub : ∀ c ∈ inorder ra ++ inorder (.node b lb rb),
          c ∈ inorder (.node a la ra) ++ inorder (.node b lb rb) := fun c hc =>
        hperm.mem_iff.mpr (List.mem_cons_of_mem _ (List.mem_append_left _ hc))
      have haall : a ∈ inorder (.node a la ra) ++ inorder (.node b lb rb) :=
        hperm.mem_iff.mpr List.mem_cons_self
      have hal : (Edge.child .right a).Live m1.heap :=
        Edge.Live.same (e := .child .right a) (hlive a haall) hs1
      have hkeep : ∀ s, ∀ c ∈ inorder (.node a la ra) ++ inorder (.node b lb rb),
          links Z m1 (.child s c) = links Z m (.child s c) := fun s c hc => by
        rw [hl1, Function.update_of_ne (Edge.ne_child het hc s).symm]
      obtain ⟨m', hm', hs', hrep', hframe'⟩ := ih (n := n) (m := m1) (e := .child .right a)
        (l := links Z m1 (.child .right a)) (r := some b)
        (by rw [hkeep _ a haall]
            exact hra.frame fun s c hc => hkeep s c (hsub c (List.mem_append_left _ hc)))
        (hr.frame fun s c hc => hkeep s c (List.mem_append_right _ hc))
        hal (fun h => ha (List.mem_append_left _ h)) (List.nodup_append.mp hlo).1
        (fun c hc => hs1.live ▸ hlive c (hsub c hc)) (by simp only [BinaryTree.numNodes] at hn ⊢; omega)
      obtain ⟨hrep, hframe⟩ := zipRound (s := .right) hla hl1 hperm hnodup het hrep' hframe'
      refine ⟨m', ?_, hs1.trans hs', ?_, hframe⟩
      · unfold zipLoop
        simp only [zipRankCmp_less, hlt, if_false, Option.bind_eq_bind, hm1, Option.bind_some,
          readEdge_eq hal]
        exact hm'
      · rw [ZipTree.zip, if_neg hlt]
        exact hrep

omit [LinearOrder κ] in
/-- **`__ZIP_ZIP`** joins two trees in memory. -/
theorem zipZip_spec {m : Mem ε} {tl tr : BinaryTree Addr} {l r : Option Addr} (hl : Rep (links Z m) l tl)
    (hr : Rep (links Z m) r tr) (hnodup : (inorder tl ++ inorder tr).Nodup)
    (hlive : ∀ a ∈ inorder tl ++ inorder tr, a ∈ m.heap.live) :
    ∃ m', zipZip Z m.heap l r = some m' ∧ SameData Z m.heap m'.heap ∧
      Rep (links Z m') m'.root (ZipTree.zip rank tl tr) ∧
      ∀ s, ∀ a, a ∉ inorder tl ++ inorder tr → links Z m' (.child s a) = links Z m (.child s a) := by
  have hpointers : ∀ (root : Option Addr) (t : BinaryTree Addr) (v : Option Addr), Rep (links Z m) v t →
      Rep (links Z ⟨m.heap, root⟩) v t := fun root t v h => h.frame fun s a _ => rfl
  cases l with
  | none =>
      cases tl with
      | node a la ra => cases hl.1
      | nil =>
          refine ⟨⟨m.heap, r⟩, rfl, SameData.refl _, ?_, fun s a _ => rfl⟩
          rw [ZipTree.zip_nil_left]
          exact hpointers r tr r hr
  | some a =>
      cases r with
      | none =>
          cases tr with
          | node b lb rb => cases hr.1
          | nil =>
              refine ⟨⟨m.heap, some a⟩, rfl, SameData.refl _, ?_, fun s a _ => rfl⟩
              rw [ZipTree.zip_nil_right]
              exact hpointers _ tl _ hl
      | some b =>
          have hcard : tl.numNodes + tr.numNodes < m.heap.live.card + 1 := by
            have hlen := CHeap.length_le_card hnodup hlive
            rw [List.length_append, ZipTree.length_inorder, ZipTree.length_inorder] at hlen
            exact Nat.lt_succ_of_le hlen
          obtain ⟨m', hm', hs', hrep', hframe'⟩ := zipLoop_spec (m := ⟨m.heap, none⟩) (e := .root) tl tr
            (hpointers none tl _ hl) (hpointers none tr _ hr) trivial (fun h => h) hnodup hlive hcard
          exact ⟨m', hm', hs', hrep', fun s c hc => hframe' (.child s c) (by simp) hc⟩

omit [LinearOrder κ] in
/-- The element below an edge is replaced by the zip of its two subtrees. -/
theorem removeUnhook_spec {m : Mem ε} {e : Edge} {a : Addr} {l r : BinaryTree Addr}
    (hrep : Rep (links Z m) (links Z m e) (.node a l r)) (hel : e.Live m.heap)
    (het : ¬e.On (inorder (.node a l r))) (hnodup : (inorder (.node a l r)).Nodup)
    (hlive : ∀ b ∈ inorder (.node a l r), b ∈ m.heap.live) :
    ∃ m', removeUnhook Z m e a = some m' ∧ SameData Z m.heap m'.heap ∧
      Rep (links Z m') (links Z m' e) (ZipTree.zip rank l r) ∧
      ∀ e', e' ≠ e → ¬e'.On (inorder (.node a l r)) → links Z m' e' = links Z m e' := by
  obtain ⟨-, hl, hr⟩ := hrep
  have hma : a ∈ inorder (.node a l r) := List.mem_append_right _ List.mem_cons_self
  have hsub : ∀ b ∈ inorder l ++ inorder r, b ∈ inorder (.node a l r) := by
    intro b hb
    rcases List.mem_append.mp hb with h | h
    · exact List.mem_append_left _ h
    · exact List.mem_append_right _ (List.mem_cons_of_mem _ h)
  have hlr : (inorder l ++ inorder r).Nodup :=
    hnodup.sublist (List.Sublist.append_left (List.sublist_cons_self _ _) _)
  obtain ⟨m1, hm1, hs1, hrep1, hframe1⟩ := zipZip_spec hl hr hlr fun b hb => hlive b (hsub b hb)
  have hs1' : SameData Z m.heap (Mem.mk m1.heap m.root).heap := hs1
  obtain ⟨m2, hm2, hl2, hs2⟩ := writeEdge_eq (hel.same hs1') m1.root
  have hlinks : ∀ s b, links Z ⟨m1.heap, m.root⟩ (.child s b) = links Z m1 (.child s b) := fun _ _ => rfl
  refine ⟨m2, ?_, hs1.trans hs2, ?_, fun e' he' hon => ?_⟩
  · unfold removeUnhook
    simp only [readEdge_eq (Z := Z) (e := .child .left a) (hlive a hma),
      readEdge_eq (Z := Z) (e := .child .right a) (hlive a hma), Option.bind_eq_bind, Option.bind_some, hm1]
    exact hm2
  · rw [hl2, Function.update_self]
    refine hrep1.frame fun s b hb => ?_
    rw [ZipTree.inorder_zip] at hb
    rw [Function.update_of_ne (Edge.ne_child het (hsub b hb) s).symm, hlinks]
  · rw [hl2, Function.update_of_ne he']
    cases e' with
    | root => rfl
    | child s b => exact hframe1 s b fun hb => hon (hsub b hb)

/-- From any edge that leads to the tree, the search finds the edge to `x` and unhooks it, if `x` is there. -/
def RemovesBelow (Z : ZipFunctions ε κ) (m : Mem ε) (x : Addr) (t : BinaryTree Addr) : Prop :=
  ∀ (n : Nat) (e : Edge) (cur : Addr), links Z m e = some cur → Rep (links Z m) (some cur) t → e.Live m.heap →
    ¬e.On (inorder t) → t.numNodes < n →
    if x ∈ inorder t then
      ∃ e' m', removeDescend Z m x n e cur = some (some (e', x)) ∧ removeUnhook Z m e' x = some m' ∧
        SameData Z m.heap m'.heap ∧
        Rep (links Z m') (links Z m' e) (ZipTree.remove (elemKey Z m.heap) rank x t) ∧
        ∀ e₁, e₁ ≠ e → ¬e₁.On (inorder t) → links Z m' e₁ = links Z m e₁
    else removeDescend Z m x n e cur = some none

theorem removesBelow_deeper (hZ : Z.Lawful) {m : Mem ε} {x a : Addr} {s : Side}
    {below other : BinaryTree Addr}
    (hx : x ∈ m.heap.live) (hlive : ∀ b ∈ inorder (mkNode s a below other), b ∈ m.heap.live) (hxa : x ≠ a)
    (hxo : x ∉ inorder other) (hnodup : (inorder (mkNode s a below other)).Nodup)
    (hside : s = if elemKey Z m.heap x < elemKey Z m.heap a then .left else .right)
    (ih : RemovesBelow Z m x below) : RemovesBelow Z m x (mkNode s a below other) := by
  intro n e cur hcur hrep hel het hn
  obtain ⟨n, rfl⟩ : ∃ k, n = k + 1 := ⟨n - 1, by omega⟩
  obtain ⟨hca, hbelow, hother⟩ := rep_mkNode.mp hrep
  obtain rfl : cur = a := Option.some.inj hca
  obtain ⟨hcbo, hbo⟩ := List.nodup_cons.mp ((perm_mkNode s cur below other).nodup_iff.mp hnodup)
  have hma : cur ∈ inorder (mkNode s cur below other) := mem_mkNode.mpr (.inl rfl)
  have hmb : ∀ b ∈ inorder below, b ∈ inorder (mkNode s cur below other) := fun b hb =>
    mem_mkNode.mpr (.inr (.inl hb))
  have hcb : cur ∉ inorder below := fun h => hcbo (List.mem_append_left _ h)
  have hmem : x ∈ inorder (mkNode s cur below other) ↔ x ∈ inorder below := by
    rw [mem_mkNode]
    simp [hxa, hxo]
  have hkey : elemKey Z m.heap x ≠ elemKey Z m.heap cur := fun he => hxa (elemKey_injective Z _ he)
  have hremove : ZipTree.remove (elemKey Z m.heap) rank x (mkNode s cur below other) =
      mkNode s cur (ZipTree.remove (elemKey Z m.heap) rank x below) other := by
    by_cases hlt : elemKey Z m.heap x < elemKey Z m.heap cur
    · rw [hside, if_pos hlt]
      exact (if_neg hkey).trans (if_pos hlt)
    · rw [hside, if_neg hlt]
      exact (if_neg hkey).trans (if_neg hlt)
  have hdesc : removeDescend Z m x (n + 1) e cur =
      match links Z m (.child s cur) with
      | none => some none
      | some next => removeDescend Z m x n (.child s cur) next := by
    rw [removeDescend, zipUniqueCmp_eq hZ hx (hlive cur hma) hxa]
    by_cases hlt : elemKey Z m.heap x < elemKey Z m.heap cur
    · have hs : s = .left := by rw [hside, if_pos hlt]
      subst hs
      simp only [if_pos hlt, Option.bind_eq_bind, Option.bind_some, reduceCtorEq, if_false, if_true,
        readEdge_eq (Z := Z) (e := .child .left cur) (hlive cur hma)]
      rfl
    · have hs : s = .right := by rw [hside, if_neg hlt]
      subst hs
      simp only [if_neg hlt, Option.bind_eq_bind, Option.bind_some, reduceCtorEq, if_false,
        readEdge_eq (Z := Z) (e := .child .right cur) (hlive cur hma)]
      rfl
  rw [hremove, hdesc]
  simp only [hmem]
  cases hnext : links Z m (.child s cur) with
  | none =>
      rw [hnext] at hbelow
      cases below with
      | node b l' r' => cases hbelow.1
      | nil => simp
  | some next =>
      rw [hnext] at hbelow
      have hsize : below.numNodes < n := by
        have hlen := (perm_mkNode s cur below other).length_eq
        simp only [List.length_cons, List.length_append, ZipTree.length_inorder] at hlen
        omega
      have hrec := ih n (.child s cur) next hnext hbelow (hlive cur hma) hcb hsize
      by_cases hxb : x ∈ inorder below
      · rw [if_pos hxb] at hrec ⊢
        obtain ⟨e', m', hd, hu, hs', hrep', hframe⟩ := hrec
        refine ⟨e', m', hd, hu, hs', ?_, fun e₁ he₁ hon => ?_⟩
        · refine Rep.rehang hcur hother hrep' hframe (Edge.not_on het fun b hb => ?_) hcb fun b hb => ⟨?_, ?_⟩
          · rcases List.mem_cons.mp hb with h | h
            · exact h ▸ hma
            · exact hmb b h
          · exact fun he => hcbo (he ▸ List.mem_append_right _ hb)
          · exact fun h => (List.nodup_append.mp hbo).2.2 b h b hb rfl
        · exact hframe e₁ (Edge.ne_child hon hma s) (Edge.not_on hon hmb)
      · rw [if_neg hxb] at hrec ⊢
        exact hrec

/-- The removal below any subtree, by induction on it. -/
theorem removesBelow (hZ : Z.Lawful) {m : Mem ε} {x : Addr} (hx : x ∈ m.heap.live) (t : BinaryTree Addr)
    (hlive : ∀ b ∈ inorder t, b ∈ m.heap.live) (hzip : IsZip (elemKey Z m.heap) rank t) :
    RemovesBelow Z m x t := by
  induction t with
  | nil =>
      intro n e cur _ hrep
      cases hrep
  | node a l r ihl ihr =>
      by_cases hxa : x = a
      · -- found: the search stops at once
        subst hxa
        intro n e cur hcur hrep hel het hn
        obtain ⟨n, rfl⟩ : ∃ k, n = k + 1 := ⟨n - 1, by omega⟩
        obtain rfl : cur = x := Option.some.inj hrep.1
        have hma : cur ∈ inorder (.node cur l r) := List.mem_append_right _ List.mem_cons_self
        obtain ⟨m', hm', hs', hrep', hframe⟩ := removeUnhook_spec (hcur ▸ hrep) hel het hzip.nodup hlive
        rw [if_pos hma]
        refine ⟨e, m', ?_, hm', hs', ?_, hframe⟩
        · rw [removeDescend, zipUniqueCmp_self]
          rfl
        · rw [ZipTree.remove, if_pos rfl]
          exact hrep'
      · have hl : ∀ b ∈ inorder l, b ∈ m.heap.live := fun b hb => hlive b (List.mem_append_left _ hb)
        have hr : ∀ b ∈ inorder r, b ∈ m.heap.live := fun b hb =>
          hlive b (List.mem_append_right _ (List.mem_cons_of_mem _ hb))
        by_cases hlt : elemKey Z m.heap x < elemKey Z m.heap a
        · exact removesBelow_deeper (s := .left) hZ hx hlive hxa (fun h =>
            lt_asymm hlt (hzip.root_lt h)) hzip.nodup
            (if_pos hlt).symm (ihl hl hzip.left)
        · exact removesBelow_deeper (s := .right) hZ hx hlive hxa (fun h => hlt (hzip.lt_root h)) hzip.nodup
            (if_neg hlt).symm (ihr hr hzip.right)

/-- **`__ZIP_REMOVE`** takes an element out of the tree in memory, or finds that it is not there. -/
theorem zipRemove_spec (hZ : Z.Lawful) {m : Mem ε} {t : BinaryTree Addr} (h : Holds Z m t) {x : Addr}
    (hx : x ∈ m.heap.live) :
    ∃ m', zipRemove Z m x = some (m', if x ∈ inorder t then some x else none) ∧
      Touches Z (inorder t) m.heap m'.heap ∧ Holds Z m' (ZipTree.remove (elemKey Z m.heap) rank x t) := by
  have habsent : x ∉ inorder t → ZipTree.remove (elemKey Z m.heap) rank x t = t := by
    intro hxt
    refine (h.zip.remove rank_injective x).ext h.zip ?_
    rw [ZipTree.inorder_remove h.zip, List.filter_eq_self.mpr fun b hb => ?_]
    exact decide_eq_true fun he => hxt (elemKey_injective Z _ he ▸ hb)
  have hnone : x ∉ inorder t → Touches Z (inorder t) m.heap m.heap ∧
      Holds Z m (ZipTree.remove (elemKey Z m.heap) rank x t) := fun hxt =>
    ⟨⟨SameData.refl _, fun _ _ _ => rfl⟩, by rw [habsent hxt]; exact h⟩
  have hrep := h.rep
  cases hroot : m.root with
  | none =>
      rw [hroot] at hrep
      cases t with
      | node a l r => cases hrep.1
      | nil =>
          obtain ⟨h1, h2⟩ := hnone (by simp)
          refine ⟨m, ?_, h1, h2⟩
          unfold zipRemove
          simp only [hroot, ZipTree.inorder_nil, List.not_mem_nil, if_false]
  | some cur =>
      rw [hroot] at hrep
      have hsearch := removesBelow hZ hx t h.live h.zip m.fuel .root cur hroot hrep trivial (fun h => h)
        h.numNodes_lt
      by_cases hxt : x ∈ inorder t
      · rw [if_pos hxt] at hsearch ⊢
        obtain ⟨e', m', hd, hu, hs', hrep', hframe⟩ := hsearch
        refine ⟨m', ?_, ⟨hs', fun s a ha => hframe (.child s a) (by simp) ha⟩, hrep', fun a ha => ?_, ?_⟩
        · unfold zipRemove
          simp only [hroot, Option.bind_eq_bind, hd, Option.bind_some, hu]
          rfl
        · rw [hs'.live]
          exact h.live a ((ZipTree.mem_remove h.zip (elemKey_injective Z _) x a).mp ha).1
        · rw [hs'.elemKey]
          exact h.zip.remove rank_injective x
      · rw [if_neg hxt] at hsearch ⊢
        obtain ⟨h1, h2⟩ := hnone hxt
        refine ⟨m, ?_, h1, h2⟩
        unfold zipRemove
        simp only [hroot, Option.bind_eq_bind, hsearch, Option.bind_some]
        rfl

end Open62541
end Esp32Probes
