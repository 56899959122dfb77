import Esp32Probes.Open62541.ZipInsert

/-!
# Open62541.ZipTraverse — splitting, searching and iterating on the heap

`__ZIP_UNZIP` computes `ZipTree.split` of the tree in memory. The functions that only read are described by
the tree as well: `zipIterKey` runs its callback over a list that the comparison determines (`visits`), and
`ZIP_FIND` and `ZIP_MIN` answer for the elements of the tree.
-/

namespace Esp32Probes
namespace Open62541

open CHeap (Addr Heap)
open ZipTree (inorder IsZip)

variable {ε κ : Type} {Z : ZipFunctions ε κ}

/-! ## Unzipping -/

theorem cut_flip (s : Side) (q : Addr → Bool) (t : BinaryTree Addr) :
    cut s.flip (fun a => !q a) t = (cut s q t).swap := by
  cases s with
  | left =>
      show ZipTree.split _ t = (ZipTree.split _ t).swap.swap
      rw [Prod.swap_swap]
  | right =>
      show (ZipTree.split (fun a => !!q a) t).swap = _
      simp only [Bool.not_not]
      rfl

/-- **The walk of `__ZIP_UNZIP` and what follows it** cut the tree on one side of `prev`. Either everything
    stays, or the part that does not is the tree of the element at which the walk has stopped. -/
theorem unzipWalk_spec {s : Side} (go : ZipCmp → Bool) (key : κ) {q : Addr → Bool} (t : BinaryTree Addr)
    {n : Nat} {m : Mem ε} (prev : Addr)
    (hq : ∀ h', SameData Z m.heap h' → ∀ a ∈ inorder t, (cmpKey Z h' key a).map go = some (q a))
    (hrep : Rep (links Z m) (links Z m (.child s prev)) t) (hprev : prev ∈ m.heap.live)
    (hpt : prev ∉ inorder t) (hnodup : (inorder t).Nodup) (hlive : ∀ a ∈ inorder t, a ∈ m.heap.live)
    (hn : t.numNodes < n) :
    ∃ last stop, unzipWalk Z m s go key n prev = some (last, stop) ∧
      match stop with
      | none => cut s q t = (t, .nil)
      | some cur => ∃ m1 m2, writeEdge Z m (.child s last) none = some m1 ∧
          zipUnzipMove Z s.flip (fun c => !go c) key m1 (.child s last) cur = some m2 ∧
          SameData Z m.heap m2.heap ∧ Rep (links Z m2) (links Z m2 (.child s prev)) (cut s q t).1 ∧
          Rep (links Z m2) (some cur) (cut s q t).2 ∧
          ∀ e, e ≠ .child s prev → ¬e.On (inorder t) → links Z m2 e = links Z m e := by
  induction t using sideInduction s generalizing n prev with
  | nil =>
      obtain ⟨n, rfl⟩ : ∃ k, n = k + 1 := ⟨n - 1, by omega⟩
      refine ⟨prev, none, ?_, cut_nil s q⟩
      unfold unzipWalk
      rw [readEdge_eq (e := .child s prev) hprev, show links Z m (.child s prev) = none from hrep]
      rfl
  | node a x y ihx ihy =>
      obtain ⟨n, rfl⟩ : ∃ k, n = k + 1 := ⟨n - 1, by omega⟩
      obtain ⟨hroot, hx, hy⟩ := rep_mkNode.mp hrep
      obtain ⟨haxy, hxy⟩ := List.nodup_cons.mp ((perm_mkNode s a x y).nodup_iff.mp hnodup)
      have hma : a ∈ inorder (mkNode s a x y) := mem_mkNode.mpr (.inl rfl)
      have hmx : ∀ b ∈ inorder x, b ∈ inorder (mkNode s a x y) := fun b hb => mem_mkNode.mpr (.inr (.inl hb))
      have hmy : ∀ b ∈ inorder y, b ∈ inorder (mkNode s a x y) := fun b hb => mem_mkNode.mpr (.inr (.inr hb))
      have hax : a ∉ inorder x := fun h => haxy (List.mem_append_left _ h)
      have hay : a ∉ inorder y := fun h => haxy (List.mem_append_right _ h)
      have hpa : prev ≠ a := fun he => hpt (he ▸ hma)
      have hsize : x.numNodes < n := by
        have hlen := (perm_mkNode s a x y).length_eq
        simp only [List.length_cons, List.length_append, ZipTree.length_inorder] at hlen
        omega
      obtain ⟨c, hc, hgo⟩ : ∃ c, cmpKey Z m.heap key a = some c ∧ go c = q a := by
        have h := hq m.heap (SameData.refl _) a hma
        cases hcmp : cmpKey Z m.heap key a with
        | none => simp [hcmp] at h
        | some c => exact ⟨c, rfl, by simpa [hcmp] using h⟩
      have hwalk : unzipWalk Z m s go key (n + 1) prev =
          if q a then unzipWalk Z m s go key n a else some (prev, some a) := by
        rw [unzipWalk, readEdge_eq (e := .child s prev) hprev, hroot]
        simp only [Option.bind_eq_bind, Option.bind_some, hc, hgo]
        rfl
      by_cases hqa : q a = true
      · -- `a` stays: the walk goes on
        obtain ⟨last, stop, hw, hstop⟩ := ihx (n := n) a
          (fun h' hs b hb => hq h' hs b (hmx b hb)) hx (hlive a hma) hax (List.nodup_append.mp hxy).1
          (fun b hb => hlive b (hmx b hb)) hsize
        refine ⟨last, stop, by rw [hwalk, if_pos hqa]; exact hw, ?_⟩
        cases stop with
        | none =>
            rw [cut_stays x y hqa, show cut s q x = (x, .nil) from hstop]
        | some cur =>
            obtain ⟨m1, m2, hm1, hm2, hs, hkept, hmoved, hframe⟩ := hstop
            rw [cut_stays x y hqa]
            refine ⟨m1, m2, hm1, hm2, hs, ?_, hmoved, fun e _ hon => ?_⟩
            · refine Rep.rehang hroot hy hkept hframe (fun h => ?_) hax fun b hb => ⟨?_, ?_⟩
              · rcases List.mem_cons.mp h with h | h
                · exact hpa h
                · exact hpt (hmx _ h)
              · exact fun he => hay (he ▸ hb)
              · exact fun h => (List.nodup_append.mp hxy).2.2 b h b hb rfl
            · exact hframe e (Edge.ne_child hon hma s) (Edge.not_on hon hmx)
      · -- `a` does not: its subtree towards `prev` is cut by the moving loop
        refine ⟨prev, some a, by rw [hwalk, if_neg hqa], ?_⟩
        obtain ⟨m1, hm1, hl1, hs1⟩ := writeEdge_eq (Z := Z) (e := .child s prev) hprev none
        have hkeep : ∀ e, e ≠ .child s prev → links Z m1 e = links Z m e := fun e he => by
          rw [hl1, Function.update_of_ne he]
        have hprevt : ∀ s', ∀ b ∈ inorder (mkNode s a x y), Edge.child s' b ≠ .child s prev := by
          intro s' b hb he
          cases he
          exact hpt hb
        have hcard : y.numNodes < m1.fuel := by
          have hlen := CHeap.length_le_card (List.nodup_append.mp hxy).2.1 fun b hb =>
            hs1.live ▸ hlive b (hmy b hb)
          rw [ZipTree.length_inorder] at hlen
          exact Nat.lt_succ_of_le hlen
        obtain ⟨m2, hm2, hs2, hkept, hmoved, hframe⟩ := moveLoop_spec
          (fun m next => (cmpKey Z m.heap key next).map fun c => !go c) (unzipRelink_relinks Z s.flip) y
          (q := fun b => !q b) (m := m1) (.child s prev) a
          (fun m' hs b hb => by
            have h := hq m'.heap (hs1.trans hs) b (hmy b hb)
            cases hcmp : cmpKey Z m'.heap key b with
            | none => simp [hcmp] at h
            | some c => simpa [hcmp] using h)
          (by rw [hkeep _ (hprevt _ a hma)]
              exact hy.frame fun s' b hb => hkeep _ (hprevt s' b (hmy b hb)))
          (by rw [hl1, Function.update_self]) (by simp) (fun h => hpt (hmy _ h)) hay
          (List.nodup_append.mp hxy).2.1 (fun b hb => hs1.live ▸ hlive b (hmy b hb)) (hs1.live ▸ hlive a hma)
          (Edge.Live.same (e := .child s prev) hprev hs1) hcard
        rw [cut_flip] at hkept hmoved
        refine ⟨m1, m2, hm1, hm2, hs1.trans hs2, ?_, ?_, fun e he hon => ?_⟩
        · rw [cut_moves x y hqa]
          exact hmoved
        · rw [cut_moves x y hqa, rep_mkNode]
          refine ⟨rfl, hkept, ?_⟩
          rw [show s.flip.flip = s by cases s <;> rfl,
            hframe (.child s a) (by simp) (hprevt s a hma) hay, hkeep _ (hprevt s a hma)]
          refine hx.frame fun s' b hb => ?_
          have hba : b ≠ a := fun he => hax (he ▸ hb)
          have hby : b ∉ inorder y := fun h => (List.nodup_append.mp hxy).2.2 b hb b h rfl
          rw [hframe (.child s' b) (by simp [hba]) (hprevt s' b (hmx b hb)) hby,
            hkeep _ (hprevt s' b (hmx b hb))]
        · rw [hframe e (Edge.ne_child hon hma _) he (Edge.not_on hon hmy), hkeep e he]

/-- The two halves of the tree at `c` when the walk starts there. -/
theorem unzipFrom_spec {s : Side} (go : ZipCmp → Bool) (key : κ) {q : Addr → Bool} {m : Mem ε} {c : Addr}
    (inner outer : BinaryTree Addr)
    (hq : ∀ h', SameData Z m.heap h' → ∀ a ∈ inorder (mkNode s c inner outer),
      (cmpKey Z h' key a).map go = some (q a)) (hqc : q c = true)
    (hrep : Rep (links Z m) (some c) (mkNode s c inner outer))
    (hnodup : (inorder (mkNode s c inner outer)).Nodup)
    (hlive : ∀ a ∈ inorder (mkNode s c inner outer), a ∈ m.heap.live) :
    ∃ last stop m2, unzipWalk Z m s go key m.fuel c = some (last, stop) ∧
      (match stop with
        | none => m2 = m
        | some cur => ∃ m1, writeEdge Z m (.child s last) none = some m1 ∧
            zipUnzipMove Z s.flip (fun c => !go c) key m1 (.child s last) cur = some m2) ∧
      SameData Z m.heap m2.heap ∧ Rep (links Z m2) (some c) (cut s q (mkNode s c inner outer)).1 ∧
      Rep (links Z m2) stop (cut s q (mkNode s c inner outer)).2 ∧
      ∀ e, ¬e.On (inorder (mkNode s c inner outer)) → links Z m2 e = links Z m e := by
  obtain ⟨-, hin, hout⟩ := rep_mkNode.mp hrep
  obtain ⟨hcio, hio⟩ := List.nodup_cons.mp ((perm_mkNode s c inner outer).nodup_iff.mp hnodup)
  have hmc : c ∈ inorder (mkNode s c inner outer) := mem_mkNode.mpr (.inl rfl)
  have hmi : ∀ b ∈ inorder inner, b ∈ inorder (mkNode s c inner outer) := fun b hb =>
    mem_mkNode.mpr (.inr (.inl hb))
  have hci : c ∉ inorder inner := fun h => hcio (List.mem_append_left _ h)
  have hfuel : inner.numNodes < m.fuel := by
    have hlen := CHeap.length_le_card (List.nodup_append.mp hio).1 fun b hb => hlive b (hmi b hb)
    rw [ZipTree.length_inorder] at hlen
    exact Nat.lt_succ_of_le hlen
  obtain ⟨last, stop, hw, hstop⟩ := unzipWalk_spec go key (q := q) inner c
    (fun h' hs b hb => hq h' hs b (hmi b hb)) hin (hlive c hmc) hci (List.nodup_append.mp hio).1
    (fun b hb => hlive b (hmi b hb)) hfuel
  rw [cut_stays inner outer hqc]
  cases stop with
  | none =>
      rw [show cut s q inner = (inner, .nil) from hstop]
      exact ⟨last, none, m, hw, rfl, SameData.refl _, hrep, rfl, fun _ _ => rfl⟩
  | some cur =>
      obtain ⟨m1, m2, hm1, hm2, hs2, hkept, hmoved, hframe⟩ := hstop
      refine ⟨last, some cur, m2, hw, ⟨m1, hm1, hm2⟩, hs2, rep_mkNode.mpr ⟨rfl, hkept, ?_⟩, hmoved,
        fun e he => ?_⟩
      · rw [hframe (.child s.flip c) (by simp) hci]
        refine hout.frame fun s' b hb => hframe (.child s' b) ?_ fun h => ?_
        · have hbc : b ≠ c := fun he => hcio (he ▸ List.mem_append_right _ hb)
          simp [hbc]
        · exact (List.nodup_append.mp hio).2.2 b h b hb rfl
      · exact hframe e (Edge.ne_child he hmc s) (Edge.not_on he hmi)

theorem cmpKey_eq {h : Heap ε} {p : Addr} (hp : p ∈ h.live) (key : κ) :
    cmpKey Z h key p = some (Z.cmp key (Z.keyfield (h.cell p))) := by
  unfold cmpKey
  rw [CHeap.load_eq hp]
  rfl

variable [LinearOrder κ]

theorem cmp_eq_less (hZ : Z.Lawful) (a b : κ) : (Z.cmp a b == .less) = !decide (b ≤ a) := by
  rw [hZ a b]
  rcases lt_trichotomy a b with h | h | h
  · simp [h, ne_of_lt h, not_le.mpr h]
  · simp [h]
  · simp [lt_asymm h, ne_of_gt h, le_of_lt h]

/-- The keys up to the split key. -/
def upTo (Z : ZipFunctions ε κ) (h : Heap ε) (key : κ) (a : Addr) : Bool :=
  decide (Z.keyfield (h.cell a) ≤ key)

theorem cuts_upTo {h : Heap ε} {t : BinaryTree Addr} (hzip : IsZip (elemKey Z h) rank t) (key : κ) :
    ZipTree.Cuts (upTo Z h key) (inorder t) := by
  refine ZipTree.cuts_of_sorted hzip.sorted fun a b hab hb => decide_eq_true ?_
  refine le_trans ?_ (of_decide_eq_true hb)
  rcases Prod.Lex.toLex_lt_toLex.mp hab with hlt | ⟨heq, -⟩
  · exact le_of_lt hlt
  · exact le_of_eq heq

/-- **`__ZIP_UNZIP`** splits the tree in memory at a key. -/
theorem zipUnzip_spec (hZ : Z.Lawful) {m : Mem ε} {t : BinaryTree Addr} (h : Holds Z m t) (key : κ) :
    ∃ h' l r, zipUnzip Z m key = some (h', l, r) ∧ Touches Z (inorder t) m.heap h' ∧
      Holds Z ⟨h', l⟩ (ZipTree.split (upTo Z m.heap key) t).1 ∧
      Holds Z ⟨h', r⟩ (ZipTree.split (upTo Z m.heap key) t).2 := by
  obtain ⟨hzip1, hzip2⟩ := h.zip.split (cuts_upTo h.zip key)
  -- it is enough to find the two trees in some memory with the same data
  have hfinish : ∀ (m2 : Mem ε) (l r : Option Addr), zipUnzip Z m key = some (m2.heap, l, r) →
      SameData Z m.heap m2.heap → (∀ e, ¬e.On (inorder t) → links Z m2 e = links Z m e) →
      Rep (links Z m2) l (ZipTree.split (upTo Z m.heap key) t).1 →
      Rep (links Z m2) r (ZipTree.split (upTo Z m.heap key) t).2 →
      ∃ h' l r, zipUnzip Z m key = some (h', l, r) ∧ Touches Z (inorder t) m.heap h' ∧
        Holds Z ⟨h', l⟩ (ZipTree.split (upTo Z m.heap key) t).1 ∧
        Holds Z ⟨h', r⟩ (ZipTree.split (upTo Z m.heap key) t).2 := by
    intro m2 l r heq hs hframe hl hr
    refine ⟨m2.heap, l, r, heq, ⟨hs, fun s a ha => hframe (.child s a) ha⟩,
      ⟨hl.frame fun _ _ _ => rfl, ?_, ?_⟩, ⟨hr.frame fun _ _ _ => rfl, ?_, ?_⟩⟩
    · exact fun a ha => hs.live ▸ h.live a ((ZipTree.mem_split _ t a).mp (.inl ha))
    · rw [hs.elemKey]
      exact hzip1
    · exact fun a ha => hs.live ▸ h.live a ((ZipTree.mem_split _ t a).mp (.inr ha))
    · rw [hs.elemKey]
      exact hzip2
  have hrep := h.rep
  cases hroot : m.root with
  | none =>
      rw [hroot] at hrep
      cases t with
      | node a l r => cases hrep.1
      | nil =>
          refine hfinish m none none ?_ (SameData.refl _) (fun _ _ => rfl) rfl rfl
          unfold zipUnzip
          rw [hroot]
  | some c =>
      rw [hroot] at hrep
      cases t with
      | nil => cases hrep
      | node a l r =>
          obtain rfl : c = a := Option.some.inj hrep.1
          have hmc : c ∈ inorder (.node c l r) := List.mem_append_right _ List.mem_cons_self
          have hless : ∀ h', SameData Z m.heap h' → ∀ b ∈ inorder (.node c l r),
              (cmpKey Z h' key b).map (· == .less) = some (!upTo Z m.heap key b) := by
            intro h' hs b hb
            rw [cmpKey_eq (hs.live ▸ h.live b hb), Option.map_some, cmp_eq_less hZ, hs.keyfield]
            rfl
          have hmore : ∀ h', SameData Z m.heap h' → ∀ b ∈ inorder (.node c l r),
              (cmpKey Z h' key b).map (· != .less) = some (upTo Z m.heap key b) := by
            intro h' hs b hb
            have heq := hless h' hs b hb
            rw [cmpKey_eq (hs.live ▸ h.live b hb), Option.map_some] at heq ⊢
            rw [bne, Option.some.inj heq, Bool.not_not]
          have hc := hless m.heap (SameData.refl _) c hmc
          rw [cmpKey_eq (h.live c hmc), Option.map_some, Option.some.injEq] at hc
          by_cases hp : upTo Z m.heap key c = true
          · have hne : Z.cmp key (Z.keyfield (m.heap.cell c)) ≠ .less := by simpa [hp] using hc
            obtain ⟨last, stop, m2, hw, hstop, hs2, hkept, hmoved, hframe⟩ := unzipFrom_spec (s := .right)
              (· != .less) key r l hmore hp hrep h.zip.nodup h.live
            refine hfinish m2 (some c) stop ?_ hs2 hframe hkept hmoved
            unfold zipUnzip
            simp only [hroot, cmpKey_eq (h.live c hmc), Option.bind_eq_bind, Option.bind_some, if_pos hne, hw]
            cases stop with
            | none => rw [show m2 = m from hstop]; rfl
            | some cur =>
                obtain ⟨m1, hm1, hm2⟩ := hstop
                have hm2' : zipUnzipMoveLeft Z key m1 (.child .right last) cur = some m2 := by
                  rw [← hm2]
                  unfold zipUnzipMoveLeft
                  simp [Side.flip, bne]
                simp only [hm1, Option.bind_some, hm2']
                rfl
          · have heq : Z.cmp key (Z.keyfield (m.heap.cell c)) = .less := by simpa [hp] using hc
            obtain ⟨last, stop, m2, hw, hstop, hs2, hkept, hmoved, hframe⟩ := unzipFrom_spec (s := .left)
              (· == .less) key (q := fun a => !upTo Z m.heap key a) l r hless
              (by simp [hp]) hrep h.zip.nodup h.live
            have hcut : cut .left (fun a => !upTo Z m.heap key a) (mkNode .left c l r) =
                (ZipTree.split (upTo Z m.heap key) (.node c l r)).swap := by
              unfold cut
              simp only [Bool.not_not]
              rfl
            rw [hcut] at hkept hmoved
            refine hfinish m2 stop (some c) ?_ hs2 hframe hmoved hkept
            unfold zipUnzip
            simp only [hroot, cmpKey_eq (h.live c hmc), Option.bind_eq_bind, Option.bind_some,
              if_neg (not_not_intro heq), hw]
            cases stop with
            | none => rw [show m2 = m from hstop]; rfl
            | some cur =>
                obtain ⟨m1, hm1, hm2⟩ := hstop
                have hm2' : zipUnzipMoveRight Z key m1 (.child .left last) cur = some m2 := by
                  rw [← hm2]
                  unfold zipUnzipMoveRight
                  rfl
                simp only [hm1, Option.bind_some, hm2']
                rfl

/-! ## Searching -/

/-- `ZIP_FIND` finds an element with the key, if the tree has one. -/
theorem zipFind_spec (hZ : Z.Lawful) {m : Mem ε} (key : κ) (t : BinaryTree Addr) {n : Nat} {v : Option Addr}
    (hrep : Rep (links Z m) v t) (hlive : ∀ a ∈ inorder t, a ∈ m.heap.live)
    (hzip : IsZip (elemKey Z m.heap) rank t) (hn : t.height ≤ n) :
    ∃ found, zipFind Z m.heap key n v = some found ∧
      match found with
      | some a => a ∈ inorder t ∧ Z.keyfield (m.heap.cell a) = key
      | none => ∀ a ∈ inorder t, Z.keyfield (m.heap.cell a) ≠ key := by
  induction t generalizing n v with
  | nil =>
      obtain rfl : v = none := hrep
      exact ⟨none, by unfold zipFind; rfl, by simp⟩
  | node a l r ihl ihr =>
      obtain ⟨rfl, hl, hr⟩ := hrep
      have hma : a ∈ inorder (.node a l r) := List.mem_append_right _ List.mem_cons_self
      obtain ⟨n, rfl⟩ : ∃ k, n = k + 1 := ⟨n - 1, by simp only [BinaryTree.height] at hn; omega⟩
      simp only [BinaryTree.height] at hn
      -- equal keys stand together, so that the sides of a node keep the order of the keys
      have hle : ∀ b ∈ inorder l, Z.keyfield (m.heap.cell b) ≤ Z.keyfield (m.heap.cell a) := fun b hb =>
        (Prod.Lex.toLex_lt_toLex.mp (hzip.lt_root hb)).elim le_of_lt fun h => le_of_eq h.1
      have hge : ∀ b ∈ inorder r, Z.keyfield (m.heap.cell a) ≤ Z.keyfield (m.heap.cell b) := fun b hb =>
        (Prod.Lex.toLex_lt_toLex.mp (hzip.root_lt hb)).elim le_of_lt fun h => le_of_eq h.1
      unfold zipFind
      simp only [CHeap.load_eq (hlive a hma), Option.bind_eq_bind, Option.bind_some, hZ _ _]
      rcases lt_trichotomy key (Z.keyfield (m.heap.cell a)) with hlt | heq | hgt
      · simp only [ne_of_lt hlt, hlt, if_false, if_true]
        obtain ⟨found, hf, hspec⟩ :=
          ihl (n := n) hl (fun b hb => hlive b (List.mem_append_left _ hb)) hzip.left
          (by omega)
        refine ⟨found, hf, ?_⟩
        cases found with
        | some b => exact ⟨List.mem_append_left _ hspec.1, hspec.2⟩
        | none =>
            intro b hb
            rcases List.mem_append.mp hb with h | h
            · exact hspec b h
            · rcases List.mem_cons.mp h with h | h
              · exact h ▸ ne_of_gt hlt
              · exact ne_of_gt (lt_of_lt_of_le hlt (hge b h))
      · simp only [heq, if_true]
        exact ⟨some a, rfl, hma, rfl⟩
      · simp only [ne_of_gt hgt, lt_asymm hgt, if_false]
        obtain ⟨found, hf, hspec⟩ := ihr (n := n) hr
          (fun b hb => hlive b (List.mem_append_right _ (List.mem_cons_of_mem _ hb))) hzip.right (by omega)
        refine ⟨found, hf, ?_⟩
        cases found with
        | some b => exact ⟨List.mem_append_right _ (List.mem_cons_of_mem _ hspec.1), hspec.2⟩
        | none =>
            intro b hb
            rcases List.mem_append.mp hb with h | h
            · exact ne_of_lt (lt_of_le_of_lt (hle b h) hgt)
            · rcases List.mem_cons.mp h with h | h
              · exact h ▸ ne_of_lt hgt
              · exact hspec b h

omit [LinearOrder κ] in
theorem zipMinLoop_spec {m : Mem ε} (t : BinaryTree Addr) {n : Nat} {a : Addr}
    (hrep : Rep (links Z m) (some a) t) (hlive : ∀ b ∈ inorder t, b ∈ m.heap.live) (hn : t.numNodes ≤ n) :
    zipMinLoop Z m.heap n a = (inorder t).head? := by
  induction t generalizing n a with
  | nil => cases hrep
  | node b l r ihl ihr =>
      obtain rfl : a = b := Option.some.inj hrep.1
      have hma : a ∈ inorder (.node a l r) := List.mem_append_right _ List.mem_cons_self
      obtain ⟨n, rfl⟩ : ∃ k, n = k + 1 := ⟨n - 1, by simp only [BinaryTree.numNodes] at hn; omega⟩
      simp only [BinaryTree.numNodes] at hn
      unfold zipMinLoop
      simp only [CHeap.load_eq (hlive a hma), Option.bind_eq_bind, Option.bind_some]
      have hleft : (Z.field (m.heap.cell a)).left = links Z m (.child .left a) := rfl
      rw [hleft]
      cases hnext : links Z m (.child .left a) with
      | none =>
          have hl := hrep.2.1
          rw [hnext] at hl
          cases l with
          | node c l' r' => cases hl.1
          | nil => rfl
      | some c =>
          have hl := hrep.2.1
          rw [hnext] at hl
          have hrec := ihl (n := n) hl (fun b hb => hlive b (List.mem_append_left _ hb)) (by omega)
          cases l with
          | nil => cases hl
          | node c' l' r' =>
              show zipMinLoop Z m.heap n c = _
              rw [hrec, ZipTree.inorder_node a, List.head?_append_of_ne_nil _ (by simp)]

/-- `ZIP_MIN` answers the first element in the order of the tree. -/
theorem zipMin_spec {m : Mem ε} {t : BinaryTree Addr} (h : Holds Z m t) :
    zipMin Z m = some (inorder t).head? := by
  have hrep := h.rep
  unfold zipMin
  cases hroot : m.root with
  | none =>
      rw [hroot] at hrep
      cases t with
      | node a l r => cases hrep.1
      | nil => rfl
  | some a =>
      rw [hroot] at hrep
      simp only [zipMinLoop_spec t hrep h.live (le_of_lt h.numNodes_lt)]
      cases t with
      | nil => cases hrep
      | node b l r =>
          rw [ZipTree.inorder_node]
          cases inorder l <;> rfl

/-! ## Iterating -/

/-- A callback applied to elements one after the other until it answers with a pointer. -/
def iterUntil {σ ω : Type} (cb : σ → Addr → Option (σ × Option ω)) : σ → List Addr → Option (σ × Option ω)
  | st, [] => some (st, none)
  | st, a :: l =>
    match cb st a with
    | none => none
    | some (st, some res) => some (st, some res)
    | some (st, none) => iterUntil cb st l

theorem iterUntil_append {σ ω : Type} (cb : σ → Addr → Option (σ × Option ω)) (st : σ) (l l' : List Addr) :
    iterUntil cb st (l ++ l') =
      match iterUntil cb st l with
      | none => none
      | some (st, some res) => some (st, some res)
      | some (st, none) => iterUntil cb st l' := by
  induction l generalizing st with
  | nil => rfl
  | cons a l ih =>
      show (match cb st a with
        | none => none
        | some (st, some res) => some (st, some res)
        | some (st, none) => iterUntil cb st (l ++ l')) = _
      rw [show iterUntil cb st (a :: l) = match cb st a with
        | none => none
        | some (st, some res) => some (st, some res)
        | some (st, none) => iterUntil cb st l from rfl]
      rcases cb st a with _ | ⟨st', _ | res⟩
      · rfl
      · exact ih st'
      · rfl

theorem iterUntil_singleton {σ ω : Type} (cb : σ → Addr → Option (σ × Option ω)) (st : σ) (a : Addr) :
    iterUntil cb st [a] = cb st a := by
  unfold iterUntil
  rcases cb st a with _ | ⟨st', _ | res⟩ <;> rfl

/-- The elements that `__ZIP_ITER_KEY` visits when the elements compare as given. -/
def visits {α : Type} (order : α → ZipCmp) : BinaryTree α → List α
  | .nil => []
  | .node a l r =>
    (if order a ≠ .more then visits order l else []) ++
      ((if order a = .eq then [a] else []) ++ (if order a ≠ .less then visits order r else []))

omit [LinearOrder κ] in
/-- **`__ZIP_ITER_KEY`** runs its callback over the elements that it visits. -/
theorem zipIterKey_spec {σ ω : Type} {m : Mem ε} (cmp : κ → ZipCmp) (cb : σ → Addr → Option (σ × Option ω))
    (t : BinaryTree Addr) {n : Nat} {v : Option Addr} (st : σ) (hrep : Rep (links Z m) v t)
    (hlive : ∀ a ∈ inorder t, a ∈ m.heap.live) (hn : t.height ≤ n) :
    zipIterKey Z m.heap cmp cb n st v =
      iterUntil cb st (visits (fun a => cmp (Z.keyfield (m.heap.cell a))) t) := by
  induction t generalizing n v st with
  | nil =>
      obtain rfl : v = none := hrep
      unfold zipIterKey
      rfl
  | node a l r ihl ihr =>
      obtain ⟨rfl, hl, hr⟩ := hrep
      have hma : a ∈ inorder (.node a l r) := List.mem_append_right _ List.mem_cons_self
      obtain ⟨n, rfl⟩ : ∃ k, n = k + 1 := ⟨n - 1, by simp only [BinaryTree.height] at hn; omega⟩
      simp only [BinaryTree.height] at hn
      have hleft : ∀ st, zipIterKey Z m.heap cmp cb n st (Z.field (m.heap.cell a)).left =
          iterUntil cb st (visits (fun a => cmp (Z.keyfield (m.heap.cell a))) l) := fun st =>
        ihl st hl (fun b hb => hlive b (List.mem_append_left _ hb)) (by omega)
      have hright : ∀ st, zipIterKey Z m.heap cmp cb n st (Z.field (m.heap.cell a)).right =
          iterUntil cb st (visits (fun a => cmp (Z.keyfield (m.heap.cell a))) r) := fun st =>
        ihr st hr (fun b hb => hlive b (List.mem_append_right _ (List.mem_cons_of_mem _ hb))) (by omega)
      unfold zipIterKey visits
      simp only [CHeap.load_eq (hlive a hma), Option.bind_eq_bind, Option.bind_some, hleft, hright,
        iterUntil_append]
      cases horder : cmp (Z.keyfield (m.heap.cell a)) with
      | less =>
          simp only [ne_eq, reduceCtorEq, not_false_eq_true, if_true, not_true, if_false]
          rcases iterUntil cb st _ with _ | ⟨st', _ | res⟩ <;> rfl
      | eq =>
          simp only [ne_eq, reduceCtorEq, not_false_eq_true, if_true, iterUntil_singleton]
          rcases iterUntil cb st _ with _ | ⟨st', _ | res⟩
          · rfl
          · simp only [Option.bind_some]
            rcases hcb : cb st' a with _ | ⟨st'', _ | res⟩
            · rfl
            · simp only [Option.bind_some]
            · rfl
          · rfl
      | more =>
          simp only [ne_eq, reduceCtorEq, not_false_eq_true, if_true, not_true, if_false]
          rfl

theorem visits_map {α β : Type} (f : α → β) (order : β → ZipCmp) (t : BinaryTree α) :
    visits order (t.map f) = (visits (fun a => order (f a)) t).map f := by
  induction t with
  | nil => rfl
  | node a l r ihl ihr =>
      show (if order (f a) ≠ .more then visits order (l.map f) else []) ++
        ((if order (f a) = .eq then [f a] else []) ++
          (if order (f a) ≠ .less then visits order (r.map f) else [])) = _
      rw [ihl, ihr, visits]
      cases order (f a) <;> simp

theorem mem_of_visits {α : Type} {order : α → ZipCmp} {t : BinaryTree α} {a : α} (h : a ∈ visits order t) :
    a ∈ inorder t ∧ order a = .eq := by
  induction t with
  | nil => cases h
  | node b l r ihl ihr =>
      have hl : a ∈ visits order l → a ∈ inorder (.node b l r) ∧ order a = .eq := fun h =>
        ⟨List.mem_append_left _ (ihl h).1, (ihl h).2⟩
      have hr : a ∈ visits order r → a ∈ inorder (.node b l r) ∧ order a = .eq := fun h =>
        ⟨List.mem_append_right _ (List.mem_cons_of_mem _ (ihr h).1), (ihr h).2⟩
      unfold visits at h
      cases hb : order b with
      | less => exact hl (by simpa [hb] using h)
      | more => exact hr (by simpa [hb] using h)
      | eq =>
          simp only [hb, ne_eq, reduceCtorEq, not_false_eq_true, if_true, List.mem_append,
            List.mem_singleton] at h
          rcases h with h | h | h
          · exact hl h
          · exact ⟨List.mem_append_right _ (h ▸ List.mem_cons_self), h ▸ hb⟩
          · exact hr h

/-- With a comparison that agrees with the order of the tree these are all elements that compare equal. -/
theorem visits_eq_filter {α : Type} {order : α → ZipCmp} {t : BinaryTree α}
    (h : (inorder t).Pairwise fun a b => (order b = .more → order a = .more) ∧
      (order a = .less → order b = .less)) :
    visits order t = (inorder t).filter (fun a => order a = .eq) := by
  induction t with
  | nil => rfl
  | node a l r ihl ihr =>
      obtain ⟨hl, har, hlr⟩ := List.pairwise_append.mp h
      obtain ⟨ha, hr⟩ := List.pairwise_cons.mp har
      unfold visits
      rw [ihl hl, ihr hr, ZipTree.inorder_node, List.filter_append, List.filter_cons]
      cases horder : order a with
      | less =>
          have hnone : (inorder r).filter (fun b => decide (order b = .eq)) = [] :=
            List.filter_eq_nil_iff.mpr fun b hb => by simp [(ha b hb).2 horder]
          simp [hnone]
      | eq => simp
      | more =>
          have hnone : (inorder l).filter (fun b => decide (order b = .eq)) = [] :=
            List.filter_eq_nil_iff.mpr fun b hb => by simp [(hlr b hb a List.mem_cons_self).1 horder]
          simp [hnone]

end Open62541
end Esp32Probes
