import Esp32Probes.Open62541.ZipTree

/-!
# Open62541.ZipMemory — the trees that the pointers form

What a reader of the memory sees: `links` gives the pointer at every edge, `Rep` says that the pointers from
some place on form a given tree. A write changes `links` at one edge and nothing else of the elements
(`SameData`). The loop lemmas at the end say of each loop of `ziptree.c` which tree it leaves behind, and at
which edges it has written; the loops that move elements compute the two halves of a `ZipTree.split`.
-/

namespace Esp32Probes
namespace Open62541

open CHeap (Addr Heap)
open ZipTree (inorder IsZip)

variable {ε κ : Type}

/-! ## Edges -/

@[simp] theorem Side.flip_ne (s : Side) : s.flip ≠ s := by cases s <;> decide

@[simp] theorem Side.ne_flip (s : Side) : s ≠ s.flip := s.flip_ne.symm

/-- Reading a pointer that has just been set. -/
@[simp] theorem ZipEntry.get_set (z : ZipEntry) (s : Side) (v : Option Addr) : (z.set s v).get s = v := by
  cases s <;> rfl

/-- The pointer on the other side stays. -/
theorem ZipEntry.get_set_ne (z : ZipEntry) {s s' : Side} (h : s' ≠ s) (v : Option Addr) :
    (z.set s v).get s' = z.get s' := by
  cases s <;> cases s' <;> first | rfl | exact absurd rfl h

/-- The edge is a pointer of one of these elements. -/
def Edge.On (l : List Addr) : Edge → Prop
  | .root => False
  | .child _ p => p ∈ l

/-- The place of the pointer is allocated. -/
def Edge.Live (h : Heap ε) : Edge → Prop
  | .root => True
  | .child _ p => p ∈ h.live

/-- A place outside of these elements is none of their pointers. -/
theorem Edge.ne_child {l : List Addr} {e : Edge} (h : ¬e.On l) {a : Addr} (ha : a ∈ l) (s : Side) :
    e ≠ .child s a := by
  intro he
  subst he
  exact h ha

theorem Edge.not_on {l l' : List Addr} {e : Edge} (h : ¬e.On l) (hsub : ∀ a ∈ l', a ∈ l) : ¬e.On l' := by
  cases e with
  | root => exact id
  | child s p => exact fun hp => h (hsub p hp)

/-- The pointers in memory. -/
def links (Z : ZipFunctions ε κ) (m : Mem ε) : Edge → Option Addr
  | .root => m.root
  | .child s p => (Z.field (m.heap.cell p)).get s

/-- The same blocks, with the same contents but for the pointers. -/
structure SameData (Z : ZipFunctions ε κ) (h h' : Heap ε) : Prop where
  live : h'.live = h.live
  cell : ∀ p, ∃ z, h'.cell p = Z.setField (h.cell p) z

variable {Z : ZipFunctions ε κ}

/-- Nothing has been written. -/
theorem SameData.refl (h : Heap ε) : SameData Z h h := ⟨rfl, fun p => ⟨_, (Z.setField_field (h.cell p)).symm⟩⟩

theorem SameData.trans {h₁ h₂ h₃ : Heap ε} (h12 : SameData Z h₁ h₂) (h23 : SameData Z h₂ h₃) :
    SameData Z h₁ h₃ := by
  refine ⟨h23.live.trans h12.live, fun p => ?_⟩
  obtain ⟨z, hz⟩ := h12.cell p
  obtain ⟨z', hz'⟩ := h23.cell p
  exact ⟨z', by rw [hz', hz, Z.setField_setField]⟩

/-- The keys are data, so they stay. -/
theorem SameData.keyfield {h h' : Heap ε} (hs : SameData Z h h') (p : Addr) :
    Z.keyfield (h'.cell p) = Z.keyfield (h.cell p) := by
  obtain ⟨z, hz⟩ := hs.cell p
  rw [hz, Z.keyfield_setField]

/-- Reading a pointer at an allocated place succeeds. -/
theorem readEdge_eq {m : Mem ε} {e : Edge} (he : e.Live m.heap) : readEdge Z m e = some (links Z m e) := by
  cases e with
  | root => rfl
  | child s p =>
      show (m.heap.load p >>= fun e => some ((Z.field e).get s)) = _
      rw [CHeap.load_eq he]
      rfl

/-- Writing a pointer at an allocated place changes this pointer and no data. -/
theorem writeEdge_eq {m : Mem ε} {e : Edge} (he : e.Live m.heap) (v : Option Addr) :
    ∃ m', writeEdge Z m e v = some m' ∧ links Z m' = Function.update (links Z m) e v ∧
      SameData Z m.heap m'.heap := by
  cases e with
  | root =>
      refine ⟨_, rfl, funext fun e => ?_, SameData.refl _⟩
      cases e with
      | root => rw [Function.update_self]; rfl
      | child s p => rw [Function.update_of_ne (by simp)]; rfl
  | child s p =>
      refine ⟨⟨⟨m.heap.live, Function.update m.heap.cell p
        (Z.setField (m.heap.cell p) ((Z.field (m.heap.cell p)).set s v))⟩, m.root⟩, ?_, funext fun e => ?_,
        ⟨rfl, fun q => ?_⟩⟩
      · show (m.heap.load p >>= fun e => m.heap.store p (Z.setField e ((Z.field e).set s v)) >>= fun h =>
          some { m with heap := h }) = _
        rw [CHeap.load_eq he]
        show (m.heap.store p _ >>= fun h => some { m with heap := h }) = _
        rw [CHeap.store_eq he]
        rfl
      · cases e with
        | root => rw [Function.update_of_ne (by simp)]; rfl
        | child s' q =>
            by_cases hq : q = p
            · subst hq
              by_cases hs : s' = s
              · subst hs
                simp [links, Z.field_setField]
              · rw [Function.update_of_ne (by simpa using hs)]
                simp [links, Z.field_setField, ZipEntry.get_set_ne _ hs]
            · rw [Function.update_of_ne (by simp [hq])]
              simp [links, Function.update_of_ne hq]
      · by_cases hq : q = p
        · subst hq
          exact ⟨_, Function.update_self _ _ _⟩
        · exact ⟨_, (Function.update_of_ne hq _ _).trans (Z.setField_field _).symm⟩

/-- What is allocated stays allocated. -/
theorem Edge.Live.same {h h' : Heap ε} {e : Edge} (he : e.Live h) (hs : SameData Z h h') : e.Live h' := by
  cases e with
  | root => trivial
  | child s p =>
      show p ∈ h'.live
      rw [hs.live]
      exact he

/-! ## Trees in memory -/

/-- From the pointer `v` on, the pointers form the tree. -/
def Rep (L : Edge → Option Addr) : Option Addr → BinaryTree Addr → Prop
  | v, .nil => v = none
  | v, .node a l r => v = some a ∧ Rep L (L (.child .left a)) l ∧ Rep L (L (.child .right a)) r

/-- The tree depends on the pointers of its own elements only. -/
theorem Rep.frame {L L' : Edge → Option Addr} {v : Option Addr} {t : BinaryTree Addr} (h : Rep L v t)
    (hL : ∀ s, ∀ a ∈ inorder t, L' (.child s a) = L (.child s a)) : Rep L' v t := by
  induction t generalizing v with
  | nil => exact h
  | node a l r ihl ihr =>
      obtain ⟨hv, hl, hr⟩ := h
      refine ⟨hv, ?_, ?_⟩
      · rw [hL _ a (List.mem_append_right _ List.mem_cons_self)]
        exact ihl hl fun s b hb => hL s b (List.mem_append_left _ hb)
      · rw [hL _ a (List.mem_append_right _ List.mem_cons_self)]
        exact ihr hr fun s b hb => hL s b (List.mem_append_right _ (List.mem_cons_of_mem _ hb))

/-! ## The two sides of a tree -/

/-- A node with its subtree on one side and the other subtree. -/
def mkNode (s : Side) (a : Addr) (x y : BinaryTree Addr) : BinaryTree Addr :=
  match s with
  | .left => .node a x y
  | .right => .node a y x

/-- The tree at a pointer is a node if its two subtrees are at the pointers of the element. -/
theorem rep_mkNode {L : Edge → Option Addr} {v : Option Addr} {s : Side} {a : Addr} {x y : BinaryTree Addr} :
    Rep L v (mkNode s a x y) ↔
      v = some a ∧ Rep L (L (.child s a)) x ∧ Rep L (L (.child s.flip a)) y := by
  cases s with
  | left => exact Iff.rfl
  | right => exact and_congr_right fun _ => and_comm

/-- Work below one side of a node, on the elements `l` and that side's edge only, leaves the node where it
    is. -/
theorem Rep.rehang {L L' : Edge → Option Addr} {e : Edge} {s : Side} {b : Addr} {new outer : BinaryTree Addr}
    {l : List Addr} (he : L e = some b) (hout : Rep L (L (.child s.flip b)) outer)
    (hnew : Rep L' (L' (.child s b)) new) (hframe : ∀ e', e' ≠ .child s b → ¬e'.On l → L' e' = L e')
    (hel : ¬e.On (b :: l)) (hbl : b ∉ l) (hol : ∀ c ∈ inorder outer, c ≠ b ∧ c ∉ l) :
    Rep L' (L' e) (mkNode s b new outer) := by
  refine rep_mkNode.mpr ⟨?_, hnew, ?_⟩
  · rw [hframe e (Edge.ne_child hel List.mem_cons_self s) (Edge.not_on hel fun _ => List.mem_cons_of_mem _)]
    exact he
  · rw [hframe (.child s.flip b) (by simp) hbl]
    exact hout.frame fun s' c hc => hframe (.child s' c) (by simp [(hol c hc).1]) (hol c hc).2

/-- The elements of a node, whichever side comes first. -/
theorem perm_mkNode (s : Side) (a : Addr) (x y : BinaryTree Addr) :
    (inorder (mkNode s a x y)).Perm (a :: (inorder x ++ inorder y)) := by
  cases s with
  | left => exact List.perm_middle
  | right => exact List.perm_middle.trans (List.perm_append_comm.cons a)

theorem mem_mkNode {s : Side} {a b : Addr} {x y : BinaryTree Addr} :
    b ∈ inorder (mkNode s a x y) ↔ b = a ∨ b ∈ inorder x ∨ b ∈ inorder y := by
  rw [(perm_mkNode s a x y).mem_iff, List.mem_cons, List.mem_append]

/-- Induction over a tree from one side. -/
theorem sideInduction (s : Side) {motive : BinaryTree Addr → Prop} (nil : motive .nil)
    (node : ∀ a x y, motive x → motive y → motive (mkNode s a x y)) (t : BinaryTree Addr) : motive t := by
  induction t with
  | nil => exact nil
  | node a l r ihl ihr =>
      cases s with
      | left => exact node a l r ihl ihr
      | right => exact node a r l ihr ihl

/-- What stays and what moves when a tree is cut along the given side. -/
def cut (s : Side) (stays : Addr → Bool) (t : BinaryTree Addr) : BinaryTree Addr × BinaryTree Addr :=
  match s with
  | .right => ZipTree.split stays t
  | .left => (ZipTree.split (fun a => !stays a) t).swap

theorem cut_nil (s : Side) (q : Addr → Bool) : cut s q .nil = (.nil, .nil) := by cases s <;> rfl

/-- The root stays, and the cut goes on in its subtree on this side. -/
theorem cut_stays {s : Side} {q : Addr → Bool} {a : Addr} (x y : BinaryTree Addr) (h : q a = true) :
    cut s q (mkNode s a x y) = (mkNode s a (cut s q x).1 y, (cut s q x).2) := by
  cases s with
  | left =>
      show (ZipTree.split _ (.node a x y)).swap = _
      rw [ZipTree.split_of_neg _ _ (by simp [h])]
      rfl
  | right =>
      show ZipTree.split q (.node a y x) = _
      rw [ZipTree.split_of_pos _ _ h]
      rfl

/-- The root moves and takes its subtree on this side with it. -/
theorem cut_moves {s : Side} {q : Addr → Bool} {a : Addr} (x y : BinaryTree Addr) (h : ¬q a = true) :
    cut s q (mkNode s a x y) = ((cut s q y).1, mkNode s.flip a (cut s q y).2 x) := by
  cases s with
  | left =>
      show (ZipTree.split _ (.node a x y)).swap = _
      rw [ZipTree.split_of_pos _ _ (by simp [h])]
      rfl
  | right =>
      show ZipTree.split q (.node a y x) = _
      rw [ZipTree.split_of_neg _ _ h]
      rfl

/-! ## The loop that moves elements -/

/-- What the body of the loop does to the pointers when an element moves. -/
def Relinks (Z : ZipFunctions ε κ) (s : Side) (relink : Mem ε → Edge → Addr → Addr → Option (Mem ε)) : Prop :=
  ∀ (m : Mem ε) (fix : Edge) (cur cand : Addr), fix.Live m.heap → cur ∈ m.heap.live → cand ∈ m.heap.live →
    fix ≠ .child s cur → ¬fix.On [cand] → cur ≠ cand →
    ∃ m', relink m fix cur cand = some m' ∧ SameData Z m.heap m'.heap ∧
      links Z m' fix = some cand ∧ links Z m' (.child s cur) = links Z m (.child s.flip cand) ∧
      links Z m' (.child s.flip cand) = none ∧
      ∀ e, e ≠ fix → e ≠ .child s cur → e ≠ .child s.flip cand → links Z m' e = links Z m e

/-- The body of the loop of `__ZIP_INSERT`. -/
theorem insertRelink_relinks (Z : ZipFunctions ε κ) (s : Side) : Relinks Z s (insertRelink Z s) := by
  intro m fix cur cand hfix hcur hcand hne hon hcc
  have hfc : fix ≠ .child s.flip cand := fun he => hon (he ▸ List.mem_singleton_self cand)
  have hccs : Edge.child s.flip cand ≠ .child s cur := by simp
  obtain ⟨m1, hm1, hl1, hs1⟩ :=
    writeEdge_eq (Z := Z) (e := .child s cur) hcur (links Z m (.child s.flip cand))
  have hcand1 : cand ∈ m1.heap.live := hs1.live ▸ hcand
  obtain ⟨m2, hm2, hl2, hs2⟩ := writeEdge_eq (Z := Z) (m := m1) (e := .child s.flip cand) hcand1 none
  obtain ⟨m3, hm3, hl3, hs3⟩ := writeEdge_eq ((hfix.same hs1).same hs2) (some cand)
  refine ⟨m3, ?_, (hs1.trans hs2).trans hs3, ?_, ?_, ?_, fun e he1 he2 he3 => ?_⟩
  · unfold insertRelink
    rw [readEdge_eq (e := .child s.flip cand) hcand]
    simp only [Option.bind_eq_bind, Option.bind_some, hm1, hm2, hm3]
  · rw [hl3, Function.update_self]
  · rw [hl3, Function.update_of_ne hne.symm, hl2, Function.update_of_ne hccs.symm, hl1, Function.update_self]
  · rw [hl3, Function.update_of_ne hfc.symm, hl2, Function.update_self]
  · rw [hl3, Function.update_of_ne he1, hl2, Function.update_of_ne he3, hl1, Function.update_of_ne he2]

/-- The body of the loop of `__ZIP_UNZIP`, which makes the three assignments in another order. -/
theorem unzipRelink_relinks (Z : ZipFunctions ε κ) (s : Side) : Relinks Z s (unzipRelink Z s) := by
  intro m fix cur cand hfix hcur hcand hne hon hcc
  have hfc : fix ≠ .child s.flip cand := fun he => hon (he ▸ List.mem_singleton_self cand)
  have hccs : Edge.child s.flip cand ≠ .child s cur := by simp
  obtain ⟨m1, hm1, hl1, hs1⟩ := writeEdge_eq (Z := Z) hfix (some cand)
  have hcur1 : cur ∈ m1.heap.live := hs1.live ▸ hcur
  have hcand1 : cand ∈ m1.heap.live := hs1.live ▸ hcand
  obtain ⟨m2, hm2, hl2, hs2⟩ :=
    writeEdge_eq (Z := Z) (e := .child s cur) hcur1 (links Z m1 (.child s.flip cand))
  have hcand2 : cand ∈ m2.heap.live := hs2.live ▸ hcand1
  obtain ⟨m3, hm3, hl3, hs3⟩ := writeEdge_eq (Z := Z) (m := m2) (e := .child s.flip cand) hcand2 none
  have hread : links Z m1 (.child s.flip cand) = links Z m (.child s.flip cand) := by
    rw [hl1, Function.update_of_ne hfc.symm]
  refine ⟨m3, ?_, (hs1.trans hs2).trans hs3, ?_, ?_, ?_, fun e he1 he2 he3 => ?_⟩
  · unfold unzipRelink
    simp only [Option.bind_eq_bind, hm1, Option.bind_some, readEdge_eq (e := .child s.flip cand) hcand1, hm2,
      hm3]
  · rw [hl3, Function.update_of_ne hfc, hl2, Function.update_of_ne hne, hl1, Function.update_self]
  · rw [hl3, Function.update_of_ne hccs.symm, hl2, Function.update_self, hread]
  · rw [hl3, Function.update_self]
  · rw [hl3, Function.update_of_ne he3, hl2, Function.update_of_ne he2, hl1, Function.update_of_ne he1]

/-- **The moving loop cuts the tree below `cur`**: what stays is left there, the rest hangs at `fix`. -/
theorem moveLoop_spec {s : Side} (stays : Mem ε → Addr → Option Bool) {q : Addr → Bool}
    {relink : Mem ε → Edge → Addr → Addr → Option (Mem ε)} (hrelink : Relinks Z s relink)
    (t : BinaryTree Addr) {n : Nat} {m : Mem ε} (fix : Edge) (cur : Addr)
    (hstays : ∀ m' : Mem ε, SameData Z m.heap m'.heap → ∀ a ∈ inorder t, stays m' a = some (q a))
    (hrep : Rep (links Z m) (links Z m (.child s cur)) t) (hfix : links Z m fix = none)
    (hne : fix ≠ .child s cur) (hfixt : ¬fix.On (inorder t)) (hcurt : cur ∉ inorder t)
    (hnodup : (inorder t).Nodup) (hlive : ∀ a ∈ inorder t, a ∈ m.heap.live) (hcur : cur ∈ m.heap.live)
    (hfixl : fix.Live m.heap) (hn : t.numNodes < n) :
    ∃ m', moveLoop Z s stays relink n m fix cur = some m' ∧ SameData Z m.heap m'.heap ∧
      Rep (links Z m') (links Z m' (.child s cur)) (cut s q t).1 ∧
      Rep (links Z m') (links Z m' fix) (cut s q t).2 ∧
      ∀ e, e ≠ .child s cur → e ≠ fix → ¬e.On (inorder t) → links Z m' e = links Z m e := by
  induction t using sideInduction s generalizing n m fix cur with
  | nil =>
      obtain ⟨n, rfl⟩ : ∃ k, n = k + 1 := ⟨n - 1, by omega⟩
      refine ⟨m, ?_, SameData.refl _, ?_, ?_, fun e _ _ _ => rfl⟩
      · unfold moveLoop
        rw [readEdge_eq (e := .child s cur) hcur]
        simp only [Option.bind_eq_bind, Option.bind_some, show links Z m (.child s cur) = none from hrep]
        rfl
      · rw [cut_nil]
        exact hrep
      · rw [cut_nil]
        exact hfix
  | node c x y ihx ihy =>
      obtain ⟨n, rfl⟩ : ∃ k, n = k + 1 := ⟨n - 1, by omega⟩
      obtain ⟨hroot, hx, hy⟩ := rep_mkNode.mp hrep
      have hperm := (perm_mkNode s c x y).nodup_iff.mp hnodup
      obtain ⟨hcxy, hxy⟩ := List.nodup_cons.mp hperm
      have hcx : c ∉ inorder x := fun h => hcxy (List.mem_append_left _ h)
      have hcy : c ∉ inorder y := fun h => hcxy (List.mem_append_right _ h)
      have hsubx : ∀ a ∈ inorder x, a ∈ inorder (mkNode s c x y) :=
        fun a ha => mem_mkNode.mpr (.inr (.inl ha))
      have hsuby : ∀ a ∈ inorder y, a ∈ inorder (mkNode s c x y) :=
        fun a ha => mem_mkNode.mpr (.inr (.inr ha))
      have hmc : c ∈ inorder (mkNode s c x y) := mem_mkNode.mpr (.inl rfl)
      have hcc : cur ≠ c := fun he => hcurt (he ▸ hmc)
      have hsize : x.numNodes < n ∧ y.numNodes < n := by
        have hlen := (perm_mkNode s c x y).length_eq
        simp only [List.length_cons, List.length_append, ZipTree.length_inorder] at hlen
        omega
      have hfixc : ∀ s', fix ≠ .child s' c := Edge.ne_child hfixt hmc
      have hfixx : ¬fix.On (inorder x) := Edge.not_on hfixt hsubx
      have hfixy : ¬fix.On (inorder y) := Edge.not_on hfixt hsuby
      unfold moveLoop
      rw [readEdge_eq (e := .child s cur) hcur]
      simp only [Option.bind_eq_bind, Option.bind_some, hroot, hstays m (SameData.refl _) c hmc]
      by_cases hq : q c = true
      · -- `c` stays: the walk goes on below it
        obtain ⟨m', hm', hsame, hkept, hmoved, hframe⟩ := ihx (n := n) (m := m) fix c
          (fun m' hs a ha => hstays m' hs a (hsubx a ha)) hx hfix
          (hfixc s) hfixx hcx (List.nodup_append.mp hxy).1
          (fun a ha => hlive a (hsubx a ha)) (hlive c hmc) hfixl hsize.1
        have hsame_y : ∀ s', ∀ a ∈ inorder y, links Z m' (.child s' a) = links Z m (.child s' a) := by
          intro s' a ha
          refine hframe _ (fun he => ?_) (Edge.ne_child hfixt (hsuby a ha) s').symm fun hax => ?_
          · cases he
            exact hcy ha
          · exact (List.nodup_append.mp hxy).2.2 a hax a ha rfl
        rw [cut_stays x y hq]
        refine ⟨m', ?_, hsame, rep_mkNode.mpr ⟨?_, hkept, ?_⟩, hmoved, fun e he1 he2 he3 => ?_⟩
        · rw [if_pos hq]
          exact hm'
        · rw [hframe _ (by simpa using hcc) (Ne.symm hne) fun h => hcurt (hsubx _ h)]
          exact hroot
        · rw [hframe _ (by simp) (hfixc _).symm hcx]
          exact hy.frame hsame_y
        · exact hframe e (Edge.ne_child he3 hmc s) he2 (Edge.not_on he3 hsubx)
      · -- `c` moves: its subtree on the other side takes its place below `cur`
        obtain ⟨m1, hm1, hs1, hfix1, hcur1, hnone1, hframe1⟩ :=
          hrelink m fix cur c hfixl hcur (hlive c hmc) hne
          (Edge.not_on hfixt fun a ha => List.mem_singleton.mp ha ▸ hmc) hcc
        have hkeep : ∀ s', ∀ a ∈ inorder (mkNode s c x y), a ≠ c →
            links Z m1 (.child s' a) = links Z m (.child s' a) := by
          intro s' a ha hac
          refine hframe1 _ (Edge.ne_child hfixt ha s').symm (fun he => ?_) (fun he => ?_)
          · cases he
            exact hcurt ha
          · cases he
            exact hac rfl
        have hy1 : Rep (links Z m1) (links Z m1 (.child s cur)) y := by
          rw [hcur1]
          exact hy.frame fun s' a ha => hkeep s' a (hsuby a ha) fun he => hcy (he ▸ ha)
        obtain ⟨m', hm', hsame, hkept, hmoved, hframe⟩ := ihy (n := n) (m := m1) (.child s.flip c) cur
          (fun m' hs a ha => hstays m' (hs1.trans hs) a (hsuby a ha)) hy1 hnone1
          (by simp) hcy (fun h => hcurt (hsuby _ h)) (List.nodup_append.mp hxy).2.1
          (fun a ha => hs1.live ▸ hlive a (hsuby a ha)) (hs1.live ▸ hcur)
          (Edge.Live.same (e := .child s.flip c) (hlive c hmc) hs1) hsize.2
        have hsame_x : ∀ s', ∀ a ∈ inorder x, links Z m' (.child s' a) = links Z m (.child s' a) := by
          intro s' a ha
          rw [hframe _ (fun he => ?_) (fun he => ?_) fun hay => ?_]
          · exact hkeep s' a (hsubx a ha) fun he => hcx (he ▸ ha)
          · cases he
            exact hcurt (hsubx _ ha)
          · cases he
            exact hcx ha
          · exact (List.nodup_append.mp hxy).2.2 a ha a hay rfl
        have hfixm' : links Z m' fix = some c := by
          rw [hframe _ hne (hfixc _) hfixy]
          exact hfix1
        have hcs : links Z m' (.child s c) = links Z m (.child s c) := by
          rw [hframe (.child s c) (by simpa using Ne.symm hcc) (by simp) hcy]
          exact hframe1 _ (hfixc s).symm (by simpa using Ne.symm hcc) (by simp)
        rw [cut_moves x y hq]
        refine ⟨m', ?_, hs1.trans hsame, hkept, rep_mkNode.mpr ⟨hfixm', hmoved, ?_⟩, fun e he1 he2 he3 => ?_⟩
        · rw [if_neg hq]
          simp only [hm1, Option.bind_some]
          exact hm'
        · rw [show s.flip.flip = s by cases s <;> rfl, hcs]
          exact hx.frame hsame_x
        · have hec : e ≠ .child s.flip c := Edge.ne_child he3 hmc _
          rw [hframe e he1 hec (Edge.not_on he3 hsuby)]
          exact hframe1 e he2 he1 hec

end Open62541
end Esp32Probes
