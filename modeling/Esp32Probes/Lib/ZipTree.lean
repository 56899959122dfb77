import Mathlib.Data.Tree.Basic
import Mathlib.Data.List.Sort
import Mathlib.Order.Defs.LinearOrder
import Mathlib.Tactic.SplitIfs

/-!
# `Lib.ZipTree` — search trees whose shape is fixed by a rank

A zip tree is a search tree on a key that is at the same time heap ordered on a rank. With injective keys and
ranks there is exactly one such tree for a set of elements, so the operations are specified by what they do
to the in-order list alone: two ways to reach the same elements reach the same tree.

## Contents
- **Lists and heaps.** `inorder`, `Heaped`, `IsZip`, and `IsZip.ext`: equal in-order lists, equal trees.
- **Split and zip.** `split` cuts a tree at a predicate, `zip` joins two trees; `zip_split` undoes the cut.
- **Insertion and removal.** `insert`, `remove`, and what they do to the list.
- **Building.** `build` makes the zip tree of a list; `build_inorder`: every zip tree is the one of its list.
-/

namespace ZipTree

variable {α κ ρ : Type*}

/-! ## In-order lists and heap order -/

/-- The elements from left to right. -/
def inorder : BinaryTree α → List α
  | .nil => []
  | .node a l r => inorder l ++ a :: inorder r

@[simp] theorem inorder_nil : inorder (.nil : BinaryTree α) = [] := rfl

@[simp] theorem inorder_node (a : α) (l r : BinaryTree α) :
    inorder (.node a l r) = inorder l ++ a :: inorder r := rfl

/-- The list has one entry for each node. -/
theorem length_inorder (t : BinaryTree α) : (inorder t).length = t.numNodes := by
  induction t with
  | nil => rfl
  | node a l r ihl ihr =>
      simp only [inorder_node, List.length_append, List.length_cons, BinaryTree.numNodes, ihl, ihr]
      omega

/-- A tree is at most as high as it has nodes. -/
theorem height_le_numNodes (t : BinaryTree α) : t.height ≤ t.numNodes := by
  induction t with
  | nil => exact Nat.le_refl 0
  | node a l r ihl ihr =>
      simp only [BinaryTree.height, BinaryTree.numNodes]
      omega

theorem nodup_left {a : α} {l r : BinaryTree α} (h : (inorder (.node a l r)).Nodup) : (inorder l).Nodup :=
  (List.nodup_append.mp h).1

theorem nodup_right {a : α} {l r : BinaryTree α} (h : (inorder (.node a l r)).Nodup) : (inorder r).Nodup :=
  (List.nodup_cons.mp (List.nodup_append.mp h).2.1).2

theorem not_mem_left {a : α} {l r : BinaryTree α} (h : (inorder (.node a l r)).Nodup) : a ∉ inorder l :=
  fun ha => (List.nodup_append.mp h).2.2 a ha a List.mem_cons_self rfl

theorem not_mem_right {a : α} {l r : BinaryTree α} (h : (inorder (.node a l r)).Nodup) : a ∉ inorder r :=
  (List.nodup_cons.mp (List.nodup_append.mp h).2.1).1

/-- The two subtrees have no element in common. -/
theorem not_mem_right_of_left {a b : α} {l r : BinaryTree α} (h : (inorder (.node a l r)).Nodup)
    (hb : b ∈ inorder l) : b ∉ inorder r :=
  fun hr => (List.nodup_append.mp h).2.2 b hb b (List.mem_cons_of_mem _ hr) rfl

section Heap

variable [LT ρ]

/-- Every element has a higher rank than the elements below it. -/
def Heaped (rank : α → ρ) : BinaryTree α → Prop
  | .nil => True
  | .node a l r =>
    (∀ b ∈ inorder l, rank b < rank a) ∧ (∀ b ∈ inorder r, rank b < rank a) ∧ Heaped rank l ∧ Heaped rank r

end Heap

variable [LinearOrder κ] [LinearOrder ρ]

/-- The trees of this module: sorted on the key from left to right, heap ordered on the rank. -/
structure IsZip (key : α → κ) (rank : α → ρ) (t : BinaryTree α) : Prop where
  sorted : (inorder t).Pairwise (fun a b => key a < key b)
  heaped : Heaped rank t

/-- A list that is sorted by a key has no repetitions. -/
theorem nodup_of_sorted {key : α → κ} {l : List α} (h : l.Pairwise (fun a b => key a < key b)) : l.Nodup :=
  h.imp fun hlt he => absurd hlt (by rw [he]; exact lt_irrefl _)

variable {key : α → κ} {rank : α → ρ}

theorem IsZip.nodup {t : BinaryTree α} (h : IsZip key rank t) : (inorder t).Nodup := nodup_of_sorted h.sorted

theorem isZip_nil : IsZip key rank (.nil : BinaryTree α) := ⟨List.Pairwise.nil, trivial⟩

/-- A subtree of a zip tree is one. -/
theorem IsZip.left {a : α} {l r : BinaryTree α} (h : IsZip key rank (.node a l r)) : IsZip key rank l :=
  ⟨(List.pairwise_append.mp h.sorted).1, h.heaped.2.2.1⟩

theorem IsZip.right {a : α} {l r : BinaryTree α} (h : IsZip key rank (.node a l r)) : IsZip key rank r :=
  ⟨(List.pairwise_cons.mp (List.pairwise_append.mp h.sorted).2.1).2, h.heaped.2.2.2⟩

/-- What hangs to the left of the root has a smaller key. -/
theorem IsZip.lt_root {a b : α} {l r : BinaryTree α} (h : IsZip key rank (.node a l r)) (hb : b ∈ inorder l) :
    key b < key a :=
  (List.pairwise_append.mp h.sorted).2.2 b hb a List.mem_cons_self

/-- What hangs to the right of the root has a larger key. -/
theorem IsZip.root_lt {a b : α} {l r : BinaryTree α} (h : IsZip key rank (.node a l r)) (hb : b ∈ inorder r) :
    key a < key b :=
  (List.pairwise_cons.mp (List.pairwise_append.mp h.sorted).2.1).1 b hb

/-- Keys and ranks matter only on the elements of the tree. -/
theorem IsZip.congr {key' : α → κ} {rank' : α → ρ} {t : BinaryTree α} (h : IsZip key rank t)
    (hk : ∀ a ∈ inorder t, key' a = key a) (hr : ∀ a ∈ inorder t, rank' a = rank a) : IsZip key' rank' t := by
  refine ⟨h.sorted.imp_of_mem fun {a b} ha hb hlt => by rw [hk a ha, hk b hb]; exact hlt, ?_⟩
  have hheap := h.heaped
  clear h hk
  induction t with
  | nil => trivial
  | node a l r ihl ihr =>
      have hl : ∀ b ∈ inorder l, rank' b = rank b := fun b hb => hr b (List.mem_append_left _ hb)
      have ha : rank' a = rank a := hr a (List.mem_append_right _ List.mem_cons_self)
      have hr' : ∀ b ∈ inorder r, rank' b = rank b := fun b hb =>
        hr b (List.mem_append_right _ (List.mem_cons_of_mem _ hb))
      obtain ⟨h1, h2, h3, h4⟩ := hheap
      refine ⟨fun b hb => ?_, fun b hb => ?_, ihl hl h3, ihr hr' h4⟩
      · rw [hl b hb, ha]
        exact h1 b hb
      · rw [hr' b hb, ha]
        exact h2 b hb

/-- The root is the one element that outranks all others. -/
theorem root_unique {a b : α} {l r l' r' : BinaryTree α} (h : Heaped rank (.node a l r))
    (h' : Heaped rank (.node b l' r')) (he : inorder (.node a l r) = inorder (.node b l' r')) : a = b := by
  have ha : a ∈ inorder (.node b l' r') := he ▸ List.mem_append_right _ List.mem_cons_self
  have hb : b ∈ inorder (.node a l r) := he ▸ List.mem_append_right _ List.mem_cons_self
  have habove : a = b ∨ rank a < rank b := by
    rcases List.mem_append.mp ha with h1 | h1
    · exact .inr (h'.1 a h1)
    · rcases List.mem_cons.mp h1 with h2 | h2
      · exact .inl h2
      · exact .inr (h'.2.1 a h2)
  have hbelow : a = b ∨ rank b < rank a := by
    rcases List.mem_append.mp hb with h1 | h1
    · exact .inr (h.1 b h1)
    · rcases List.mem_cons.mp h1 with h2 | h2
      · exact .inl h2.symm
      · exact .inr (h.2.1 b h2)
  rcases habove with heq | hab
  · exact heq
  · rcases hbelow with heq | hba
    · exact heq
    · exact absurd hab (lt_asymm hba)

/-- A heap-ordered tree is determined by its list: the root is the element of the greatest rank. -/
theorem eq_of_inorder_eq {t t' : BinaryTree α} (h : Heaped rank t) (h' : Heaped rank t')
    (hn : (inorder t).Nodup) (he : inorder t = inorder t') : t = t' := by
  induction t generalizing t' with
  | nil =>
      cases t' with
      | nil => rfl
      | node b l' r' => simp at he
  | node a l r ihl ihr =>
      cases t' with
      | nil => simp at he
      | node b l' r' =>
          have hab : a = b := root_unique h h' he
          subst hab
          obtain ⟨hll, -, hrr⟩ := (List.append_cons_inj_of_notMem (not_mem_left hn) (not_mem_right hn)).mp he
          rw [ihl h.2.2.1 h'.2.2.1 (nodup_left hn) hll, ihr h.2.2.2 h'.2.2.2 (nodup_right hn) hrr]

/-- **The elements fix the tree.** -/
theorem IsZip.ext {t t' : BinaryTree α} (h : IsZip key rank t) (h' : IsZip key rank t')
    (he : (inorder t).Perm (inorder t')) : t = t' := by
  have hlist : inorder t = inorder t' := by
    refine he.eq_of_pairwise (fun a b _ _ hab hba => absurd hab (lt_asymm hba)) h.sorted h'.sorted
  exact eq_of_inorder_eq h.heaped h'.heaped h.nodup hlist

/-! ## Split and zip -/

/-- Cut a tree in two: the elements that satisfy `p` go to the left. -/
def split (p : α → Bool) : BinaryTree α → BinaryTree α × BinaryTree α
  | .nil => (.nil, .nil)
  | .node a l r =>
    if p a then (.node a l (split p r).1, (split p r).2) else ((split p l).1, .node a (split p l).2 r)

/-- A root that goes to the left takes its left subtree with it. -/
theorem split_of_pos {p : α → Bool} {a : α} (l r : BinaryTree α) (h : p a = true) :
    split p (.node a l r) = (.node a l (split p r).1, (split p r).2) := if_pos h

/-- A root that goes to the right takes its right subtree with it. -/
theorem split_of_neg {p : α → Bool} {a : α} (l r : BinaryTree α) (h : ¬p a = true) :
    split p (.node a l r) = ((split p l).1, .node a (split p l).2 r) := if_neg h

/-- The cut depends on the predicate only at the elements of the tree. -/
theorem split_congr {p q : α → Bool} {t : BinaryTree α} (h : ∀ a ∈ inorder t, p a = q a) :
    split p t = split q t := by
  induction t with
  | nil => rfl
  | node a l r ihl ihr =>
      have ha : p a = q a := h a (List.mem_append_right _ List.mem_cons_self)
      unfold split
      rw [ha, ihl fun b hb => h b (List.mem_append_left _ hb),
        ihr fun b hb => h b (List.mem_append_right _ (List.mem_cons_of_mem _ hb))]

/-- The cut loses nothing and repeats nothing. -/
theorem perm_split (p : α → Bool) (t : BinaryTree α) :
    (inorder (split p t).1 ++ inorder (split p t).2).Perm (inorder t) := by
  induction t with
  | nil => exact .nil
  | node a l r ihl ihr =>
      by_cases ha : p a = true
      · simp only [split_of_pos l r ha, inorder_node, List.append_assoc, List.cons_append]
        exact (ihr.cons a).append_left _
      · simp only [split_of_neg l r ha, inorder_node]
        rw [← List.append_assoc]
        exact ihl.append_right _

theorem mem_split (p : α → Bool) (t : BinaryTree α) (a : α) :
    (a ∈ inorder (split p t).1 ∨ a ∈ inorder (split p t).2) ↔ a ∈ inorder t := by
  rw [← List.mem_append]
  exact (perm_split p t).mem_iff

/-- Both parts are heap ordered. -/
theorem heaped_split (p : α → Bool) {t : BinaryTree α} (h : Heaped rank t) :
    Heaped rank (split p t).1 ∧ Heaped rank (split p t).2 := by
  induction t with
  | nil => exact ⟨trivial, trivial⟩
  | node a l r ihl ihr =>
      obtain ⟨h1, h2, h3, h4⟩ := h
      by_cases ha : p a = true
      · rw [split_of_pos l r ha]
        exact ⟨⟨h1, fun b hb => h2 b ((mem_split p r b).mp (.inl hb)), h3, (ihr h4).1⟩, (ihr h4).2⟩
      · rw [split_of_neg l r ha]
        exact ⟨(ihl h3).1, fun b hb => h1 b ((mem_split p l b).mp (.inr hb)), h2, (ihl h3).2, h4⟩

/-- Whatever stands left of an element that satisfies `p` satisfies it too. -/
def Cuts (p : α → Bool) (l : List α) : Prop := l.Pairwise (fun a b => p b = true → p a = true)

/-- A predicate that is closed downwards in the key cuts a sorted list. -/
theorem cuts_of_sorted {p : α → Bool} {l : List α} (hs : l.Pairwise (fun a b => key a < key b))
    (hp : ∀ a b, key a < key b → p b = true → p a = true) : Cuts p l :=
  hs.imp fun hlt => hp _ _ hlt

/-- The list is what is in front of the cut, followed by what is behind it. -/
theorem filter_append_filter_not {p : α → Bool} {l : List α} (h : Cuts p l) :
    l.filter p ++ l.filter (fun a => !p a) = l := by
  induction l with
  | nil => rfl
  | cons a l ih =>
      obtain ⟨ha, hl⟩ := List.pairwise_cons.mp h
      by_cases hpa : p a = true
      · simp [hpa, ih hl]
      · have hnone : ∀ b ∈ l, ¬p b = true := fun b hb hpb => hpa (ha b hb hpb)
        have hdrop : l.filter p = [] := List.filter_eq_nil_iff.mpr hnone
        have hkeep : l.filter (fun b => !p b) = l := List.filter_eq_self.mpr fun b hb => by simp [hnone b hb]
        simp [hpa, hdrop, hkeep]

/-- At a cut the two halves hold what satisfies `p` and what does not, in the order of the tree. -/
theorem inorder_split {p : α → Bool} {t : BinaryTree α} (h : Cuts p (inorder t)) :
    inorder (split p t).1 = (inorder t).filter p ∧
      inorder (split p t).2 = (inorder t).filter (fun a => !p a) := by
  induction t with
  | nil => exact ⟨rfl, rfl⟩
  | node a l r ihl ihr =>
      obtain ⟨hl, har, hlr⟩ := List.pairwise_append.mp h
      obtain ⟨ha, hr⟩ := List.pairwise_cons.mp har
      by_cases hpa : p a = true
      · -- everything left of the root satisfies `p`, so the cut is in the right subtree
        have hall : ∀ b ∈ inorder l, p b = true := fun b hb => hlr b hb a List.mem_cons_self hpa
        have hkeep : (inorder l).filter p = inorder l := List.filter_eq_self.mpr hall
        have hdrop : (inorder l).filter (fun b => !p b) = [] :=
          List.filter_eq_nil_iff.mpr fun b hb => by simp [hall b hb]
        rw [split_of_pos l r hpa]
        simp [hpa, hkeep, hdrop, ihr hr]
      · have hnone : ∀ b ∈ inorder r, ¬p b = true := fun b hb hpb => hpa (ha b hb hpb)
        have hdrop : (inorder r).filter p = [] := List.filter_eq_nil_iff.mpr hnone
        have hkeep : (inorder r).filter (fun b => !p b) = inorder r :=
          List.filter_eq_self.mpr fun b hb => by simp [hnone b hb]
        rw [split_of_neg l r hpa]
        simp [hpa, hkeep, hdrop, ihl hl]

/-- Both parts of a zip tree are zip trees. -/
theorem IsZip.split {p : α → Bool} {t : BinaryTree α} (h : IsZip key rank t) (hc : Cuts p (inorder t)) :
    IsZip key rank (split p t).1 ∧ IsZip key rank (split p t).2 := by
  obtain ⟨h1, h2⟩ := inorder_split hc
  obtain ⟨h3, h4⟩ := heaped_split p h.heaped
  exact ⟨⟨h1 ▸ h.sorted.filter _, h3⟩, ⟨h2 ▸ h.sorted.filter _, h4⟩⟩

/-- Join two trees, the elements of the first to the left of those of the second. -/
def zip (rank : α → ρ) : BinaryTree α → BinaryTree α → BinaryTree α
  | .nil, r => r
  | .node a la ra, .nil => .node a la ra
  | .node a la ra, .node b lb rb =>
    if rank a < rank b then .node b (zip rank (.node a la ra) lb) rb
    else .node a la (zip rank ra (.node b lb rb))
termination_by l r => l.numNodes + r.numNodes
decreasing_by
  all_goals simp only [BinaryTree.numNodes]; omega

@[simp] theorem zip_nil_left (rank : α → ρ) (r : BinaryTree α) : zip rank .nil r = r := by rw [zip]

@[simp] theorem zip_nil_right (rank : α → ρ) (l : BinaryTree α) : zip rank l .nil = l := by
  cases l with
  | nil => rw [zip]
  | node a la ra => rw [zip]

/-- Joining two trees appends their lists. -/
theorem inorder_zip (rank : α → ρ) (l r : BinaryTree α) :
    inorder (zip rank l r) = inorder l ++ inorder r := by
  induction l, r using zip.induct rank with
  | case1 r => simp
  | case2 a la ra => simp
  | case3 a la ra b lb rb hlt ih =>
      rw [zip, if_pos hlt, inorder_node, ih]
      simp
  | case4 a la ra b lb rb hlt ih =>
      rw [zip, if_neg hlt, inorder_node, ih]
      simp

/-- Of the two roots the one of greater rank becomes the root, so the heap order is kept. -/
theorem heaped_zip {l r : BinaryTree α} (hl : Heaped rank l) (hr : Heaped rank r)
    (hne : ∀ a ∈ inorder l, ∀ b ∈ inorder r, rank a ≠ rank b) : Heaped rank (zip rank l r) := by
  induction l, r using zip.induct rank with
  | case1 r => simpa using hr
  | case2 a la ra => simpa using hl
  | case3 a la ra b lb rb hlt ih =>
      rw [zip, if_pos hlt]
      have hsub : ∀ c ∈ inorder (zip rank (.node a la ra) lb), rank c < rank b := by
        intro c hc
        rw [inorder_zip] at hc
        rcases List.mem_append.mp hc with h1 | h1
        · rcases List.mem_append.mp h1 with h2 | h2
          · exact lt_trans (hl.1 c h2) hlt
          · rcases List.mem_cons.mp h2 with h3 | h3
            · exact h3 ▸ hlt
            · exact lt_trans (hl.2.1 c h3) hlt
        · exact hr.1 c h1
      exact ⟨hsub, hr.2.1, ih hl hr.2.2.1 fun c hc d hd => hne c hc d (List.mem_append_left _ hd), hr.2.2.2⟩
  | case4 a la ra b lb rb hlt ih =>
      rw [zip, if_neg hlt]
      have hba : rank b < rank a := by
        refine lt_of_le_of_ne (not_lt.mp hlt) (Ne.symm ?_)
        exact hne a (List.mem_append_right _ List.mem_cons_self) b
          (List.mem_append_right _ List.mem_cons_self)
      have hsub : ∀ c ∈ inorder (zip rank ra (.node b lb rb)), rank c < rank a := by
        intro c hc
        rw [inorder_zip] at hc
        rcases List.mem_append.mp hc with h1 | h1
        · exact hl.2.1 c h1
        · rcases List.mem_append.mp h1 with h2 | h2
          · exact lt_trans (hr.1 c h2) hba
          · rcases List.mem_cons.mp h2 with h3 | h3
            · exact h3 ▸ hba
            · exact lt_trans (hr.2.1 c h3) hba
      exact ⟨hl.1, hsub, hl.2.2.1,
        ih hl.2.2.2 hr fun c hc => hne c (List.mem_append_right _ (List.mem_cons_of_mem _ hc))⟩

/-- Zip trees with smaller and larger keys join to a zip tree. -/
theorem IsZip.zip {l r : BinaryTree α} (hl : IsZip key rank l) (hr : IsZip key rank r)
    (hlt : ∀ a ∈ inorder l, ∀ b ∈ inorder r, key a < key b)
    (hne : ∀ a ∈ inorder l, ∀ b ∈ inorder r, rank a ≠ rank b) : IsZip key rank (zip rank l r) := by
  refine ⟨?_, heaped_zip hl.heaped hr.heaped hne⟩
  rw [inorder_zip]
  exact List.pairwise_append.mpr ⟨hl.sorted, hr.sorted, hlt⟩

/-- What is cut apart is joined again by `zip`. -/
theorem zip_split {p : α → Bool} {t : BinaryTree α} (h : IsZip key rank t) (hr : rank.Injective)
    (hc : Cuts p (inorder t)) : zip rank (split p t).1 (split p t).2 = t := by
  obtain ⟨h1, h2⟩ := h.split hc
  have hdisjoint := (List.nodup_append.mp ((perm_split p t).nodup_iff.mpr h.nodup)).2.2
  refine eq_of_inorder_eq (heaped_zip h1.heaped h2.heaped fun a ha b hb he => ?_) h.heaped ?_ ?_
  · exact hdisjoint a ha b hb (hr he)
  · rw [inorder_zip]
    exact (perm_split p t).nodup_iff.mpr h.nodup
  · obtain ⟨h3, h4⟩ := inorder_split hc
    rw [inorder_zip, h3, h4]
    exact filter_append_filter_not hc

/-! ## Insertion and removal -/

/-- Insert an element: below everything of a higher rank on its search path, above what remains there,
    which is split at its key. -/
def insert (key : α → κ) (rank : α → ρ) (x : α) : BinaryTree α → BinaryTree α
  | .nil => .node x .nil .nil
  | .node a l r =>
    if rank a < rank x then
      .node x (split (fun b => decide (key b < key x)) (.node a l r)).1
        (split (fun b => decide (key b < key x)) (.node a l r)).2
    else if key a < key x then .node a l (insert key rank x r)
    else .node a (insert key rank x l) r

/-- Insertion adds the element to the list, somewhere. -/
theorem perm_insert (key : α → κ) (rank : α → ρ) (x : α) (t : BinaryTree α) :
    (inorder (insert key rank x t)).Perm (x :: inorder t) := by
  induction t with
  | nil => exact .refl _
  | node a l r ihl ihr =>
      unfold insert
      split_ifs with hrank hkey
      · exact List.perm_middle.trans ((perm_split _ _).cons x)
      · calc (inorder l ++ a :: inorder (insert key rank x r)).Perm (inorder l ++ a :: x :: inorder r) :=
              (ihr.cons a).append_left _
          _ |>.Perm (inorder l ++ x :: a :: inorder r) := (List.Perm.swap _ _ _).append_left _
          _ |>.Perm (x :: (inorder l ++ a :: inorder r)) := List.perm_middle
      · exact ihl.append_right _

theorem mem_insert (key : α → κ) (rank : α → ρ) (x a : α) (t : BinaryTree α) :
    a ∈ inorder (insert key rank x t) ↔ a = x ∨ a ∈ inorder t := by
  rw [(perm_insert key rank x t).mem_iff, List.mem_cons]

/-- Insertion of an element with a new key and a new rank keeps the zip tree. -/
theorem IsZip.insert {t : BinaryTree α} (h : IsZip key rank t) {x : α} (hk : ∀ a ∈ inorder t, key a ≠ key x)
    (hr : ∀ a ∈ inorder t, rank a ≠ rank x) : IsZip key rank (insert key rank x t) := by
  induction t with
  | nil => exact ⟨List.pairwise_singleton _ _, by simp, by simp, trivial, trivial⟩
  | node a l r ihl ihr =>
      have hml : ∀ b ∈ inorder l, b ∈ inorder (.node a l r) := fun b hb => List.mem_append_left _ hb
      have hma : a ∈ inorder (.node a l r) := List.mem_append_right _ List.mem_cons_self
      have hmr : ∀ b ∈ inorder r, b ∈ inorder (.node a l r) := fun b hb =>
        List.mem_append_right _ (List.mem_cons_of_mem _ hb)
      unfold ZipTree.insert
      split_ifs with hrank hkey
      · -- the elements on either side of `x` come from the split at its key
        have hcut : Cuts (fun b => decide (key b < key x)) (inorder (.node a l r)) :=
          cuts_of_sorted h.sorted fun b c hbc hc => by simpa using lt_trans hbc (by simpa using hc)
        obtain ⟨hlo, hhi⟩ := h.split hcut
        obtain ⟨hlo', hhi'⟩ := inorder_split hcut
        have hbelow : ∀ b ∈ inorder (.node a l r), rank b < rank x := by
          intro b hb
          rcases List.mem_append.mp hb with h1 | h1
          · exact lt_trans (h.heaped.1 b h1) hrank
          · rcases List.mem_cons.mp h1 with h2 | h2
            · exact h2 ▸ hrank
            · exact lt_trans (h.heaped.2.1 b h2) hrank
        refine ⟨List.pairwise_append.mpr ⟨hlo.sorted, List.pairwise_cons.mpr ⟨?_, hhi.sorted⟩, ?_⟩, ?_⟩
        · intro b hb
          rw [hhi', List.mem_filter] at hb
          have hle : key x ≤ key b := by simpa using hb.2
          exact lt_of_le_of_ne hle (hk b hb.1).symm
        · intro b hb c hc
          rw [hlo', List.mem_filter] at hb
          have hbx : key b < key x := by simpa using hb.2
          rcases List.mem_cons.mp hc with hcx | hc
          · exact hcx ▸ hbx
          · rw [hhi', List.mem_filter] at hc
            exact lt_of_lt_of_le hbx (by simpa using hc.2)
        · exact ⟨fun b hb => hbelow b ((mem_split _ _ b).mp (.inl hb)),
            fun b hb => hbelow b ((mem_split _ _ b).mp (.inr hb)), hlo.heaped, hhi.heaped⟩
      · have hright := ihr h.right (fun b hb => hk b (hmr b hb)) fun b hb => hr b (hmr b hb)
        refine ⟨List.pairwise_append.mpr ⟨h.left.sorted, List.pairwise_cons.mpr ⟨?_, hright.sorted⟩, ?_⟩, ?_⟩
        · intro b hb
          rcases (mem_insert key rank x b r).mp hb with hbx | hb
          · exact hbx ▸ hkey
          · exact h.root_lt hb
        · intro b hb c hc
          rcases List.mem_cons.mp hc with hca | hc
          · exact hca ▸ h.lt_root hb
          · rcases (mem_insert key rank x c r).mp hc with hcx | hc
            · exact hcx ▸ lt_trans (h.lt_root hb) hkey
            · exact lt_trans (h.lt_root hb) (h.root_lt hc)
        · refine ⟨h.heaped.1, fun b hb => ?_, h.heaped.2.2.1, hright.heaped⟩
          rcases (mem_insert key rank x b r).mp hb with hbx | hb
          · exact hbx ▸ lt_of_le_of_ne (not_lt.mp hrank) (hr a hma).symm
          · exact h.heaped.2.1 b hb
      · have hleft := ihl h.left (fun b hb => hk b (hml b hb)) fun b hb => hr b (hml b hb)
        have hkey' : key x < key a := lt_of_le_of_ne (not_lt.mp hkey) (hk a hma).symm
        refine ⟨List.pairwise_append.mpr ⟨hleft.sorted, (List.pairwise_append.mp h.sorted).2.1, ?_⟩, ?_⟩
        · intro b hb c hc
          rcases (mem_insert key rank x b l).mp hb with hbx | hb
          · rcases List.mem_cons.mp hc with hca | hc
            · rw [hbx, hca]
              exact hkey'
            · exact hbx ▸ lt_trans hkey' (h.root_lt hc)
          · exact (List.pairwise_append.mp h.sorted).2.2 b hb c hc
        · refine ⟨fun b hb => ?_, h.heaped.2.1, hleft.heaped, h.heaped.2.2.2⟩
          rcases (mem_insert key rank x b l).mp hb with hbx | hb
          · exact hbx ▸ lt_of_le_of_ne (not_lt.mp hrank) (hr a hma).symm
          · exact h.heaped.1 b hb

/-- Remove an element: its two subtrees are zipped in its place. -/
def remove (key : α → κ) (rank : α → ρ) (x : α) : BinaryTree α → BinaryTree α
  | .nil => .nil
  | .node a l r =>
    if key x = key a then zip rank l r
    else if key x < key a then .node a (remove key rank x l) r
    else .node a l (remove key rank x r)

/-- Removal filters the key out of the list. -/
theorem inorder_remove {t : BinaryTree α} (h : IsZip key rank t) (x : α) :
    inorder (remove key rank x t) = (inorder t).filter (fun b => decide (key b ≠ key x)) := by
  induction t with
  | nil => rfl
  | node a l r ihl ihr =>
      have hkeepl : ¬key x < key a → (inorder l).filter (fun b => decide (key b ≠ key x)) = inorder l := by
        intro hge
        refine List.filter_eq_self.mpr fun b hb => ?_
        exact decide_eq_true (ne_of_lt (lt_of_lt_of_le (h.lt_root hb) (not_lt.mp hge)))
      have hkeepr : ¬key a < key x → (inorder r).filter (fun b => decide (key b ≠ key x)) = inorder r := by
        intro hge
        refine List.filter_eq_self.mpr fun b hb => ?_
        exact decide_eq_true (ne_of_gt (lt_of_le_of_lt (not_lt.mp hge) (h.root_lt hb)))
      unfold remove
      split_ifs with heq hlt
      · rw [inorder_zip, inorder_node, List.filter_append, hkeepl (by rw [heq]; exact lt_irrefl _),
          List.filter_cons_of_neg (by simp [heq]), hkeepr (by rw [heq]; exact lt_irrefl _)]
      · rw [inorder_node, inorder_node, ihl h.left, List.filter_append,
          List.filter_cons_of_pos (by simpa using Ne.symm heq), hkeepr (lt_asymm hlt)]
      · rw [inorder_node, inorder_node, ihr h.right, List.filter_append,
          List.filter_cons_of_pos (by simpa using Ne.symm heq), hkeepl hlt]

/-- Removal keeps the zip tree. -/
theorem IsZip.remove {t : BinaryTree α} (h : IsZip key rank t) (hr : rank.Injective) (x : α) :
    IsZip key rank (remove key rank x t) := by
  refine ⟨inorder_remove h x ▸ h.sorted.filter _, ?_⟩
  induction t with
  | nil => trivial
  | node a l r ihl ihr =>
      have hsubl : ∀ b ∈ inorder (ZipTree.remove key rank x l), b ∈ inorder l := fun b hb =>
        (List.mem_filter.mp (inorder_remove h.left x ▸ hb)).1
      have hsubr : ∀ b ∈ inorder (ZipTree.remove key rank x r), b ∈ inorder r := fun b hb =>
        (List.mem_filter.mp (inorder_remove h.right x ▸ hb)).1
      unfold ZipTree.remove
      split_ifs with heq hlt
      · refine heaped_zip h.heaped.2.2.1 h.heaped.2.2.2 fun b hb c hc he => ?_
        exact not_mem_right_of_left h.nodup hb (hr he ▸ hc)
      · exact ⟨fun b hb => h.heaped.1 b (hsubl b hb), h.heaped.2.1, ihl h.left, h.heaped.2.2.2⟩
      · exact ⟨h.heaped.1, fun b hb => h.heaped.2.1 b (hsubr b hb), h.heaped.2.2.1, ihr h.right⟩

/-- With injective keys it is the element itself that is removed. -/
theorem mem_remove {t : BinaryTree α} (h : IsZip key rank t) (hk : key.Injective) (x a : α) :
    a ∈ inorder (remove key rank x t) ↔ a ∈ inorder t ∧ a ≠ x := by
  rw [inorder_remove h, List.mem_filter, decide_eq_true_eq, hk.ne_iff]

/-! ## Building -/

/-- The zip tree of a list. -/
def build (key : α → κ) (rank : α → ρ) (l : List α) : BinaryTree α := l.foldr (insert key rank) .nil

/-- The tree of a list has the elements of the list. -/
theorem perm_build (key : α → κ) (rank : α → ρ) (l : List α) : (inorder (build key rank l)).Perm l := by
  induction l with
  | nil => exact .nil
  | cons a l ih => exact (perm_insert key rank a _).trans (ih.cons a)

/-- The tree of a list with different keys and different ranks is a zip tree. -/
theorem isZip_build {l : List α} (hk : l.Pairwise fun a b => key a ≠ key b)
    (hr : l.Pairwise fun a b => rank a ≠ rank b) : IsZip key rank (build key rank l) := by
  induction l with
  | nil => exact isZip_nil
  | cons a l ih =>
      obtain ⟨hka, hkl⟩ := List.pairwise_cons.mp hk
      obtain ⟨hra, hrl⟩ := List.pairwise_cons.mp hr
      have hmem : ∀ b ∈ inorder (build key rank l), b ∈ l := fun b hb => (perm_build key rank l).mem_iff.mp hb
      exact (ih hkl hrl).insert (fun b hb => (hka b (hmem b hb)).symm) fun b hb => (hra b (hmem b hb)).symm

/-- **A zip tree is the one built from its elements**, in whatever order they are listed. -/
theorem IsZip.eq_build {t : BinaryTree α} (h : IsZip key rank t) {l : List α} (hl : (inorder t).Perm l)
    (hr : l.Pairwise fun a b => rank a ≠ rank b) : t = build key rank l := by
  have hk : l.Pairwise fun a b => key a ≠ key b :=
    hl.pairwise (h.sorted.imp fun hlt => ne_of_lt hlt) Ne.symm
  exact h.ext (isZip_build hk hr) (hl.trans (perm_build key rank l).symm)

/-! ## Images -/

/-- The list of a relabelled tree. -/
theorem inorder_map {β : Type*} (f : α → β) (t : BinaryTree α) : inorder (t.map f) = (inorder t).map f := by
  induction t with
  | nil => rfl
  | node a l r ihl ihr =>
      rw [inorder_node, List.map_append, List.map_cons, ← ihl, ← ihr]
      rfl

/-- Relabelling that keeps keys and ranks keeps the zip tree. -/
theorem IsZip.map {β : Type*} {f : α → β} {key' : β → κ} {rank' : β → ρ} {t : BinaryTree α}
    (h : IsZip key rank t)
    (hk : ∀ a ∈ inorder t, key' (f a) = key a) (hr : ∀ a ∈ inorder t, rank' (f a) = rank a) :
    IsZip key' rank' (t.map f) := by
  constructor
  · rw [inorder_map, List.pairwise_map]
    exact h.sorted.imp_of_mem fun ha hb hlt => by rw [hk _ ha, hk _ hb]; exact hlt
  · have hheap := h.heaped
    clear h hk
    induction t with
    | nil => trivial
    | node a l r ihl ihr =>
        have hl : ∀ b ∈ inorder l, rank' (f b) = rank b := fun b hb => hr b (List.mem_append_left _ hb)
        have ha : rank' (f a) = rank a := hr a (List.mem_append_right _ List.mem_cons_self)
        have hr' : ∀ b ∈ inorder r, rank' (f b) = rank b := fun b hb =>
          hr b (List.mem_append_right _ (List.mem_cons_of_mem _ hb))
        obtain ⟨h1, h2, h3, h4⟩ := hheap
        refine ⟨fun b hb => ?_, fun b hb => ?_, ihl hl h3, ihr hr' h4⟩
        · change b ∈ inorder (l.map f) at hb
          rw [inorder_map, List.mem_map] at hb
          obtain ⟨c, hc, rfl⟩ := hb
          rw [hl c hc, ha]
          exact h1 c hc
        · change b ∈ inorder (r.map f) at hb
          rw [inorder_map, List.mem_map] at hb
          obtain ⟨c, hc, rfl⟩ := hb
          rw [hr' c hc, ha]
          exact h2 c hc

end ZipTree
