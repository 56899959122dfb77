import Mathlib.Data.List.Nodup

/-!
# `Lib.LateList` — linked lists whose links are written late

A singly linked list in memory that is extended at its tail in two steps: a writer first makes its node the
tail, and writes the link from the former tail to the node later. Between the two steps the list has a gap,
and there may be a gap at every link at the same time. `Chain` is the list with its gaps: `late a q` says
that a writer is about to write the link to `a` into the cell `q`.

## Contents
- **Layout.** `Layout`, the cell of each node and the values of a link; `final`, the cell of the last node.
- **Chains.** `Chain`, one `Linked` for each node: its link is written, or one writer is about to write it.
- **Rules.** `Chain.frame` (writes elsewhere), `Chain.snoc` (a new tail), `Chain.land` (a late link is
  written), `Chain.first` (what the first cell says).
- **Families.** `Family`, several lists without common cells, with the same rules, and `Family.advance` (the
  first node is taken off).
-/

namespace LateList

variable {κ α β : Type*}

/-! ## Layout -/

/-- The cell of a node holds the link to the next one: a reference to it, or null. -/
structure Layout (κ α β : Type*) where
  cell : α → κ
  ref  : α → β
  null : β

/-- The cell that holds the last link of the list that starts at the cell `p`. -/
def final (L : Layout κ α β) : κ → List α → κ
  | p, [] => p
  | _, a :: as => final L (L.cell a) as

/-- The cells of the list that starts at `p`. -/
def cells (L : Layout κ α β) (p : κ) (as : List α) : List κ := p :: as.map L.cell

variable {L : Layout κ α β}

@[simp] theorem final_nil (p : κ) : final L p [] = p := rfl

@[simp] theorem final_cons (p : κ) (a : α) (as : List α) : final L p (a :: as) = final L (L.cell a) as := rfl

@[simp] theorem final_snoc (p : κ) (as : List α) (a : α) : final L p (as ++ [a]) = L.cell a := by
  induction as generalizing p with
  | nil => rfl
  | cons b as ih => exact ih (L.cell b)

/-- The last cell of a list is one of its cells. -/
theorem final_mem (p : κ) (as : List α) : final L p as ∈ cells L p as := by
  induction as generalizing p with
  | nil => exact List.mem_cons_self
  | cons a as ih => exact List.mem_cons_of_mem _ (ih (L.cell a))

/-! ## Chains -/

/-- The link to `a` in the cell `p` is written and nobody writes one to `a`, or the cell is empty and the
    link is about to be written there, and nowhere else. -/
def Linked (L : Layout κ α β) (mem : κ → β) (late : α → κ → Prop) (p : κ) (a : α) : Prop :=
  (mem p = L.ref a ∧ ∀ q, ¬late a q) ∨ (mem p = L.null ∧ ∀ q, late a q ↔ q = p)

/-- The list of nodes that starts at the cell `p`. -/
def Chain (L : Layout κ α β) (mem : κ → β) (late : α → κ → Prop) : κ → List α → Prop
  | p, [] => mem p = L.null
  | p, a :: as => Linked L mem late p a ∧ Chain L mem late (L.cell a) as

variable {mem mem' : κ → β} {late late' : α → κ → Prop} {p q : κ} {a : α} {as : List α}

/-- A link depends on its own cell and on the late writers of its node only. -/
theorem Linked.frame (h : Linked L mem late p a) (hmem : mem' p = mem p) (hlate : ∀ q, late' a q ↔ late a q) :
    Linked L mem' late' p a := by
  unfold Linked at *
  simp only [hmem, hlate]
  exact h

/-- Writes to other cells, and writers of other nodes. -/
theorem Chain.frame (h : Chain L mem late p as) (hmem : ∀ q ∈ cells L p as, mem' q = mem q)
    (hlate : ∀ a ∈ as, ∀ q, late' a q ↔ late a q) : Chain L mem' late' p as := by
  induction as generalizing p with
  | nil => exact (hmem p List.mem_cons_self).trans h
  | cons a as ih =>
      obtain ⟨hlink, hrest⟩ := h
      refine ⟨hlink.frame (hmem p List.mem_cons_self) (hlate a List.mem_cons_self), ih hrest ?_ ?_⟩
      · intro q hq
        exact hmem q (List.mem_cons_of_mem _ hq)
      · intro b hb
        exact hlate b (List.mem_cons_of_mem _ hb)

/-- **A new tail**, whose link is still to be written. -/
theorem Chain.snoc (h : Chain L mem late p as) (hlate : ∀ q, late a q ↔ q = final L p as)
    (hnull : mem (L.cell a) = L.null) : Chain L mem late p (as ++ [a]) := by
  induction as generalizing p with
  | nil => exact ⟨.inr ⟨h, hlate⟩, hnull⟩
  | cons b as ih => exact ⟨h.1, ih h.2 hlate⟩

/-- Late links are written into cells of the list. -/
theorem Chain.late_mem (h : Chain L mem late p as) (ha : a ∈ as) (hq : late a q) : q ∈ cells L p as := by
  induction as generalizing p with
  | nil => cases ha
  | cons b as ih =>
      rcases List.mem_cons.mp ha with rfl | ha
      · rcases h.1 with ⟨-, hnone⟩ | ⟨-, hhere⟩
        · exact absurd hq (hnone q)
        · rw [(hhere q).mp hq]
          exact List.mem_cons_self
      · exact List.mem_cons_of_mem _ (ih h.2 ha)

/-- A cell that a late link is about to be written into is empty. -/
theorem Chain.late_null (h : Chain L mem late p as) (ha : a ∈ as) (hq : late a q) : mem q = L.null := by
  induction as generalizing p with
  | nil => cases ha
  | cons b as ih =>
      rcases List.mem_cons.mp ha with rfl | ha
      · rcases h.1 with ⟨-, hnone⟩ | ⟨hnull, hhere⟩
        · exact absurd hq (hnone q)
        · rw [(hhere q).mp hq]
          exact hnull
      · exact ih h.2 ha

/-- **A late link is written.** -/
theorem Chain.land (h : Chain L mem late p as) (hnodup : (cells L p as).Nodup) (ha : a ∈ as) (hq : late a q)
    (hwrite : mem' q = L.ref a) (hmem : ∀ c, c ≠ q → mem' c = mem c) (hdone : ∀ c, ¬late' a c)
    (hlate : ∀ b, b ≠ a → ∀ c, late' b c ↔ late b c) : Chain L mem' late' p as := by
  induction as generalizing p with
  | nil => cases ha
  | cons b as ih =>
      obtain ⟨hlink, hrest⟩ := h
      obtain ⟨hp, hcells⟩ := List.nodup_cons.mp hnodup
      rcases List.mem_cons.mp ha with rfl | ha
      · have hqp : q = p := by
          rcases hlink with ⟨-, hnone⟩ | ⟨-, hhere⟩
          · exact absurd hq (hnone q)
          · exact (hhere q).mp hq
        subst hqp
        refine ⟨.inl ⟨hwrite, hdone⟩, hrest.frame ?_ ?_⟩
        · intro c hc
          exact hmem c fun hcq => hp (hcq ▸ hc)
        · intro b hb
          refine hlate b ?_
          rintro rfl
          exact (List.nodup_cons.mp hcells).1 (List.mem_map_of_mem hb)
      · have hqp : p ≠ q := by
          rintro rfl
          exact hp (hrest.late_mem ha hq)
        have hba : b ≠ a := by
          rintro rfl
          exact (List.nodup_cons.mp hcells).1 (List.mem_map_of_mem ha)
        exact ⟨hlink.frame (hmem p hqp) (hlate b hba), ih hrest hcells ha⟩

/-- **The first cell**: empty if there is no node, or while the first link is late. -/
theorem Chain.first (h : Chain L mem late p as) (hp : mem p ≠ L.null) :
    ∃ a as', as = a :: as' ∧ mem p = L.ref a ∧ (∀ q, ¬late a q) ∧ Chain L mem late (L.cell a) as' := by
  cases as with
  | nil => exact absurd h hp
  | cons a as =>
      rcases h.1 with ⟨hlink, hnone⟩ | ⟨hnull, -⟩
      · exact ⟨a, as, rfl, hlink, hnone, h.2⟩
      · exact absurd hnull hp

/-- An empty first cell means that there is no node, or that the first link is late. -/
theorem Chain.first_null (h : Chain L mem late p as) (href : ∀ a, L.ref a ≠ L.null) (hp : mem p = L.null) :
    as = [] ∨ ∃ a as', as = a :: as' ∧ late a p := by
  cases as with
  | nil => exact .inl rfl
  | cons a as =>
      rcases h.1 with ⟨hlink, -⟩ | ⟨-, hhere⟩
      · exact absurd (hlink.symm.trans hp) (href a)
      · exact .inr ⟨a, as, rfl, (hhere p).mpr rfl⟩

/-! ## Families -/

/-- Several lists, each given by its first cell and its nodes, without common cells. -/
structure Family (L : Layout κ α β) (mem : κ → β) (late : α → κ → Prop) (segs : List (κ × List α)) :
    Prop where
  chain : ∀ sg ∈ segs, Chain L mem late sg.1 sg.2
  nodup : (segs.flatMap fun sg => cells L sg.1 sg.2).Nodup

variable {sg sg' : κ × List α} {segs segs' : List (κ × List α)}

/-- A family is a list without common cells with the others, and the family of the others. -/
theorem family_cons_iff : Family L mem late (sg :: segs) ↔ Chain L mem late sg.1 sg.2 ∧
    (cells L sg.1 sg.2).Nodup ∧
    (∀ q ∈ cells L sg.1 sg.2, ∀ sg' ∈ segs, q ∉ cells L sg'.1 sg'.2) ∧ Family L mem late segs := by
  constructor
  · rintro ⟨hchain, hnodup⟩
    rw [List.flatMap_cons, List.nodup_append] at hnodup
    obtain ⟨hfirst, hrest, hdisjoint⟩ := hnodup
    refine ⟨hchain sg List.mem_cons_self, hfirst, ?_, ?_, hrest⟩
    · intro q hq sg' hsg' hq'
      exact hdisjoint q hq q (List.mem_flatMap.mpr ⟨sg', hsg', hq'⟩) rfl
    · intro sg' hsg'
      exact hchain sg' (List.mem_cons_of_mem _ hsg')
  · rintro ⟨hchain, hfirst, hdisjoint, hrest⟩
    refine ⟨List.forall_mem_cons.mpr ⟨hchain, hrest.chain⟩, ?_⟩
    rw [List.flatMap_cons, List.nodup_append]
    refine ⟨hfirst, hrest.nodup, ?_⟩
    rintro q hq q' hq' rfl
    obtain ⟨sg', hsg', hq'⟩ := List.mem_flatMap.mp hq'
    exact hdisjoint q hq sg' hsg' hq'

/-- Writes to other cells keep a family. -/
theorem Family.frame (h : Family L mem late segs)
    (hmem : ∀ sg ∈ segs, ∀ q ∈ cells L sg.1 sg.2, mem' q = mem q)
    (hlate : ∀ sg ∈ segs, ∀ a ∈ sg.2, ∀ q, late' a q ↔ late a q) : Family L mem' late' segs := by
  refine ⟨?_, h.nodup⟩
  intro sg hsg
  exact (h.chain sg hsg).frame (hmem sg hsg) (hlate sg hsg)

theorem Family.perm (h : Family L mem late segs) (hp : segs.Perm segs') : Family L mem late segs' := by
  refine ⟨?_, ?_⟩
  · intro sg hsg
    exact h.chain sg (hp.mem_iff.mpr hsg)
  · exact (hp.flatMap_right _).nodup_iff.mp h.nodup

/-- Two lists that share a cell are the same. -/
theorem Family.eq_of_mem (h : Family L mem late segs) (hsg : sg ∈ segs) (hsg' : sg' ∈ segs)
    (hq : q ∈ cells L sg.1 sg.2) (hq' : q ∈ cells L sg'.1 sg'.2) : sg = sg' := by
  induction segs with
  | nil => cases hsg
  | cons first segs ih =>
      obtain ⟨-, -, hdisjoint, hrest⟩ := family_cons_iff.mp h
      rcases List.mem_cons.mp hsg with rfl | hin <;> rcases List.mem_cons.mp hsg' with rfl | hin'
      · rfl
      · exact absurd hq' (hdisjoint q hq sg' hin')
      · exact absurd hq (hdisjoint q hq' sg hin)
      · exact ih hrest hin hin'

/-- **A late link is written** into one of the lists. -/
theorem Family.land (h : Family L mem late segs) (hsg : sg ∈ segs) (ha : a ∈ sg.2) (hq : late a q)
    (hwrite : mem' q = L.ref a) (hmem : ∀ c, c ≠ q → mem' c = mem c) (hdone : ∀ c, ¬late' a c)
    (hlate : ∀ b, b ≠ a → ∀ c, late' b c ↔ late b c) : Family L mem' late' segs := by
  refine ⟨?_, h.nodup⟩
  intro sg' hsg'
  have hnodup : (cells L sg'.1 sg'.2).Nodup := (List.nodup_flatMap.mp h.nodup).1 sg' hsg'
  by_cases ha' : a ∈ sg'.2
  · exact (h.chain sg' hsg').land hnodup ha' hq hwrite hmem hdone hlate
  · refine (h.chain sg' hsg').frame ?_ ?_
    · intro c hc
      refine hmem c ?_
      rintro rfl
      have hsame := h.eq_of_mem hsg hsg' ((h.chain sg hsg).late_mem ha hq) hc
      exact ha' (hsame ▸ ha)
    · intro b hb
      refine hlate b ?_
      rintro rfl
      exact ha' hb

/-- **A new tail** of the first list. -/
theorem Family.snoc (h : Family L mem late ((p, as) :: segs)) (hlate : ∀ q, late a q ↔ q = final L p as)
    (hnull : mem (L.cell a) = L.null) (hnew : ∀ sg ∈ (p, as) :: segs, L.cell a ∉ cells L sg.1 sg.2) :
    Family L mem late ((p, as ++ [a]) :: segs) := by
  obtain ⟨hchain, hnodup, hdisjoint, hrest⟩ := family_cons_iff.mp h
  have hcells : cells L p (as ++ [a]) = cells L p as ++ [L.cell a] := by
    simp [cells]
  refine family_cons_iff.mpr ⟨hchain.snoc hlate hnull, ?_, ?_, hrest⟩
  · rw [hcells]
    refine List.nodup_append.mpr ⟨hnodup, List.nodup_singleton _, ?_⟩
    rintro q hq q' hq' rfl
    rw [List.mem_singleton.mp hq'] at hq
    exact hnew _ List.mem_cons_self hq
  · intro q hq sg hsg
    rw [hcells] at hq
    rcases List.mem_append.mp hq with hq | hq
    · exact hdisjoint q hq sg hsg
    · rw [List.mem_singleton.mp hq]
      exact hnew sg (List.mem_cons_of_mem _ hsg)

/-- **The first node is taken off** the first list: its own cell is the new start. -/
theorem Family.advance (h : Family L mem late ((p, a :: as) :: segs)) :
    Family L mem late ((L.cell a, as) :: segs) := by
  obtain ⟨hchain, hnodup, hdisjoint, hrest⟩ := family_cons_iff.mp h
  refine family_cons_iff.mpr ⟨hchain.2, (List.nodup_cons.mp hnodup).2, ?_, hrest⟩
  intro q hq
  exact hdisjoint q (List.mem_cons_of_mem _ hq)

theorem Family.tail (h : Family L mem late (sg :: segs)) :
    Family L mem late segs := (family_cons_iff.mp h).2.2.2

/-- An empty list. -/
theorem Family.push (h : Family L mem late segs) (hq : mem q = L.null)
    (hnew : ∀ sg ∈ segs, q ∉ cells L sg.1 sg.2) :
    Family L mem late ((q, []) :: segs) := by
  refine family_cons_iff.mpr ⟨hq, List.nodup_singleton _, ?_, h⟩
  intro c hc
  rw [List.mem_singleton.mp hc]
  exact hnew

end LateList
