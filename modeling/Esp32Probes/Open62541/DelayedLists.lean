import Esp32Probes.Open62541.DelayedFifo
import Esp32Probes.Lib.LateList

/-!
# Open62541.DelayedLists — the lists of delayed callbacks in memory

What the memory of the queue contains while any number of adds and one reset are going on. The active head
starts one late list (`Lib.LateList`), each taken list is another one, and no two have a cell in common:
this is `Core`. `Phase` is how far a reset has come. One lemma for each access: `addStep_sim` for the
statements of an add, `Core.take` and `Core.retail` for the exchanges of a reset, `Core.visit` for an
element that is visited.
-/

namespace Esp32Probes
namespace Open62541

open CHeap (Addr Heap)
open LateList (Family Chain Layout final cells)

variable {ι : Type} {m m' : DelayedMem} {add add' : Option ι → Option AddPc}

/-! ## Memory -/

/-- A write changes one pointer. -/
theorem store_spec {p v : Ptr} (h : m.store p v = some m') :
    (∀ q, m'.load q = if q = p then some v else m.load q) ∧ m'.delayedTail = m.delayedTail ∧
      m'.heap.live = m.heap.live := by
  cases p with
  | null => cases h
  | sentinel => cases h
  | head1 =>
      cases h
      refine ⟨fun q => ?_, rfl, rfl⟩
      cases q <;> simp [DelayedMem.load]
  | head2 =>
      cases h
      refine ⟨fun q => ?_, rfl, rfl⟩
      cases q <;> simp [DelayedMem.load]
  | element dc =>
      by_cases hdc : dc ∈ m.heap.live
      · simp only [DelayedMem.store, CHeap.load_eq hdc, CHeap.store_eq hdc, Option.bind_eq_bind,
          Option.bind_some, Option.pure_def, Option.some.injEq] at h
        subst h
        refine ⟨fun q => ?_, rfl, rfl⟩
        cases q with
        | element a =>
            by_cases ha : a = dc
            · subst ha
              simp [DelayedMem.load, Heap.load, hdc]
            · simp [DelayedMem.load, Heap.load, ha]
        | _ => simp [DelayedMem.load]
      · simp [DelayedMem.store, Heap.load, hdc] at h

/-- What can be read can be written. -/
theorem store_defined {p v x : Ptr} (h : m.load p = some x) : ∃ m', m.store p v = some m' := by
  cases p with
  | null => cases h
  | sentinel => cases h
  | head1 => exact ⟨_, rfl⟩
  | head2 => exact ⟨_, rfl⟩
  | element dc =>
      by_cases hdc : dc ∈ m.heap.live
      · simp [DelayedMem.store, CHeap.load_eq hdc, CHeap.store_eq hdc]
      · simp [DelayedMem.load, Heap.load, hdc] at h

theorem load_element {dc : Addr} (hdc : dc ∈ m.heap.live) :
    m.load (.element dc) = some (m.heap.cell dc).next := by
  simp [DelayedMem.load, CHeap.load_eq hdc]

theorem headPtr_ne (b : Bool) : headPtr b ≠ headPtr !b := by cases b <;> decide

@[simp] theorem headPtr_ne_element (b : Bool) (dc : Addr) : headPtr b ≠ .element dc := by
  cases b <;> simp [headPtr]

theorem load_head (b : Bool) : ∃ v, m.load (headPtr b) = some v := by cases b <;> exact ⟨_, rfl⟩

/-! ## Adds in progress -/

/-- The link to `a` is about to be written into the cell `p`. -/
def Late (add : Option ι → Option AddPc) (a : Addr) (p : Ptr) : Prop := ∃ c, add c = some (.link a p)

/-- The exchange of the tail has been made. -/
def AddPc.swung : AddPc → Bool
  | .link _ _ => true
  | _ => false

theorem Late.swung {a : Addr} {p : Ptr} {pc : AddPc} (h : pc = .link a p) : pc.swung = true := by rw [h]; rfl

/-- The late links after a statement of one add. -/
theorem late_update_iff [DecidableEq ι] {c : Option ι} {next : Option AddPc} {a : Addr} {p : Ptr} :
    Late (Function.update add c next) a p ↔ next = some (.link a p) ∨ ∃ c', c' ≠ c ∧
    add c' = some (.link a p) := by
  constructor
  · rintro ⟨c', hc'⟩
    by_cases h : c' = c
    · subst h
      rw [Function.update_self] at hc'
      exact .inl hc'
    · rw [Function.update_of_ne h] at hc'
      exact .inr ⟨c', h, hc'⟩
  · rintro (h | ⟨c', h, hc'⟩)
    · exact ⟨c, by rw [Function.update_self, h]⟩
    · exact ⟨c', by rw [Function.update_of_ne h, hc']⟩

/-- An add that has not exchanged the tail, before and after. -/
theorem late_update_same [DecidableEq ι] {c : Option ι} {next : Option AddPc}
    (hc : ∀ pc, add c = some pc → pc.swung = false)
    (hnext : ∀ pc, next = some pc → pc.swung = false) (a : Addr) (p : Ptr) :
    Late (Function.update add c next) a p ↔ Late add a p := by
  rw [late_update_iff]
  constructor
  · rintro (h | ⟨c', -, h⟩)
    · exact absurd (hnext _ h) (by simp [AddPc.swung])
    · exact ⟨c', h⟩
  · rintro ⟨c', h⟩
    refine .inr ⟨c', ?_, h⟩
    rintro rfl
    exact absurd (hc _ h) (by simp [AddPc.swung])

/-! ## The lists in memory -/

/-- Elements as nodes: the cell of an element is its own address. -/
def delayedLayout : Layout Ptr Addr (Option Ptr) := ⟨.element, fun a => some (.element a), some .null⟩

/-- A taken list that is not exhausted starts at the cell of its first element. -/
def segment : List Addr → Option (Ptr × List Addr)
  | [] => none
  | a :: as => some (.element a, as)

/-- The queue starts at the cell `seg.1`. The elements that wait are the nodes, and the taken lists start
    with elements whose link was there. An add has its element to itself; before the exchange of the tail
    the element waits nowhere. -/
structure Core (m : DelayedMem) (add : Option ι → Option AddPc) (lent : Finset Addr) (queue : List Addr)
    (rests : List (List Addr)) (seg : Ptr × List Addr) : Prop where
  family   : Family delayedLayout m.load (Late add) (seg :: rests.filterMap segment)
  tail     : m.delayedTail = final delayedLayout seg.1 seg.2
  covers   : ∀ a, Ptr.element a ∈ cells delayedLayout seg.1 seg.2 ↔ a ∈ queue
  firsts   : ∀ rest ∈ rests, ∀ a, rest.head? = some a → ∀ p, ¬Late add a p
  single   : ∀ c c' pc pc', add c = some pc → add c' = some pc' → pc.dc = pc'.dc → c = c'
  linked   : ∀ a p, Late add a p → ∃ sg ∈ seg :: rests.filterMap segment, a ∈ sg.2
  unlinked : ∀ c pc, add c = some pc → pc.swung = false → pc.dc ∉ queue ++ rests.flatten
  cleared  : ∀ c a, add c = some (.swing a) → m.load (.element a) = some .null
  ledger   : ∀ a, a ∈ lent ↔ a ∈ queue ++ rests.flatten ∨ ∃ c pc, add c = some pc ∧ pc.dc = a
  live     : ∀ a ∈ lent, a ∈ m.heap.live

variable {lent : Finset Addr} {queue : List Addr} {rests : List (List Addr)} {seg : Ptr × List Addr}

/-- The cells of a taken list are its elements. -/
theorem mem_cells_segment {rest : List Addr} {sg : Ptr × List Addr} (h : segment rest = some sg) (q : Ptr) :
    q ∈ cells delayedLayout sg.1 sg.2 ↔ ∃ a ∈ rest, q = .element a := by
  cases rest with
  | nil => cases h
  | cons b as =>
      cases h
      simp [cells, delayedLayout, eq_comm]

/-- The cells of a list that starts at an element. -/
theorem mem_cells_element {a : Addr} {as : List Addr} {q : Ptr} :
    q ∈ cells delayedLayout (.element a) as ↔ ∃ b ∈ a :: as, q = .element b := by
  simp [cells, delayedLayout, eq_comm]

/-- The elements that wait are those with a cell. -/
theorem Core.mem_waiting (h : Core m add lent queue rests seg) (a : Addr) :
    a ∈ queue ++ rests.flatten ↔
      ∃ sg ∈ seg :: rests.filterMap segment, Ptr.element a ∈ cells delayedLayout sg.1 sg.2 := by
  rw [List.mem_append, List.mem_flatten]
  constructor
  · rintro (ha | ⟨rest, hrest, ha⟩)
    · exact ⟨seg, List.mem_cons_self, (h.covers a).mpr ha⟩
    · cases rest with
      | nil => cases ha
      | cons b as =>
          refine ⟨(.element b, as), List.mem_cons_of_mem _ (List.mem_filterMap.mpr ⟨_, hrest, rfl⟩), ?_⟩
          exact mem_cells_element.mpr ⟨a, ha, rfl⟩
  · rintro ⟨sg, hsg, ha⟩
    rcases List.mem_cons.mp hsg with rfl | hsg
    · exact .inl ((h.covers a).mp ha)
    · obtain ⟨rest, hrest, hseg⟩ := List.mem_filterMap.mp hsg
      obtain ⟨b, hb, hab⟩ := (mem_cells_segment hseg _).mp ha
      cases hab
      exact .inr ⟨rest, hrest, hb⟩

theorem Core.mem_of_node (h : Core m add lent queue rests seg) {a : Addr} {sg : Ptr × List Addr}
    (hsg : sg ∈ seg :: rests.filterMap segment) (ha : a ∈ sg.2) : a ∈ queue ++ rests.flatten :=
  (h.mem_waiting a).mpr ⟨sg, hsg, List.mem_cons_of_mem _ (List.mem_map_of_mem (f := delayedLayout.cell) ha)⟩

/-- The cells of the lists are heads or elements that wait. -/
theorem Core.cell_ne (h : Core m add lent queue rests seg) {a : Addr} (ha : a ∉ queue ++ rests.flatten)
    {sg : Ptr × List Addr} (hsg : sg ∈ seg :: rests.filterMap segment) {q : Ptr}
    (hq : q ∈ cells delayedLayout sg.1 sg.2) : q ≠ .element a := by
  rintro rfl
  exact ha ((h.mem_waiting a).mpr ⟨sg, hsg, hq⟩)

/-! ## One statement of an add -/

/-- The adds after a statement of one of them. -/
theorem update_cases [DecidableEq ι] {c c' : Option ι} {next : Option AddPc} {pc : AddPc}
    (h : Function.update add c next c' = some pc) :
    (c' = c ∧ next = some pc) ∨ (c' ≠ c ∧ add c' = some pc) := by
  by_cases hc : c' = c
  · subst hc
    rw [Function.update_self] at h
    exact .inl ⟨rfl, h⟩
  · rw [Function.update_of_ne hc] at h
    exact .inr ⟨hc, h⟩

/-- The add of an element stays the add of that element. -/
theorem single_update [DecidableEq ι] {c : Option ι} {next : Option AddPc} {pc₀ : AddPc}
    (hc : add c = some pc₀) (hnext : ∀ pc, next = some pc → pc.dc = pc₀.dc)
    (h : ∀ c c' pc pc', add c = some pc → add c' = some pc' → pc.dc = pc'.dc → c = c') (c₁ c₂ : Option ι)
    (pc₁ pc₂ : AddPc) (h₁ : Function.update add c next c₁ = some pc₁)
    (h₂ : Function.update add c next c₂ = some pc₂) (hdc : pc₁.dc = pc₂.dc) : c₁ = c₂ := by
  rcases update_cases h₁ with ⟨rfl, hn₁⟩ | ⟨hne₁, ha₁⟩ <;>
    rcases update_cases h₂ with ⟨rfl, hn₂⟩ | ⟨hne₂, ha₂⟩
  · rfl
  · exact h _ _ _ _ hc ha₂ ((hnext _ hn₁).symm.trans hdc)
  · exact h _ _ _ _ ha₁ hc (hdc.trans (hnext _ hn₂))
  · exact h _ _ _ _ ha₁ ha₂ hdc

/-- An add keeps its element. -/
theorem adders_update [DecidableEq ι] (next : AddPc) {c : Option ι} {pc₀ : AddPc} (hc : add c = some pc₀)
    (hnext : next.dc = pc₀.dc) (b : Addr) :
    (∃ c' pc, add c' = some pc ∧ pc.dc = b) ↔
      ∃ c' pc, Function.update add c (some next) c' = some pc ∧ pc.dc = b := by
  constructor
  · rintro ⟨c', pc, hpc, rfl⟩
    by_cases hcc : c' = c
    · subst hcc
      rw [hc] at hpc
      cases hpc
      exact ⟨c', next, Function.update_self .., hnext⟩
    · exact ⟨c', pc, by rw [Function.update_of_ne hcc, hpc], rfl⟩
  · rintro ⟨c', pc, hpc, rfl⟩
    rcases update_cases hpc with ⟨rfl, hn⟩ | ⟨-, ha⟩
    · cases hn
      exact ⟨c', pc₀, hc, hnext.symm⟩
    · exact ⟨c', pc, ha, rfl⟩

/-- The first statement of an add: its element is linked to nothing. -/
theorem Core.clear [DecidableEq ι] (h : Core m add lent queue rests seg) {c : Option ι} {a : Addr}
    (hc : add c = some (.clear a)) :
    ∃ m', addStep m (.clear a) = some (m', some (.swing a)) ∧
      Core m' (Function.update add c (some (.swing a))) lent queue rests seg ∧
      (∀ b, m'.load (headPtr b) = m.load (headPtr b)) ∧
      ∀ b p, Late (Function.update add c (some (.swing a))) b p ↔ Late add b p := by
  have hwait : a ∉ queue ++ rests.flatten := h.unlinked c _ hc rfl
  have hlive : a ∈ m.heap.live := h.live a ((h.ledger a).mpr (.inr ⟨c, _, hc, rfl⟩))
  obtain ⟨m', hm'⟩ := store_defined (v := .null) (load_element hlive)
  obtain ⟨hload, htail, hheap⟩ := store_spec hm'
  have hlate : ∀ b p, Late (Function.update add c (some (.swing a))) b p ↔ Late add b p := late_update_same
    (fun pc hpc => by rw [hc] at hpc; cases hpc; rfl) (fun pc hpc => by cases hpc; rfl)
  have hother : ∀ q, q ≠ .element a → m'.load q = m.load q := by
    intro q hq
    rw [hload, if_neg hq]
  refine ⟨m', by simp [addStep, hm'], ⟨?_, ?_, h.covers, ?_, ?_, ?_, ?_, ?_, ?_, ?_⟩, ?_, hlate⟩
  · refine h.family.frame ?_ ?_
    · intro sg hsg q hq
      exact hother q (h.cell_ne hwait hsg hq)
    · intro sg hsg b hb q
      exact hlate b q
  · rw [htail, h.tail]
  · intro rest hrest b hb p hlate'
    exact h.firsts rest hrest b hb p ((hlate b p).mp hlate')
  · exact single_update hc (fun pc hpc => by cases hpc; rfl) h.single
  · intro b p hlate'
    exact h.linked b p ((hlate b p).mp hlate')
  · intro c' pc hpc hswung
    rcases update_cases hpc with ⟨-, hn⟩ | ⟨-, ha⟩
    · cases hn
      exact hwait
    · exact h.unlinked c' pc ha hswung
  · intro c' b hpc
    rw [hload]
    rcases update_cases hpc with ⟨-, hn⟩ | ⟨-, ha⟩
    · cases hn
      exact if_pos rfl
    · split_ifs with hb
      · rfl
      · exact h.cleared c' b ha
  · intro b
    rw [h.ledger b]
    exact or_congr_right (adders_update (.swing a) hc rfl b)
  · intro b hb
    rw [hheap]
    exact h.live b hb
  · intro b
    exact hother _ (headPtr_ne_element b a)

/-- **The exchange of the tail** by an add. -/
theorem Core.swing [DecidableEq ι] (h : Core m add lent queue rests seg) {c : Option ι} {a : Addr}
    (hc : add c = some (.swing a)) :
    Core { m with delayedTail := .element a } (Function.update add c (some (.link a m.delayedTail))) lent
      (queue ++ [a]) rests (seg.1, seg.2 ++ [a]) ∧
    ∀ b, b ≠ a → ∀ p, Late (Function.update add c (some (.link a m.delayedTail))) b p ↔ Late add b p := by
  have hwait : a ∉ queue ++ rests.flatten := h.unlinked c _ hc rfl
  have hwait' : ∀ b, b ∈ queue ++ [a] ++ rests.flatten ↔ b = a ∨ b ∈ queue ++ rests.flatten := by
    intro b
    simp only [List.mem_append, List.mem_singleton]
    tauto
  have hsame : ∀ b, b ≠ a → ∀ p, Late (Function.update add c (some (.link a m.delayedTail))) b p ↔
    Late add b p := by
    intro b hb p
    rw [late_update_iff]
    constructor
    · rintro (hn | ⟨c', -, h'⟩)
      · cases hn
        exact absurd rfl hb
      · exact ⟨c', h'⟩
    · rintro ⟨c', h'⟩
      refine .inr ⟨c', ?_, h'⟩
      rintro rfl
      rw [hc] at h'
      cases h'
  have hhere : ∀ p, Late (Function.update add c (some (.link a m.delayedTail))) a p ↔
      p = final delayedLayout seg.1 seg.2 := by
    intro p
    rw [late_update_iff, h.tail]
    constructor
    · rintro (hn | ⟨c', hne, h'⟩)
      · cases hn
        rfl
      · exact absurd (h.single c' c _ _ h' hc rfl) hne
    · rintro rfl
      exact .inl rfl
  have hfamily : Family delayedLayout m.load (Late (Function.update add c (some (.link a m.delayedTail))))
      ((seg.1, seg.2) :: rests.filterMap segment) := by
    refine h.family.frame (fun _ _ _ _ => rfl) ?_
    intro sg hsg b hb
    refine hsame b ?_
    rintro rfl
    exact hwait (h.mem_of_node hsg hb)
  refine ⟨⟨?_, ?_, ?_, ?_, ?_, ?_, ?_, ?_, ?_, h.live⟩, hsame⟩
  · refine hfamily.snoc hhere (h.cleared c a hc) ?_
    intro sg hsg ha
    exact h.cell_ne hwait hsg ha rfl
  · exact (LateList.final_snoc (L := delayedLayout) seg.1 seg.2 a).symm
  · intro b
    have hcells : cells delayedLayout seg.1 (seg.2 ++ [a]) = cells delayedLayout seg.1 seg.2 ++
      [.element a] := by
      simp [cells, delayedLayout]
    rw [hcells, List.mem_append, List.mem_append, h.covers b]
    simp
  · intro rest hrest b hb p hlate
    have hmem : b ∈ queue ++ rests.flatten :=
      List.mem_append_right _ (List.mem_flatten.mpr ⟨rest, hrest, List.mem_of_head? hb⟩)
    have hba : b ≠ a := by
      rintro rfl
      exact hwait hmem
    exact h.firsts rest hrest b hb p ((hsame b hba p).mp hlate)
  · exact single_update hc (fun pc hpc => by cases hpc; rfl) h.single
  · intro b p hlate
    by_cases hba : b = a
    · subst hba
      exact ⟨_, List.mem_cons_self, List.mem_append_right _ List.mem_cons_self⟩
    · obtain ⟨sg, hsg, hb⟩ := h.linked b p ((hsame b hba p).mp hlate)
      rcases List.mem_cons.mp hsg with rfl | hsg
      · exact ⟨_, List.mem_cons_self, List.mem_append_left _ hb⟩
      · exact ⟨sg, List.mem_cons_of_mem _ hsg, hb⟩
  · intro c' pc hpc hswung
    rcases update_cases hpc with ⟨-, hn⟩ | ⟨hne, ha⟩
    · cases hn
      cases hswung
    · rw [hwait' pc.dc]
      rintro (hdc | hmem)
      · exact hne (h.single c' c pc _ ha hc hdc)
      · exact h.unlinked c' pc ha hswung hmem
  · intro c' b hpc
    rcases update_cases hpc with ⟨-, hn⟩ | ⟨-, ha⟩
    · cases hn
    · exact h.cleared c' b ha
  · intro b
    rw [h.ledger b, hwait' b, ← adders_update (.link a m.delayedTail) hc rfl b]
    constructor
    · rintro (hb | hb)
      · exact .inl (.inr hb)
      · exact .inr hb
    · rintro ((rfl | hb) | hb)
      · exact .inr ⟨c, _, hc, rfl⟩
      · exact .inl hb
      · exact .inr hb

/-- **The link** is written. -/
theorem Core.link [DecidableEq ι] (h : Core m add lent queue rests seg) {c : Option ι} {a : Addr} {q : Ptr}
    (hc : add c = some (.link a q)) :
    ∃ m', addStep m (.link a q) = some (m', none) ∧
      Core m' (Function.update add c none) lent queue rests seg ∧
      (∀ p, m'.load p = m.load p ∨ m.load p = some .null ∧
        ∃ sg ∈ seg :: rests.filterMap segment, p ∈ cells delayedLayout sg.1 sg.2) ∧
      ∀ b p, Late (Function.update add c none) b p → Late add b p := by
  obtain ⟨sg, hsg, ha⟩ := h.linked a q ⟨c, hc⟩
  have hnull : m.load q = some .null := (h.family.chain sg hsg).late_null ha ⟨c, hc⟩
  have hcell : q ∈ cells delayedLayout sg.1 sg.2 := (h.family.chain sg hsg).late_mem ha ⟨c, hc⟩
  obtain ⟨m', hm'⟩ := store_defined (v := .element a) hnull
  obtain ⟨hload, htail, hheap⟩ := store_spec hm'
  have hdone : ∀ b p, Late (Function.update add c none) b p → Late add b p ∧ b ≠ a := by
    rintro b p hlate
    rcases late_update_iff.mp hlate with hn | ⟨c', hne, h'⟩
    · cases hn
    · refine ⟨⟨c', h'⟩, ?_⟩
      rintro rfl
      exact hne (h.single c' c _ _ h' hc rfl)
  have hsame : ∀ b, b ≠ a → ∀ p, Late (Function.update add c none) b p ↔ Late add b p := by
    intro b hb p
    refine ⟨fun hlate => (hdone b p hlate).1, ?_⟩
    rintro ⟨c', h'⟩
    refine late_update_iff.mpr (.inr ⟨c', ?_, h'⟩)
    rintro rfl
    rw [hc] at h'
    cases h'
    exact hb rfl
  refine ⟨m', by simp [addStep, hm'], ⟨?_, ?_, h.covers, ?_, ?_, ?_, ?_, ?_, ?_, ?_⟩, ?_,
    fun b p hlate => (hdone b p hlate).1⟩
  · refine h.family.land hsg ha ⟨c, hc⟩ ?_ ?_ ?_ hsame
    · rw [hload, if_pos rfl]
      rfl
    · intro p hp
      rw [hload, if_neg hp]
    · intro p hlate
      exact (hdone a p hlate).2 rfl
  · rw [htail, h.tail]
  · intro rest hrest b hb p hlate
    exact h.firsts rest hrest b hb p (hdone b p hlate).1
  · exact single_update hc (fun pc hpc => by cases hpc) h.single
  · intro b p hlate
    exact h.linked b p (hdone b p hlate).1
  · intro c' pc hpc hswung
    rcases update_cases hpc with ⟨-, hn⟩ | ⟨-, h'⟩
    · cases hn
    · exact h.unlinked c' pc h' hswung
  · intro c' b hpc
    rcases update_cases hpc with ⟨-, hn⟩ | ⟨-, h'⟩
    · cases hn
    · rw [hload]
      have hb : b ∉ queue ++ rests.flatten := h.unlinked c' _ h' rfl
      rw [if_neg (h.cell_ne hb hsg hcell).symm]
      exact h.cleared c' b h'
  · intro b
    rw [h.ledger b]
    constructor
    · rintro (hb | ⟨c', pc, hpc, rfl⟩)
      · exact .inl hb
      · by_cases hcc : c' = c
        · subst hcc
          rw [hc] at hpc
          cases hpc
          exact .inl (h.mem_of_node hsg ha)
        · exact .inr ⟨c', pc, by rw [Function.update_of_ne hcc, hpc], rfl⟩
    · rintro (hb | ⟨c', pc, hpc, rfl⟩)
      · exact .inl hb
      · rcases update_cases hpc with ⟨-, hn⟩ | ⟨-, h'⟩
        · cases hn
        · exact .inr ⟨c', pc, h', rfl⟩
  · intro b hb
    rw [hheap]
    exact h.live b hb
  · intro p
    rw [hload]
    by_cases hp : p = q
    · subst hp
      exact .inr ⟨hnull, sg, hsg, hcell⟩
    · exact .inl (if_neg hp)

/-! ## The active head -/

/-- No reset is going on: the queue starts at the active head, and the other one is marked. -/
def AtRest (load : Ptr → Option Ptr) (queue : List Addr) (active : Bool) (seg : Ptr × List Addr) : Prop :=
  seg = (headPtr active, queue) ∧ load (headPtr !active) = some .sentinel

/-- How far a reset has come. From `choose` on the queue is known to have a first element. -/
def Phase (load : Ptr → Option Ptr) (late : Addr → Ptr → Prop) (queue : List Addr) (active : Bool)
    (seg : Ptr × List Addr) : Option LoopPc → Prop
  | some .choose => AtRest load queue active seg ∧ load (headPtr active) ≠ some .null
  | some (.activate active1) =>
    active1 = active ∧ AtRest load queue active seg ∧ load (headPtr active) ≠ some .null
  | some (.take active1) =>
    active1 = active ∧ seg = (headPtr active, queue) ∧ load (headPtr !active) = some .null ∧
      load (headPtr active) ≠ some .null
  | some (.retail active1 oldHead) =>
    active1 = active ∧ load (headPtr !active) = some .null ∧ load (headPtr active) = some .sentinel ∧
      ∃ a as, queue = a :: as ∧ oldHead = .element a ∧ seg = (.element a, as) ∧ ∀ q, ¬late a q
  | _ => AtRest load queue active seg

variable {load load' : Ptr → Option Ptr} {late late' : Addr → Ptr → Prop} {active : Bool} {pc : Option LoopPc}

/-- Writes to cells of elements, or of the first link. -/
theorem Phase.mono (h : Phase load late queue active seg pc)
    (hother : load' (headPtr !active) = load (headPtr !active))
    (hactive : load' (headPtr active) = load (headPtr active) ∨ load (headPtr active) = some .null)
    (hlate : ∀ a q, late' a q → late a q) : Phase load' late' queue active seg pc := by
  have hrest : AtRest load queue active seg → AtRest load' queue active seg := by
    rintro ⟨hseg, hmark⟩
    exact ⟨hseg, hother.trans hmark⟩
  have hfull : load (headPtr active) ≠ some .null → load' (headPtr active) = load (headPtr active) := by
    intro hne
    rcases hactive with hsame | hnull
    · exact hsame
    · exact absurd hnull hne
  unfold Phase at h ⊢
  split at h
  · obtain ⟨hat, hne⟩ := h
    exact ⟨hrest hat, (hfull hne).symm ▸ hne⟩
  · obtain ⟨heq, hat, hne⟩ := h
    exact ⟨heq, hrest hat, (hfull hne).symm ▸ hne⟩
  · obtain ⟨heq, hseg, hnull, hne⟩ := h
    exact ⟨heq, hseg, hother.trans hnull, (hfull hne).symm ▸ hne⟩
  · obtain ⟨heq, hnull, hmark, a, as, hqueue, hold, hseg, hfirst⟩ := h
    have hne : load (headPtr active) ≠ some .null := by
      rw [hmark]
      simp
    exact ⟨heq, hother.trans hnull, (hfull hne).trans hmark, a, as, hqueue, hold, hseg,
      fun q hq => hfirst q (hlate a q hq)⟩
  · exact hrest h

/-- A new tail. -/
theorem Phase.snoc (h : Phase load late queue active seg pc) (a : Addr)
    (hlate : ∀ b ∈ queue, ∀ q, late' b q → late b q) :
    Phase load late' (queue ++ [a]) active (seg.1, seg.2 ++ [a]) pc := by
  have hrest : AtRest load queue active seg → AtRest load (queue ++ [a]) active (seg.1, seg.2 ++ [a]) := by
    rintro ⟨rfl, hmark⟩
    exact ⟨rfl, hmark⟩
  unfold Phase at h ⊢
  split at h
  · obtain ⟨hat, hne⟩ := h
    exact ⟨hrest hat, hne⟩
  · obtain ⟨heq, hat, hne⟩ := h
    exact ⟨heq, hrest hat, hne⟩
  · obtain ⟨heq, rfl, hnull, hne⟩ := h
    exact ⟨heq, rfl, hnull, hne⟩
  · obtain ⟨heq, hnull, hmark, b, as, rfl, hold, rfl, hfirst⟩ := h
    exact ⟨heq, hnull, hmark, b, as ++ [a], rfl, hold, rfl, fun q hq =>
      hfirst q (hlate b List.mem_cons_self q hq)⟩
  · exact hrest h

/-- The head that is not active is no cell of a list. -/
theorem Phase.other_notMem (h : Phase load late queue active seg pc) {sg : Ptr × List Addr}
    (hsg : sg ∈ seg :: rests.filterMap segment) : headPtr (!active) ∉ cells delayedLayout sg.1 sg.2 := by
  have hstart : seg.1 = headPtr active ∨ ∃ a, seg.1 = .element a := by
    unfold Phase at h
    split at h
    · exact .inl (congrArg Prod.fst h.1.1)
    · exact .inl (congrArg Prod.fst h.2.1.1)
    · exact .inl (congrArg Prod.fst h.2.1)
    · obtain ⟨-, -, -, a, as, -, -, rfl, -⟩ := h
      exact .inr ⟨a, rfl⟩
    · exact .inl (congrArg Prod.fst h.1)
  intro hmem
  rcases List.mem_cons.mp hsg with rfl | hsg
  · rcases List.mem_cons.mp hmem with heq | hmem
    · rcases hstart with hstart | ⟨a, hstart⟩
      · exact headPtr_ne active (heq.trans hstart).symm
      · exact headPtr_ne_element _ a (heq.trans hstart)
    · obtain ⟨a, -, ha⟩ := List.mem_map.mp hmem
      exact headPtr_ne_element _ a ha.symm
  · obtain ⟨rest, -, hseg⟩ := List.mem_filterMap.mp hsg
    obtain ⟨a, -, ha⟩ := (mem_cells_segment hseg _).mp hmem
    exact headPtr_ne_element _ a ha

/-- What the queue is after a statement of an add. -/
def AddPc.queueAfter (queue : List Addr) : AddPc → List Addr
  | .swing a => queue ++ [a]
  | _ => queue

/-- **One statement of an add**, by whoever adds. -/
theorem addStep_sim [DecidableEq ι] (h : Core m add lent queue rests seg)
    (hp : Phase m.load (Late add) queue active seg pc)
    {c : Option ι} {pc₀ : AddPc} (hc : add c = some pc₀) :
    ∃ m' next seg', addStep m pc₀ = some (m', next) ∧
      Core m' (Function.update add c next) lent (pc₀.queueAfter queue) rests seg' ∧
      Phase m'.load (Late (Function.update add c next)) (pc₀.queueAfter queue) active seg' pc := by
  cases pc₀ with
  | clear a =>
      obtain ⟨m', hstep, hcore, hload, hlate⟩ := h.clear hc
      exact ⟨m', _, seg, hstep, hcore, hp.mono (hload _) (.inl (hload _)) fun b q => (hlate b q).mp⟩
  | swing a =>
      obtain ⟨hcore, hlate⟩ := h.swing hc
      refine ⟨_, _, _, rfl, hcore, hp.snoc a ?_⟩
      intro b hb q hq
      refine (hlate b ?_ q).mp hq
      rintro rfl
      exact h.unlinked c _ hc rfl (List.mem_append_left _ hb)
  | link a q =>
      obtain ⟨m', hstep, hcore, hload, hlate⟩ := h.link hc
      refine ⟨m', none, seg, hstep, hcore, hp.mono ?_ ?_ hlate⟩
      · rcases hload (headPtr !active) with hsame | ⟨-, sg, hsg, hmem⟩
        · exact hsame
        · exact absurd hmem (hp.other_notMem hsg)
      · rcases hload (headPtr active) with hsame | ⟨hnull, -⟩
        · exact .inl hsame
        · exact .inr hnull

/-! ## The reset -/

/-- Writes to cells of no list, and of no element that has been handed over. -/
theorem Core.frame (h : Core m add lent queue rests seg)
    (helement : ∀ a ∈ lent, m'.load (.element a) = m.load (.element a))
    (hseg : ∀ q ∈ cells delayedLayout seg.1 seg.2, m'.load q = m.load q)
    (htail : m'.delayedTail = m.delayedTail)
    (hlive : ∀ a ∈ lent, a ∈ m'.heap.live) : Core m' add lent queue rests seg := by
  refine ⟨h.family.frame ?_ fun _ _ _ _ _ => Iff.rfl, htail.trans h.tail, h.covers, h.firsts, h.single,
    h.linked, h.unlinked, ?_, h.ledger, hlive⟩
  · intro sg hsg q hq
    rcases List.mem_cons.mp hsg with rfl | hsg
    · exact hseg q hq
    · obtain ⟨rest, hrest, hsome⟩ := List.mem_filterMap.mp hsg
      obtain ⟨a, ha, rfl⟩ := (mem_cells_segment hsome q).mp hq
      exact helement a ((h.ledger a).mpr
        (.inl (List.mem_append_right _ (List.mem_flatten.mpr ⟨rest, hrest, ha⟩))))
  · intro c a hc
    rw [helement a ((h.ledger a).mpr (.inr ⟨c, _, hc, rfl⟩))]
    exact h.cleared c a hc

/-- **The exchange of the active head**: the queue now starts at its first element. -/
theorem Core.take (h : Core m add lent queue rests (headPtr active, queue))
    (hfull : m.load (headPtr active) ≠ some .null)
    (hm' : m.store (headPtr active) .sentinel = some m') :
    ∃ a as, queue = a :: as ∧ m.load (headPtr active) = some (.element a) ∧ (∀ q, ¬Late add a q) ∧
      Core m' add lent queue rests (.element a, as) := by
  obtain ⟨hload, htail, hheap⟩ := store_spec hm'
  obtain ⟨a, as, rfl, hhead, hfirst, -⟩ := (h.family.chain _ List.mem_cons_self).first hfull
  refine ⟨a, as, rfl, hhead, hfirst, ?_⟩
  have hother : ∀ q, q ≠ headPtr active → m'.load q = m.load q := by
    intro q hq
    rw [hload, if_neg hq]
  have helement : ∀ b, m'.load (.element b) = m.load (.element b) := by
    intro b
    exact hother _ (headPtr_ne_element active b).symm
  -- the lists before the write, the queue without the head
  have hcore : Core m add lent (a :: as) rests (.element a, as) := by
    refine ⟨h.family.advance, h.tail, ?_, h.firsts, h.single, ?_, h.unlinked, h.cleared, h.ledger, h.live⟩
    · intro b
      simp [cells, delayedLayout]
    · intro b p hlate
      obtain ⟨sg, hsg, hb⟩ := h.linked b p hlate
      rcases List.mem_cons.mp hsg with rfl | hsg
      · rcases List.mem_cons.mp hb with rfl | hb
        · exact absurd hlate (hfirst p)
        · exact ⟨_, List.mem_cons_self, hb⟩
      · exact ⟨sg, List.mem_cons_of_mem _ hsg, hb⟩
  refine hcore.frame (fun b _ => helement b) ?_ htail (fun b hb => hheap ▸ h.live b hb)
  intro q hq
  obtain ⟨b, -, rfl⟩ := mem_cells_element.mp hq
  exact helement b

/-- **The exchange of the tail** by a reset: the queue is taken, and a new one starts at the other head. -/
theorem Core.retail {a : Addr} {as : List Addr} (h : Core m add lent (a :: as) rests (.element a, as))
    (hnull : m.load (headPtr active) = some .null) (hfirst : ∀ q, ¬Late add a q) :
    Core { m with delayedTail := headPtr active } add lent [] ((a :: as) :: rests) (headPtr active, []) := by
  have hsame : ∀ b, b ∈ [] ++ ((a :: as) :: rests).flatten ↔ b ∈ (a :: as) ++ rests.flatten := by
    intro b
    simp
  refine ⟨?_, rfl, ?_, ?_, h.single, ?_, ?_, h.cleared, ?_, h.live⟩
  · refine h.family.push hnull ?_
    intro sg hsg hq
    rcases List.mem_cons.mp hsg with rfl | hsg
    · obtain ⟨b, -, hb⟩ := mem_cells_element.mp hq
      exact headPtr_ne_element active b hb
    · obtain ⟨rest, -, hrest⟩ := List.mem_filterMap.mp hsg
      obtain ⟨b, -, hb⟩ := (mem_cells_segment hrest _).mp hq
      exact headPtr_ne_element active b hb
  · intro b
    simp [cells, (headPtr_ne_element active b).symm]
  · intro rest hrest b hb p
    rcases List.mem_cons.mp hrest with rfl | hrest
    · cases hb
      exact hfirst p
    · exact h.firsts rest hrest b hb p
  · intro b p hlate
    obtain ⟨sg, hsg, hb⟩ := h.linked b p hlate
    exact ⟨sg, List.mem_cons_of_mem _ hsg, hb⟩
  · intro c pc hc hswung
    rw [hsame]
    exact h.unlinked c pc hc hswung
  · intro b
    rw [hsame]
    exact h.ledger b

/-- A list that is empty takes no memory. -/
theorem core_push_nil : Core m add lent queue ([] :: rests) seg ↔ Core m add lent queue rests seg := by
  constructor
  · rintro ⟨hfamily, htail, hcovers, hfirsts, hsingle, hlinked, hunlinked, hcleared, hledger, hlive⟩
    exact ⟨hfamily, htail, hcovers, fun rest hrest => hfirsts rest (List.mem_cons_of_mem _ hrest), hsingle,
      hlinked, hunlinked, hcleared, hledger, hlive⟩
  · rintro ⟨hfamily, htail, hcovers, hfirsts, hsingle, hlinked, hunlinked, hcleared, hledger, hlive⟩
    refine ⟨hfamily, htail, hcovers, ?_, hsingle, hlinked, hunlinked, hcleared, hledger, hlive⟩
    intro rest hrest a ha
    rcases List.mem_cons.mp hrest with rfl | hrest
    · cases ha
    · exact hfirsts rest hrest a ha

/-! ## A visit -/

/-- Nobody adds an element that is the first one of a taken list. -/
theorem Core.first_idle {a : Addr} {as : List Addr} (h : Core m add lent queue ((a :: as) :: rests) seg) :
    ∀ c pc, add c = some pc → pc.dc ≠ a := by
  rintro c pc hc rfl
  cases hswung : pc.swung with
  | false => exact h.unlinked c pc hc hswung (List.mem_append_right _ (List.mem_cons_self))
  | true =>
      cases pc with
      | link a q => exact h.firsts _ List.mem_cons_self a rfl q ⟨c, hc⟩
      | clear a => cases hswung
      | swing a => cases hswung

/-- **The first element of a taken list is visited** and given back. -/
theorem Core.visit {a : Addr} {as : List Addr} (h : Core m add lent queue ((a :: as) :: rests) seg)
    (hnext : ∀ b, as.head? = some b → ∀ p, ¬Late add b p) :
    Core m add (lent.erase a) queue (as :: rests) seg := by
  have hperm : (seg :: (segment (a :: as)).toList ++ rests.filterMap segment).Perm
      ((.element a, as) :: seg :: rests.filterMap segment) := List.Perm.swap ..
  have hfront := h.family.perm hperm
  obtain ⟨-, hnodup, hdisjoint, -⟩ := LateList.family_cons_iff.mp hfront
  -- the element waits nowhere else
  have hgone : a ∉ queue ++ (as :: rests).flatten := by
    rw [List.flatten_cons, List.mem_append, List.mem_append, List.mem_flatten]
    rintro (ha | ha | ⟨rest, hrest, ha⟩)
    · exact hdisjoint _ List.mem_cons_self seg List.mem_cons_self ((h.covers a).mpr ha)
    · exact (List.nodup_cons.mp hnodup).1 (List.mem_map_of_mem (f := delayedLayout.cell) ha)
    · cases rest with
      | nil => cases ha
      | cons b bs =>
          have hsg : (Ptr.element b, bs) ∈ rests.filterMap segment := List.mem_filterMap.mpr ⟨_, hrest, rfl⟩
          exact hdisjoint _ List.mem_cons_self _ (List.mem_cons_of_mem _ hsg)
            (mem_cells_element.mpr ⟨a, ha, rfl⟩)
  have hsame : ∀ b, b ∈ queue ++ ((a :: as) :: rests).flatten ↔
    b = a ∨ b ∈ queue ++ (as :: rests).flatten := by
    intro b
    simp only [List.flatten_cons, List.cons_append, List.mem_append, List.mem_cons]
    tauto
  refine ⟨?_, h.tail, h.covers, ?_, h.single, ?_, ?_, h.cleared, ?_, ?_⟩
  · cases as with
    | nil => exact hfront.tail
    | cons b bs => exact hfront.advance.perm (List.Perm.swap ..)
  · intro rest hrest b hb p
    rcases List.mem_cons.mp hrest with rfl | hrest
    · exact hnext b hb p
    · exact h.firsts rest (List.mem_cons_of_mem _ hrest) b hb p
  · intro b p hlate
    obtain ⟨sg, hsg, hb⟩ := h.linked b p hlate
    rcases List.mem_cons.mp hsg with rfl | hsg
    · exact ⟨_, List.mem_cons_self, hb⟩
    · rcases List.mem_cons.mp hsg with rfl | hsg
      · cases as with
        | nil => cases hb
        | cons b' bs =>
            rcases List.mem_cons.mp hb with rfl | hb
            · exact absurd hlate (hnext b rfl p)
            · exact ⟨(.element b', bs), List.mem_cons_of_mem _ List.mem_cons_self, hb⟩
      · refine ⟨sg, List.mem_cons_of_mem _ ?_, hb⟩
        obtain ⟨rest, hrest, hseg⟩ := List.mem_filterMap.mp hsg
        exact List.mem_filterMap.mpr ⟨rest, List.mem_cons_of_mem _ hrest, hseg⟩
  · intro c pc hc hswung hmem
    exact h.unlinked c pc hc hswung ((hsame _).mpr (.inr hmem))
  · intro b
    rw [Finset.mem_erase, h.ledger b, hsame b]
    constructor
    · rintro ⟨hne, (rfl | hb) | hb⟩
      · exact absurd rfl hne
      · exact .inl hb
      · exact .inr hb
    · rintro (hb | ⟨c, pc, hc, rfl⟩)
      · refine ⟨?_, .inl (.inr hb)⟩
        rintro rfl
        exact hgone hb
      · exact ⟨h.first_idle c pc hc, .inr ⟨c, pc, hc, rfl⟩⟩
  · intro b hb
    exact h.live b (Finset.mem_of_mem_erase hb)

/-- **A new add** of an element that nobody has. -/
theorem Core.begin [DecidableEq ι] (h : Core m add lent queue rests seg) {c : Option ι} {a : Addr}
    (hc : add c = none) (ha : a ∉ lent) (hlive : a ∈ m.heap.live) :
    Core m (Function.update add c (some (.clear a))) (insert a lent) queue rests seg ∧
      ∀ b p, Late (Function.update add c (some (.clear a))) b p ↔ Late add b p := by
  have hlate : ∀ b p, Late (Function.update add c (some (.clear a))) b p ↔ Late add b p := late_update_same
    (fun pc hpc => by rw [hc] at hpc; cases hpc) (fun pc hpc => by cases hpc; rfl)
  have hfree : a ∉ queue ++ rests.flatten ∧ ∀ c pc, add c = some pc → pc.dc ≠ a := by
    refine ⟨fun hmem => ha ((h.ledger a).mpr (.inl hmem)), ?_⟩
    intro c' pc hpc hdc
    exact ha ((h.ledger a).mpr (.inr ⟨c', pc, hpc, hdc⟩))
  refine ⟨⟨?_, h.tail, h.covers, ?_, ?_, ?_, ?_, ?_, ?_, ?_⟩, hlate⟩
  · exact h.family.frame (fun _ _ _ _ => rfl) fun _ _ b _ q => hlate b q
  · intro rest hrest b hb p hlate'
    exact h.firsts rest hrest b hb p ((hlate b p).mp hlate')
  · intro c₁ c₂ pc₁ pc₂ h₁ h₂ hdc
    rcases update_cases h₁ with ⟨rfl, hn₁⟩ | ⟨-, ha₁⟩ <;> rcases update_cases h₂ with ⟨rfl, hn₂⟩ | ⟨-, ha₂⟩
    · rfl
    · cases hn₁
      exact absurd hdc.symm (hfree.2 _ _ ha₂)
    · cases hn₂
      exact absurd hdc (hfree.2 _ _ ha₁)
    · exact h.single _ _ _ _ ha₁ ha₂ hdc
  · intro b p hlate'
    exact h.linked b p ((hlate b p).mp hlate')
  · intro c' pc hpc hswung
    rcases update_cases hpc with ⟨-, hn⟩ | ⟨-, ha'⟩
    · cases hn
      exact hfree.1
    · exact h.unlinked c' pc ha' hswung
  · intro c' b hpc
    rcases update_cases hpc with ⟨-, hn⟩ | ⟨-, ha'⟩
    · cases hn
    · exact h.cleared c' b ha'
  · intro b
    rw [Finset.mem_insert, h.ledger b]
    constructor
    · rintro (rfl | hb | ⟨c', pc, hpc, rfl⟩)
      · exact .inr ⟨c, _, Function.update_self .., rfl⟩
      · exact .inl hb
      · refine .inr ⟨c', pc, ?_, rfl⟩
        rw [Function.update_of_ne, hpc]
        rintro rfl
        rw [hc] at hpc
        cases hpc
    · rintro (hb | ⟨c', pc, hpc, rfl⟩)
      · exact .inr (.inl hb)
      · rcases update_cases hpc with ⟨-, hn⟩ | ⟨-, ha'⟩
        · cases hn
          exact .inl rfl
        · exact .inr (.inr ⟨c', pc, ha', rfl⟩)
  · intro b hb
    rcases Finset.mem_insert.mp hb with rfl | hb
    · exact hlive
    · exact h.live b hb

end Open62541
end Esp32Probes
