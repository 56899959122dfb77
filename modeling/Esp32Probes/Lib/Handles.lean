import Mathlib.Data.List.Basic

/-!
# `Lib.Handles` — traces that open, use and close handles

A trace of operations on handles of several kinds is replayed on the table of open handles, the latest first.
`replay` is defined only if every handle that is used or closed is open at that point, so a trace that
replays contains no use after close and no double close. A handle value may be reused after it has been
closed; should the system hand out a value that is still open, closing it closes the latest handle of
that value.

`Traverses P t ops t'` is the replay from `t` to `t'` with a property `P` of every table on the way; it
composes over `++`, so that a program whose steps emit pieces of the trace is treated piece by piece. If `P`
allows at most one open handle of a kind, the lives of the handles of that kind do not overlap:
`Traverses.alternates` says that opening and closing alternate, each handle closed once before the next one
is opened.
-/

namespace Handles

variable {κ η : Type*} [DecidableEq κ] [DecidableEq η]

/-! ## Operations and the table of open handles -/

inductive Op (κ η : Type*)
  | acquire (kind : κ) (handle : η)
  | use (kind : κ) (handle : η)
  | release (handle : η)

/-- The open handles, the latest first. -/
abbrev Table (κ η : Type*) := List (κ × η)

/-- Close the latest open handle with this value; `none` if there is none. -/
def close (h : η) : Table κ η → Option (κ × Table κ η)
  | [] => none
  | e :: t => if e.2 = h then some (e.1, t) else (close h t).map (fun r => (r.1, e :: r.2))

/-- Perform an operation; `none` if its handle is not open. -/
def perform (t : Table κ η) : Op κ η → Option (Table κ η)
  | .acquire k h => some ((k, h) :: t)
  | .use k h => if (k, h) ∈ t then some t else none
  | .release h => (close h t).map Prod.snd

def replay (t : Table κ η) (ops : List (Op κ η)) : Option (Table κ η) := ops.foldlM perform t

/-- The open handles of a kind. -/
def held (k : κ) (t : Table κ η) : List η := t.filterMap (fun e => if e.1 = k then some e.2 else none)

/-- What happens in the life of a handle. -/
inductive Life (η : Type*)
  | opened (handle : η)
  | closed (handle : η)

/-- The openings and closings of the handles of one kind in a trace that replays from `t`. -/
def life (k : κ) : Table κ η → List (Op κ η) → List (Life η)
  | _, [] => []
  | t, .acquire k' h :: ops => (if k' = k then [.opened h] else []) ++ life k ((k', h) :: t) ops
  | t, .use _ _ :: ops => life k t ops
  | t, .release h :: ops =>
    match close h t with
    | none => []
    | some (k', t') => (if k' = k then [.closed h] else []) ++ life k t' ops

/-- Opening and closing alternate: each handle that is opened is closed, once, before the next is opened. -/
def Alternates : List (Life η) → Prop
  | [] => True
  | [.opened _] => True
  | .opened h :: .closed h' :: rest => h = h' ∧ Alternates rest
  | _ => False

omit [DecidableEq η] in
theorem held_cons (k k' : κ) (h : η) (t : Table κ η) :
    held k ((k', h) :: t) = (if k' = k then [h] else []) ++ held k t := by
  unfold held
  rw [List.filterMap_cons]
  by_cases hk : k' = k
  · simp [hk]
  · simp [hk]

omit [DecidableEq η] in
theorem held_append (k : κ) (t u : Table κ η) : held k (t ++ u) = held k t ++ held k u :=
  List.filterMap_append

omit [DecidableEq κ] in
/-- Closing takes one entry out of the table. -/
theorem close_eq_some {h : η} {t t' : Table κ η} {k : κ} (hc : close h t = some (k, t')) :
    ∃ u v, t = u ++ (k, h) :: v ∧ t' = u ++ v := by
  induction t generalizing t' with
  | nil => cases hc
  | cons e t ih =>
      unfold close at hc
      split at hc
      · next he =>
        cases hc
        subst he
        exact ⟨[], t, rfl, rfl⟩
      · obtain ⟨⟨k', r⟩, hr, hc⟩ := Option.map_eq_some_iff.mp hc
        cases hc
        obtain ⟨u, v, rfl, rfl⟩ := ih hr
        exact ⟨e :: u, v, rfl, rfl⟩

theorem perform_use {k : κ} {h : η} {t m : Table κ η} :
    perform t (.use k h) = some m ↔ (k, h) ∈ t ∧ m = t := by
  unfold perform
  by_cases hmem : (k, h) ∈ t
  · simp [hmem, eq_comm]
  · simp [hmem]

/-! ## Replays with a property of every table -/

/-- The replay of `ops` leads from `t` to `t'`, and `P` holds of every table on the way. -/
def Traverses (P : Table κ η → Prop) : Table κ η → List (Op κ η) → Table κ η → Prop
  | t, [], t' => P t ∧ t = t'
  | t, op :: ops, t' => P t ∧ ∃ m, perform t op = some m ∧ Traverses P m ops t'

variable {P : Table κ η → Prop}

theorem Traverses.last {t t' : Table κ η} {ops : List (Op κ η)} (h : Traverses P t ops t') : P t' := by
  induction ops generalizing t with
  | nil =>
      obtain ⟨hP, rfl⟩ := h
      exact hP
  | cons op ops ih =>
      obtain ⟨_, m, _, hm⟩ := h
      exact ih hm

theorem Traverses.append {t m t' : Table κ η} {ops ops' : List (Op κ η)} (h : Traverses P t ops m)
    (h' : Traverses P m ops' t') : Traverses P t (ops ++ ops') t' := by
  induction ops generalizing t with
  | nil =>
      obtain ⟨_, rfl⟩ := h
      exact h'
  | cons op ops ih =>
      obtain ⟨hP, m', hop, hm⟩ := h
      exact ⟨hP, m', hop, ih hm⟩

/-- Every prefix of the trace replays, and to a table with `P`. -/
theorem Traverses.of_isPrefix {t t' : Table κ η} {ops pre : List (Op κ η)} (h : Traverses P t ops t')
    (hpre : pre <+: ops) : ∃ m, replay t pre = some m ∧ Traverses P t pre m := by
  obtain ⟨post, rfl⟩ := hpre
  induction pre generalizing t with
  | nil =>
      refine ⟨t, rfl, ?_, rfl⟩
      cases post with
      | nil => exact h.1
      | cons op post => exact h.1
  | cons op pre ih =>
      obtain ⟨hP, m', hop, hm⟩ := h
      obtain ⟨m, hr, hT⟩ := ih hm
      refine ⟨m, ?_, hP, m', hop, hT⟩
      unfold replay at hr ⊢
      rw [List.foldlM_cons, hop]
      exact hr

/-- **Lives do not overlap.** If at most one handle of kind `k` is ever open, the handles of that kind are
    opened and closed in turns. The handles that are open at the start count as opened before. -/
theorem Traverses.alternates {k : κ} (hone : ∀ t, P t → (held k t).length ≤ 1) {t t' : Table κ η}
    {ops : List (Op κ η)} (h : Traverses P t ops t') :
    Alternates ((held k t).map Life.opened ++ life k t ops) := by
  induction ops generalizing t with
  | nil =>
      have hlen := hone t h.1
      cases hh : held k t with
      | nil => exact trivial
      | cons a as =>
          rw [hh, List.length_cons] at hlen
          have has : as = [] := List.eq_nil_of_length_eq_zero (by omega)
          rw [has]
          exact trivial
  | cons op ops ih =>
      obtain ⟨hP, m, hop, hm⟩ := h
      have hnext := ih hm
      have hlen : (held k m).length ≤ 1 := by
        cases ops with
        | nil => exact hone m hm.1
        | cons op' ops' => exact hone m hm.1
      cases op with
      | acquire k' x =>
          cases hop
          rw [held_cons] at hnext hlen
          unfold life
          by_cases hk : k' = k
          · -- nothing of this kind was open, or there would be two now
            rw [if_pos hk] at hnext hlen ⊢
            have hnil : held k t = [] := by
              apply List.eq_nil_of_length_eq_zero
              rw [List.length_append, List.length_singleton] at hlen
              omega
            rw [hnil] at hnext ⊢
            exact hnext
          · rw [if_neg hk] at hnext ⊢
            exact hnext
      | use k' x =>
          obtain ⟨_, rfl⟩ := perform_use.mp hop
          exact hnext
      | release x =>
          obtain ⟨⟨k', r⟩, hc, hr⟩ := Option.map_eq_some_iff.mp hop
          cases hr
          obtain ⟨u, v, rfl, rfl⟩ := close_eq_some hc
          unfold life
          rw [hc]
          have hold := hone _ hP
          rw [held_append, held_cons] at hold ⊢
          rw [held_append] at hnext
          show Alternates (_ ++ ((if k' = k then [Life.closed x] else []) ++ _))
          by_cases hk : k' = k
          · -- the handle that is closed is the only one of its kind
            rw [if_pos hk] at hold ⊢
            rw [List.length_append, List.length_append, List.length_singleton] at hold
            have hu : held k u = [] := List.eq_nil_of_length_eq_zero (by omega)
            have hv : held k v = [] := List.eq_nil_of_length_eq_zero (by omega)
            rw [hu, hv] at hnext ⊢
            rw [if_pos hk]
            exact ⟨rfl, hnext⟩
          · rw [if_neg hk] at ⊢
            rw [if_neg hk]
            exact hnext

end Handles
