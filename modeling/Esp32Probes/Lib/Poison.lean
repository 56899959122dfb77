import Esp32Probes.Lib.CBuffer

/-!
# `Lib.Poison` — memory that must not be read before it is written

A poisoned memory is an array of cells some of which (`none`) hold nothing the program may use: indeterminate
locals, or what an earlier use of a buffer left behind. Writing a cell heals it; `read`, `readFront` and
`copy` fail on a poisoned cell as they fail on a missing one. A program that runs on a poisoned memory has
therefore used no value but those it was given or wrote itself.

`Agrees m c` says that the ordinary memory `c` holds what the poisoned memory `m` is known to hold, and
anything at all elsewhere. The accesses respect it, in the form of refinement rules for partial computations
(`Refines`): whatever succeeds on `m` succeeds on every such `c`, with the same values. So a program that runs
on `m` computes the same on all the memories that differ from one another only where `m` is poisoned.
-/

namespace Poison

open CBuffer

variable {α α' β β' γ γ' δ : Type}

/-! ## Refinement of partial computations -/

/-- Whatever `x` returns, `x'` returns something related to it. -/
def Refines (R : α → α' → Prop) (x : Option α) (x' : Option α') : Prop :=
  ∀ a, x = some a → ∃ a', x' = some a' ∧ R a a'

theorem Refines.pure {R : α → α' → Prop} {a : α} {a' : α'} (h : R a a') :
    Refines R (some a) (some a') := by
  rintro _ ⟨⟩
  exact ⟨a', rfl, h⟩

theorem Refines.refl (x : Option α) : Refines Eq x x := by
  intro a h
  exact ⟨a, h, rfl⟩

/-- **The rule for a sequence.** -/
theorem Refines.bind {R : α → α' → Prop} {S : β → β' → Prop} {x : Option α} {x' : Option α'}
    {k : α → Option β} {k' : α' → Option β'} (hx : Refines R x x')
    (hk : ∀ a a', R a a' → Refines S (k a) (k' a')) : Refines S (x >>= k) (x' >>= k') := by
  intro b hb
  obtain ⟨a, ha, hkb⟩ := Option.bind_eq_some_iff.mp hb
  obtain ⟨a', ha', hR⟩ := hx a ha
  obtain ⟨b', hb', hS⟩ := hk a a' hR b hkb
  exact ⟨b', Option.bind_eq_some_iff.mpr ⟨a', ha', hb'⟩, hS⟩

/-- A conditional refines a conditional on the same test, branch by branch. -/
theorem Refines.ite {R : α → α' → Prop} {p : Prop} [Decidable p] {x y : Option α} {x' y' : Option α'}
    (hx : p → Refines R x x') (hy : ¬ p → Refines R y y') :
    Refines R (if p then x else y) (if p then x' else y') := by
  by_cases h : p
  · rw [if_pos h, if_pos h]; exact hx h
  · rw [if_neg h, if_neg h]; exact hy h

/-- **The rule for a loop** over the same list on both sides, with the invariant `R`. -/
theorem Refines.foldlM {R : α → α' → Prop} {f : α → δ → Option α} {f' : α' → δ → Option α'}
    (hf : ∀ a a' d, R a a' → Refines R (f a d) (f' a' d)) (ds : List δ) {a : α} {a' : α'} (h : R a a') :
    Refines R (ds.foldlM f a) (ds.foldlM f' a') := by
  induction ds generalizing a a' with
  | nil => exact Refines.pure h
  | cons d ds ih =>
      rw [List.foldlM_cons, List.foldlM_cons]
      exact (hf a a' d h).bind (fun _ _ hb => ih hb)

/-! ## Poisoned memory -/

/-- A cell is `none` while it is poisoned. -/
abbrev Cells (α : Type) := List (Option α)

/-- Reading a cell, which must be in the array and must have been written. -/
def read (m : Cells α) (i : Nat) : Option α := (load m i).join

/-- Writing a cell of the array. -/
def write (m : Cells α) (i : Nat) (v : α) : Option (Cells α) := store m i (some v)

/-- The values of the first `n` cells, none of which may be poisoned. -/
def readFront (m : Cells α) (n : Nat) : Option (List α) := (front m n).bind (List.mapM id)

/-- `memcpy` to the start of an array. -/
def copy (dst src : Cells α) (n : Nat) : Option (Cells α) :=
  (readFront src n).bind (fun vs => copyFront dst (vs.map some) n)

theorem mapM_id_map_some (vs : List α) : List.mapM id (vs.map some) = some vs := by
  induction vs with
  | nil => rfl
  | cons v vs ih => simp [ih]

theorem mapM_id_eq_some {m : Cells α} {vs : List α} (h : List.mapM id m = some vs) : m = vs.map some := by
  induction m generalizing vs with
  | nil =>
      cases h
      rfl
  | cons o m ih =>
      rw [List.mapM_cons] at h
      obtain ⟨v, hv, h⟩ := Option.bind_eq_some_iff.mp h
      obtain ⟨ws, hws, h⟩ := Option.bind_eq_some_iff.mp h
      cases h
      rw [List.map_cons, ← ih hws]
      exact congrArg (· :: m) hv

/-! ## Known values in front -/

/-- Reading known values in front of anything. -/
theorem read_known {vs : List α} (rest : Cells α) {i : Nat} (h : i < vs.length) :
    read (vs.map some ++ rest) i = load vs i := by
  unfold read
  rw [load_append rest (by rwa [List.length_map])]
  unfold load
  rw [List.getElem?_map, List.getElem?_eq_getElem h]
  rfl

/-- Reading the front of an array of which that front has been written. -/
theorem readFront_known {vs : List α} (rest : Cells α) {n : Nat} (h : n ≤ vs.length) :
    readFront (vs.map some ++ rest) n = some (vs.take n) := by
  unfold readFront
  rw [front_append rest (by rwa [List.length_map]), ← List.map_take]
  exact mapM_id_map_some _

/-- `m` has `n` cells, and its first cells are known to hold `pre`. -/
def Known (n : Nat) (pre : List α) (m : Cells α) : Prop := Fills n (pre.map some) m

/-- A copy makes the front of an array known. -/
theorem Known.copy {n k : Nat} {dst : Cells α} (hdst : dst.length = n) (hn : k ≤ n) {vs : List α}
    (rest : Cells α) (hvs : k ≤ vs.length) :
    ∃ m, copy dst (vs.map some ++ rest) k = some m ∧ Known n (vs.take k) m := by
  have hlen : ((vs.take k).map some).length = k := by rw [List.length_map, List.length_take]; omega
  obtain ⟨m, hm, hf⟩ := Fills.copyFront ((vs.take k).map some) hdst hn (Nat.le_of_eq hlen.symm)
  refine ⟨m, ?_, ?_⟩
  · unfold Poison.copy
    rw [readFront_known rest hvs, Option.bind_some, hm]
  · rw [List.take_of_length_le (Nat.le_of_eq hlen)] at hf
    exact hf

/-- Writing the cell right after the known part extends it. -/
theorem Known.write {n : Nat} {pre : List α} {m : Cells α} (h : Known n pre m) (hlt : pre.length < n)
    (v : α) :
    ∃ m', write m pre.length v = some m' ∧ Known n (pre ++ [v]) m' := by
  have hlen : (pre.map some).length = pre.length := List.length_map _
  obtain ⟨m', hm, hf⟩ := Fills.store h (by rw [hlen]; exact hlt) (some v)
  rw [hlen] at hm
  refine ⟨m', hm, ?_⟩
  unfold Known
  rw [List.map_append]
  exact hf

theorem Known.readFront {n : Nat} {pre : List α} {m : Cells α} (h : Known n pre m) :
    readFront m pre.length = some pre := by
  have hf := Fills.front h
  rw [List.length_map] at hf
  unfold Poison.readFront
  rw [hf]
  exact mapM_id_map_some pre

/-! ## Agreement with ordinary memory -/

/-- `c` has the cells of `m`, with the same value wherever `m` has one. -/
def Agrees (m : Cells α) (c : List α) : Prop :=
  m.length = c.length ∧ ∀ i v, read m i = some v → load c i = some v

theorem read_eq_some {m : Cells α} {i : Nat} {v : α} : read m i = some v ↔ m[i]? = some (some v) := by
  unfold read load
  exact Option.join_eq_some_iff

/-- Known cells in front, poisoned ones behind. -/
theorem agrees_known (vs : List α) {c tail : List α} {n : Nat} (hc : c = vs ++ tail) (hn : tail.length = n) :
    Agrees (vs.map some ++ List.replicate n none) c := by
  subst hc hn
  refine ⟨by simp, ?_⟩
  intro i v h
  rw [read_eq_some] at h
  by_cases hi : i < vs.length
  · rw [load_append tail hi]
    rw [List.getElem?_append_left (by rwa [List.length_map]), List.getElem?_map] at h
    obtain ⟨w, hw, h⟩ := Option.map_eq_some_iff.mp h
    cases h
    exact hw
  · -- a cell behind the known ones has no value
    rw [List.getElem?_append_right (by rw [List.length_map]; omega)] at h
    have hnone := List.eq_of_mem_replicate (List.mem_of_getElem? h)
    cases hnone

/-- Nothing is known: every memory of that size agrees. -/
theorem agrees_replicate {c : List α} {n : Nat} (hn : c.length = n) : Agrees (List.replicate n none) c :=
  agrees_known [] (List.nil_append c).symm hn

theorem Agrees.read {m : Cells α} {c : List α} (h : Agrees m c) (i : Nat) :
    Refines Eq (read m i) (load c i) := by
  intro v hv
  exact ⟨v, h.2 i v hv, rfl⟩

theorem Agrees.write {m : Cells α} {c : List α} (h : Agrees m c) (i : Nat) (v : α) :
    Refines Agrees (write m i v) (store c i v) := by
  intro m' hm'
  unfold Poison.write store at hm'
  split at hm'
  · next hi =>
    cases hm'
    refine ⟨c.set i v, by rw [store, if_pos (h.1 ▸ hi)], by simp [h.1], ?_⟩
    intro j w hw
    rw [read_eq_some, List.getElem?_set] at hw
    rw [load, List.getElem?_set, ← h.1]
    split at hw
    · next hij =>
      cases hw
      rw [if_pos hij, if_pos hi]
    · next hij =>
      rw [if_neg hij]
      exact h.2 j w (read_eq_some.mpr hw)
  · exact absurd hm' (by simp)

theorem Agrees.readFront {m : Cells α} {c : List α} (h : Agrees m c) (n : Nat) :
    Refines Eq (readFront m n) (front c n) := by
  intro vs hvs
  refine ⟨vs, ?_, rfl⟩
  obtain ⟨f, hf, hmap⟩ := Option.bind_eq_some_iff.mp hvs
  unfold front at hf
  split at hf
  · next hn =>
    cases hf
    have hm : m.take n = vs.map some := mapM_id_eq_some hmap
    rw [front, if_pos (by rw [← h.1]; exact hn)]
    congr 1
    apply List.ext_getElem?
    intro i
    have hlen : vs.length = n := by
      have := congrArg List.length hm
      rw [List.length_take, List.length_map] at this
      omega
    rw [List.getElem?_take]
    by_cases hi : i < n
    · -- both have the value that the poisoned memory is known to hold
      have hval : vs[i]? = some vs[i] := List.getElem?_eq_getElem (by omega)
      have hcell : m[i]? = some (some vs[i]) := by
        rw [← List.getElem?_take_of_lt hi, hm, List.getElem?_map, hval, Option.map_some]
      rw [if_pos hi, hval]
      exact h.2 i _ (read_eq_some.mpr hcell)
    · rw [if_neg hi, List.getElem?_eq_none (by omega)]
  · exact absurd hf (by simp)

/-- A checked copy refines the copy. -/
theorem Agrees.copy {m s : Cells α} {c d : List α} (h : Agrees m c) (hs : Agrees s d) (n : Nat) :
    Refines Agrees (copy m s n) (copyFront c d n) := by
  intro m' hm'
  obtain ⟨vs, hvs, hcopy⟩ := Option.bind_eq_some_iff.mp hm'
  obtain ⟨_, hfront, rfl⟩ := hs.readFront n vs hvs
  unfold front at hfront
  unfold copyFront at hcopy ⊢
  split at hfront
  · next hn =>
    split at hcopy
    · next hlen =>
      cases hcopy
      cases hfront
      refine ⟨d.take n ++ c.drop n, if_pos ⟨h.1 ▸ hlen.1, hn⟩, by simp [h.1], ?_⟩
      intro i v hv
      rw [read_eq_some] at hv
      have htake : ((d.take n).map some).take n = (d.take n).map some := by
        rw [← List.map_take, List.take_take, Nat.min_self]
      rw [htake] at hv
      by_cases hi : i < (d.take n).length
      · rw [load, List.getElem?_append_left hi]
        rw [List.getElem?_append_left (by rwa [List.length_map]), List.getElem?_map] at hv
        obtain ⟨w, hw, hv⟩ := Option.map_eq_some_iff.mp hv
        cases hv
        exact hw
      · -- behind the copied part the destination is as it was
        have hlt : (d.take n).length ≤ i := by omega
        rw [load, List.getElem?_append_right hlt, List.getElem?_drop]
        rw [List.getElem?_append_right (by rwa [List.length_map]), List.length_map,
          List.getElem?_drop] at hv
        exact h.2 _ v (read_eq_some.mpr hv)
    · exact absurd hcopy (by simp)
  · exact absurd hfront (by simp)

end Poison
