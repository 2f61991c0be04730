import LinearAssignment.Proofs.Matching
import LinearAssignment.Solver.Step
import Mathlib.Data.Fin.Tuple.Basic
import Mathlib.Order.Bounds.Basic
import Mathlib.Order.WellFounded

/-!
# Greedy stars

The second step stars zeros row by row, each in a column that has no star yet. `Stars.Greedy` says
which stars these are without the loop: a row has its star in the first of its zeros whose column no
row before it has taken, and has none if all of them are taken. Other stars are not greedy
(`Stars.Greedy.eq`).

The step never asks for a second star in a row or column, and its stars are the greedy ones
(`Solver.exists_starGreedily`). They leave no zero whose row and column are both free
(`Stars.Greedy.maximal`), and so where every row has a zero, there is a star
(`Stars.Maximal.size_pos`).
-/

namespace LinearAssignment

variable {n : Nat}

/-- The first position that passes a test is the least of those that pass it. -/
theorem find?_finRange_eq_some_iff {p : Fin n → Bool} {i : Fin n} :
    (List.finRange n).find? p = some i ↔ IsLeast {j | p j = true} i := by
  rw [← Fin.find?_eq_find?_finRange, Fin.find?_eq_some_iff]
  refine and_congr_right fun _ ↦ forall_congr' fun j ↦ ?_
  rw [← Bool.not_eq_true, imp_not_comm, not_lt]
  rfl

namespace Stars

/-- Stars are zeros, and there is one in the row or in the column of each zero of the given rows. -/
structure Maximal (costs : Grid n Int) (rows : List (Fin n)) (stars : Stars n) : Prop where
  consistent : stars.Consistent
  /-- Stars are zeros of the given rows. -/
  star_zero : ∀ i j, stars.columnOf.entry i = some j → i ∈ rows ∧ costs.cell i j = 0
  /-- No zero of the given rows can be added. -/
  blocked : ∀ i ∈ rows, ∀ j, costs.cell i j = 0 →
    (∃ k, stars.columnOf.entry i = some k) ∨ ∃ k, stars.rowOf.entry j = some k

/-- The columns in which row `i` has a zero and no row before it has a star. -/
def freeZeros (costs : Grid n Int) (stars : Stars n) (i : Fin n) : Set (Fin n) :=
  {j | costs.cell i j = 0 ∧ ∀ k < i, stars.columnOf.entry k ≠ some j}

/-- Each of the given rows has a star in the first of its free zeros, and there are no others. -/
structure Greedy (costs : Grid n Int) (rows : List (Fin n)) (stars : Stars n) : Prop where
  consistent : stars.Consistent
  star_iff : ∀ i j, stars.columnOf.entry i = some j ↔
    i ∈ rows ∧ IsLeast (stars.freeZeros costs i) j

variable {costs : Grid n Int} {rows : List (Fin n)} {stars stars' : Stars n} {i : Fin n}

/-- A zero of a given row makes sure of a star. -/
theorem Maximal.size_pos (h : Maximal costs rows stars) {i j : Fin n} (hi : i ∈ rows)
    (hzero : costs.cell i j = 0) : 1 ≤ stars.size := by
  rw [Stars.size_eq_card]
  refine Finset.card_pos.2 ?_
  rcases h.blocked i hi j hzero with hstar | ⟨k, hk⟩
  · exact ⟨i, mem_starredRows.2 hstar⟩
  · exact ⟨k, mem_starredRows.2 ⟨j, (h.consistent k j).2 hk⟩⟩

/-- Which zeros of a row are free is a matter of the rows before it. -/
theorem freeZeros_congr
    (h : ∀ k < i, stars'.columnOf.entry k = stars.columnOf.entry k) :
    stars'.freeZeros costs i = stars.freeZeros costs i := by
  refine Set.ext fun j ↦ and_congr_right fun _ ↦ forall₂_congr fun k hk ↦ ?_
  rw [h k hk]

namespace Greedy

/-- A given row has no star exactly if none of its zeros is free. -/
theorem columnOf_eq_none_iff (h : Greedy costs rows stars) (hi : i ∈ rows) :
    stars.columnOf.entry i = none ↔ stars.freeZeros costs i = ∅ := by
  rw [Set.eq_empty_iff_forall_notMem]
  constructor
  · intro hnone j hj
    obtain ⟨k, hk, hleast⟩ := WellFounded.has_min wellFounded_lt _ ⟨j, hj⟩
    have hstar := (h.star_iff i k).2 ⟨hi, hk, fun j' hj' ↦ not_lt.1 (hleast j' hj')⟩
    rw [hnone] at hstar
    cases hstar
  · exact fun hempty ↦ Option.eq_none_iff_forall_ne_some.2 fun j hj ↦
      hempty j ((h.star_iff i j).1 hj).2.1

/-- Nothing can be added to greedy stars. -/
theorem maximal (h : Greedy costs rows stars) : Maximal costs rows stars where
  consistent := h.consistent
  star_zero i j hij :=
    have hleast := (h.star_iff i j).1 hij
    ⟨hleast.1, hleast.2.1.1⟩
  blocked i hi j hzero := by
    rcases Option.eq_none_or_eq_some (stars.columnOf.entry i) with hnone | hstar
    · -- the zero is not free, so a row before it has taken its column
      have hempty := (h.columnOf_eq_none_iff hi).1 hnone
      have hj : j ∉ stars.freeZeros costs i := hempty ▸ Set.notMem_empty j
      obtain ⟨k, -, hk⟩ : ∃ k < i, stars.columnOf.entry k = some j := by
        by_contra! hall
        exact hj ⟨hzero, hall⟩
      exact .inr ⟨k, (h.consistent k j).1 hk⟩
    · exact .inl hstar

/-- There are no other greedy stars. -/
theorem eq (h : Greedy costs rows stars) (h' : Greedy costs rows stars') : stars = stars' := by
  have hcolumn : ∀ i, stars.columnOf.entry i = stars'.columnOf.entry i := fun i ↦ by
    induction i using WellFoundedLT.induction with
    | ind i ih =>
      refine Option.ext fun j ↦ ?_
      rw [h.star_iff, h'.star_iff, freeZeros_congr ih]
  have hrow : ∀ j, stars.rowOf.entry j = stars'.rowOf.entry j := fun j ↦ by
    refine Option.ext fun i ↦ ?_
    rw [← h.consistent, ← h'.consistent, hcolumn]
  obtain ⟨columnOf, rowOf⟩ := stars
  obtain ⟨columnOf', rowOf'⟩ := stars'
  exact congrArg₂ Stars.mk (Table.ext_entry hcolumn) (Table.ext_entry hrow)

/-- The next row takes the first of its free zeros, if it has one. -/
theorem append (h : Greedy costs rows stars) (hi : ∀ k ∈ rows, k < i)
    (hconsistent : stars'.Consistent)
    (hstar : ∀ a b, stars'.columnOf.entry a = some b ↔
      stars.columnOf.entry a = some b ∨ a = i ∧ IsLeast (stars.freeZeros costs i) b) :
    Greedy costs (rows ++ [i]) stars' where
  consistent := hconsistent
  star_iff a b := by
    -- no row up to the next one can tell the stars from those before
    have hfree : ∀ a ≤ i, stars'.freeZeros costs a = stars.freeZeros costs a := fun a ha ↦
      freeZeros_congr fun k hk ↦ Option.ext fun b ↦ (hstar k b).trans
        (or_iff_left fun hnew ↦ (hk.trans_le ha).ne hnew.1)
    rw [hstar, h.star_iff, List.mem_append, List.mem_singleton, or_and_right]
    refine or_congr (and_congr_right fun ha ↦ ?_) (and_congr_right fun ha ↦ ?_)
    · rw [hfree a (hi a ha).le]
    · rw [ha, hfree i le_rfl]

/-- What is looked for in the next row is the first of its free zeros. -/
theorem find?_eq_some_iff (h : Greedy costs rows stars) (hi : ∀ k ∈ rows, k < i) {j : Fin n} :
    ((List.finRange n).find? fun j ↦ (stars.rowOf.entry j).isNone && costs.cell i j == 0) =
      some j ↔ IsLeast (stars.freeZeros costs i) j := by
  rw [find?_finRange_eq_some_iff]
  refine iff_of_eq (congrArg (IsLeast · j) (Set.ext fun b ↦ ?_))
  rw [Set.mem_ofPred_eq, Bool.and_eq_true, Option.isNone_iff_eq_none, beq_iff_eq, and_comm,
    h.consistent.rowOf_eq_none_iff]
  -- all stars are in rows before the next one
  refine and_congr_right fun _ ↦ ⟨fun hall k _ ↦ hall k, fun hall k hk ↦ ?_⟩
  exact hall k (hi k ((h.star_iff k b).1 hk).1) hk

end Greedy

end Stars

namespace Solver

/-- Starring greedily never faults, and ends with the greedy stars. -/
theorem exists_starGreedily (costs : Grid n Int) :
    ∃ stars, starGreedily costs (Stars.empty n) = .ok stars ∧
      Stars.Greedy costs (List.finRange n) stars := by
  refine Checked.foldlM_induction (P := Stars.Greedy costs)
    ⟨Stars.consistent_empty n, by simp [Stars.empty]⟩ fun before i after stars heq h ↦ ?_
  have hi : ∀ k ∈ before, k < i := fun k hk ↦
    (List.pairwise_append.1 (heq ▸ List.pairwise_lt_finRange n)).2.2 k hk i List.mem_cons_self
  cases hfind : (List.finRange n).find? fun j ↦
      (stars.rowOf.entry j).isNone && costs.cell i j == 0 with
  | some j =>
    have hleast := (h.find?_eq_some_iff hi).1 hfind
    have hj : stars.rowOf.entry j = none := by
      have hfound := List.find?_some hfind
      rw [Bool.and_eq_true, Option.isNone_iff_eq_none] at hfound
      exact hfound.1
    have hrow : stars.columnOf.entry i = none :=
      Option.eq_none_iff_forall_ne_some.2 fun b hb ↦
        lt_irrefl i (hi i ((h.star_iff i b).1 hb).1)
    obtain ⟨stars', hinsert, hconsistent, hstar⟩ := h.consistent.exists_insert hrow hj
    refine ⟨stars', hinsert, h.append hi hconsistent fun a b ↦ (hstar a b).trans ?_⟩
    exact or_congr_right (and_congr_right fun _ ↦ ⟨fun hb ↦ hb ▸ hleast, fun hb ↦ hb.unique hleast⟩)
  | none =>
    refine ⟨stars, rfl, h.append hi h.consistent fun a b ↦ (or_iff_left ?_).symm⟩
    rintro ⟨-, hb⟩
    rw [(h.find?_eq_some_iff hi).2 hb] at hfind
    cases hfind

end Solver

end LinearAssignment
