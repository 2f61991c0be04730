import LinearAssignment.Proofs.Reduction
import LinearAssignment.Proofs.Search

/-!
# Potentials and shifts

A solver stores reduced costs. What they are reduced by is recorded nowhere, so it is added here as
a ghost: a *potential* for each row and column, and the total of all shifts so far. The exact
reduced cost of a cell is its cost less the potentials of its row and column.

Where a cost is raised above the largest one of its type it is clamped, and from then on the stored
cost lies below the exact one. `Reduced` is what remains true of it:

* stored costs lie between zero and the exact ones (`nonneg`, `le_exact`);
* one that differs from the exact cost is *high*: together with the total shift it is above the
  largest cost of the type (`exact_or_high`). A shift lowers a cost by its amount at most and adds
  that amount to the total, so a high cost stays high;
* the total shift itself is at most the largest cost (`shifted_atMost`).

So a cost that was ever clamped is never zero, stored or exact (`Reduced.cell_eq_zero_iff`). Nor is
it the least uncovered one: a row and a column without stars were never covered, and what is left
of the spread at their cell is smaller (`Reduced.lt_of_high`). Hence the stored costs and the exact
ones have the same least uncovered cost (`Reduced.leastUncovered?_exact`).
-/

namespace LinearAssignment

variable {n : Nat}

/-- What the costs of a solver are reduced by. -/
structure Potentials (n : Nat) where
  /-- The potential of each row. -/
  row : Fin n → Int
  /-- The potential of each column. -/
  column : Fin n → Int
  /-- The total of all shifts. -/
  shifted : Int

namespace Potentials

/-- Before the first step. -/
def zero (n : Nat) : Potentials n :=
  ⟨fun _ ↦ 0, fun _ ↦ 0, 0⟩

/-- After the rows have been lowered by their least costs. -/
def lowered (C : Grid n Int) : Potentials n :=
  ⟨C.rowLeast, fun _ ↦ 0, 0⟩

/-- After a shift: `m` is added to the covered rows and taken from the uncovered columns. -/
def shift (p : Potentials n) (m : Int) (cover : Cover n) : Potentials n where
  row i := if cover.rows.entry i then p.row i - m else p.row i
  column j := if cover.columns.entry j then p.column j else p.column j + m
  shifted := p.shifted + m

/-- The exact reduced cost of a cell. -/
def exact (p : Potentials n) (C : Grid n Int) (i j : Fin n) : Int :=
  C.cell i j - p.row i - p.column j

end Potentials

namespace Solver

variable {W : CostType} {m c : Int} {costs : Grid n Int} {cover : Cover n}

/-- What a cost becomes in a shift, computed on exact integers and clamped. -/
def shiftedCost (W : CostType) (m : Int) (rowCovered columnCovered : Bool) (c : Int) : Int :=
  match rowCovered, columnCovered with
  | true, true => W.clamp (c + m)
  | false, false => c - m
  | _, _ => c

/-- The costs after a shift by `m`. -/
def shiftedCosts (W : CostType) (m : Int) (cover : Cover n) (costs : Grid n Int) : Grid n Int :=
  Grid.ofFn fun i j ↦
    shiftedCost W m (cover.rows.entry i) (cover.columns.entry j) (costs.cell i j)

/-- On exact costs, a shift is a change of the potentials. -/
theorem exact_shift (p : Potentials n) (C : Grid n Int) (m : Int) (cover : Cover n)
    (i j : Fin n) : (p.shift m cover).exact C i j =
      shiftedCost .unbounded m (cover.rows.entry i) (cover.columns.entry j) (p.exact C i j) := by
  simp only [Potentials.exact, Potentials.shift]
  cases cover.rows.entry i <;> cases cover.columns.entry j <;>
    simp only [shiftedCost, CostType.clamp, CostType.greatest?, Bool.false_eq_true, if_true,
      if_false] <;> omega

/-- A cost between zero and the largest one is shifted without a fault by an amount in that range
that is not above it if it is uncovered. -/
theorem shiftCost_eq_ok {rowCovered columnCovered : Bool} (hm : 0 ≤ m) (hm' : W.AtMost m)
    (hc : 0 ≤ c) (hc' : W.AtMost c)
    (hle : rowCovered = false → columnCovered = false → m ≤ c) :
    shiftCost W m rowCovered columnCovered c =
      .ok (shiftedCost W m rowCovered columnCovered c) := by
  cases rowCovered with
  | true =>
    cases columnCovered with
    | true => exact CostType.raise_eq_ok hm hm' hc
    | false => rfl
  | false =>
    cases columnCovered with
    | true => rfl
    | false => exact CostType.sub_eq_ok (hle rfl rfl) (hc'.mono (by omega))

theorem mem_uncoveredCosts_iff {c : Int} : c ∈ uncoveredCosts costs cover ↔
    ∃ i j, cover.rows.entry i = false ∧ cover.columns.entry j = false ∧ costs.cell i j = c := by
  simp only [uncoveredCosts, List.mem_flatMap, List.mem_map, Cover.mem_uncoveredRows,
    Cover.mem_uncoveredColumns]
  constructor
  · rintro ⟨i, hi, j, hj, hc⟩
    exact ⟨i, j, hi, hj, hc⟩
  · rintro ⟨i, j, hi, hj, hc⟩
    exact ⟨i, hi, j, hj, hc⟩

/-- The amount of a shift is an uncovered cost and at most each of them. -/
theorem leastUncovered?_eq_some_iff : leastUncovered? costs cover = some m ↔
    (∃ i j, cover.rows.entry i = false ∧ cover.columns.entry j = false ∧ costs.cell i j = m) ∧
    ∀ i j, cover.rows.entry i = false → cover.columns.entry j = false → m ≤ costs.cell i j := by
  rw [leastUncovered?, List.min?_eq_some_iff, mem_uncoveredCosts_iff]
  refine and_congr_right fun _ ↦ ⟨fun h i j hi hj ↦ ?_, fun h c hc ↦ ?_⟩
  · exact h _ (mem_uncoveredCosts_iff.2 ⟨i, j, hi, hj, rfl⟩)
  · obtain ⟨i, j, hi, hj, rfl⟩ := mem_uncoveredCosts_iff.1 hc
    exact h i j hi hj

theorem exists_leastUncovered? (costs : Grid n Int) {i j : Fin n} (hi : cover.rows.entry i = false)
    (hj : cover.columns.entry j = false) : ∃ m, leastUncovered? costs cover = some m :=
  Option.isSome_iff_exists.1 (List.isSome_min?_of_mem
    (mem_uncoveredCosts_iff.2 ⟨i, j, hi, hj, rfl⟩))

end Solver

namespace Searching

variable {costs costs' : Grid n Int} {stars : Stars n} {primes : Primes n} {cover : Cover n}

/-- Without a seed, the column of a prime is not covered. -/
theorem column_of_prime (h : Searching costs stars primes cover none) {i j : Fin n}
    (hij : primes.columnOf.entry i = some j) : cover.columns.entry j = false := by
  obtain ⟨order, horder, hmem⟩ := h.ordered
  rw [Bool.eq_false_iff]
  intro hcovered
  obtain ⟨k, hk, hrow⟩ := (h.column_covered j).1 hcovered
  -- the star in the column of the prime is in an earlier primed row, which is covered
  have hblocked : k ∈ order := horder.mem_of_star ((hmem i).2 (by simp [hij])) hij hk
  have := (h.row_covered k).2 ⟨(hmem k).1 hblocked, by simp⟩
  simp [hrow] at this

/-- A search goes on where the zeros at its primes are kept. -/
theorem congr_costs (h : Searching costs stars primes cover none)
    (hzero : ∀ i j, primes.columnOf.entry i = some j → costs'.cell i j = 0) :
    Searching costs' stars primes cover none :=
  ⟨h.row_covered, h.starred, h.column_covered, hzero, h.ordered⟩

end Searching

/-- How the stored costs of a solver are related to the costs `C` that it was given, once the rows
have been lowered. -/
structure Reduced (W : CostType) (C : Grid n Int) (p : Potentials n) (stars : Stars n)
    (costs : Grid n Int) : Prop where
  /-- The rows could be lowered. -/
  spread : C.SpreadsFit W
  /-- Costs are not negative. -/
  nonneg : ∀ i j, 0 ≤ costs.cell i j
  /-- Costs are of the type. -/
  atMost : ∀ i j, W.AtMost (costs.cell i j)
  /-- Costs are not above the exact ones. -/
  le_exact : ∀ i j, costs.cell i j ≤ p.exact C i j
  /-- Costs are the exact ones, or together with the total shift are too large for the type. -/
  exact_or_high : ∀ i j, costs.cell i j = p.exact C i j ∨
    ¬ W.AtMost (costs.cell i j + p.shifted)
  /-- The total shift is not negative. -/
  shifted_nonneg : 0 ≤ p.shifted
  /-- The total shift is of the type. -/
  shifted_atMost : W.AtMost p.shifted
  /-- A row without a star has only been lowered by its least cost. -/
  row_free : ∀ i, stars.columnOf.entry i = none → p.row i = C.rowLeast i
  /-- A column without a star has been part of every shift. -/
  column_free : ∀ j, stars.rowOf.entry j = none → p.column j = p.shifted
  /-- Stars are zeros. -/
  star_zero : ∀ i j, stars.columnOf.entry i = some j → costs.cell i j = 0
  /-- A row without a star has a zero. -/
  zero_free : ∀ i, stars.columnOf.entry i = none → ∃ j, costs.cell i j = 0

namespace Reduced

variable {W : CostType} {C costs : Grid n Int} {p : Potentials n} {stars : Stars n}
  {primes : Primes n} {cover : Cover n}

/-- After the first step. -/
theorem lowered (h : C.SpreadsFit W) : Reduced W C (.lowered C) (Stars.empty n)
    (Grid.ofFn fun i j ↦ C.cell i j - C.rowLeast i) where
  spread := h
  nonneg i j := by
    have := C.rowLeast_le i j
    rw [Grid.cell_ofFn]
    omega
  atMost i j := by
    rw [Grid.cell_ofFn]
    exact (h i).mono (C.sub_rowLeast_le_rowSpread i j)
  le_exact i j := by simp [Potentials.exact, Potentials.lowered]
  exact_or_high i j := .inl (by simp [Potentials.exact, Potentials.lowered])
  shifted_nonneg := le_rfl
  shifted_atMost := CostType.atMost_of_fits (CostType.fits_zero W)
  row_free _ _ := rfl
  column_free _ _ := rfl
  star_zero i j hij := by simp [Stars.empty] at hij
  zero_free i _ := by
    obtain ⟨j, hj⟩ := C.exists_cell_eq_rowLeast i
    exact ⟨j, by rw [Grid.cell_ofFn, hj, Int.sub_self]⟩

/-- Rows and columns may get stars, as long as these are zeros. -/
theorem congr_stars {stars' : Stars n} (h : Reduced W C p stars costs)
    (hrow : ∀ i, stars'.columnOf.entry i = none → stars.columnOf.entry i = none)
    (hcolumn : ∀ j, stars'.rowOf.entry j = none → stars.rowOf.entry j = none)
    (hzero : ∀ i j, stars'.columnOf.entry i = some j → costs.cell i j = 0) :
    Reduced W C p stars' costs where
  spread := h.spread
  nonneg := h.nonneg
  atMost := h.atMost
  le_exact := h.le_exact
  exact_or_high := h.exact_or_high
  shifted_nonneg := h.shifted_nonneg
  shifted_atMost := h.shifted_atMost
  row_free i hi := h.row_free i (hrow i hi)
  column_free j hj := h.column_free j (hcolumn j hj)
  star_zero := hzero
  zero_free i hi := h.zero_free i (hrow i hi)

/-! ### Stored and exact costs -/

/-- Stored and exact costs have the same zeros. -/
theorem cell_eq_zero_iff (h : Reduced W C p stars costs) (i j : Fin n) :
    costs.cell i j = 0 ↔ p.exact C i j = 0 := by
  constructor
  · intro hzero
    rcases h.exact_or_high i j with heq | hhigh
    · rw [← heq, hzero]
    · rw [hzero, Int.zero_add] at hhigh
      exact absurd h.shifted_atMost hhigh
  · intro hzero
    have h₀ := h.nonneg i j
    have hle := h.le_exact i j
    omega

/-- What a cell without stars in its row and column has left, and what was taken from it, was left
of its cost by the first step. -/
theorem cell_add_shifted_le (h : Reduced W C p stars costs) {i j : Fin n}
    (hi : stars.columnOf.entry i = none) (hj : stars.rowOf.entry j = none) :
    costs.cell i j + p.shifted ≤ C.cell i j - C.rowLeast i := by
  have hle := h.le_exact i j
  rw [Potentials.exact, h.row_free i hi, h.column_free j hj] at hle
  omega

/-- So it is within the spread of its row. -/
theorem atMost_of_free (h : Reduced W C p stars costs) {i j : Fin n}
    (hi : stars.columnOf.entry i = none) (hj : stars.rowOf.entry j = none) :
    W.AtMost (costs.cell i j + p.shifted) :=
  (h.spread i).mono ((h.cell_add_shifted_le hi hj).trans (C.sub_rowLeast_le_rowSpread i j))

/-- A high cost is above that of a cell without stars in its row and column. -/
theorem lt_of_high (h : Reduced W C p stars costs) {i j a b : Fin n}
    (hi : stars.columnOf.entry i = none) (hj : stars.rowOf.entry j = none)
    (hab : ¬ W.AtMost (costs.cell a b + p.shifted)) : costs.cell i j < costs.cell a b := by
  by_contra hlt
  exact hab ((h.atMost_of_free hi hj).mono (by omega))

/-- The least uncovered cost is the exact one where it is attained, so it is the least uncovered
exact cost as well. -/
theorem leastUncovered?_exact (h : Reduced W C p stars costs) {i j : Fin n} {m : Int}
    (hi : stars.columnOf.entry i = none) (hj : stars.rowOf.entry j = none)
    (hi' : cover.rows.entry i = false) (hj' : cover.columns.entry j = false)
    (hm : Solver.leastUncovered? costs cover = some m) :
    Solver.leastUncovered? (Grid.ofFn (p.exact C)) cover = some m := by
  obtain ⟨⟨a, b, ha, hb, hab⟩, hleast⟩ := Solver.leastUncovered?_eq_some_iff.1 hm
  rw [Solver.leastUncovered?_eq_some_iff]
  simp only [Grid.cell_ofFn]
  refine ⟨⟨a, b, ha, hb, ?_⟩, fun a' b' ha' hb' ↦ (hleast a' b' ha' hb').trans (h.le_exact a' b')⟩
  -- a high cost is not the least one, as the cell without stars costs less
  rcases h.exact_or_high a b with heq | hhigh
  · rw [← heq, hab]
  · have hlt := h.lt_of_high hi hj hhigh
    have hle := hleast i j hi' hj'
    omega

/-- Without a largest cost, stored costs are exact. -/
theorem cell_eq_exact (h : Reduced .unbounded C p stars costs) : costs = Grid.ofFn (p.exact C) := by
  refine Grid.ext_cell fun i j ↦ ?_
  rw [Grid.cell_ofFn]
  exact (h.exact_or_high i j).resolve_right fun hhigh ↦ hhigh (CostType.atMost_unbounded _)

end Reduced

end LinearAssignment
