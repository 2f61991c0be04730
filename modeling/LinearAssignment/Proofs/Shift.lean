import LinearAssignment.Proofs.Potentials

/-!
# Shifting costs

The sixth phase of the method. What it does to a single cost is said first: the cost stays between
zero and the exact one, and stays exact or high (`Solver.shiftedCost_exact_or_high`). When no
uncovered cost is zero, the least of them is positive (`one_le_of_leastUncovered?`), and shifting by
it goes through without a fault, keeps the relation between stored and exact costs, keeps stars and
primes zero, and makes an uncovered zero (`Reduced.exists_shift`).
-/

namespace LinearAssignment

variable {n : Nat} {W : CostType} {C costs : Grid n Int} {p : Potentials n} {stars : Stars n}
  {primes : Primes n} {cover : Cover n} {m : Int}

namespace Solver

theorem cell_shiftedCosts (W : CostType) (m : Int) (cover : Cover n) (costs : Grid n Int)
    (i j : Fin n) : (shiftedCosts W m cover costs).cell i j =
      shiftedCost W m (cover.rows.entry i) (cover.columns.entry j) (costs.cell i j) := by
  rw [shiftedCosts, Grid.cell_ofFn]

/-- A cost that is covered once does not change. -/
theorem shiftedCost_of_ne (W : CostType) (m c : Int) {rowCovered columnCovered : Bool}
    (h : rowCovered = !columnCovered) : shiftedCost W m rowCovered columnCovered c = c := by
  subst h
  cases columnCovered <;> rfl

variable {rowCovered columnCovered : Bool} {c d : Int}

theorem shiftedCost_nonneg (hm : 0 ≤ m) (hc : 0 ≤ c) (hc' : W.AtMost c)
    (hle : rowCovered = false → columnCovered = false → m ≤ c) :
    0 ≤ shiftedCost W m rowCovered columnCovered c := by
  cases rowCovered with
  | true =>
    cases columnCovered with
    | true => exact CostType.le_clamp (hc'.mono hc) (by omega)
    | false => exact hc
  | false =>
    cases columnCovered with
    | true => exact hc
    | false => exact Int.sub_nonneg_of_le (hle rfl rfl)

theorem atMost_shiftedCost (hm : 0 ≤ m) (hc : W.AtMost c) :
    W.AtMost (shiftedCost W m rowCovered columnCovered c) := by
  cases rowCovered with
  | true =>
    cases columnCovered with
    | true => exact CostType.atMost_clamp W _
    | false => exact hc
  | false =>
    cases columnCovered with
    | true => exact hc
    | false => exact hc.mono (Int.sub_le_self _ hm)

/-- A shift does not bring a stored cost nearer to the exact one above it. -/
theorem sub_le_sub_shiftedCost (W : CostType) (m : Int) (rowCovered columnCovered : Bool)
    (c d : Int) : d - c ≤ shiftedCost .unbounded m rowCovered columnCovered d -
      shiftedCost W m rowCovered columnCovered c := by
  cases rowCovered with
  | true =>
    cases columnCovered with
    | true =>
      have hclamp := CostType.clamp_le W (c + m)
      show d - c ≤ d + m - W.clamp (c + m)
      omega
    | false => exact Int.le_refl (d - c)
  | false =>
    cases columnCovered with
    | true => exact Int.le_refl (d - c)
    | false =>
      show d - c ≤ d - m - (c - m)
      omega

/-- A shifted cost stays the exact one or high. Where it is clamped it becomes high, as the shift is
positive, and where it is lowered the total of all shifts makes up for it. -/
theorem shiftedCost_exact_or_high {total : Int} (htotal : 0 ≤ total) (hm : 1 ≤ m)
    (h : c = d ∨ ¬ W.AtMost (c + total)) :
    shiftedCost W m rowCovered columnCovered c =
        shiftedCost .unbounded m rowCovered columnCovered d ∨
      ¬ W.AtMost (shiftedCost W m rowCovered columnCovered c + (total + m)) := by
  have hhigh_mono : ∀ x, c ≤ x + m → ¬ W.AtMost (c + total) → ¬ W.AtMost (x + (total + m)) :=
    fun x hx hhigh hle ↦ hhigh (hle.mono (by omega))
  cases rowCovered with
  | true =>
    cases columnCovered with
    | true =>
      show W.clamp (c + m) = d + m ∨ ¬ W.AtMost (W.clamp (c + m) + (total + m))
      rcases CostType.clamp_eq_or W (c + m) with heq | ⟨top, htop, heq, -⟩
      · rw [heq]
        exact h.imp (congrArg (· + m)) (hhigh_mono (c + m) (by omega))
      · rw [heq]
        refine .inr fun hle ↦ ?_
        have := hle top htop
        omega
    | false => exact h.imp id (hhigh_mono c (by omega))
  | false =>
    cases columnCovered with
    | true => exact h.imp id (hhigh_mono c (by omega))
    | false => exact h.imp (congrArg (· - m)) (hhigh_mono (c - m) (by omega))

end Solver

namespace Searching

/-- The cell of a star is covered once. -/
theorem covered_of_star (h : Searching costs stars primes cover none) (hstars : stars.Consistent)
    {i j : Fin n} (hij : stars.columnOf.entry i = some j) :
    cover.rows.entry i = !cover.columns.entry j := by
  have hiff := h.column_of_star ((hstars i j).1 hij)
  cases hi : cover.rows.entry i with
  | true =>
    have hj : cover.columns.entry j = false := by
      rw [Bool.eq_false_iff, ne_eq, hiff, hi]
      exact Bool.noConfusion
    rw [hj, Bool.not_false]
  | false => rw [hiff.2 hi, Bool.not_true]

/-- The cell of a prime is covered once, by its row. -/
theorem covered_of_prime (h : Searching costs stars primes cover none) {i j : Fin n}
    (hij : primes.columnOf.entry i = some j) :
    cover.rows.entry i = !cover.columns.entry j := by
  rw [h.column_of_prime hij, (h.row_covered i).2 ⟨by simp [hij], by simp⟩, Bool.not_false]

end Searching

namespace Reduced

/-- If no zero is uncovered, the least uncovered cost is positive. -/
theorem one_le_of_leastUncovered? (h : Reduced W C p stars costs)
    (hzero : Solver.uncoveredZero? costs cover = none)
    (hm : Solver.leastUncovered? costs cover = some m) : 1 ≤ m := by
  obtain ⟨⟨a, b, ha, hb, hab⟩, -⟩ := Solver.leastUncovered?_eq_some_iff.1 hm
  have hne := Solver.uncoveredZero?_eq_none_iff.1 hzero a b ha hb
  have h₀ := h.nonneg a b
  omega

/-- A shift by at most the uncovered costs and the largest cost goes through. -/
theorem shiftCosts_eq_ok (h : Reduced W C p stars costs)
    (hzero : Solver.uncoveredZero? costs cover = none)
    (hm : Solver.leastUncovered? costs cover = some m) :
    Solver.shiftCosts W costs cover = .ok (Solver.shiftedCosts W m cover costs) := by
  have hpos := h.one_le_of_leastUncovered? hzero hm
  obtain ⟨⟨a, b, -, -, hab⟩, hleast⟩ := Solver.leastUncovered?_eq_some_iff.1 hm
  rw [Solver.shiftCosts, hm]
  exact Grid.ofFnM_eq_ok fun i j ↦ Solver.shiftCost_eq_ok (by omega) (hab ▸ h.atMost a b)
    (h.nonneg i j) (h.atMost i j) (hleast i j)

/-- What a cell without stars in its row and column has left pays for the shift. -/
theorem atMost_shifted_add (h : Reduced W C p stars costs)
    (hsearch : Searching costs stars primes cover none) (hstars : stars.Consistent)
    (hlt : stars.size < n) (hm : Solver.leastUncovered? costs cover = some m) :
    W.AtMost (p.shifted + m) := by
  obtain ⟨-, hleast⟩ := Solver.leastUncovered?_eq_some_iff.1 hm
  obtain ⟨i, hi⟩ := Stars.exists_free_row hlt
  obtain ⟨j, hj⟩ := hstars.exists_free_column hlt
  have hle := hleast i j (hsearch.row_of_free hi) (hsearch.column_of_free hj)
  exact (h.atMost_of_free hi hj).mono (by omega)

/-- The zero of a row without a star stays zero, as it is covered by its column. -/
theorem exists_zero_shift (h : Reduced W C p stars costs)
    (hsearch : Searching costs stars primes cover none)
    (hzero : Solver.uncoveredZero? costs cover = none) {i : Fin n}
    (hi : stars.columnOf.entry i = none) :
    ∃ j, (Solver.shiftedCosts W m cover costs).cell i j = 0 := by
  obtain ⟨j, hj⟩ := h.zero_free i hi
  have hrow := hsearch.row_of_free hi
  have hcolumn : cover.columns.entry j = true := by
    rw [← Bool.not_eq_false]
    exact fun hj' ↦ Solver.uncoveredZero?_eq_none_iff.1 hzero i j hrow hj' hj
  refine ⟨j, ?_⟩
  rw [Solver.cell_shiftedCosts, hrow, hcolumn]
  exact hj

/-- Shifting by the least uncovered cost keeps the relation between stored and exact costs. -/
theorem shift (h : Reduced W C p stars costs) (hsearch : Searching costs stars primes cover none)
    (hstars : stars.Consistent) (hlt : stars.size < n)
    (hzero : Solver.uncoveredZero? costs cover = none)
    (hm : Solver.leastUncovered? costs cover = some m) :
    Reduced W C (p.shift m cover) stars (Solver.shiftedCosts W m cover costs) := by
  have hpos := h.one_le_of_leastUncovered? hzero hm
  obtain ⟨-, hleast⟩ := Solver.leastUncovered?_eq_some_iff.1 hm
  exact {
    spread := h.spread
    nonneg := fun i j ↦ by
      rw [Solver.cell_shiftedCosts]
      exact Solver.shiftedCost_nonneg (by omega) (h.nonneg i j) (h.atMost i j) (hleast i j)
    atMost := fun i j ↦ by
      rw [Solver.cell_shiftedCosts]
      exact Solver.atMost_shiftedCost (by omega) (h.atMost i j)
    le_exact := fun i j ↦ by
      rw [Solver.cell_shiftedCosts, Solver.exact_shift]
      exact Int.sub_nonneg.1 ((Int.sub_nonneg_of_le (h.le_exact i j)).trans
        (Solver.sub_le_sub_shiftedCost W m _ _ _ _))
    exact_or_high := fun i j ↦ by
      rw [Solver.cell_shiftedCosts, Solver.exact_shift]
      exact Solver.shiftedCost_exact_or_high h.shifted_nonneg hpos (h.exact_or_high i j)
    shifted_nonneg := Int.add_nonneg h.shifted_nonneg (by omega)
    shifted_atMost := h.atMost_shifted_add hsearch hstars hlt hm
    row_free := fun i hi ↦ by
      simp [Potentials.shift, hsearch.row_of_free hi, h.row_free i hi]
    column_free := fun j hj ↦ by
      simp [Potentials.shift, hsearch.column_of_free hj, h.column_free j hj]
    star_zero := fun i j hij ↦ by
      rw [Solver.cell_shiftedCosts, Solver.shiftedCost_of_ne W m _
        (hsearch.covered_of_star hstars hij), h.star_zero i j hij]
    zero_free := fun i hi ↦ h.exists_zero_shift hsearch hzero hi }

/-- Shifting by the least uncovered cost goes on with the search, which has a new zero to find. -/
theorem exists_shift (h : Reduced W C p stars costs)
    (hsearch : Searching costs stars primes cover none) (hstars : stars.Consistent)
    (hlt : stars.size < n) (hzero : Solver.uncoveredZero? costs cover = none) :
    ∃ m, Solver.leastUncovered? costs cover = some m ∧
      Solver.shiftCosts W costs cover = .ok (Solver.shiftedCosts W m cover costs) ∧
      Reduced W C (p.shift m cover) stars (Solver.shiftedCosts W m cover costs) ∧
      Searching (Solver.shiftedCosts W m cover costs) stars primes cover none ∧
      Solver.uncoveredZero? (Solver.shiftedCosts W m cover costs) cover ≠ none := by
  obtain ⟨a, ha⟩ := Stars.exists_free_row hlt
  obtain ⟨b, hb⟩ := hstars.exists_free_column hlt
  obtain ⟨m, hm⟩ := Solver.exists_leastUncovered? costs
    (hsearch.row_of_free ha) (hsearch.column_of_free hb)
  refine ⟨m, hm, h.shiftCosts_eq_ok hzero hm, h.shift hsearch hstars hlt hzero hm,
    hsearch.congr_costs fun i j hij ↦ ?_, fun hnone ↦ ?_⟩
  · rw [Solver.cell_shiftedCosts, Solver.shiftedCost_of_ne W m _ (hsearch.covered_of_prime hij),
      hsearch.prime_zero i j hij]
  · obtain ⟨⟨i, j, hi, hj, hij⟩, -⟩ := Solver.leastUncovered?_eq_some_iff.1 hm
    refine Solver.uncoveredZero?_eq_none_iff.1 hnone i j hi hj ?_
    rw [Solver.cell_shiftedCosts, hi, hj, hij]
    exact Int.sub_self m

end Reduced

end LinearAssignment
