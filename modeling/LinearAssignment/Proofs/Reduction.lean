import LinearAssignment.Proofs.Ceiling
import LinearAssignment.Proofs.CostMatrix.Views
import LinearAssignment.Solver.Step

/-!
# Row reduction

The first step lowers every row by its least cost. The largest difference that it forms in a row is
the spread of the row, so it goes through exactly if every spread is at most the largest cost of
the type (`Solver.lowerRows_eq_ok`, `Solver.lowerRows_eq_error`). Costs of an unsigned type always
have such spreads (`CostMatrix.Over.spreadsFit_of_unsigned`).

The step computes what the row operations of a matrix do one row after the other, and the checks
that these make of their arguments do not fail (`CostMatrix.foldlM_lowerRow`).
-/

namespace LinearAssignment

/-- The greatest of some costs, or zero if there are none. -/
def greatestCost (costs : List Int) : Int :=
  costs.max?.getD 0

theorem leastCost_le {costs : List Int} {c : Int} (h : c ∈ costs) : leastCost costs ≤ c := by
  obtain ⟨least, hleast⟩ := Option.isSome_iff_exists.1 (List.isSome_min?_of_mem h)
  rw [leastCost, hleast]
  exact (List.min?_eq_some_iff.1 hleast).2 c h

theorem leastCost_mem {costs : List Int} (h : costs ≠ []) : leastCost costs ∈ costs := by
  obtain ⟨least, hleast⟩ := Option.isSome_iff_exists.1 (List.isSome_min?_of_ne_nil h)
  rw [leastCost, hleast]
  exact (List.min?_eq_some_iff.1 hleast).1

theorem le_greatestCost {costs : List Int} {c : Int} (h : c ∈ costs) : c ≤ greatestCost costs := by
  obtain ⟨greatest, hgreatest⟩ := Option.isSome_iff_exists.1 (List.isSome_max?_of_mem h)
  rw [greatestCost, hgreatest]
  exact (List.max?_eq_some_iff.1 hgreatest).2 c h

theorem greatestCost_mem {costs : List Int} (h : costs ≠ []) : greatestCost costs ∈ costs := by
  obtain ⟨greatest, hgreatest⟩ := Option.isSome_iff_exists.1 (List.isSome_max?_of_ne_nil h)
  rw [greatestCost, hgreatest]
  exact (List.max?_eq_some_iff.1 hgreatest).1

namespace Grid

variable {n : Nat} {costs : Grid n Int}

/-- The least cost of row `i`. -/
def rowLeast (costs : Grid n Int) (i : Fin n) : Int :=
  leastCost (Table.entry costs i).toList

/-- The greatest cost of row `i`. -/
def rowGreatest (costs : Grid n Int) (i : Fin n) : Int :=
  greatestCost (Table.entry costs i).toList

/-- The difference between the greatest and the least cost of row `i`. -/
def rowSpread (costs : Grid n Int) (i : Fin n) : Int :=
  costs.rowGreatest i - costs.rowLeast i

/-- No row has a spread above the largest cost of the type. -/
def SpreadsFit (W : CostType) (costs : Grid n Int) : Prop :=
  ∀ i, W.AtMost (costs.rowSpread i)

instance (W : CostType) (costs : Grid n Int) : Decidable (costs.SpreadsFit W) :=
  inferInstanceAs (Decidable (∀ i, W.AtMost (costs.rowSpread i)))

theorem rowLeast_le (costs : Grid n Int) (i j : Fin n) : costs.rowLeast i ≤ costs.cell i j :=
  leastCost_le (Table.mem_toList_iff.2 ⟨j, rfl⟩)

theorem le_rowGreatest (costs : Grid n Int) (i j : Fin n) :
    costs.cell i j ≤ costs.rowGreatest i :=
  le_greatestCost (Table.mem_toList_iff.2 ⟨j, rfl⟩)

/-- A row is not empty, as its own number is that of a column. -/
theorem toList_row_ne_nil (costs : Grid n Int) (i : Fin n) :
    (Table.entry costs i).toList ≠ [] := fun h ↦ by
  have hmem := Table.mem_toList_iff.2 ⟨i, (rfl : (Table.entry costs i).entry i = _)⟩
  rw [h] at hmem
  exact List.not_mem_nil hmem

theorem exists_cell_eq_rowLeast (costs : Grid n Int) (i : Fin n) :
    ∃ j, costs.cell i j = costs.rowLeast i :=
  Table.mem_toList_iff.1 (leastCost_mem (costs.toList_row_ne_nil i))

theorem exists_cell_eq_rowGreatest (costs : Grid n Int) (i : Fin n) :
    ∃ j, costs.cell i j = costs.rowGreatest i :=
  Table.mem_toList_iff.1 (greatestCost_mem (costs.toList_row_ne_nil i))

/-- The spread of a row is the largest cost in it once it is lowered. -/
theorem sub_rowLeast_le_rowSpread (costs : Grid n Int) (i j : Fin n) :
    costs.cell i j - costs.rowLeast i ≤ costs.rowSpread i := by
  have := costs.le_rowGreatest i j
  show _ ≤ costs.rowGreatest i - costs.rowLeast i
  omega

theorem not_spreadsFit_iff {W : CostType} :
    ¬ costs.SpreadsFit W ↔ ∃ i top, W.greatest? = some top ∧ top < costs.rowSpread i := by
  simp only [SpreadsFit, not_forall, CostType.not_atMost_iff]

end Grid

namespace CostMatrix

/-- A matrix of costs of a type, whose entries are few enough to be held in a vector. -/
structure Over (m : CostMatrix Int) (W : CostType) : Prop where
  /-- The entries are costs of the type. -/
  fits : ∀ i j, W.Fits (m.grid.cell i j)
  /-- The number of entries is below the length limit of a vector. -/
  length_lt : m.size * m.size < 0x8000000000000000

/-- No row of the matrix has a spread above the largest cost of the type. -/
def SpreadsFit (m : CostMatrix Int) (W : CostType) : Prop :=
  m.grid.SpreadsFit W

instance (m : CostMatrix Int) (W : CostType) : Decidable (m.SpreadsFit W) :=
  inferInstanceAs (Decidable (m.grid.SpreadsFit W))

/-- Costs that are not negative differ by no more than the largest of them. -/
theorem Over.spreadsFit_of_nonneg {m : CostMatrix Int} {W : CostType} (h : m.Over W)
    (hnonneg : ∀ i j, 0 ≤ m.grid.cell i j) : m.SpreadsFit W := by
  intro i
  obtain ⟨j, hj⟩ := m.grid.exists_cell_eq_rowLeast i
  obtain ⟨k, hk⟩ := m.grid.exists_cell_eq_rowGreatest i
  refine (CostType.atMost_of_fits (h.fits i k)).mono ?_
  have hleast := hnonneg i j
  show m.grid.rowGreatest i - m.grid.rowLeast i ≤ m.grid.cell i k
  omega

/-- A type without negative costs has room for all differences of its costs. -/
theorem Over.spreadsFit_of_unsigned {m : CostMatrix Int} {W : CostType} (h : m.Over W)
    (hW : W.hasNegative = false) : m.SpreadsFit W :=
  h.spreadsFit_of_nonneg fun i j ↦ CostType.nonneg_of_fits hW (h.fits i j)

/-- Costs with seven bits besides the sign. Their totals do not fit these bits, and a run has to
clamp one of their reduced costs. -/
def nearTop : CostMatrix Int where
  size := 3
  grid := #v[#v[-1, -2, -128], #v[-4, -125, -128], #v[2, 1, 126]]

theorem over_nearTop : nearTop.Over (.signed 7) :=
  ⟨by decide, by decide⟩

theorem spreadsFit_nearTop : nearTop.SpreadsFit (.signed 7) := by
  decide

end CostMatrix

namespace Solver

variable {n : Nat} {W : CostType} {costs : Grid n Int}

/-- A row whose spread fits is lowered by its least cost. -/
theorem lowerRow_eq_ok {i : Fin n} (h : W.AtMost (costs.rowSpread i)) :
    (Vector.ofFnM fun j ↦ W.sub (costs.cell i j) (costs.rowLeast i)) =
      .ok (Vector.ofFn fun j ↦ costs.cell i j - costs.rowLeast i) :=
  Table.ofFnM_eq_ok fun j ↦
    CostType.sub_eq_ok (costs.rowLeast_le i j) (h.mono (costs.sub_rowLeast_le_rowSpread i j))

/-- A row whose spread does not fit overflows. -/
theorem lowerRow_eq_error {i : Fin n} (h : ¬ W.AtMost (costs.rowSpread i)) :
    (Vector.ofFnM fun j ↦ W.sub (costs.cell i j) (costs.rowLeast i)) =
      .error (.overflow .subtract) := by
  obtain ⟨k, hk⟩ := costs.exists_cell_eq_rowGreatest i
  -- the greatest cost of the row overflows, and others may do so as well
  refine Table.ofFnM_eq_error (fun j ↦ ?_) (i := k) (CostType.sub_eq_error (by rwa [hk]))
  by_cases hj : W.AtMost (costs.cell i j - costs.rowLeast i)
  · exact .inr ⟨_, CostType.sub_eq_ok (costs.rowLeast_le i j) hj⟩
  · exact .inl (CostType.sub_eq_error hj)

/-- Where the spreads fit, every row is lowered by its least cost. -/
theorem lowerRows_eq_ok (h : costs.SpreadsFit W) :
    lowerRows W costs = .ok (Grid.ofFn fun i j ↦ costs.cell i j - costs.rowLeast i) :=
  Table.ofFnM_eq_ok fun i ↦ lowerRow_eq_ok (h i)

/-- Where some spread does not fit, lowering the rows overflows. -/
theorem lowerRows_eq_error (h : ¬ costs.SpreadsFit W) :
    lowerRows W costs = .error (.overflow .subtract) := by
  obtain ⟨i, hi⟩ := not_forall.1 h
  refine Table.ofFnM_eq_error (fun j ↦ ?_) (i := i) (lowerRow_eq_error hi)
  by_cases hj : W.AtMost (costs.rowSpread j)
  · exact .inr ⟨_, lowerRow_eq_ok hj⟩
  · exact .inl (lowerRow_eq_error hj)

end Solver

/-! ### Row by row -/

namespace CostMatrix

variable {n : Nat} {W : CostType}

/-- One round of the row reduction, on the costs of a matrix. -/
theorem lowerRow_rowMinimum (hlength : n * n < 0x8000000000000000) (costs : Grid n Int)
    (i : Fin n) :
    (do (⟨n, costs⟩ : CostMatrix Int).lowerRow W i (← (⟨n, costs⟩ : CostMatrix Int).rowMinimum i)) =
      do
        let row ← Vector.ofFnM fun j ↦ W.sub (costs.cell i j) (costs.rowLeast i)
        return ⟨n, Table.put costs i row⟩ := by
  have hcheck := checkRow_eq_ok (m := ⟨n, costs⟩) hlength i
  have hrow : (⟨n, costs⟩ : CostMatrix Int).rowMinimum i = .ok (costs.rowLeast i) := by
    simp [rowMinimum, row, hcheck, Grid.rowLeast, Checked.pure_eq_ok]
  simp [hrow, lowerRow, hcheck]

/-- The costs with some of their rows lowered. -/
def loweredIn (rows : List (Fin n)) (costs : Grid n Int) : Grid n Int :=
  Grid.ofFn fun i j ↦ if i ∈ rows then costs.cell i j - costs.rowLeast i else costs.cell i j

/-- Lowering a row leaves the other rows to be lowered as before. -/
theorem loweredIn_put {i : Fin n} {rows : List (Fin n)} (hi : i ∉ rows) (costs : Grid n Int) :
    loweredIn rows (Table.put costs i (Vector.ofFn fun j ↦ costs.cell i j - costs.rowLeast i)) =
      loweredIn (i :: rows) costs := by
  refine Grid.ext_cell fun k j ↦ ?_
  rw [loweredIn, loweredIn, Grid.cell_ofFn, Grid.cell_ofFn]
  rcases eq_or_ne i k with rfl | hik
  · rw [if_neg hi, if_pos List.mem_cons_self, Grid.cell, Table.entry_put, if_pos rfl,
      Table.entry_ofFn]
  · simp only [Grid.cell, Grid.rowLeast, Table.entry_put, if_neg hik, List.mem_cons,
      hik.symm, false_or]

/-- Some rows are lowered one after the other if their spreads fit. The first one whose spread does
not fit overflows. -/
theorem foldlM_lowerRow_of_nodup (hlength : n * n < 0x8000000000000000) {rows : List (Fin n)}
    (hnodup : rows.Nodup) (costs : Grid n Int) :
    rows.foldlM (fun (m : CostMatrix Int) i ↦ do m.lowerRow W i (← m.rowMinimum i)) ⟨n, costs⟩ =
      if ∀ i ∈ rows, W.AtMost (costs.rowSpread i) then .ok ⟨n, loweredIn rows costs⟩
      else .error (.overflow .subtract) := by
  induction rows generalizing costs with
  | nil =>
    have hnone : loweredIn [] costs = costs := Grid.ext_cell fun i j ↦ by simp [loweredIn]
    simp [hnone, Checked.pure_eq_ok]
  | cons i rows ih =>
    obtain ⟨hi, hrows⟩ := List.nodup_cons.1 hnodup
    rw [List.foldlM_cons, lowerRow_rowMinimum hlength]
    by_cases hspread : W.AtMost (costs.rowSpread i)
    · rw [Solver.lowerRow_eq_ok hspread, Checked.ok_bind, Checked.pure_eq_ok, Checked.ok_bind,
        ih hrows, loweredIn_put hi]
      -- the spreads of the rows that follow are not changed
      have hentry : ∀ k ∈ rows, ∀ row,
          Table.entry (Table.put costs i row) k = Table.entry costs k := fun k hk row ↦ by
        have hik : i ≠ k := fun heq ↦ hi (heq ▸ hk)
        rw [Table.entry_put, if_neg hik]
      refine if_congr ?_ rfl rfl
      rw [List.forall_mem_cons, and_iff_right hspread]
      refine forall₂_congr fun k hk ↦ ?_
      simp only [Grid.rowSpread, Grid.rowGreatest, Grid.rowLeast, hentry k hk]
    · rw [Solver.lowerRow_eq_error hspread, Checked.error_bind, Checked.error_bind, if_neg]
      exact fun hall ↦ hspread (hall i List.mem_cons_self)

/-- The first step of a solver is to lower every row of its matrix by its minimum, one after the
other, with the checks of these operations. -/
theorem foldlM_lowerRow (m : CostMatrix Int) (hlength : m.size * m.size < 0x8000000000000000) :
    (List.finRange m.size).foldlM
        (fun (m : CostMatrix Int) i ↦ do m.lowerRow W i (← m.rowMinimum i)) m =
      do return ⟨m.size, ← Solver.lowerRows W m.grid⟩ := by
  rw [foldlM_lowerRow_of_nodup hlength (List.nodup_finRange m.size) m.grid]
  by_cases hspread : m.grid.SpreadsFit W
  · rw [if_pos fun i _ ↦ hspread i, Solver.lowerRows_eq_ok hspread, Checked.ok_bind]
    simp [loweredIn, Checked.pure_eq_ok]
  · rw [if_neg fun hall ↦ hspread fun i ↦ hall i (List.mem_finRange i),
      Solver.lowerRows_eq_error hspread, Checked.error_bind]

end CostMatrix

end LinearAssignment
