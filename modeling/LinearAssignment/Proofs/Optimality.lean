import LinearAssignment.Assign
import LinearAssignment.Proofs.Faults
import Mathlib.Algebra.BigOperators.Group.Finset.Basic
import Mathlib.Algebra.Order.BigOperators.Group.Finset

/-!
# Optimality

The potentials of a sound state are a certificate: no permutation costs less than all of them
together (`Reduced.sum_potentials_le`), and stars cost exactly their potentials
(`Reduced.sum_potentials_eq`). So the permutation of a solved state is one of least exact total, and
`assign_optimal` says so of the whole answer, at every cost type and size. Whether spreads fit or
not, no answer is anything but a permutation (`perm_of_assign`).
-/

namespace LinearAssignment

variable {n : Nat}

/-- The exact total of the costs that a map from rows to columns selects. -/
def CostMatrix.exactTotal (m : CostMatrix Int) (f : Fin m.size → Fin m.size) : Int :=
  ∑ i, m.grid.cell i (f i)

namespace Reduced

variable {W : CostType} {C costs : Grid n Int} {p : Potentials n} {stars : Stars n}

/-- Every permutation costs at least the sum of all potentials. -/
theorem sum_potentials_le (h : Reduced W C p stars costs) (τ : Equiv.Perm (Fin n)) :
    ∑ i, p.row i + ∑ j, p.column j ≤ ∑ i, C.cell i (τ i) := by
  have hcell : ∀ i, p.row i + p.column (τ i) ≤ C.cell i (τ i) := fun i ↦ by
    have h₀ := h.nonneg i (τ i)
    have hle := h.le_exact i (τ i)
    rw [Potentials.exact] at hle
    omega
  calc ∑ i, p.row i + ∑ j, p.column j
      = ∑ i, p.row i + ∑ i, p.column (τ i) := by rw [Equiv.sum_comp τ p.column]
    _ = ∑ i, (p.row i + p.column (τ i)) := Finset.sum_add_distrib.symm
    _ ≤ ∑ i, C.cell i (τ i) := Finset.sum_le_sum fun i _ ↦ hcell i

/-- A permutation of stars costs the sum of all potentials. -/
theorem sum_potentials_eq (h : Reduced W C p stars costs) {σ : Equiv.Perm (Fin n)}
    (hσ : ∀ i, stars.columnOf.entry i = some (σ i)) :
    ∑ i, C.cell i (σ i) = ∑ i, p.row i + ∑ j, p.column j := by
  have hcell : ∀ i, C.cell i (σ i) = p.row i + p.column (σ i) := fun i ↦ by
    have hzero := (h.cell_eq_zero_iff i (σ i)).1 (h.star_zero i (σ i) (hσ i))
    rw [Potentials.exact] at hzero
    omega
  calc ∑ i, C.cell i (σ i)
      = ∑ i, (p.row i + p.column (σ i)) := Finset.sum_congr rfl fun i _ ↦ hcell i
    _ = ∑ i, p.row i + ∑ i, p.column (σ i) := Finset.sum_add_distrib
    _ = ∑ i, p.row i + ∑ j, p.column j := by rw [Equiv.sum_comp σ p.column]

end Reduced

/-- The stars of a solved state are a permutation of least exact total. -/
theorem Solver.Sound.sum_cell_le {W : CostType} {C : Grid n Int} {p : Potentials n} {s : Solver n}
    (h : Sound W C p s) (hdone : s.phase = .done) {σ : Equiv.Perm (Fin n)}
    (hσ : ∀ i, s.stars.columnOf.entry i = some (σ i)) (τ : Equiv.Perm (Fin n)) :
    ∑ i, C.cell i (σ i) ≤ ∑ i, C.cell i (τ i) := by
  have hreduced := h.reduced (by simp [hdone])
  rw [hreduced.sum_potentials_eq hσ]
  exact hreduced.sum_potentials_le τ

/-- With at least one row, an assignment is found that lists a permutation of least exact total. -/
theorem exists_assign_of_pos {W : CostType} {m : CostMatrix Int} (h : m.Over W)
    (hspread : m.SpreadsFit W) (hm : 0 < m.size) :
    ∃ σ : Equiv.Perm (Fin m.size), assign W m = .ok (List.ofFn fun i ↦ (σ i).val) ∧
      ∀ τ : Equiv.Perm (Fin m.size), m.exactTotal σ ≤ m.exactTotal τ := by
  by_cases hone : m.size = 1
  · -- there is only one permutation, and no solver is asked
    obtain ⟨size, grid⟩ := m
    obtain rfl : size = 1 := hone
    refine ⟨Equiv.refl _, rfl, fun τ ↦ ?_⟩
    rw [Subsingleton.elim τ (Equiv.refl _)]
  · have hinitial := Solver.sound_initial W m.grid
    obtain ⟨s, p, σ, hsolve, hsound, hdone, hσ⟩ := hinitial.exists_solveInto hm
      (Solver.stepBound_lt h.length_lt) (fun _ ↦ hspread) List.length_replicate
    refine ⟨σ, ?_, hsound.sum_cell_le hdone hσ⟩
    rw [assign]
    split
    · omega
    · exact absurd ‹_› hone
    · rw [Solver.ofMatrix_eq_ok hm, Checked.ok_bind, hsolve, Checked.ok_bind]
      rfl

/-- Where the spreads fit, an assignment is found that lists a permutation of least exact total. -/
theorem exists_assign {W : CostType} {m : CostMatrix Int} (h : m.Over W)
    (hspread : m.SpreadsFit W) :
    ∃ σ : Equiv.Perm (Fin m.size), assign W m = .ok (List.ofFn fun i ↦ (σ i).val) ∧
      ∀ τ : Equiv.Perm (Fin m.size), m.exactTotal σ ≤ m.exactTotal τ := by
  rcases Nat.eq_zero_or_pos m.size with hzero | hpos
  · -- without rows, no solver is asked either
    obtain ⟨size, grid⟩ := m
    obtain rfl : size = 0 := hzero
    exact ⟨Equiv.refl _, rfl, fun τ ↦ by rw [Subsingleton.elim τ (Equiv.refl _)]⟩
  · exact exists_assign_of_pos h hspread hpos

theorem perm_ofFn_perm (σ : Equiv.Perm (Fin n)) :
    (List.ofFn fun i ↦ (σ i).val).Perm (List.range n) := by
  rw [← List.map_coe_finRange_eq_range, ← List.ofFn_eq_map]
  exact σ.ofFn_comp_perm Fin.val

/-- An assignment that is found is a permutation. -/
theorem perm_of_assign {W : CostType} {m : CostMatrix Int} {a : List Nat}
    (h : m.Over W) (ha : assign W m = .ok a) : a.Perm (List.range m.size) := by
  rw [assign] at ha
  split at ha
  · rename_i hzero
    rw [hzero, ← Except.ok.inj ha]
    exact .refl _
  · rename_i hone
    rw [hone, ← Except.ok.inj ha]
    exact .refl _
  · rename_i hzero _
    have hpos : 0 < m.size := Nat.pos_of_ne_zero hzero
    have hsound := Solver.sound_initial W m.grid
    have hword := Solver.stepBound_lt h.length_lt
    have hbuffer : (Solver.Call.solve (List.replicate m.size 0)).Fits m.size :=
      List.length_replicate
    rw [Solver.ofMatrix_eq_ok hpos, Checked.ok_bind] at ha
    obtain ⟨⟨s, answer⟩, hsolve, ha⟩ := Checked.bind_eq_ok_iff.1 ha
    obtain rfl := Except.ok.inj ha
    -- the search has not ended with the rows, so their spreads fit
    rcases hsound.perform_cases hpos hword hbuffer with ⟨hspread, -⟩ | ⟨-, -, herror⟩
    · obtain ⟨s', p, σ, hsolve', -⟩ := hsound.exists_solveInto hpos hword hspread hbuffer
      obtain ⟨-, rfl⟩ := Prod.mk.inj (Except.ok.inj (hsolve.symm.trans hsolve'))
      exact perm_ofFn_perm σ
    · rw [Solver.perform, hsolve] at herror
      cases herror

/-- **Optimality.** For every matrix of costs of a type, an assignment is found, it lists a
permutation of the columns, and its exact total is at most that of any permutation. Only where the
type has negative costs can a spread be too large, and there all spreads have to fit. -/
theorem assign_optimal {W : CostType} {m : CostMatrix Int} (h : m.Over W)
    (hspread : W.hasNegative = true → m.SpreadsFit W) :
    ∃ σ : Equiv.Perm (Fin m.size), assign W m = .ok (List.ofFn fun i ↦ (σ i).val) ∧
      ∀ τ : Equiv.Perm (Fin m.size), m.exactTotal σ ≤ m.exactTotal τ := by
  have hfit : m.SpreadsFit W := by
    cases hnegative : W.hasNegative with
    | true => exact hspread hnegative
    | false => exact h.spreadsFit_of_unsigned hnegative
  rcases Nat.eq_zero_or_pos m.size with hzero | hpos
  · obtain ⟨size, grid⟩ := m
    obtain rfl : size = 0 := hzero
    exact ⟨Equiv.refl _, rfl, fun τ ↦ le_of_eq (by simp [CostMatrix.exactTotal])⟩
  · exact exists_assign_of_pos h hfit hpos

theorem assign_optimal_nearTop :
    CostMatrix.nearTop.Over (.signed 7) ∧ CostMatrix.nearTop.SpreadsFit (.signed 7) ∧
      ∃ σ : Equiv.Perm (Fin CostMatrix.nearTop.size),
        assign (.signed 7) CostMatrix.nearTop = .ok (List.ofFn fun i ↦ (σ i).val) ∧
        ∀ τ : Equiv.Perm (Fin CostMatrix.nearTop.size),
          CostMatrix.nearTop.exactTotal σ ≤ CostMatrix.nearTop.exactTotal τ :=
  ⟨CostMatrix.over_nearTop, CostMatrix.spreadsFit_nearTop,
    assign_optimal CostMatrix.over_nearTop fun _ ↦ CostMatrix.spreadsFit_nearTop⟩

end LinearAssignment
