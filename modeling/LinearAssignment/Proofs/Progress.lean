import LinearAssignment.Proofs.Marks

/-!
# Progress of a shift

The search for an augmenting path may run out of zeros. `Solver.ShiftsBy` says what the shift after
it makes of a reachable state: there is an uncovered cost, the least of them is positive, and what
it is taken from and added to leaves an uncovered zero for the search to go on with, while all marks
and the zeros at them are kept. A sum that leaves the cost type is replaced by its largest cost, and
no other sum or difference leaves it (`Solver.Sound.exists_shiftsBy`).
-/

namespace LinearAssignment

variable {n : Nat}

namespace Solver

/-- What a shift by `m` makes of a state. -/
structure ShiftsBy (W : CostType) (m : Int) (s s' : Solver n) : Prop where
  /-- The amount is the least uncovered cost: one of them, -/
  attained : ∃ i j, s.cover.rows.entry i = false ∧ s.cover.columns.entry j = false ∧
    s.costs.cell i j = m
  /-- and at most each of them. -/
  le_uncovered : ∀ i j, s.cover.rows.entry i = false → s.cover.columns.entry j = false →
    m ≤ s.costs.cell i j
  one_le : 1 ≤ m
  /-- Costs stay between zero and the largest one of the type. -/
  nonneg : ∀ i j, 0 ≤ s'.costs.cell i j
  le_greatest : ∀ top, W.greatest? = some top → ∀ i j, s'.costs.cell i j ≤ top
  /-- A cost that is not covered is lowered by the amount. -/
  uncovered : ∀ i j, s.cover.rows.entry i = false → s.cover.columns.entry j = false →
    s'.costs.cell i j = s.costs.cell i j - m
  /-- A cost that is covered once does not change. -/
  covered_once : ∀ i j, s.cover.rows.entry i ≠ s.cover.columns.entry j →
    s'.costs.cell i j = s.costs.cell i j
  /-- A cost that is covered twice is raised by the amount, up to the largest one of the type. -/
  covered_twice : ∀ i j, s.cover.rows.entry i = true → s.cover.columns.entry j = true →
    (W.greatest? = none → s'.costs.cell i j = s.costs.cell i j + m) ∧
    ∀ top, W.greatest? = some top → s'.costs.cell i j = min (s.costs.cell i j + m) top
  /-- Some cost that is not covered has become zero. -/
  zero : ∃ i j, s.cover.rows.entry i = false ∧ s.cover.columns.entry j = false ∧
    s'.costs.cell i j = 0
  /-- Starred and primed cells were zero and are so. -/
  mark_zero : ∀ i j, s.stars.contains i j ∨ s.primes.contains i j →
    s.costs.cell i j = 0 ∧ s'.costs.cell i j = 0
  /-- A row without a star had a zero and has one. -/
  row_zero : ∀ i, (∀ j, ¬ s.stars.contains i j) →
    (∃ j, s.costs.cell i j = 0) ∧ ∃ j, s'.costs.cell i j = 0
  stars_eq : s'.stars = s.stars
  primes_eq : s'.primes = s.primes
  cover_eq : s'.cover = s.cover
  phase_eq : s'.phase = .prime

/-- The work of a shift is by a positive amount, and keeps marks and zeros. -/
theorem Sound.exists_shiftsBy {W : CostType} {C : Grid n Int} {p : Potentials n} {s : Solver n}
    (h : Sound W C p s) (hs : s.phase = .shift) :
    ∃ m next, s.advance W = .ok next ∧ ∀ steps, s.ShiftsBy W m { next with steps } := by
  have hreduced := h.reduced (by simp [hs])
  obtain ⟨m, hm, hpos, hadvance, hreduced', hsearch', -⟩ := h.exists_advance_shift hs
  obtain ⟨hattained, hleast⟩ := leastUncovered?_eq_some_iff.1 hm
  have huncovered : ∀ i j, s.cover.rows.entry i = false → s.cover.columns.entry j = false →
      (shiftedCosts W m s.cover s.costs).cell i j = s.costs.cell i j - m := fun i j hi hj ↦ by
    rw [cell_shiftedCosts, hi, hj]
    rfl
  refine ⟨m, _, hadvance, fun steps ↦ ?_⟩
  exact {
    attained := hattained
    le_uncovered := hleast
    one_le := hpos
    nonneg := hreduced'.nonneg
    le_greatest := fun top htop i j ↦ hreduced'.atMost i j top htop
    uncovered := huncovered
    covered_once := fun i j hne ↦ by
      show (shiftedCosts W m s.cover s.costs).cell i j = s.costs.cell i j
      rw [cell_shiftedCosts, shiftedCost_of_ne W m _ (Bool.eq_not_of_ne hne)]
    covered_twice := fun i j hi hj ↦ by
      show (W.greatest? = none → (shiftedCosts W m s.cover s.costs).cell i j = _) ∧
        ∀ top, W.greatest? = some top → (shiftedCosts W m s.cover s.costs).cell i j = _
      rw [cell_shiftedCosts, hi, hj, shiftedCost, CostType.clamp]
      exact ⟨fun htop ↦ by rw [htop], fun top htop ↦ by rw [htop]⟩
    zero := by
      obtain ⟨i, j, hi, hj, hij⟩ := hattained
      exact ⟨i, j, hi, hj, (huncovered i j hi hj).trans (by rw [hij, Int.sub_self])⟩
    mark_zero := fun i j hmark ↦ by
      rcases hmark with hstar | hprime
      · rw [contains_stars_iff] at hstar
        exact ⟨hreduced.star_zero i j hstar, hreduced'.star_zero i j hstar⟩
      · rw [contains_primes_iff] at hprime
        exact ⟨h.prime_zero hprime, hsearch'.prime_zero i j hprime⟩
    row_zero := fun i hfree ↦ by
      have hi : s.stars.columnOf.entry i = none :=
        Option.eq_none_iff_forall_ne_some.2 fun j hj ↦ hfree j (contains_stars_iff.2 hj)
      exact ⟨hreduced.zero_free i hi, hreduced'.zero_free i hi⟩
    stars_eq := rfl
    primes_eq := rfl
    cover_eq := rfl
    phase_eq := rfl }

end Solver

/-- **Shifts make progress.** From every state of a run that shifts costs next, there is a step, and
it shifts by the least uncovered cost as `Solver.ShiftsBy` says. -/
theorem exists_step_shiftsBy {W : CostType} {m : CostMatrix Int} (h : m.Over W)
    (hspread : m.SpreadsFit W) {k : Nat} {s : Solver m.size} (hs : m.solverAfter W k = .ok s)
    (hphase : s.phase = .shift) : ∃ a s', s.step W = .ok s' ∧ s.ShiftsBy W a s' := by
  obtain ⟨p, hsound⟩ := CostMatrix.exists_sound_of_solverAfter h hspread hs
  obtain ⟨a, next, hnext, hshifts⟩ := hsound.exists_shiftsBy hphase
  exact ⟨a, _, CostMatrix.step_eq_ok_of_solverAfter h hspread hs (by simp [hphase]) hnext,
    hshifts _⟩

-- the second shift has a cost that is covered twice, and clamps it
theorem exists_step_shiftsBy_nearTop :
    CostMatrix.nearTop.Over (.signed 7) ∧ CostMatrix.nearTop.SpreadsFit (.signed 7) ∧
      ∃ s, CostMatrix.nearTop.solverAfter (.signed 7) 6 = .ok s ∧ s.phase = .shift ∧
        ∃ a s', s.step (.signed 7) = .ok s' ∧ s.ShiftsBy (.signed 7) a s' := by
  obtain ⟨s, hs, hphase⟩ := Checked.map_eq_ok_iff.1 (show
    (CostMatrix.nearTop.solverAfter (.signed 7) 6).map (·.phase) = .ok .shift by decide +kernel)
  exact ⟨CostMatrix.over_nearTop, CostMatrix.spreadsFit_nearTop, s, hs, hphase,
    exists_step_shiftsBy CostMatrix.over_nearTop CostMatrix.spreadsFit_nearTop hs hphase⟩

end LinearAssignment
