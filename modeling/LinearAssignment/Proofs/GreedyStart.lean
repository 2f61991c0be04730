import LinearAssignment.Proofs.Runs

/-!
# The start of a run

What the first two steps of a run lead to is a matter of the costs alone, and
`Solver.StartsGreedily` says it of the state without the two loops. Each row is lowered by its least
cost and so has a zero, and the stars are the greedy ones for these zeros (`Stars.Greedy`). No zero
of the first row can be taken before, so that this row has a star.
-/

namespace LinearAssignment

variable {n : Nat} {W : CostType} {C costs : Grid n Int} {stars : Stars n} {i : Fin n}

theorem Grid.isLeast_rowLeast (costs : Grid n Int) (i : Fin n) :
    IsLeast (Set.range (costs.cell i)) (costs.rowLeast i) := by
  refine ⟨costs.exists_cell_eq_rowLeast i, ?_⟩
  rintro _ ⟨j, rfl⟩
  exact costs.rowLeast_le i j

/-- In a row that no row comes before, all zeros are free. -/
theorem Stars.mem_freeZeros_of_first (hi : i.val = 0) {j : Fin n} (hzero : costs.cell i j = 0) :
    j ∈ stars.freeZeros costs i := by
  refine ⟨hzero, fun k hk ↦ ?_⟩
  rw [Fin.lt_def, hi] at hk
  exact absurd hk (Nat.not_lt_zero k)

namespace Solver

/-- A state in which the rows of the costs `C` are lowered and zeros are starred greedily, and
nothing else has been done. -/
structure StartsGreedily (C : Grid n Int) (s : Solver n) : Prop where
  /-- Each row is lowered by its least cost, -/
  lowered : ∀ i, ∃ least, IsLeast (Set.range (C.cell i)) least ∧
    ∀ j, s.costs.cell i j = C.cell i j - least
  /-- and has a zero. -/
  row_zero : ∀ i, ∃ j, s.costs.cell i j = 0
  /-- A row has its star in the first of its zeros whose column no row before it has taken. -/
  star_iff : ∀ i j, s.stars.columnOf.entry i = some j ↔
    IsLeast {b | s.costs.cell i b = 0 ∧ ∀ k < i, s.stars.columnOf.entry k ≠ some b} j
  /-- It has no star exactly if rows before it have taken all of them. -/
  free_iff : ∀ i, s.stars.columnOf.entry i = none ↔
    ∀ j, s.costs.cell i j = 0 → ∃ k < i, s.stars.columnOf.entry k = some j
  /-- The stars of a column are those of the rows, -/
  star_inverse : ∀ i j, s.stars.columnOf.entry i = some j ↔ s.stars.rowOf.entry j = some i
  /-- and no other stars are greedy. -/
  greedy_iff : ∀ stars, Stars.Greedy s.costs (List.finRange n) stars ↔ stars = s.stars
  /-- The first row has a star. -/
  first_starred : ∀ i : Fin n, i.val = 0 → ∃ j, s.stars.columnOf.entry i = some j
  /-- Every zero is in the row or in the column of a star. -/
  zero_starred : ∀ i j, s.costs.cell i j = 0 →
    (∃ k, s.stars.columnOf.entry i = some k) ∨ ∃ k, s.stars.rowOf.entry j = some k
  primes_eq : s.primes = .empty n
  cover_eq : s.cover = .empty n
  phase_eq : s.phase = .cover
  steps_eq : s.steps = 2

/-- Lowered rows with greedy stars are such a state. -/
theorem startsGreedily_of_greedy
    (hcosts : ∀ i j, costs.cell i j = C.cell i j - C.rowLeast i)
    (hgreedy : stars.Greedy costs (List.finRange n)) :
    StartsGreedily C
      { initial C with costs := costs, stars := stars, phase := .cover, steps := 2 } := by
  have hzero (i : Fin n) : ∃ j, costs.cell i j = 0 := by
    obtain ⟨j, hj⟩ := C.exists_cell_eq_rowLeast i
    exact ⟨j, by rw [hcosts, hj, Int.sub_self]⟩
  have hfree (i : Fin n) := hgreedy.columnOf_eq_none_iff (List.mem_finRange i)
  exact {
    lowered := fun i ↦ ⟨C.rowLeast i, C.isLeast_rowLeast i, hcosts i⟩
    row_zero := hzero
    star_iff := fun i j ↦ (hgreedy.star_iff i j).trans (and_iff_right (List.mem_finRange i))
    free_iff := fun i ↦ by
      rw [hfree, Set.eq_empty_iff_forall_notMem]
      refine forall_congr' fun j ↦ ?_
      simp only [Stars.freeZeros, Set.mem_ofPred_eq, not_and, not_forall, not_not, exists_prop]
    star_inverse := hgreedy.consistent
    greedy_iff := fun stars' ↦ ⟨fun h ↦ h.eq hgreedy, fun h ↦ h ▸ hgreedy⟩
    first_starred := fun i hi ↦ by
      obtain ⟨j, hj⟩ := hzero i
      refine Option.ne_none_iff_exists'.1 fun hnone ↦ ?_
      have hmem : j ∈ stars.freeZeros costs i := Stars.mem_freeZeros_of_first hi hj
      rw [(hfree i).1 hnone] at hmem
      exact hmem
    zero_starred := fun i j ↦ hgreedy.maximal.blocked i (List.mem_finRange i) j
    primes_eq := rfl
    cover_eq := rfl
    phase_eq := rfl
    steps_eq := rfl }

/-- The first two steps of a solver. -/
theorem exists_afterSteps_two (hspread : C.SpreadsFit W) :
    ∃ s, (initial C).afterSteps W 2 = .ok s ∧ s.StartsGreedily C := by
  obtain ⟨stars, hstars, hgreedy⟩ :=
    exists_starGreedily (Grid.ofFn fun i j ↦ C.cell i j - C.rowLeast i)
  have hsecond := step_eq_ok (W := W) (s := { initial C with
    costs := Grid.ofFn fun i j ↦ C.cell i j - C.rowLeast i, phase := .star, steps := 1 })
    (by simp) (by decide : 1 + 1 < Word.bound) (advance_eq_ok_iff.2 (.star rfl hstars))
  refine ⟨_, ?_, startsGreedily_of_greedy (fun i j ↦ Grid.cell_ofFn _ i j) hgreedy⟩
  rw [afterSteps_succ, step_initial hspread, Checked.ok_bind]
  exact hsecond

end Solver

/-- **A run starts greedily.** For a matrix with a row whose spreads fit, the first two steps lower
every row by its least cost and star each row in the first of its zeros whose column no row before
it has taken, as `Solver.StartsGreedily` says. -/
theorem exists_solverAfter_two {m : CostMatrix Int} (hm : 0 < m.size) (hspread : m.SpreadsFit W) :
    ∃ s, m.solverAfter W 2 = .ok s ∧ s.StartsGreedily m.grid := by
  rw [CostMatrix.solverAfter_eq_afterSteps hm]
  exact Solver.exists_afterSteps_two hspread

-- the second row has one zero, in the column that the first row has taken
theorem exists_solverAfter_two_nearTop :
    0 < CostMatrix.nearTop.size ∧ CostMatrix.nearTop.SpreadsFit (.signed 7) ∧
      ∃ s, CostMatrix.nearTop.solverAfter (.signed 7) 2 = .ok s ∧
        s.StartsGreedily CostMatrix.nearTop.grid :=
  ⟨by decide, CostMatrix.spreadsFit_nearTop,
    exists_solverAfter_two (by decide) CostMatrix.spreadsFit_nearTop⟩

end LinearAssignment
