import LinearAssignment.Proofs.Marks

/-!
# Maximum matchings of zeros

A `Grid.ZeroMatching` is a set of zeros, no two of which share a row or a column. If all zeros lie
in some covered rows and columns, no such set has more zeros than there are of these
(`Grid.ZeroMatching.card_le`).

The stars of a solver are such a set, and priming decides whether it is a largest one. A search
that finds no seed leaves all zeros covered, by as many rows and columns as there are stars, and
this bounds every other set. A search that finds a seed leaves a path along which the stars become
one more, and these are a larger set (`Searched.exists_zeroMatching`). So which of the two phases
comes next says exactly whether the stars are outnumbered (`exists_decidesMaximum`).
-/

namespace LinearAssignment

variable {n : Nat}

/-- Zeros in distinct rows and in distinct columns. -/
structure Grid.ZeroMatching (costs : Grid n Int) (cells : Finset (Fin n × Fin n)) : Prop where
  cell_zero : ∀ q ∈ cells, costs.cell q.1 q.2 = 0
  /-- No two of the cells share a row. -/
  injOn_row : Set.InjOn Prod.fst (cells : Set (Fin n × Fin n))
  /-- No two of the cells share a column. -/
  injOn_column : Set.InjOn Prod.snd (cells : Set (Fin n × Fin n))

/-- Covered rows and columns that hold all zeros are no fewer than the zeros of a matching. -/
theorem Grid.ZeroMatching.card_le {costs : Grid n Int} {cells : Finset (Fin n × Fin n)}
    {cover : Cover n} (h : costs.ZeroMatching cells)
    (hcover : Solver.uncoveredZero? costs cover = none) :
    cells.card ≤ cover.rowSet.card + cover.columnSet.card := by
  -- a zero whose row is not covered is in a covered column
  have hmem : ∀ q ∈ cells, q.1 ∉ cover.rowSet → q.2 ∈ cover.columnSet := fun q hq hrow ↦
    Cover.mem_columnSet.2 ((Solver.covered_of_uncoveredZero?_eq_none hcover
      (h.cell_zero q hq)).resolve_left fun hcovered ↦ hrow (Cover.mem_rowSet.2 hcovered))
  have hrows : (cells.filter fun q ↦ q.1 ∈ cover.rowSet).card ≤ cover.rowSet.card :=
    Finset.card_le_card_of_injOn Prod.fst (fun q hq ↦ (Finset.mem_filter.1 hq).2)
      (h.injOn_row.mono (Finset.filter_subset _ _))
  have hcolumns : (cells.filter fun q ↦ q.1 ∉ cover.rowSet).card ≤ cover.columnSet.card :=
    Finset.card_le_card_of_injOn Prod.snd
      (fun q hq ↦ hmem q (Finset.mem_filter.1 hq).1 (Finset.mem_filter.1 hq).2)
      (h.injOn_column.mono (Finset.filter_subset _ _))
  calc cells.card
      = (cells.filter fun q ↦ q.1 ∈ cover.rowSet).card +
          (cells.filter fun q ↦ q.1 ∉ cover.rowSet).card :=
        (Finset.card_filter_add_card_filter_not _).symm
    _ ≤ cover.rowSet.card + cover.columnSet.card := Nat.add_le_add hrows hcolumns

namespace Stars

variable {stars : Stars n}

/-- The cells of the stars. -/
def cells (stars : Stars n) : Finset (Fin n × Fin n) :=
  stars.toList.toFinset

theorem mem_cells {i j : Fin n} : (i, j) ∈ stars.cells ↔ stars.columnOf.entry i = some j :=
  List.mem_toFinset.trans mem_toList

/-- There are as many of them as there are stars. -/
theorem card_cells (stars : Stars n) : stars.cells.card = stars.size := by
  rw [size_eq_card]
  refine Finset.card_bij (fun q _ ↦ q.1) (fun q hq ↦ ?_) (fun q hq r hr hrow ↦ ?_) fun i hi ↦ ?_
  · exact mem_starredRows.2 ⟨q.2, mem_cells.1 hq⟩
  · have hq' : stars.columnOf.entry r.1 = some q.2 := hrow ▸ mem_cells.1 hq
    exact Prod.ext hrow (Option.some.inj (hq'.symm.trans (mem_cells.1 hr)))
  · obtain ⟨j, hj⟩ := mem_starredRows.1 hi
    exact ⟨(i, j), mem_cells.2 hj, rfl⟩

/-- Stars that are zeros are a matching of zeros. -/
theorem Consistent.zeroMatching (h : stars.Consistent) {costs : Grid n Int}
    (hzero : ∀ i j, stars.columnOf.entry i = some j → costs.cell i j = 0) :
    costs.ZeroMatching stars.cells where
  cell_zero q hq := hzero q.1 q.2 (mem_cells.1 hq)
  injOn_row q hq r hr hrow := by
    have hq' : stars.columnOf.entry r.1 = some q.2 := hrow ▸ mem_cells.1 hq
    exact Prod.ext hrow (Option.some.inj (hq'.symm.trans (mem_cells.1 hr)))
  injOn_column q hq r hr hcolumn := by
    have hq' : stars.columnOf.entry q.1 = some r.2 := hcolumn ▸ mem_cells.1 hq
    exact Prod.ext (h.row_unique hq' (mem_cells.1 hr)) hcolumn

end Stars

/-- The stars after an augmentation are one zero more than those before it. -/
theorem Searched.exists_zeroMatching {costs : Grid n Int} {stars : Stars n} {primes : Primes n}
    {cover : Cover n} {i j : Fin n} (h : Searched costs stars primes cover (.augment i j))
    (hstars : stars.Consistent)
    (hzero : ∀ a b, stars.columnOf.entry a = some b → costs.cell a b = 0) :
    ∃ cells, costs.ZeroMatching cells ∧ stars.size < cells.card := by
  obtain ⟨hsearch, hseed, hfree, hj⟩ := h
  obtain ⟨path, stars', -, -, haugmented⟩ := hsearch.exists_augmentAlong hstars hfree hj
  refine ⟨stars'.cells, haugmented.consistent.zeroMatching fun a b hab ↦ ?_, ?_⟩
  · exact (haugmented.star_or_prime hseed hab).elim (hzero a b) (hsearch.prime_zero a b)
  · rw [Stars.card_cells, haugmented.size_eq hstars hfree]
    exact Nat.lt_succ_self _

namespace Solver

/-- What priming leaves of a state, and what it decides about its stars. -/
structure DecidesMaximum (s s' : Solver n) : Prop where
  /-- The search takes at most one round more than there are stars. -/
  rounds : ∀ fuel, s.stars.size < fuel →
    primeUncovered s.costs s.stars fuel s.primes s.cover = .ok (s'.primes, s'.cover, s'.phase)
  costs_eq : s'.costs = s.costs
  stars_eq : s'.stars = s.stars
  /-- The stars are zeros in distinct rows and columns. -/
  stars_matching : s.costs.ZeroMatching s.stars.cells ∧ s.stars.cells.card = s.stars.size
  /-- Costs are shifted next exactly if no zeros in distinct rows and columns are more. -/
  shift_iff : s'.phase = .shift ↔
    ∀ cells, s.costs.ZeroMatching cells → cells.card ≤ s.stars.size
  /-- Otherwise the stars are augmented next. -/
  augment_iff : (∃ i j, s'.phase = .augment i j) ↔
    ∃ cells, s.costs.ZeroMatching cells ∧ s.stars.size < cells.card
  /-- Before a shift all zeros are covered, -/
  covered : s'.phase = .shift → ∀ i j, s'.costs.cell i j = 0 →
    s'.cover.rows.entry i = true ∨ s'.cover.columns.entry j = true
  /-- by as many rows and columns as there are stars. -/
  covered_eq : s'.phase = .shift →
    s'.cover.coveredRows.length + s'.cover.coveredColumns.length = s'.stars.size ∧
      s'.cover.columnCount = s'.cover.coveredColumns.length

end Solver

/-- The work of priming decides about the stars of a sound state. -/
theorem Solver.Sound.exists_decidesMaximum {W : CostType} {C : Grid n Int} {p : Potentials n}
    {s : Solver n} (h : Sound W C p s) (hs : s.phase = .prime) :
    ∃ next, s.advance W = .ok next ∧ ∀ steps, s.DecidesMaximum { next with steps } := by
  have hzero := (h.reduced (by simp [hs])).star_zero
  have hstars := And.intro (h.consistent.zeroMatching hzero) s.stars.card_cells
  obtain ⟨primes, cover, phase, hadvance, hrounds, hsearched, hcounted, -, -⟩ :=
    h.exists_advance_prime hs
  refine ⟨_, hadvance, fun steps ↦ ?_⟩
  cases phase with
  | shift =>
    obtain ⟨hsearch, hcovered⟩ := hsearched
    have hcard := hsearch.card_rowSet_add_card_columnSet h.consistent
    have hmax : ∀ cells, s.costs.ZeroMatching cells → cells.card ≤ s.stars.size :=
      fun cells hcells ↦ (hcells.card_le hcovered).trans_eq hcard
    refine ⟨hrounds, rfl, rfl, hstars, iff_of_true rfl hmax, iff_of_false (by simp) ?_,
      fun _ i j ↦ covered_of_uncoveredZero?_eq_none hcovered, fun _ ↦ ⟨?_, hcounted⟩⟩
    · rintro ⟨cells, hcells, hlt⟩
      exact Nat.not_le.2 hlt (hmax cells hcells)
    · rw [Cover.length_coveredRows, Cover.length_coveredColumns, hcard]
  | augment i j =>
    obtain ⟨cells, hcells, hlt⟩ := hsearched.exists_zeroMatching h.consistent hzero
    exact ⟨hrounds, rfl, rfl, hstars,
      iff_of_false (by simp) fun hmax ↦ Nat.not_le.2 hlt (hmax cells hcells),
      iff_of_true ⟨i, j, rfl⟩ ⟨cells, hcells, hlt⟩, by simp, by simp⟩
  | reduce => exact hsearched.elim
  | star => exact hsearched.elim
  | cover => exact hsearched.elim
  | prime => exact hsearched.elim
  | done => exact hsearched.elim

/-- **Priming decides whether the stars are a maximum matching.** From every state of a run that
primes zeros next, the search ends within one round more than there are stars. Costs are shifted
after it exactly if no zeros in distinct rows and columns outnumber the stars, and then all zeros
are covered by as many rows and columns as there are stars; otherwise the stars are augmented. -/
theorem exists_step_decidesMaximum {W : CostType} {m : CostMatrix Int} (h : m.Over W)
    (hspread : m.SpreadsFit W) {k : Nat} {s : Solver m.size} (hs : m.solverAfter W k = .ok s)
    (hphase : s.phase = .prime) : ∃ s', s.step W = .ok s' ∧ s.DecidesMaximum s' := by
  obtain ⟨p, hsound⟩ := CostMatrix.exists_sound_of_solverAfter h hspread hs
  obtain ⟨next, hnext, hdecides⟩ := hsound.exists_decidesMaximum hphase
  exact ⟨_, CostMatrix.step_eq_ok_of_solverAfter h hspread hs (by simp [hphase]) hnext,
    hdecides _⟩

-- three steps before the end, the two stars are not yet a maximum matching
theorem exists_step_decidesMaximum_nearTop :
    CostMatrix.nearTop.Over (.signed 7) ∧ CostMatrix.nearTop.SpreadsFit (.signed 7) ∧
      ∃ s, CostMatrix.nearTop.solverAfter (.signed 7) 7 = .ok s ∧ s.phase = .prime ∧
        ∃ s', s.step (.signed 7) = .ok s' ∧ s.DecidesMaximum s' := by
  obtain ⟨s, hs, hphase⟩ := Checked.map_eq_ok_iff.1 (show
    (CostMatrix.nearTop.solverAfter (.signed 7) 7).map (·.phase) = .ok .prime by decide +kernel)
  exact ⟨CostMatrix.over_nearTop, CostMatrix.spreadsFit_nearTop, s, hs, hphase,
    exists_step_decidesMaximum CostMatrix.over_nearTop CostMatrix.spreadsFit_nearTop hs hphase⟩

end LinearAssignment
