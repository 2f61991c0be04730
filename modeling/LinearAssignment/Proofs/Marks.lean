import LinearAssignment.Proofs.Runs

/-!
# The marks of reachable states

`Solver.MarksHold` says in plain terms how stars, primes and covers are related in each phase, and
`solverAfter_marksHold` says that they are so after any number of steps. The relation is the part
of the invariant that can be seen from outside: it follows from `Solver.Sound`, whose potentials and
order of primes are left out here.
-/

namespace LinearAssignment

variable {n : Nat}

namespace Solver

/-- The relation between the marks, the reduced costs and the phase of a solver. -/
structure MarksHold (s : Solver n) : Prop where
  /-- The two tables of stars are inverse to each other. -/
  star_inverse : ∀ i j, s.stars.columnOf.entry i = some j ↔ s.stars.rowOf.entry j = some i
  /-- Two stars in one row are in one column, and the other way round. -/
  star_unique : ∀ i j i' j', s.stars.contains i j → s.stars.contains i' j' → (i = i' ↔ j = j')
  /-- Once the rows are lowered, costs are not negative. -/
  cost_nonneg : s.phase ≠ .reduce → ∀ i j, 0 ≤ s.costs.cell i j
  /-- Once the rows are lowered, starred and primed cells are zero. -/
  mark_zero : s.phase ≠ .reduce → ∀ i j, s.stars.contains i j ∨ s.primes.contains i j →
    s.costs.cell i j = 0
  /-- The number of covered columns is counted right. -/
  count_eq : s.cover.columnCount = s.cover.coveredColumns.length
  /-- All columns are covered exactly if the problem is solved. -/
  count_eq_iff : s.cover.columnCount = n ↔ s.phase = .done
  /-- Before a search, nothing is covered or primed. -/
  idle : s.phase = .reduce ∨ s.phase = .star ∨ s.phase = .cover →
    (∀ i, s.cover.rows.entry i = false) ∧ (∀ j, s.cover.columns.entry j = false) ∧
    ∀ i j, ¬ s.primes.contains i j
  /-- In a search without a seed, the covered rows are those with a prime, and have stars. -/
  search_row : s.phase = .prime ∨ s.phase = .shift → ∀ i,
    (s.cover.rows.entry i = true ↔ ∃ j, s.primes.contains i j) ∧
    (s.cover.rows.entry i = true → ∃ j, s.stars.contains i j)
  /-- During a search, the covered columns are those of the stars in rows that are not covered. -/
  search_column : s.phase = .prime ∨ s.phase = .shift ∨ (∃ i j, s.phase = .augment i j) → ∀ j,
    (s.cover.columns.entry j = true ↔
      ∃ i, s.stars.contains i j ∧ s.cover.rows.entry i = false)
  /-- Before a shift, no uncovered cost is zero. -/
  shift_pos : s.phase = .shift → ∀ i j, s.cover.rows.entry i = false →
    s.cover.columns.entry j = false → s.costs.cell i j ≠ 0
  /-- Before an augmentation, the row of the seed is the only one with a prime that is not covered.
  It has no star, and the seed is in a column that is not covered. -/
  seed : ∀ i j, s.phase = .augment i j →
    (∀ a, (∃ b, s.primes.contains a b) ∧ s.cover.rows.entry a = false ↔ a = i) ∧
    s.primes.contains i j ∧ (∀ b, ¬ s.stars.contains i b) ∧ s.cover.columns.entry j = false
  /-- Before an augmentation, the covered rows are those of the other primes, and have stars. -/
  seed_row : ∀ i j, s.phase = .augment i j → ∀ a,
    (s.cover.rows.entry a = true ↔ (∃ b, s.primes.contains a b) ∧ a ≠ i) ∧
    (s.cover.rows.entry a = true → ∃ b, s.stars.contains a b)

theorem contains_stars_iff {stars : Stars n} {i j : Fin n} :
    stars.contains i j ↔ stars.columnOf.entry i = some j :=
  beq_iff_eq

theorem contains_primes_iff {primes : Primes n} {i j : Fin n} :
    primes.contains i j ↔ primes.columnOf.entry i = some j :=
  beq_iff_eq

end Solver

namespace Searching

variable {costs : Grid n Int} {stars : Stars n} {primes : Primes n} {cover : Cover n}
  {seed : Option (Fin n)}

theorem row_covered_iff (h : Searching costs stars primes cover seed) (i : Fin n) :
    cover.rows.entry i = true ↔ (∃ j, primes.contains i j) ∧ seed ≠ some i := by
  rw [h.row_covered, Option.isSome_iff_exists]
  simp only [Solver.contains_primes_iff]

theorem exists_star_of_covered (h : Searching costs stars primes cover seed) {i : Fin n}
    (hi : cover.rows.entry i = true) : ∃ j, stars.contains i j := by
  obtain ⟨j, hj⟩ := h.starred i hi
  exact ⟨j, Solver.contains_stars_iff.2 hj⟩

theorem column_covered_iff (h : Searching costs stars primes cover seed)
    (hstars : stars.Consistent) (j : Fin n) : cover.columns.entry j = true ↔
      ∃ i, stars.contains i j ∧ cover.rows.entry i = false := by
  rw [h.column_covered]
  simp only [Solver.contains_stars_iff, hstars _ j]

/-- During a search fewer columns are covered than there are, as only those of stars are. -/
theorem columnCount_lt (h : Searching costs stars primes cover seed) (hstars : stars.Consistent)
    (hcounted : cover.Counted) (hlt : stars.size < n) : cover.columnCount < n := by
  have hsub : cover.columnSet ⊆ stars.starredColumns := fun j hj ↦ by
    obtain ⟨i, hi, -⟩ := (h.column_covered j).1 (Cover.mem_columnSet.1 hj)
    exact Stars.mem_starredColumns.2 ⟨i, hi⟩
  calc cover.columnCount
      = cover.columnSet.card := Cover.counted_iff.1 hcounted
    _ ≤ stars.starredColumns.card := Finset.card_le_card hsub
    _ = stars.size := hstars.card_starredColumns
    _ < n := hlt

end Searching

namespace Solver.Sound

variable {W : CostType} {C : Grid n Int} {p : Potentials n} {s : Solver n}

/-- The relation that holds during a search, with the seed that the phase carries. -/
theorem searching (h : Sound W C p s) :
    (s.phase = .prime ∨ s.phase = .shift →
      Searching s.costs s.stars s.primes s.cover none ∧ s.stars.size < n) ∧
    ∀ i j, s.phase = .augment i j →
      Searched s.costs s.stars s.primes s.cover (.augment i j) ∧ s.stars.size < n := by
  have hmarked := h.marked
  refine ⟨?_, fun i j hs ↦ ?_⟩
  · rintro (hs | hs)
    · simp only [Marked, hs] at hmarked
      exact ⟨hmarked.1, hmarked.2.2⟩
    · simp only [Marked, hs] at hmarked
      exact ⟨hmarked.1.1, hmarked.2⟩
  · simp only [Marked, hs] at hmarked
    exact hmarked

/-- Outside of a search nothing is covered or primed before the problem is solved. -/
theorem idle (h : Sound W C p s) (hs : s.phase = .reduce ∨ s.phase = .star ∨ s.phase = .cover) :
    s.primes = .empty n ∧ s.cover = .empty n := by
  have hmarked := h.marked
  rcases hs with hs | hs | hs
  · simp only [Marked, hs] at hmarked
    exact hmarked.2
  · simp only [Marked, hs] at hmarked
    exact hmarked.2
  · simp only [Marked, hs] at hmarked
    exact hmarked.2

/-- Primes are zeros. -/
theorem prime_zero (h : Sound W C p s) {i j : Fin n} (hij : s.primes.columnOf.entry i = some j) :
    s.costs.cell i j = 0 := by
  have hidle : s.primes ≠ .empty n := fun heq ↦ by
    rw [heq, Primes.columnOf_entry_empty] at hij
    cases hij
  cases hs : s.phase with
  | reduce => exact absurd (h.idle (.inl hs)).1 hidle
  | star => exact absurd (h.idle (.inr (.inl hs))).1 hidle
  | cover => exact absurd (h.idle (.inr (.inr hs))).1 hidle
  | prime => exact (h.searching.1 (.inl hs)).1.prime_zero i j hij
  | shift => exact (h.searching.1 (.inr hs)).1.prime_zero i j hij
  | augment a b => exact (h.searching.2 a b hs).1.1.prime_zero i j hij
  | done =>
    have hmarked := h.marked
    simp only [Marked, hs] at hmarked
    exact absurd hmarked.2.1 hidle

/-- All columns are covered in solved states, and only there. -/
theorem columnCount_eq_iff (h : Sound W C p s) (hn : 0 < n) :
    s.cover.columnCount = n ↔ s.phase = .done := by
  have hempty : s.cover = .empty n → s.cover.columnCount ≠ n := fun heq hcount ↦ by
    rw [heq] at hcount
    exact Nat.ne_of_lt hn hcount
  cases hs : s.phase with
  | reduce => exact iff_of_false (hempty (h.idle (.inl hs)).2) (by simp)
  | star => exact iff_of_false (hempty (h.idle (.inr (.inl hs))).2) (by simp)
  | cover => exact iff_of_false (hempty (h.idle (.inr (.inr hs))).2) (by simp)
  | prime =>
    obtain ⟨hsearch, hlt⟩ := h.searching.1 (.inl hs)
    exact iff_of_false (hsearch.columnCount_lt h.consistent h.counted hlt).ne (by simp)
  | shift =>
    obtain ⟨hsearch, hlt⟩ := h.searching.1 (.inr hs)
    exact iff_of_false (hsearch.columnCount_lt h.consistent h.counted hlt).ne (by simp)
  | augment i j =>
    obtain ⟨hsearched, hlt⟩ := h.searching.2 i j hs
    exact iff_of_false (hsearched.1.columnCount_lt h.consistent h.counted hlt).ne (by simp)
  | done =>
    have hmarked := h.marked
    simp only [Marked, hs] at hmarked
    have huniv : s.cover.columnSet = Finset.univ :=
      Finset.eq_univ_of_forall fun j ↦ Cover.mem_columnSet.2 (hmarked.2.2.2 j)
    refine iff_of_true ?_ rfl
    rw [Cover.counted_iff.1 h.counted, huniv, Finset.card_univ, Fintype.card_fin]

/-- The marks of a sound state are related as they should be. -/
theorem marksHold (h : Sound W C p s) (hn : 0 < n) : s.MarksHold where
  star_inverse := h.consistent
  star_unique i j i' j' hij hij' := by
    rw [contains_stars_iff] at hij hij'
    constructor
    · rintro rfl
      exact Option.some.inj (hij.symm.trans hij')
    · rintro rfl
      exact h.consistent.row_unique hij hij'
  cost_nonneg hs := (h.reduced hs).nonneg
  mark_zero hs i j := by
    rintro (hstar | hprime)
    · exact (h.reduced hs).star_zero i j (contains_stars_iff.1 hstar)
    · exact h.prime_zero (contains_primes_iff.1 hprime)
  count_eq := h.counted
  count_eq_iff := h.columnCount_eq_iff hn
  idle hs := by
    obtain ⟨hprimes, hcover⟩ := h.idle hs
    simp [hprimes, hcover, Cover.empty, contains_primes_iff, Primes.columnOf_entry_empty]
  search_row hs i := by
    have hsearch := (h.searching.1 hs).1
    exact ⟨(hsearch.row_covered_iff i).trans (and_iff_left (Option.some_ne_none i).symm),
      hsearch.exists_star_of_covered⟩
  search_column := by
    rintro (hs | hs | ⟨i, j, hs⟩)
    · exact (h.searching.1 (.inl hs)).1.column_covered_iff h.consistent
    · exact (h.searching.1 (.inr hs)).1.column_covered_iff h.consistent
    · exact (h.searching.2 i j hs).1.1.column_covered_iff h.consistent
  shift_pos hs := by
    have hmarked := h.marked
    simp only [Marked, hs] at hmarked
    exact uncoveredZero?_eq_none_iff.1 hmarked.1.2
  seed i j hs := by
    obtain ⟨⟨hsearch, hprime, hfree, hcolumn⟩, -⟩ := h.searching.2 i j hs
    refine ⟨fun a ↦ ?_, contains_primes_iff.2 hprime, fun b hb ↦ ?_, hcolumn⟩
    · constructor
      · rintro ⟨hprimed, hrow⟩
        by_contra hne
        have := (hsearch.row_covered_iff a).2 ⟨hprimed, fun heq ↦ hne (Option.some.inj heq).symm⟩
        simp [hrow] at this
      · rintro rfl
        exact ⟨⟨j, contains_primes_iff.2 hprime⟩, hsearch.row_of_free hfree⟩
    · simp [contains_stars_iff, hfree] at hb
  seed_row i j hs a := by
    obtain ⟨⟨hsearch, -⟩, -⟩ := h.searching.2 i j hs
    refine ⟨(hsearch.row_covered_iff a).trans (and_congr_right fun _ ↦ ?_), fun ha ↦ ?_⟩
    · exact not_congr (by rw [Option.some.injEq, eq_comm])
    · exact hsearch.exists_star_of_covered ha

end Solver.Sound

/-- **Marks of reachable states.** After any number of steps from a matrix with a row whose spreads
fit, there is a state, and its marks are related as `Solver.MarksHold` says. -/
theorem solverAfter_marksHold {W : CostType} {m : CostMatrix Int} (h : m.Over W)
    (hm : 0 < m.size) (hspread : m.SpreadsFit W) (k : Nat) :
    ∃ s, m.solverAfter W k = .ok s ∧ s.MarksHold := by
  obtain ⟨s, hs⟩ := CostMatrix.exists_solverAfter h hm hspread k
  obtain ⟨p, hsound⟩ := CostMatrix.exists_sound_of_solverAfter h hspread hs
  exact ⟨s, hs, hsound.marksHold hm⟩

theorem solverAfter_marksHold_nearTop :
    CostMatrix.nearTop.Over (.signed 7) ∧ 0 < CostMatrix.nearTop.size ∧
      CostMatrix.nearTop.SpreadsFit (.signed 7) ∧
      ∃ s, CostMatrix.nearTop.solverAfter (.signed 7) 8 = .ok s ∧ s.MarksHold :=
  ⟨CostMatrix.over_nearTop, by decide, CostMatrix.spreadsFit_nearTop,
    solverAfter_marksHold CostMatrix.over_nearTop (by decide) CostMatrix.spreadsFit_nearTop 8⟩

end LinearAssignment
