import LinearAssignment.Proofs.Covering

/-!
# The search for an augmenting path

While zeros are primed, the marks keep a fixed relation to each other (`Searching`): a row is
covered exactly if it has a prime, covered rows have stars, and a column is covered exactly if its
star lies in a row that is not. The prime that ends a search is the one exception, and it is the
*seed* that the relation is given with.

The marks do not record in which order rows were primed, but the relation keeps such an order in
existence (`PrimeOrder`): the star in the column of a prime belongs to a row that was primed before.
This is what makes the path from the seed end.

`Searching.exists_primeUncovered` is the statement about the whole loop. It never faults, never
uses up its rounds, keeps all covered rows covered, and covers one more unless it finds no zero.
-/

namespace LinearAssignment

variable {n : Nat}

/-- The primed rows in the order in which they got their primes, the latest first. The star in the
column of a prime, if there is one, belongs to an earlier row. -/
inductive PrimeOrder (stars : Stars n) (primes : Primes n) : List (Fin n) → Prop
  /-- No row has a prime. -/
  | none : PrimeOrder stars primes []
  /-- A row has got its prime after all others. -/
  | latest {i j : Fin n} {earlier : List (Fin n)} (new : i ∉ earlier)
      (prime : primes.columnOf.entry i = some j)
      (blocked : ∀ k, stars.rowOf.entry j = some k → k ∈ earlier)
      (rest : PrimeOrder stars primes earlier) : PrimeOrder stars primes (i :: earlier)

namespace PrimeOrder

variable {stars : Stars n} {primes : Primes n} {order : List (Fin n)}

theorem nodup (h : PrimeOrder stars primes order) : order.Nodup := by
  induction h with
  | none => exact List.nodup_nil
  | latest new _ _ _ ih => exact List.nodup_cons.2 ⟨new, ih⟩

/-- The star in the column of a prime belongs to a primed row. -/
theorem mem_of_star (h : PrimeOrder stars primes order) {i j k : Fin n} (hi : i ∈ order)
    (hij : primes.columnOf.entry i = some j) (hk : stars.rowOf.entry j = some k) : k ∈ order := by
  induction h with
  | none => exact absurd hi List.not_mem_nil
  | latest _ prime blocked _ ih =>
    rcases List.mem_cons.1 hi with rfl | hi
    · obtain rfl := Option.some.inj (prime.symm.trans hij)
      exact List.mem_cons_of_mem _ (blocked k hk)
    · exact List.mem_cons_of_mem _ (ih hi)

/-- Only the primes of the rows in an order matter for it. -/
theorem congr {primes' : Primes n} (h : PrimeOrder stars primes order)
    (heq : ∀ i ∈ order, primes'.columnOf.entry i = primes.columnOf.entry i) :
    PrimeOrder stars primes' order := by
  induction h with
  | none => exact .none
  | latest new prime blocked _ ih =>
    refine .latest new ((heq _ List.mem_cons_self).trans prime) blocked (ih fun i hi ↦ ?_)
    exact heq i (List.mem_cons_of_mem _ hi)

end PrimeOrder

/-- How stars, primes and covers are related during a search. The seed is the primed row without a
star, once there is one. -/
structure Searching (costs : Grid n Int) (stars : Stars n) (primes : Primes n) (cover : Cover n)
    (seed : Option (Fin n)) : Prop where
  /-- The rows with a prime are covered, but for the seed. -/
  row_covered : ∀ i, cover.rows.entry i = true ↔
    (primes.columnOf.entry i).isSome ∧ seed ≠ some i
  /-- Covered rows have stars. -/
  starred : ∀ i, cover.rows.entry i = true → ∃ j, stars.columnOf.entry i = some j
  /-- The covered columns are those of the stars in rows that are not covered. -/
  column_covered : ∀ j, cover.columns.entry j = true ↔
    ∃ i, stars.rowOf.entry j = some i ∧ cover.rows.entry i = false
  /-- Primes are zeros. -/
  prime_zero : ∀ i j, primes.columnOf.entry i = some j → costs.cell i j = 0
  /-- The primed rows have an order. -/
  ordered : ∃ order, PrimeOrder stars primes order ∧
    ∀ i, i ∈ order ↔ (primes.columnOf.entry i).isSome

namespace Primes

/-- A row without a prime can get one. -/
theorem insert_of_free {primes : Primes n} {i : Fin n} (h : primes.columnOf.entry i = none)
    (j : Fin n) : primes.insert i j = .ok ⟨primes.columnOf.put i (some j)⟩ := by
  simp [insert, h]

theorem columnOf_entry_empty (i : Fin n) : (Primes.empty n).columnOf.entry i = none := by
  simp [empty]

end Primes

namespace Solver

variable {costs : Grid n Int} {cover : Cover n}

/-- The zero that is found is a zero, and it is not covered. -/
theorem uncoveredZero?_eq_some {i j : Fin n} (h : uncoveredZero? costs cover = some (i, j)) :
    cover.rows.entry i = false ∧ cover.columns.entry j = false ∧ costs.cell i j = 0 := by
  obtain ⟨a, ha, hfind⟩ := List.exists_of_findSome?_eq_some h
  obtain ⟨b, hb, hab⟩ := Option.map_eq_some_iff.1 hfind
  obtain ⟨rfl, rfl⟩ := Prod.mk.inj hab
  refine ⟨Cover.mem_uncoveredRows.1 ha, ?_, by simpa using List.find?_some hb⟩
  exact Cover.mem_uncoveredColumns.1 (List.mem_of_find?_eq_some hb)

/-- No zero is found exactly if all of them are covered. -/
theorem uncoveredZero?_eq_none_iff :
    uncoveredZero? costs cover = none ↔ ∀ i j, cover.rows.entry i = false →
      cover.columns.entry j = false → costs.cell i j ≠ 0 := by
  simp only [uncoveredZero?, List.findSome?_eq_none_iff, Option.map_eq_none_iff,
    List.find?_eq_none, Cover.mem_uncoveredRows, Cover.mem_uncoveredColumns, beq_iff_eq]
  exact ⟨fun h i j hi hj ↦ h i hi j hj, fun h i hi j hj ↦ h i j hi hj⟩

/-- If no zero is found, each of them is in a covered row or in a covered column. -/
theorem covered_of_uncoveredZero?_eq_none (h : uncoveredZero? costs cover = none) {i j : Fin n}
    (hzero : costs.cell i j = 0) :
    cover.rows.entry i = true ∨ cover.columns.entry j = true := by
  rw [← Bool.not_eq_false, or_iff_not_imp_left, Classical.not_not, ← Bool.not_eq_false]
  exact fun hrow hcolumn ↦ uncoveredZero?_eq_none_iff.1 h i j hrow hcolumn hzero

/-- A search that has come to an end does the same with more rounds. -/
theorem primeUncovered_of_le {stars : Stars n} {result : Primes n × Cover n × Phase n}
    (fuel : Nat) : ∀ {fuel' : Nat} {primes : Primes n} {cover : Cover n},
      primeUncovered costs stars fuel primes cover = .ok result → fuel ≤ fuel' →
      primeUncovered costs stars fuel' primes cover = .ok result := by
  induction fuel with
  | zero =>
    intro fuel' primes cover h _
    cases h
  | succ fuel ih =>
    intro fuel' primes cover h hle
    obtain ⟨fuel', rfl⟩ := Nat.exists_eq_add_one_of_ne_zero (Nat.ne_zero_of_lt hle)
    rw [primeUncovered] at h ⊢
    split
    · rename_i hfind
      rwa [hfind] at h
    · rename_i i j hfind
      rw [hfind] at h
      obtain ⟨primes₁, hinsert, h⟩ := Checked.bind_eq_ok_iff.1 h
      rw [hinsert, Checked.ok_bind]
      split
      · rename_i k hstar
        rw [hstar] at h
        obtain ⟨cover₁, huncover, h⟩ := Checked.bind_eq_ok_iff.1 h
        rw [huncover, Checked.ok_bind]
        exact ih h (Nat.le_of_succ_le_succ hle)
      · rename_i hfree
        rwa [hfree] at h

end Solver

namespace Searching

variable {costs : Grid n Int} {stars : Stars n} {primes : Primes n} {cover : Cover n}
  {seed : Option (Fin n)}

/-- A search starts with the columns of all stars covered. -/
theorem start (hrows : ∀ i, cover.rows.entry i = false)
    (hcolumns : ∀ j, cover.columns.entry j = true ↔ (stars.rowOf.entry j).isSome) :
    Searching costs stars (Primes.empty n) cover none where
  row_covered i := by simp [hrows, Primes.columnOf_entry_empty]
  starred i hi := by simp [hrows] at hi
  column_covered j := by simp [hcolumns, hrows, Option.isSome_iff_exists]
  prime_zero i j hj := by simp [Primes.columnOf_entry_empty] at hj
  ordered := ⟨[], .none, by simp [Primes.columnOf_entry_empty]⟩

theorem rowSet_subset (h : Searching costs stars primes cover seed) :
    cover.rowSet ⊆ stars.starredRows := fun i hi ↦
  Stars.mem_starredRows.2 (h.starred i (Cover.mem_rowSet.1 hi))

theorem card_rowSet_le (h : Searching costs stars primes cover seed) :
    cover.rowSet.card ≤ stars.size := by
  rw [Stars.size_eq_card]
  exact Finset.card_le_card h.rowSet_subset

/-- There are as many covered rows and columns as stars: each star is covered once, and nothing is
covered but for a star. -/
theorem card_rowSet_add_card_columnSet (h : Searching costs stars primes cover seed)
    (hstars : stars.Consistent) : cover.rowSet.card + cover.columnSet.card = stars.size := by
  -- the covered columns are those of the stars in the other rows
  have hcolumns : cover.columnSet.card = (stars.starredRows \ cover.rowSet).card := by
    rw [← hstars.card_columns_of_subset Finset.sdiff_subset]
    congr 1
    ext j
    rw [Cover.mem_columnSet, h.column_covered, Finset.mem_filter_univ]
    refine exists_congr fun i ↦ ?_
    rw [Finset.mem_sdiff, Cover.mem_rowSet, Bool.not_eq_true, and_comm, and_congr_left_iff]
    intro hij
    exact (and_iff_right_of_imp fun _ ↦ Stars.mem_starredRows.2 ⟨j, (hstars i j).2 hij⟩).symm
  have hle := Finset.card_le_card h.rowSet_subset
  rw [hcolumns, Finset.card_sdiff_of_subset h.rowSet_subset, Stars.size_eq_card]
  omega

/-- A row without a star is not covered. -/
theorem row_of_free (h : Searching costs stars primes cover seed) {i : Fin n}
    (hi : stars.columnOf.entry i = none) : cover.rows.entry i = false := by
  rw [Bool.eq_false_iff]
  intro hcovered
  obtain ⟨j, hj⟩ := h.starred i hcovered
  simp [hi] at hj

/-- A column without a star is not covered. -/
theorem column_of_free (h : Searching costs stars primes cover seed) {j : Fin n}
    (hj : stars.rowOf.entry j = none) : cover.columns.entry j = false := by
  rw [Bool.eq_false_iff]
  intro hcovered
  obtain ⟨i, hi, -⟩ := (h.column_covered j).1 hcovered
  simp [hj] at hi

/-- A star is covered exactly once. -/
theorem column_of_star (h : Searching costs stars primes cover seed) {i j : Fin n}
    (hj : stars.rowOf.entry j = some i) :
    cover.columns.entry j = true ↔ cover.rows.entry i = false := by
  rw [h.column_covered, hj]
  simp

/-- Without a seed, a row that is not covered has no prime. -/
theorem prime_of_uncovered (h : Searching costs stars primes cover none) {i : Fin n}
    (hi : cover.rows.entry i = false) : primes.columnOf.entry i = none := by
  by_contra hprime
  have hcovered := (h.row_covered i).2
    ⟨Option.isSome_iff_ne_none.2 hprime, (Option.some_ne_none i).symm⟩
  rw [hi] at hcovered
  exact Bool.false_ne_true hcovered

/-- The star in a column that is not covered belongs to a row that was primed before. -/
theorem isSome_of_uncovered (h : Searching costs stars primes cover seed) {i j : Fin n}
    (hj : cover.columns.entry j = false) (hi : stars.rowOf.entry j = some i) :
    (primes.columnOf.entry i).isSome := by
  have hrow : cover.rows.entry i = true := by
    rw [← Bool.not_eq_false, ← h.column_of_star hi, hj]
    exact Bool.false_ne_true
  exact ((h.row_covered i).1 hrow).1

/-- With a new prime at an uncovered zero, primes are zeros and have an order as before. -/
theorem ordered_insert (h : Searching costs stars primes cover none) {i j : Fin n}
    (hi : cover.rows.entry i = false) (hj : cover.columns.entry j = false) :
    ∃ order, PrimeOrder stars ⟨primes.columnOf.put i (some j)⟩ order ∧
      ∀ k, k ∈ order ↔ ((primes.columnOf.put i (some j)).entry k).isSome := by
  obtain ⟨order, horder, hmem⟩ := h.ordered
  have hnew : i ∉ order := by simp [hmem, h.prime_of_uncovered hi]
  refine ⟨i :: order, .latest hnew (j := j) (by simp [Table.entry_put]) (fun k hk ↦ ?_)
    (horder.congr fun k hk ↦ ?_), fun k ↦ ?_⟩
  · exact (hmem k).2 (h.isSome_of_uncovered hj hk)
  · have hne : i ≠ k := fun heq ↦ hnew (heq ▸ hk)
    rw [Table.entry_put, if_neg hne]
  · rw [List.mem_cons, hmem, Table.entry_put]
    rcases eq_or_ne i k with rfl | hik
    · simp
    · simp [hik, hik.symm]

theorem prime_zero_insert (h : Searching costs stars primes cover seed) {i j : Fin n}
    (hzero : costs.cell i j = 0) :
    ∀ a b, (primes.columnOf.put i (some j)).entry a = some b → costs.cell a b = 0 := by
  intro a b hab
  rw [Table.entry_put] at hab
  split at hab
  · rename_i hia
    obtain rfl := Option.some.inj hab
    rwa [← hia]
  · exact h.prime_zero a b hab

/-- One round of a search that goes on: the row of the new prime is covered in place of the column
of its star. -/
theorem exists_cover (h : Searching costs stars primes cover none) (hstars : stars.Consistent)
    (hcounted : cover.Counted) {i j k : Fin n} (hi : cover.rows.entry i = false)
    (hj : cover.columns.entry j = false) (hzero : costs.cell i j = 0)
    (hk : stars.columnOf.entry i = some k) :
    ∃ cover', (cover.coverRow i).uncoverColumn k = .ok cover' ∧ cover'.Counted ∧
      cover'.rowSet = insert i cover.rowSet ∧
      Searching costs stars ⟨primes.columnOf.put i (some j)⟩ cover' none := by
  obtain ⟨cover', huncover, hcounted', hrows, hcolumns⟩ :=
    (hcounted.coverRow i).exists_uncoverColumn k
  have hrow : ∀ a, cover'.rows.entry a = true ↔ cover.rows.entry a = true ∨ a = i := fun a ↦ by
    rw [hrows, Cover.entry_rows_coverRow]
  refine ⟨cover', huncover, hcounted', ?_, ?_, ?_, ?_, h.prime_zero_insert hzero,
    h.ordered_insert hi hj⟩
  · ext a
    rw [Finset.mem_insert, Cover.mem_rowSet, Cover.mem_rowSet, hrow, or_comm]
  · intro a
    rw [hrow, h.row_covered, Table.entry_put]
    rcases eq_or_ne i a with rfl | hia
    · simp
    · simp [hia, hia.symm]
  · intro a ha
    rcases (hrow a).1 ha with hold | rfl
    · exact h.starred a hold
    · exact ⟨k, hk⟩
  · -- a star in a column other than `k` is not the one in row `i`
    intro b
    have hcolumn : cover'.columns.entry b = true ↔ cover.columns.entry b = true ∧ b ≠ k :=
      hcolumns b
    rw [hcolumn, h.column_covered]
    constructor
    · rintro ⟨⟨a, hab, ha⟩, hbk⟩
      refine ⟨a, hab, ?_⟩
      rw [Bool.eq_false_iff, ne_eq, hrow, not_or]
      refine ⟨by simp [ha], ?_⟩
      rintro rfl
      rw [← hstars, hk] at hab
      exact hbk (Option.some.inj hab).symm
    · rintro ⟨a, hab, ha⟩
      rw [Bool.eq_false_iff, ne_eq, hrow, not_or] at ha
      refine ⟨⟨a, hab, Bool.eq_false_iff.2 ha.1⟩, ?_⟩
      rintro rfl
      rw [(hstars i b).1 hk] at hab
      exact ha.2 (Option.some.inj hab).symm

/-- The last round of a search that finds a seed. -/
theorem seed_insert (h : Searching costs stars primes cover none) {i j : Fin n}
    (hi : cover.rows.entry i = false) (hj : cover.columns.entry j = false)
    (hzero : costs.cell i j = 0) :
    Searching costs stars ⟨primes.columnOf.put i (some j)⟩ cover (some i) where
  row_covered a := by
    rw [h.row_covered, Table.entry_put]
    rcases eq_or_ne i a with rfl | hia
    · simp [h.prime_of_uncovered hi]
    · simp [hia]
  starred := h.starred
  column_covered := h.column_covered
  prime_zero := h.prime_zero_insert hzero
  ordered := h.ordered_insert hi hj

end Searching

/-- What a search leaves behind, with the phase that it decides on. -/
def Searched (costs : Grid n Int) (stars : Stars n) (primes : Primes n) (cover : Cover n) :
    Phase n → Prop
  | .shift => Searching costs stars primes cover none ∧ Solver.uncoveredZero? costs cover = none
  | .augment i j => Searching costs stars primes cover (some i) ∧
      primes.columnOf.entry i = some j ∧ stars.columnOf.entry i = none ∧
      cover.columns.entry j = false
  | _ => False

namespace Searching

variable {costs : Grid n Int} {stars : Stars n}

/-- A search with more rounds left than there are starred rows to cover comes to an end, and leaves
its marks in order. -/
theorem exists_primeUncovered (hstars : stars.Consistent) :
    ∀ (fuel : Nat) {primes : Primes n} {cover : Cover n},
      Searching costs stars primes cover none → cover.Counted →
      stars.size < fuel + cover.rowSet.card →
      ∃ primes' cover' phase,
        Solver.primeUncovered costs stars fuel primes cover = .ok (primes', cover', phase) ∧
        Searched costs stars primes' cover' phase ∧ cover'.Counted ∧
        cover.rowSet ⊆ cover'.rowSet ∧
        (Solver.uncoveredZero? costs cover ≠ none → phase = .shift →
          cover.rowSet.card < cover'.rowSet.card) := by
  -- each round covers one more starred row, so it may use up one round of those that are left
  intro fuel
  induction fuel with
  | zero =>
    intro primes cover h _ hfuel
    have := h.card_rowSet_le
    omega
  | succ fuel ih =>
    intro primes cover h hcounted hfuel
    cases hfind : Solver.uncoveredZero? costs cover with
    | none =>
      refine ⟨primes, cover, .shift, ?_, ⟨h, hfind⟩, hcounted, subset_rfl, by simp⟩
      simp [Solver.primeUncovered, hfind, Checked.pure_eq_ok]
    | some position =>
      obtain ⟨i, j⟩ := position
      obtain ⟨hi, hj, hzero⟩ := Solver.uncoveredZero?_eq_some hfind
      have hinsert := Primes.insert_of_free (h.prime_of_uncovered hi) j
      cases hstar : stars.columnOf.entry i with
      | none =>
        refine ⟨⟨primes.columnOf.put i (some j)⟩, cover, .augment i j, ?_,
          ⟨h.seed_insert hi hj hzero, by simp [Table.entry_put], hstar, hj⟩, hcounted,
          subset_rfl, by simp⟩
        simp [Solver.primeUncovered, hfind, hinsert, hstar, Checked.pure_eq_ok]
      | some k =>
        obtain ⟨cover₁, hcover, hcounted₁, hset, h₁⟩ :=
          h.exists_cover hstars hcounted hi hj hzero hstar
        have hcard : cover₁.rowSet.card = cover.rowSet.card + 1 := by
          rw [hset, Finset.card_insert_of_notMem (by simp [Cover.mem_rowSet, hi])]
        obtain ⟨primes', cover', phase, hrun, hsearched, hcounted', hsub, -⟩ :=
          ih h₁ hcounted₁ (by omega)
        have hsub₁ : cover.rowSet ⊆ cover₁.rowSet := hset ▸ Finset.subset_insert i _
        refine ⟨primes', cover', phase, ?_, hsearched, hcounted', hsub₁.trans hsub, fun _ _ ↦ ?_⟩
        · simp [Solver.primeUncovered, hfind, hinsert, hstar, hcover, hrun]
        · have := Finset.card_le_card hsub
          omega

end Searching

end LinearAssignment
