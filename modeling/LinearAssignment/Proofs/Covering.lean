import LinearAssignment.Proofs.Matching
import LinearAssignment.Solver.Cover
import LinearAssignment.Solver.Step

/-!
# Covers and their count

A cover counts its columns along (`Cover.Counted`). Covering and uncovering a column keep the count
right, and so never leave the range of words as long as the number of columns is a word
(`exists_coverColumn`, `exists_uncoverColumn`). Covering the columns of all stars therefore never
faults and covers exactly those (`Solver.exists_coverStarred`).
-/

namespace LinearAssignment

namespace Cover

variable {n : Nat} {cover : Cover n}

theorem entry_put_true (t : Table n Bool) (i k : Fin n) :
    (t.put i true).entry k = true ↔ t.entry k = true ∨ k = i := by
  rw [Table.entry_put]
  rcases eq_or_ne i k with rfl | hik
  · simp
  · simp [hik, hik.symm]

theorem entry_put_false (t : Table n Bool) (i k : Fin n) :
    (t.put i false).entry k = true ↔ t.entry k = true ∧ k ≠ i := by
  rw [Table.entry_put]
  rcases eq_or_ne i k with rfl | hik
  · simp
  · simp [hik, hik.symm]

/-- The number of covered columns is the one that is kept. -/
def Counted (cover : Cover n) : Prop :=
  cover.columnCount = cover.coveredColumns.length

/-- The covered columns as a set. -/
def columnSet (cover : Cover n) : Finset (Fin n) :=
  Finset.univ.filter fun j ↦ cover.columns.entry j = true

/-- The covered rows as a set. -/
def rowSet (cover : Cover n) : Finset (Fin n) :=
  Finset.univ.filter fun i ↦ cover.rows.entry i = true

theorem mem_columnSet {j : Fin n} : j ∈ cover.columnSet ↔ cover.columns.entry j = true := by
  simp [columnSet]

theorem mem_rowSet {i : Fin n} : i ∈ cover.rowSet ↔ cover.rows.entry i = true := by
  simp [rowSet]

theorem length_coveredColumns (cover : Cover n) :
    cover.coveredColumns.length = cover.columnSet.card :=
  length_filter_finRange _

theorem length_coveredRows (cover : Cover n) : cover.coveredRows.length = cover.rowSet.card :=
  length_filter_finRange _

theorem counted_iff : cover.Counted ↔ cover.columnCount = cover.columnSet.card := by
  rw [Counted, length_coveredColumns]

theorem counted_empty (n : Nat) : (Cover.empty n).Counted := by
  simp [counted_iff, columnSet, empty]

/-- A column that is not covered leaves room for the count to grow. -/
theorem Counted.lt_of_uncovered (h : cover.Counted) {j : Fin n}
    (hj : cover.columns.entry j = false) : cover.columnCount < n := by
  rw [counted_iff] at h
  have hlt : cover.columnSet ⊂ Finset.univ :=
    Finset.ssubset_univ_iff.2 fun heq ↦ by
      have := mem_columnSet.1 (heq ▸ Finset.mem_univ j)
      simp [hj] at this
  simpa [h] using Finset.card_lt_card hlt

/-- Where the covered columns are those of the stars, as many are counted as there are stars. -/
theorem Counted.columnCount_eq_size (h : cover.Counted) {stars : Stars n}
    (hstars : stars.Consistent)
    (hcolumns : ∀ j, cover.columns.entry j = true ↔ (stars.rowOf.entry j).isSome) :
    cover.columnCount = stars.size := by
  have hset : cover.columnSet = stars.starredColumns := by
    ext j
    rw [mem_columnSet, hcolumns, Stars.starredColumns, Finset.mem_filter_univ]
  rw [counted_iff.1 h, hset, hstars.card_starredColumns]

/-- Covering a column adds it to the covered ones. -/
theorem Counted.exists_coverColumn (h : cover.Counted) (hn : n < Word.bound) (j : Fin n) :
    ∃ cover', cover.coverColumn j = .ok cover' ∧ cover'.Counted ∧ cover'.rows = cover.rows ∧
      ∀ k, cover'.columns.entry k = true ↔ cover.columns.entry k = true ∨ k = j := by
  cases hj : cover.columns.entry j with
  | true =>
    refine ⟨cover, by simp [coverColumn, hj, Checked.pure_eq_ok], h, rfl, fun k ↦ ?_⟩
    exact ⟨.inl, fun hk ↦ hk.elim id fun heq ↦ heq ▸ hj⟩
  | false =>
    have hroom := h.lt_of_uncovered hj
    have hadd : Word.add cover.columnCount 1 = .ok (cover.columnCount + 1) :=
      Word.add_eq_ok_iff.2 ⟨by omega, rfl⟩
    have hentry := entry_put_true cover.columns j
    refine ⟨⟨cover.rows, cover.columns.put j true, cover.columnCount + 1⟩, ?_, ?_, rfl, hentry⟩
    · simp [coverColumn, hj, hadd, Checked.pure_eq_ok]
    · rw [counted_iff] at h ⊢
      have hset : columnSet ⟨cover.rows, cover.columns.put j true, cover.columnCount + 1⟩ =
          insert j cover.columnSet := by
        ext k
        simp [mem_columnSet, hentry, or_comm]
      rw [hset, Finset.card_insert_of_notMem (by simp [mem_columnSet, hj]), h]

/-- Uncovering a column takes it out of the covered ones. -/
theorem Counted.exists_uncoverColumn (h : cover.Counted) (j : Fin n) :
    ∃ cover', cover.uncoverColumn j = .ok cover' ∧ cover'.Counted ∧ cover'.rows = cover.rows ∧
      ∀ k, cover'.columns.entry k = true ↔ cover.columns.entry k = true ∧ k ≠ j := by
  cases hj : cover.columns.entry j with
  | true =>
    have hmem : j ∈ cover.columnSet := mem_columnSet.2 hj
    have hcount := counted_iff.1 h
    have hpos : 1 ≤ cover.columnCount := by
      rw [hcount]
      exact Finset.card_pos.2 ⟨j, hmem⟩
    have hsub : Word.sub cover.columnCount 1 = .ok (cover.columnCount - 1) :=
      Word.sub_eq_ok_iff.2 ⟨hpos, rfl⟩
    have hentry := entry_put_false cover.columns j
    refine ⟨⟨cover.rows, cover.columns.put j false, cover.columnCount - 1⟩, ?_, ?_, rfl, hentry⟩
    · simp [uncoverColumn, hj, hsub, Checked.pure_eq_ok]
    · rw [counted_iff]
      have hset : columnSet ⟨cover.rows, cover.columns.put j false, cover.columnCount - 1⟩ =
          cover.columnSet.erase j := by
        ext k
        simp [mem_columnSet, hentry, and_comm]
      rw [hset, Finset.card_erase_of_mem hmem, hcount]
  | false =>
    refine ⟨cover, by simp [uncoverColumn, hj, Checked.pure_eq_ok], h, rfl, fun k ↦ ?_⟩
    exact ⟨fun hk ↦ ⟨hk, fun heq ↦ by simp [heq, hj] at hk⟩, And.left⟩

/-- Covering a row changes no column. -/
theorem Counted.coverRow (h : cover.Counted) (i : Fin n) : (cover.coverRow i).Counted :=
  h

theorem entry_rows_coverRow (cover : Cover n) (i k : Fin n) :
    (cover.coverRow i).rows.entry k = true ↔ cover.rows.entry k = true ∨ k = i :=
  entry_put_true cover.rows i k

end Cover

namespace Solver

variable {n : Nat}

/-- From an empty cover, exactly the columns with a star get covered. -/
theorem exists_coverStarred (stars : Stars n) (hn : n < Word.bound) :
    ∃ cover, coverStarred stars (Cover.empty n) = .ok cover ∧ cover.Counted ∧
      (∀ i, cover.rows.entry i = false) ∧
      ∀ j, cover.columns.entry j = true ↔ (stars.rowOf.entry j).isSome := by
  obtain ⟨cover, hfold, hcounted, hrows, hcolumns⟩ := Checked.foldlM_induction
    (f := fun (cover : Cover n) j ↦
      if (stars.rowOf.entry j).isSome then cover.coverColumn j else pure cover)
    (P := fun passed cover ↦ cover.Counted ∧ (∀ i, cover.rows.entry i = false) ∧
      ∀ j, cover.columns.entry j = true ↔ j ∈ passed ∧ (stars.rowOf.entry j).isSome)
    (b := Cover.empty n) ⟨Cover.counted_empty n, by simp [Cover.empty], by simp [Cover.empty]⟩
    (fun before j after cover _ ⟨hcounted, hrows, hcolumns⟩ ↦ by
      by_cases hj : (stars.rowOf.entry j).isSome
      · obtain ⟨cover', hcover, hcounted', hrows', hcolumns'⟩ := hcounted.exists_coverColumn hn j
        refine ⟨cover', by rw [if_pos hj, hcover], hcounted', by rwa [hrows'], fun k ↦ ?_⟩
        rw [hcolumns', hcolumns, List.mem_append, List.mem_singleton, or_and_right]
        exact or_congr_right ⟨fun heq ↦ ⟨heq, heq ▸ hj⟩, And.left⟩
      · refine ⟨cover, by rw [if_neg hj, Checked.pure_eq_ok], hcounted, hrows, fun k ↦ ?_⟩
        rw [hcolumns, List.mem_append, List.mem_singleton, or_and_right]
        exact (or_iff_left fun ⟨heq, hstar⟩ ↦ hj (heq ▸ hstar)).symm)
  exact ⟨cover, hfold, hcounted, hrows, by simpa using hcolumns⟩

end Solver

end LinearAssignment
