import LinearAssignment.Proofs.Checked
import LinearAssignment.Solver.Stars
import Mathlib.Data.Finset.Card

/-!
# Stars as a matching

The two tables of the stars are a matching when they are inverse to each other
(`Stars.Consistent`). Stars are then described by one relation, `columnOf i = some j`, and both
changes of them are described by what they do to it: `exists_erase` takes one pair out of it and
`exists_insert` puts one pair into it. `exists_eraseAll` and `exists_insertAll` are the same
statements about a list of pairs.

The number of stars is the number of starred rows (`size_eq_card`), and of starred columns
(`card_starredColumns`), so that a matching that leaves a row free leaves a column free.
-/

namespace LinearAssignment.Stars

variable {n : Nat} {stars : Stars n}

/-- Both tables of the stars hold the same pairs. -/
def Consistent (stars : Stars n) : Prop :=
  ∀ i j, stars.columnOf.entry i = some j ↔ stars.rowOf.entry j = some i

theorem consistent_empty (n : Nat) : (Stars.empty n).Consistent := by
  simp [Consistent, empty]

/-- A column has at most one star. -/
theorem Consistent.row_unique (h : stars.Consistent) {i i' j : Fin n}
    (hi : stars.columnOf.entry i = some j) (hi' : stars.columnOf.entry i' = some j) : i = i' := by
  rw [h] at hi hi'
  exact Option.some.inj (hi.symm.trans hi')

/-- A column without a star is one that no row is matched with. -/
theorem Consistent.rowOf_eq_none_iff (h : stars.Consistent) {j : Fin n} :
    stars.rowOf.entry j = none ↔ ∀ i, stars.columnOf.entry i ≠ some j := by
  simp only [ne_eq, h _ j]
  exact Option.eq_none_iff_forall_ne_some

/-- Where the stars of one matching are given by the other, so are its free columns. -/
theorem Consistent.rowOf_eq_none_of_forall {stars' : Stars n} (h : stars.Consistent)
    (h' : stars'.Consistent) {j : Fin n} (hj : stars'.rowOf.entry j = none)
    (hsub : ∀ i, stars.columnOf.entry i = some j → ∃ i', stars'.columnOf.entry i' = some j) :
    stars.rowOf.entry j = none := by
  rw [h.rowOf_eq_none_iff]
  intro i hi
  obtain ⟨i', hi'⟩ := hsub i hi
  exact h'.rowOf_eq_none_iff.1 hj i' hi'

/-! ### One star -/

/-- A star that is there can be taken away, and no other star is lost. -/
theorem Consistent.exists_erase (h : stars.Consistent) {i j : Fin n}
    (hij : stars.columnOf.entry i = some j) :
    ∃ stars', stars.erase i j = .ok stars' ∧ stars'.Consistent ∧
      ∀ a b, stars'.columnOf.entry a = some b ↔ stars.columnOf.entry a = some b ∧ a ≠ i := by
  refine ⟨⟨stars.columnOf.put i none, stars.rowOf.put j none⟩, ?_, fun a b ↦ ?_, fun a b ↦ ?_⟩
  · simp [erase, contains, hij]
  · -- no other pair is in the row or in the column of the star
    rw [Table.entry_put, Table.entry_put]
    rcases eq_or_ne i a with rfl | hia
    · rcases eq_or_ne j b with rfl | hjb
      · simp
      · rw [if_pos rfl, if_neg hjb, ← h]
        exact iff_of_false (Option.some_ne_none b).symm fun hb ↦
          hjb (Option.some.inj (hij.symm.trans hb))
    · rcases eq_or_ne j b with rfl | hjb
      · rw [if_neg hia, if_pos rfl]
        exact iff_of_false (fun ha ↦ hia (h.row_unique hij ha)) (Option.some_ne_none a).symm
      · rw [if_neg hia, if_neg hjb]
        exact h a b
  · rw [Table.entry_put]
    rcases eq_or_ne i a with rfl | hia
    · simp
    · simp [hia, hia.symm]

/-- A star can be added in a free row and column, and is the only new one. -/
theorem Consistent.exists_insert (h : stars.Consistent) {i j : Fin n}
    (hi : stars.columnOf.entry i = none) (hj : stars.rowOf.entry j = none) :
    ∃ stars', stars.insert i j = .ok stars' ∧ stars'.Consistent ∧
      ∀ a b, stars'.columnOf.entry a = some b ↔
        stars.columnOf.entry a = some b ∨ a = i ∧ b = j := by
  refine ⟨⟨stars.columnOf.put i (some j), stars.rowOf.put j (some i)⟩, ?_, fun a b ↦ ?_,
    fun a b ↦ ?_⟩
  · simp [insert, hi, hj]
  · rw [Table.entry_put, Table.entry_put]
    rcases eq_or_ne i a with rfl | hia
    · rcases eq_or_ne j b with rfl | hjb
      · simp
      · rw [if_pos rfl, if_neg hjb, ← h, hi]
        exact iff_of_false (fun heq ↦ hjb (Option.some.inj heq)) (Option.some_ne_none b).symm
    · rcases eq_or_ne j b with rfl | hjb
      · rw [if_neg hia, if_pos rfl, h, hj]
        exact iff_of_false (Option.some_ne_none a).symm fun heq ↦ hia (Option.some.inj heq)
      · rw [if_neg hia, if_neg hjb]
        exact h a b
  · rw [Table.entry_put]
    rcases eq_or_ne i a with rfl | hia
    · simp [hi, eq_comm]
    · simp [hia, hia.symm]

/-! ### Many stars -/

/-- Stars that are there can be taken away one after another if their rows differ. -/
theorem Consistent.exists_eraseAll (pairs : List (Fin n × Fin n)) :
    ∀ {stars : Stars n}, stars.Consistent → (pairs.map Prod.fst).Nodup →
      (∀ q ∈ pairs, stars.columnOf.entry q.1 = some q.2) →
      ∃ stars', pairs.foldlM (fun stars q ↦ stars.erase q.1 q.2) stars = .ok stars' ∧
        stars'.Consistent ∧ ∀ a b, stars'.columnOf.entry a = some b ↔
          stars.columnOf.entry a = some b ∧ a ∉ pairs.map Prod.fst := by
  induction pairs with
  | nil =>
    intro stars h _ _
    exact ⟨stars, rfl, h, by simp⟩
  | cons q pairs ih =>
    intro stars h hnodup hthere
    obtain ⟨hq, hnodup⟩ := List.nodup_cons.1 hnodup
    obtain ⟨stars₁, herase, h₁, hiff₁⟩ := h.exists_erase (hthere q List.mem_cons_self)
    have hthere₁ : ∀ r ∈ pairs, stars₁.columnOf.entry r.1 = some r.2 := fun r hr ↦
      (hiff₁ r.1 r.2).2 ⟨hthere r (List.mem_cons_of_mem _ hr), fun heq ↦
        hq (heq ▸ List.mem_map_of_mem hr)⟩
    obtain ⟨stars₂, hfold, h₂, hiff₂⟩ := ih h₁ hnodup hthere₁
    refine ⟨stars₂, ?_, h₂, fun a b ↦ ?_⟩
    · rw [List.foldlM_cons, herase, Checked.ok_bind, hfold]
    · rw [hiff₂, hiff₁, List.map_cons, List.mem_cons, not_or, and_assoc]

/-- Stars can be added one after another in free rows and columns, none of which occurs twice. -/
theorem Consistent.exists_insertAll (pairs : List (Fin n × Fin n)) :
    ∀ {stars : Stars n}, stars.Consistent → (pairs.map Prod.fst).Nodup →
      (pairs.map Prod.snd).Nodup → (∀ q ∈ pairs, stars.columnOf.entry q.1 = none) →
      (∀ q ∈ pairs, stars.rowOf.entry q.2 = none) →
      ∃ stars', pairs.foldlM (fun stars q ↦ stars.insert q.1 q.2) stars = .ok stars' ∧
        stars'.Consistent ∧ ∀ a b, stars'.columnOf.entry a = some b ↔
          stars.columnOf.entry a = some b ∨ (a, b) ∈ pairs := by
  induction pairs with
  | nil =>
    intro stars h _ _ _ _
    exact ⟨stars, rfl, h, by simp⟩
  | cons q pairs ih =>
    intro stars h hrows hcolumns hrow hcolumn
    obtain ⟨hq₁, hrows⟩ := List.nodup_cons.1 hrows
    obtain ⟨hq₂, hcolumns⟩ := List.nodup_cons.1 hcolumns
    obtain ⟨stars₁, hinsert, h₁, hiff₁⟩ :=
      h.exists_insert (hrow q List.mem_cons_self) (hcolumn q List.mem_cons_self)
    -- the new star takes no row and no column that is still to come
    have hrow₁ : ∀ r ∈ pairs, stars₁.columnOf.entry r.1 = none := by
      intro r hr
      rw [Option.eq_none_iff_forall_ne_some]
      intro b hb
      rcases (hiff₁ r.1 b).1 hb with hold | ⟨heq, -⟩
      · simp [hrow r (List.mem_cons_of_mem _ hr)] at hold
      · exact hq₁ (heq ▸ List.mem_map_of_mem hr)
    have hcolumn₁ : ∀ r ∈ pairs, stars₁.rowOf.entry r.2 = none := by
      intro r hr
      rw [h₁.rowOf_eq_none_iff]
      intro a ha
      rcases (hiff₁ a r.2).1 ha with hold | ⟨-, heq⟩
      · exact h.rowOf_eq_none_iff.1 (hcolumn r (List.mem_cons_of_mem _ hr)) a hold
      · exact hq₂ (heq ▸ List.mem_map_of_mem hr)
    obtain ⟨stars₂, hfold, h₂, hiff₂⟩ := ih h₁ hrows hcolumns hrow₁ hcolumn₁
    refine ⟨stars₂, ?_, h₂, fun a b ↦ ?_⟩
    · rw [List.foldlM_cons, hinsert, Checked.ok_bind, hfold]
    · rw [hiff₂, hiff₁, List.mem_cons, or_assoc, Prod.ext_iff]

/-! ### Counting -/

/-- The rows with a star. -/
def starredRows (stars : Stars n) : Finset (Fin n) :=
  Finset.univ.filter fun i ↦ (stars.columnOf.entry i).isSome

/-- The columns with a star. -/
def starredColumns (stars : Stars n) : Finset (Fin n) :=
  Finset.univ.filter fun j ↦ (stars.rowOf.entry j).isSome

theorem mem_starredRows {i : Fin n} :
    i ∈ stars.starredRows ↔ ∃ j, stars.columnOf.entry i = some j := by
  simp [starredRows, Option.isSome_iff_exists]

theorem mem_starredColumns {j : Fin n} :
    j ∈ stars.starredColumns ↔ ∃ i, stars.rowOf.entry j = some i := by
  simp [starredColumns, Option.isSome_iff_exists]

theorem not_mem_starredRows {i : Fin n} :
    i ∉ stars.starredRows ↔ stars.columnOf.entry i = none := by
  simp [starredRows]

theorem not_mem_starredColumns {j : Fin n} :
    j ∉ stars.starredColumns ↔ stars.rowOf.entry j = none := by
  simp [starredColumns]

/-- The number of stars is the number of starred rows. -/
theorem size_eq_card (stars : Stars n) : stars.size = stars.starredRows.card := by
  rw [size, Table.toList_eq_map_entry, List.countP_map, List.countP_eq_length_filter,
    length_filter_finRange]
  rfl

/-- The stars of some rows are in as many columns. -/
theorem Consistent.card_columns_of_subset (h : stars.Consistent) {rows : Finset (Fin n)}
    (hrows : rows ⊆ stars.starredRows) :
    (Finset.univ.filter fun j ↦ ∃ i ∈ rows, stars.rowOf.entry j = some i).card = rows.card := by
  choose column hcolumn using fun i (hi : i ∈ rows) ↦ mem_starredRows.1 (hrows hi)
  refine (Finset.card_bij column (fun i hi ↦ ?_) (fun i hi i' hi' heq ↦ ?_) fun j hj ↦ ?_).symm
  · exact Finset.mem_filter.2 ⟨Finset.mem_univ _, i, hi, (h _ _).1 (hcolumn i hi)⟩
  · exact h.row_unique (hcolumn i hi) (heq ▸ hcolumn i' hi')
  · obtain ⟨-, i, hi, hij⟩ := Finset.mem_filter.1 hj
    exact ⟨i, hi, Option.some.inj ((hcolumn i hi).symm.trans ((h i j).2 hij))⟩

/-- There are as many starred columns as starred rows. -/
theorem Consistent.card_starredColumns (h : stars.Consistent) :
    stars.starredColumns.card = stars.size := by
  rw [size_eq_card, ← h.card_columns_of_subset subset_rfl]
  congr 1
  ext j
  rw [mem_starredColumns, Finset.mem_filter_univ]
  exact exists_congr fun i ↦ ⟨fun hij ↦ ⟨mem_starredRows.2 ⟨j, (h i j).2 hij⟩, hij⟩, And.right⟩

theorem size_le (stars : Stars n) : stars.size ≤ n := by
  rw [size_eq_card]
  exact (Finset.card_le_univ _).trans_eq (Fintype.card_fin n)

/-- As long as there are fewer stars than rows, some row has none. -/
theorem exists_free_row (h : stars.size < n) : ∃ i, stars.columnOf.entry i = none := by
  rw [size_eq_card] at h
  obtain ⟨i, -, hi⟩ := Finset.exists_mem_notMem_of_card_lt_card
    (s := stars.starredRows) (t := Finset.univ) (by simpa using h)
  exact ⟨i, not_mem_starredRows.1 hi⟩

/-- As long as there are fewer stars than columns, some column has none. -/
theorem Consistent.exists_free_column (h : stars.Consistent) (hlt : stars.size < n) :
    ∃ j, stars.rowOf.entry j = none := by
  rw [← h.card_starredColumns] at hlt
  obtain ⟨j, -, hj⟩ := Finset.exists_mem_notMem_of_card_lt_card
    (s := stars.starredColumns) (t := Finset.univ) (by simpa using hlt)
  exact ⟨j, not_mem_starredColumns.1 hj⟩

/-- With as many stars as rows, each row has one. -/
theorem exists_column_of_size_eq (h : stars.size = n) (i : Fin n) :
    ∃ j, stars.columnOf.entry i = some j := by
  rw [size_eq_card] at h
  have huniv : stars.starredRows = Finset.univ := Finset.eq_univ_of_card _ (by simpa using h)
  exact mem_starredRows.1 (huniv ▸ Finset.mem_univ i)

end LinearAssignment.Stars
