import LinearAssignment.Proofs.Search

/-!
# Augmenting paths

From the seed of a search a path alternates between primes and stars (`PathFrom`). Its rows were
primed one before the other, so no row is on it twice and it ends
(`PrimeOrder.exists_pathFrom`); its columns are then distinct as well, since each but the last
holds the star of a row of the path. All stars of the path are taken away before its primes are
starred, and with distinct rows and columns each of these changes is allowed.

`Augmented` says what comes out: the stars of the path are replaced by its primes. One more row has
a star then, and no row or column has lost its star.
-/

namespace LinearAssignment

variable {n : Nat} {stars : Stars n} {primes : Primes n}

/-- An augmenting path from a prime in the given column: to the star in the column, on to the prime
in the row of the star, and so on up to a column without a star. -/
inductive PathFrom (stars : Stars n) (primes : Primes n) : Fin n → List (Solver.Hop n) → Prop
  /-- There is no star in the column. -/
  | stop {column : Fin n} (free : stars.rowOf.entry column = none) :
      PathFrom stars primes column []
  /-- The path goes on at the prime in the row of the star. -/
  | hop {row column next : Fin n} {path : List (Solver.Hop n)}
      (star : stars.rowOf.entry column = some row)
      (prime : primes.columnOf.entry row = some next)
      (rest : PathFrom stars primes next path) :
      PathFrom stars primes column (⟨row, column, next⟩ :: path)

namespace PathFrom

variable {column : Fin n} {path : List (Solver.Hop n)}

/-- The stars of a path are stars. -/
theorem star_of_mem (h : PathFrom stars primes column path) :
    ∀ hop ∈ path, stars.rowOf.entry hop.starred = some hop.row := by
  induction h with
  | stop free => simp
  | hop star _ _ ih => exact List.forall_mem_cons.2 ⟨star, ih⟩

/-- The primes of a path are primes. -/
theorem prime_of_mem (h : PathFrom stars primes column path) :
    ∀ hop ∈ path, primes.columnOf.entry hop.row = some hop.primed := by
  induction h with
  | stop free => simp
  | hop _ prime _ ih => exact List.forall_mem_cons.2 ⟨prime, ih⟩

/-- The stars in the columns of the primes of a path are on the path. -/
theorem row_mem (h : PathFrom stars primes column path) {b a : Fin n}
    (hb : b ∈ column :: path.map Solver.Hop.primed) (ha : stars.rowOf.entry b = some a) :
    a ∈ path.map Solver.Hop.row := by
  induction h with
  | stop free =>
    obtain rfl := List.mem_singleton.1 hb
    simp [free] at ha
  | hop star _ _ ih =>
    rcases List.mem_cons.1 hb with rfl | hb
    · rw [star] at ha
      exact Option.some.inj ha ▸ List.mem_cons_self
    · exact List.mem_cons_of_mem _ (ih hb)

/-- A row without a star is not on a path. -/
theorem row_notMem (h : PathFrom stars primes column path) (hstars : stars.Consistent) {i : Fin n}
    (hi : stars.columnOf.entry i = none) : i ∉ path.map Solver.Hop.row := by
  intro hmem
  obtain ⟨hop, hhop, rfl⟩ := List.mem_map.1 hmem
  have hstar := (hstars _ _).2 (h.star_of_mem hop hhop)
  simp [hi] at hstar

/-- Each star of a path is in the column of the prime before it. -/
theorem starred_mem (h : PathFrom stars primes column path) :
    ∀ hop ∈ path, hop.starred ∈ column :: path.map Solver.Hop.primed := by
  induction h with
  | stop free => simp
  | hop _ _ _ ih =>
    exact List.forall_mem_cons.2
      ⟨List.mem_cons_self, fun hop hhop ↦ List.mem_cons_of_mem _ (ih hop hhop)⟩

/-- If no row is on a path twice, no column has two of its primes. -/
theorem nodup_columns (h : PathFrom stars primes column path)
    (hrows : (path.map Solver.Hop.row).Nodup) :
    (column :: path.map Solver.Hop.primed).Nodup := by
  induction h with
  | stop free => simp
  | hop star _ rest ih =>
    obtain ⟨hnew, hrows⟩ := List.nodup_cons.1 hrows
    exact List.nodup_cons.2 ⟨fun hmem ↦ hnew (rest.row_mem hmem star), ih hrows⟩

/-- A path on which no row is twice has no more hops than there are stars. -/
theorem length_le (h : PathFrom stars primes column path) (hstars : stars.Consistent)
    (hrows : (path.map Solver.Hop.row).Nodup) : path.length ≤ stars.size := by
  have hsub : (path.map Solver.Hop.row).toFinset ⊆ stars.starredRows := fun i hi ↦ by
    obtain ⟨hop, hhop, rfl⟩ := List.mem_map.1 (List.mem_toFinset.1 hi)
    exact Stars.mem_starredRows.2 ⟨hop.starred, (hstars _ _).2 (h.star_of_mem hop hhop)⟩
  calc path.length
      = (path.map Solver.Hop.row).toFinset.card := by
        rw [List.toFinset_card_of_nodup hrows, List.length_map]
    _ ≤ stars.starredRows.card := Finset.card_le_card hsub
    _ = stars.size := stars.size_eq_card.symm

/-- A path is found within one round more than it has hops. -/
theorem hops_eq_ok (h : PathFrom stars primes column path) :
    ∀ {fuel : Nat}, path.length < fuel → Solver.hops stars primes fuel column = .ok path := by
  induction h with
  | stop free =>
    intro fuel hfuel
    obtain ⟨fuel, rfl⟩ := Nat.exists_eq_add_one_of_ne_zero (Nat.ne_zero_of_lt hfuel)
    simp [Solver.hops, free, Checked.pure_eq_ok]
  | hop star prime _ ih =>
    intro fuel hfuel
    obtain ⟨fuel, rfl⟩ := Nat.exists_eq_add_one_of_ne_zero (Nat.ne_zero_of_lt hfuel)
    have hrest := ih (Nat.lt_of_succ_lt_succ hfuel)
    simp [Solver.hops, star, prime, hrest, Checked.pure_eq_ok]

end PathFrom

/-- There is a path from a column whose star, if it has one, is in a primed row. Its rows follow the
order of the primes. -/
theorem PrimeOrder.exists_pathFrom {order : List (Fin n)} (h : PrimeOrder stars primes order) :
    ∀ column : Fin n, (∀ row, stars.rowOf.entry column = some row → row ∈ order) →
      ∃ path, PathFrom stars primes column path ∧
        (path.map Solver.Hop.row).Sublist order := by
  induction h with
  | none =>
    intro column hrow
    have hfree : stars.rowOf.entry column = Option.none :=
      Option.eq_none_iff_forall_ne_some.2 fun row hstar ↦ List.not_mem_nil (hrow row hstar)
    exact ⟨[], .stop hfree, List.nil_sublist _⟩
  | @latest i j earlier new prime blocked rest ih =>
    intro column hrow
    by_cases hstar : stars.rowOf.entry column = some i
    · -- the path goes through the latest row, and on through earlier ones
      obtain ⟨path, hfrom, hsub⟩ := ih j blocked
      exact ⟨⟨i, column, j⟩ :: path, .hop hstar prime hfrom, hsub.cons_cons i⟩
    · obtain ⟨path, hfrom, hsub⟩ := ih column fun row hrow' ↦
        (List.mem_cons.1 (hrow row hrow')).resolve_left fun heq ↦ hstar (heq ▸ hrow')
      exact ⟨path, hfrom, hsub.cons i⟩

/-- The stars after an augmentation: those that are not on the path, and the primes of the path. -/
structure Augmented (stars : Stars n) (primes : Primes n) (i j : Fin n)
    (path : List (Solver.Hop n)) (stars' : Stars n) : Prop where
  /-- The path starts at the column of the seed. -/
  pathFrom : PathFrom stars primes j path
  /-- No row is on the path twice. -/
  nodup : (path.map Solver.Hop.row).Nodup
  /-- The result is a matching again. -/
  consistent : stars'.Consistent
  /-- A star is an old one off the path, or the seed, or a prime on the path. -/
  star_iff : ∀ a b, stars'.columnOf.entry a = some b ↔
    stars.columnOf.entry a = some b ∧ a ∉ path.map Solver.Hop.row ∨
    (a, b) ∈ (i, j) :: path.map fun hop ↦ (hop.row, hop.primed)

/-- Along a path whose rows are distinct, the stars can be replaced by the primes. -/
theorem PathFrom.exists_augmentAlong {i j : Fin n} {path : List (Solver.Hop n)}
    (h : PathFrom stars primes j path) (hrows : (path.map Solver.Hop.row).Nodup)
    (hstars : stars.Consistent) (hfree : stars.columnOf.entry i = none) :
    ∃ stars', Solver.augmentAlong stars i j path = .ok stars' ∧
      Augmented stars primes i j path stars' := by
  -- first the stars of the path go
  obtain ⟨stars₁, herase, hstars₁, hiff₁⟩ := hstars.exists_eraseAll
    (path.map fun hop ↦ (hop.row, hop.starred)) (by simpa [Function.comp_def] using hrows)
    (by
      intro q hq
      obtain ⟨hop, hhop, rfl⟩ := List.mem_map.1 hq
      exact (hstars _ _).2 (h.star_of_mem hop hhop))
  simp only [List.map_map, Function.comp_def] at hiff₁
  -- so the rows and columns of its primes are free
  have hrow₁ : ∀ q ∈ (i, j) :: path.map fun hop ↦ (hop.row, hop.primed),
      stars₁.columnOf.entry q.1 = none := by
    intro q hq
    refine Option.eq_none_iff_forall_ne_some.2 fun b hb ↦ ?_
    obtain ⟨hold, hoff⟩ := (hiff₁ _ _).1 hb
    rcases List.mem_cons.1 hq with rfl | hq
    · simp [hfree] at hold
    · obtain ⟨hop, hhop, rfl⟩ := List.mem_map.1 hq
      exact hoff (List.mem_map_of_mem hhop)
  have hcolumn₁ : ∀ q ∈ (i, j) :: path.map fun hop ↦ (hop.row, hop.primed),
      stars₁.rowOf.entry q.2 = none := by
    intro q hq
    rw [hstars₁.rowOf_eq_none_iff]
    intro a ha
    obtain ⟨hold, hoff⟩ := (hiff₁ _ _).1 ha
    refine hoff (h.row_mem (b := q.2) ?_ ((hstars _ _).1 hold))
    have := List.mem_map_of_mem (f := Prod.snd) hq
    simpa [Function.comp_def] using this
  -- and the primes can be starred
  obtain ⟨stars₂, hinsert, hstars₂, hiff₂⟩ := hstars₁.exists_insertAll
    ((i, j) :: path.map fun hop ↦ (hop.row, hop.primed))
    (by simpa [Function.comp_def] using ⟨by simpa using h.row_notMem hstars hfree, hrows⟩)
    (by simpa [Function.comp_def] using h.nodup_columns hrows) hrow₁ hcolumn₁
  refine ⟨stars₂, ?_, h, hrows, hstars₂, fun a b ↦ by rw [hiff₂, hiff₁]⟩
  have herase' : path.foldlM (fun stars hop ↦ stars.erase hop.row hop.starred) stars =
      .ok stars₁ := by
    rwa [List.foldlM_map] at herase
  simp only [List.foldlM_cons, List.foldlM_map] at hinsert
  rw [Solver.augmentAlong, herase', Checked.ok_bind]
  exact hinsert

/-- Augmenting from the seed of a search finds a path and changes the stars along it. -/
theorem Searching.exists_augmentAlong {costs : Grid n Int} {cover : Cover n} {i j : Fin n}
    (h : Searching costs stars primes cover (some i)) (hstars : stars.Consistent)
    (hfree : stars.columnOf.entry i = none) (hj : cover.columns.entry j = false) :
    ∃ path stars', Solver.augmentingPath stars primes j = .ok path ∧
      Solver.augmentAlong stars i j path = .ok stars' ∧
      Augmented stars primes i j path stars' := by
  obtain ⟨order, horder, hmem⟩ := h.ordered
  obtain ⟨path, hfrom, hsub⟩ := horder.exists_pathFrom j fun row hrow ↦
    (hmem row).2 (h.isSome_of_uncovered hj hrow)
  have hrows := hsub.nodup horder.nodup
  have hlength : path.length < n + 1 :=
    Nat.lt_succ_of_le ((hfrom.length_le hstars hrows).trans stars.size_le)
  obtain ⟨stars', haugment, haugmented⟩ := hfrom.exists_augmentAlong hrows hstars hfree
  exact ⟨path, stars', hfrom.hops_eq_ok hlength, haugment, haugmented⟩

namespace Augmented

variable {i j : Fin n} {path : List (Solver.Hop n)} {stars' : Stars n}

/-- New stars are primes. -/
theorem star_or_prime (h : Augmented stars primes i j path stars')
    (hseed : primes.columnOf.entry i = some j) {a b : Fin n}
    (hab : stars'.columnOf.entry a = some b) :
    stars.columnOf.entry a = some b ∨ primes.columnOf.entry a = some b := by
  rcases (h.star_iff a b).1 hab with ⟨hold, -⟩ | hnew
  · exact .inl hold
  · rcases List.mem_cons.1 hnew with heq | hnew
    · obtain ⟨rfl, rfl⟩ := Prod.mk.inj heq
      exact .inr hseed
    · obtain ⟨hop, hhop, heq⟩ := List.mem_map.1 hnew
      obtain ⟨rfl, rfl⟩ := Prod.mk.inj heq
      exact .inr (h.pathFrom.prime_of_mem hop hhop)

/-- The rows with a star are the old ones and the row of the seed. -/
theorem starredRows_eq (h : Augmented stars primes i j path stars') (hstars : stars.Consistent) :
    stars'.starredRows = insert i stars.starredRows := by
  ext a
  rw [Finset.mem_insert, Stars.mem_starredRows, Stars.mem_starredRows]
  constructor
  · rintro ⟨b, hb⟩
    rcases (h.star_iff a b).1 hb with ⟨hold, -⟩ | hnew
    · exact .inr ⟨b, hold⟩
    · rcases List.mem_cons.1 hnew with heq | hnew
      · exact .inl (Prod.mk.inj heq).1
      · obtain ⟨hop, hhop, heq⟩ := List.mem_map.1 hnew
        obtain ⟨rfl, -⟩ := Prod.mk.inj heq
        exact .inr ⟨hop.starred, (hstars _ _).2 (h.pathFrom.star_of_mem hop hhop)⟩
  · rintro (rfl | ⟨b, hb⟩)
    · exact ⟨j, (h.star_iff _ _).2 (.inr List.mem_cons_self)⟩
    · by_cases hon : a ∈ path.map Solver.Hop.row
      · obtain ⟨hop, hhop, rfl⟩ := List.mem_map.1 hon
        exact ⟨hop.primed, (h.star_iff _ _).2
          (.inr (List.mem_cons_of_mem _ (List.mem_map.2 ⟨hop, hhop, rfl⟩)))⟩
      · exact ⟨b, (h.star_iff _ _).2 (.inl ⟨hb, hon⟩)⟩

/-- There is one star more. -/
theorem size_eq (h : Augmented stars primes i j path stars') (hstars : stars.Consistent)
    (hfree : stars.columnOf.entry i = none) : stars'.size = stars.size + 1 := by
  rw [Stars.size_eq_card, Stars.size_eq_card, h.starredRows_eq hstars,
    Finset.card_insert_of_notMem (Stars.not_mem_starredRows.2 hfree)]

/-- A row without a star had none before. -/
theorem free_row (h : Augmented stars primes i j path stars') (hstars : stars.Consistent)
    {a : Fin n} (ha : stars'.columnOf.entry a = none) : stars.columnOf.entry a = none := by
  rw [← Stars.not_mem_starredRows, h.starredRows_eq hstars, Finset.mem_insert, not_or] at ha
  exact Stars.not_mem_starredRows.1 ha.2

/-- A column without a star had none before. -/
theorem free_column (h : Augmented stars primes i j path stars') (hstars : stars.Consistent)
    {b : Fin n} (hb : stars'.rowOf.entry b = none) : stars.rowOf.entry b = none := by
  refine hstars.rowOf_eq_none_of_forall h.consistent hb fun a ha ↦ ?_
  by_cases hon : a ∈ path.map Solver.Hop.row
  · -- the star of the path in this column makes room for the prime before it
    obtain ⟨hop, hhop, rfl⟩ := List.mem_map.1 hon
    have hstarred := (hstars _ _).2 (h.pathFrom.star_of_mem hop hhop)
    obtain rfl : hop.starred = b := Option.some.inj (hstarred.symm.trans ha)
    have hmem := h.pathFrom.starred_mem hop hhop
    rcases List.mem_cons.1 hmem with heq | hmem
    · exact ⟨i, (h.star_iff _ _).2 (.inr (heq ▸ List.mem_cons_self))⟩
    · obtain ⟨hop', hhop', heq⟩ := List.mem_map.1 hmem
      exact ⟨hop'.row, (h.star_iff _ _).2 (.inr (List.mem_cons_of_mem _
        (List.mem_map.2 ⟨hop', hhop', by rw [heq]⟩)))⟩
  · exact ⟨a, (h.star_iff a b).2 (.inl ⟨ha, hon⟩)⟩

end Augmented

end LinearAssignment
