import LinearAssignment.Proofs.MaximumMatching

/-!
# Growth of the matching

What an augmentation does to the stars of a reachable state is put together here
(`Solver.AugmentsAlong`): the path from the seed ends, no row or column has two of its primes, and
when its primes take the place of its stars, there is one star more and no row or column has lost
its own. Since nothing else takes stars away, this holds from each state of a run to each later one
(`CostMatrix.linesKept_of_solverAfter`).
-/

namespace LinearAssignment

variable {n : Nat}

/-- Every row and every column with a star still has one. -/
structure Stars.LinesKept (stars stars' : Stars n) : Prop where
  row : ∀ i, (stars.columnOf.entry i).isSome → (stars'.columnOf.entry i).isSome
  column : ∀ j, (stars.rowOf.entry j).isSome → (stars'.rowOf.entry j).isSome

namespace Stars.LinesKept

variable {stars stars' stars'' : Stars n}

theorem refl (stars : Stars n) : stars.LinesKept stars :=
  ⟨fun _ ↦ id, fun _ ↦ id⟩

theorem trans (h : stars.LinesKept stars') (h' : stars'.LinesKept stars'') :
    stars.LinesKept stars'' :=
  ⟨fun i hi ↦ h'.row i (h.row i hi), fun j hj ↦ h'.column j (h.column j hj)⟩

/-- A row without a star had none before. -/
theorem free_row (h : stars.LinesKept stars') {i : Fin n}
    (hi : stars'.columnOf.entry i = none) : stars.columnOf.entry i = none := by
  rw [← Option.not_isSome_iff_eq_none] at hi ⊢
  exact fun hold ↦ hi (h.row i hold)

/-- A column without a star had none before. -/
theorem free_column (h : stars.LinesKept stars') {j : Fin n}
    (hj : stars'.rowOf.entry j = none) : stars.rowOf.entry j = none := by
  rw [← Option.not_isSome_iff_eq_none] at hj ⊢
  exact fun hold ↦ hj (h.column j hold)

end Stars.LinesKept

namespace Solver

/-! ### The cells of a path -/

/-- The primes of an augmenting path, the seed first. -/
def pathPrimes (row column : Fin n) (path : List (Hop n)) : List (Fin n × Fin n) :=
  (row, column) :: path.map fun hop ↦ (hop.row, hop.primed)

/-- The stars of an augmenting path. -/
def pathStars (path : List (Hop n)) : List (Fin n × Fin n) :=
  path.map fun hop ↦ (hop.row, hop.starred)

/-- All positions of an augmenting path: its first prime, and two for each hop. -/
def pathCells (row column : Fin n) (path : List (Hop n)) : List (Fin n × Fin n) :=
  (row, column) :: path.flatMap fun hop ↦ [(hop.row, hop.starred), (hop.row, hop.primed)]

/-- There are as many positions as the length of the path says. -/
theorem length_pathCells (row column : Fin n) (path : List (Hop n)) :
    (pathCells row column path).length = pathLength path := by
  simp only [pathCells, pathLength, List.length_cons, List.length_nil, List.length_flatMap,
    List.map_const', List.sum_replicate, Nat.nsmul_eq_mul]
  omega

/-- What an augmentation along a path makes of a state. -/
structure AugmentsAlong (s : Solver n) (i j : Fin n) (path : List (Hop n)) (s' : Solver n) :
    Prop where
  /-- The path starts at the seed, a prime in a row without a star, and alternates between stars and
  primes up to a column without a star. -/
  pathFrom : s.primes.contains i j ∧ s.stars.columnOf.entry i = none ∧
    PathFrom s.stars s.primes j path
  /-- It is found within one round more than it has hops. -/
  rounds : ∀ fuel, path.length < fuel → hops s.stars s.primes fuel j = .ok path
  /-- No row has two primes of the path. -/
  rows_nodup : ((pathPrimes i j path).map Prod.fst).Nodup
  /-- No column has two primes of the path. -/
  columns_nodup : ((pathPrimes i j path).map Prod.snd).Nodup
  /-- No star is on the path twice. -/
  stars_nodup : (pathStars path).Nodup
  /-- The length of the path is odd, and at most one more than twice the number of stars. -/
  length_le : Odd (pathCells i j path).length ∧ (pathCells i j path).length ≤ 2 * s.stars.size + 1
  /-- The stars of the path make room for its primes. -/
  star_iff : ∀ a b, s'.stars.contains a b ↔
    s.stars.contains a b ∧ (a, b) ∉ pathStars path ∨ (a, b) ∈ pathPrimes i j path
  /-- The stars are zeros in distinct rows and columns again, -/
  matching : s'.stars.Consistent ∧ s'.costs.ZeroMatching s'.stars.cells
  /-- one more than before. -/
  size_eq : s'.stars.size = s.stars.size + 1
  /-- No row or column has lost its star. -/
  lines_kept : s.stars.LinesKept s'.stars
  primes_eq : s'.primes = .empty n
  cover_eq : s'.cover = .empty n
  costs_eq : s'.costs = s.costs
  phase_eq : s'.phase = .cover

end Solver

namespace Augmented

variable {stars stars' : Stars n} {primes : Primes n} {i j : Fin n} {path : List (Solver.Hop n)}

theorem linesKept (h : Augmented stars primes i j path stars') (hstars : stars.Consistent) :
    stars.LinesKept stars' where
  row a ha := by
    contrapose! ha
    simpa using h.free_row hstars (by simpa using ha)
  column b hb := by
    contrapose! hb
    simpa using h.free_column hstars (by simpa using hb)

/-- A star that is kept is one that is not on the path. -/
theorem contains_iff (h : Augmented stars primes i j path stars') (hstars : stars.Consistent)
    (a b : Fin n) : stars'.contains a b ↔
      stars.contains a b ∧ (a, b) ∉ Solver.pathStars path ∨
        (a, b) ∈ Solver.pathPrimes i j path := by
  rw [Solver.contains_stars_iff, Solver.contains_stars_iff, h.star_iff, Solver.pathPrimes]
  refine or_congr_left (and_congr_right fun hab ↦ not_congr ⟨fun hmem ↦ ?_, fun hmem ↦ ?_⟩)
  · -- the row has one star, which is that of the path
    obtain ⟨hop, hhop, rfl⟩ := List.mem_map.1 hmem
    have hstar := (hstars _ _).2 (h.pathFrom.star_of_mem hop hhop)
    obtain rfl := Option.some.inj (hab.symm.trans hstar)
    exact List.mem_map_of_mem hhop
  · obtain ⟨hop, hhop, heq⟩ := List.mem_map.1 hmem
    obtain ⟨rfl, -⟩ := Prod.mk.inj heq
    exact List.mem_map_of_mem hhop

end Augmented

namespace Solver.Sound

variable {W : CostType} {C : Grid n Int} {p : Potentials n} {s s' : Solver n}

/-- The work of an augmentation goes along the path from the seed. -/
theorem exists_augmentsAlong (h : Sound W C p s) {i j : Fin n} (hs : s.phase = .augment i j) :
    ∃ path next, s.advance W = .ok next ∧
      ∀ steps, s.AugmentsAlong i j path { next with steps } := by
  obtain ⟨⟨hsearch, hseed, hfree, -⟩, -⟩ := h.searching.2 i j hs
  have hreduced := h.reduced (by simp [hs])
  obtain ⟨path, stars, hadvance, -, haugmented⟩ := h.exists_advance_augment hs
  have hfrom := haugmented.pathFrom
  have hlength := hfrom.length_le h.consistent haugmented.nodup
  have hi : i ∉ path.map Hop.row := hfrom.row_notMem h.consistent hfree
  refine ⟨path, _, hadvance, fun steps ↦ ?_⟩
  exact {
    pathFrom := ⟨contains_primes_iff.2 hseed, hfree, hfrom⟩
    rounds := fun fuel hfuel ↦ hfrom.hops_eq_ok hfuel
    rows_nodup := by
      simpa [pathPrimes, Function.comp_def] using ⟨by simpa using hi, haugmented.nodup⟩
    columns_nodup := by
      simpa [pathPrimes, Function.comp_def] using hfrom.nodup_columns haugmented.nodup
    stars_nodup := by
      refine List.Nodup.of_map Prod.fst ?_
      simpa [pathStars, Function.comp_def] using haugmented.nodup
    length_le := by
      rw [length_pathCells, pathLength]
      exact ⟨⟨path.length, Nat.add_comm _ _⟩, by omega⟩
    star_iff := haugmented.contains_iff h.consistent
    matching := ⟨haugmented.consistent, haugmented.consistent.zeroMatching fun a b hab ↦
      (haugmented.star_or_prime hseed hab).elim (hreduced.star_zero a b)
        (hsearch.prime_zero a b)⟩
    size_eq := haugmented.size_eq h.consistent hfree
    lines_kept := haugmented.linesKept h.consistent
    primes_eq := rfl
    cover_eq := rfl
    costs_eq := rfl
    phase_eq := rfl }

/-- A step takes no star from a row or a column. -/
theorem linesKept_of_step (h : Sound W C p s) (hstep : s.step W = .ok s') :
    s.stars.LinesKept s'.stars := by
  by_cases hstar : s.phase = .star
  · -- there is no star yet
    have hmarked := h.marked
    simp only [Marked, hstar] at hmarked
    rw [hmarked.1]
    exact ⟨fun i hi ↦ by simp [Stars.empty] at hi, fun j hj ↦ by simp [Stars.empty] at hj⟩
  · by_cases haugment : ∃ i j, s.phase = .augment i j
    · obtain ⟨i, j, hs⟩ := haugment
      obtain ⟨path, next, hnext, halong⟩ := h.exists_augmentsAlong hs
      obtain ⟨next', hnext', rfl⟩ := exists_advance (by simp [hs]) hstep
      obtain rfl := Except.ok.inj (hnext.symm.trans hnext')
      exact (halong 0).lines_kept
    · rw [stars_of_step hstep hstar fun i j hs ↦ haugment ⟨i, j, hs⟩]
      exact .refl _

end Solver.Sound

/-- From each state of a run to each later one, rows and columns keep their stars. -/
theorem CostMatrix.linesKept_of_solverAfter {W : CostType} {m : CostMatrix Int} (h : m.Over W)
    (hspread : m.SpreadsFit W) {k l : Nat} (hkl : k ≤ l) {s t : Solver m.size}
    (hs : m.solverAfter W k = .ok s) (ht : m.solverAfter W l = .ok t) :
    s.stars.LinesKept t.stars := by
  induction l, hkl using Nat.le_induction generalizing t with
  | base =>
    obtain rfl := Except.ok.inj (hs.symm.trans ht)
    exact .refl _
  | succ l _ ih =>
    obtain ⟨t', ht', hstep⟩ := exists_of_solverAfter_succ ht
    obtain ⟨p, hsound⟩ := exists_sound_of_solverAfter h hspread ht'
    exact (ih ht').trans (hsound.linesKept_of_step hstep)

/-- **Augmentations.** From every state of a run that augments the stars next, the path from the
seed is found, and the stars become one more along it, as `Solver.AugmentsAlong` says. Over a whole
run no row or column loses its star. -/
theorem exists_step_augmentsAlong_and_linesKept {W : CostType} {m : CostMatrix Int}
    (h : m.Over W) (hspread : m.SpreadsFit W) :
    (∀ k s i j, m.solverAfter W k = .ok s → s.phase = .augment i j →
      ∃ path s', s.step W = .ok s' ∧ s.AugmentsAlong i j path s') ∧
    ∀ k l s t, k ≤ l → m.solverAfter W k = .ok s → m.solverAfter W l = .ok t →
      s.stars.LinesKept t.stars := by
  refine ⟨fun k s i j hs hphase ↦ ?_, fun k l s t hkl hs ht ↦
    CostMatrix.linesKept_of_solverAfter h hspread hkl hs ht⟩
  obtain ⟨p, hsound⟩ := CostMatrix.exists_sound_of_solverAfter h hspread hs
  obtain ⟨path, next, hnext, halong⟩ := hsound.exists_augmentsAlong hphase
  exact ⟨path, _, CostMatrix.step_eq_ok_of_solverAfter h hspread hs (by simp [hphase]) hnext,
    halong _⟩

-- the path from the seed in the middle has three positions
theorem exists_step_augmentsAlong_and_linesKept_nearTop :
    CostMatrix.nearTop.Over (.signed 7) ∧ CostMatrix.nearTop.SpreadsFit (.signed 7) ∧
      (∃ s i j, CostMatrix.nearTop.solverAfter (.signed 7) 8 = .ok s ∧ s.phase = .augment i j ∧
        ∃ path s', s.step (.signed 7) = .ok s' ∧ s.AugmentsAlong i j path s') ∧
      ∃ s t, CostMatrix.nearTop.solverAfter (.signed 7) 2 = .ok s ∧
        CostMatrix.nearTop.solverAfter (.signed 7) 9 = .ok t ∧ s.stars.LinesKept t.stars := by
  obtain ⟨s, hs, hphase⟩ := Checked.map_eq_ok_iff.1 (show
    (CostMatrix.nearTop.solverAfter (.signed 7) 8).map (·.phase) =
      .ok (.augment (1 : Fin 3) (1 : Fin 3)) by decide +kernel)
  obtain ⟨s₂, hs₂, -⟩ := Checked.map_eq_ok_iff.1 (show
    (CostMatrix.nearTop.solverAfter (.signed 7) 2).map (·.phase) = .ok .cover by decide +kernel)
  obtain ⟨s₉, hs₉, -⟩ := Checked.map_eq_ok_iff.1 (show
    (CostMatrix.nearTop.solverAfter (.signed 7) 9).map (·.phase) = .ok .cover by decide +kernel)
  have hrun := exists_step_augmentsAlong_and_linesKept CostMatrix.over_nearTop
    CostMatrix.spreadsFit_nearTop
  exact ⟨CostMatrix.over_nearTop, CostMatrix.spreadsFit_nearTop,
    ⟨s, _, _, hs, hphase, hrun.1 8 s _ _ hs hphase⟩,
    s₂, s₉, hs₂, hs₉, hrun.2 2 9 s₂ s₉ (by decide) hs₂ hs₉⟩

end LinearAssignment
