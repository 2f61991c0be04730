import LinearAssignment.Proofs.Runs

/-!
# The phases of a run

`Solver.Passes` is a stretch of a run together with the names of the phases that it passes through,
and all of a run is put together from such stretches. A search for an augmenting path alternates
between priming and shifting until it has a seed (`Solver.Sound.exists_search`). What bounds it is
the number of covered rows, all of which have stars: each shift makes a zero, and priming that zero
covers one more row or ends the search. The last of the starred rows is never covered before a
shift, so with `k` stars there are at most `k` shifts before the next star
(`Solver.Sound.exists_round`).

A run is `One`, `Two`, one round for each star that is missing, and `Three` and `Done`
(`Solver.runNames`). `exists_phaseRun` says so, counts the steps, and says that a solved problem
stays as it is.
-/

namespace LinearAssignment

variable {n : Nat} {W : CostType}

namespace Solver

/-! ### Stretches of a run -/

/-- A stretch of a run, with the names of the phases before each of its steps. -/
inductive Passes (W : CostType) : Solver n → List String → Solver n → Prop
  /-- No step. -/
  | refl (s : Solver n) : Passes W s [] s
  /-- A step that changes something, and those after it. -/
  | step {s next last : Solver n} {names : List String} (unsolved : s.phase ≠ .done)
      (step : s.step W = .ok next) (rest : Passes W next names last) :
      Passes W s (s.phase.name :: names) last

namespace Passes

variable {s t u : Solver n} {names names' : List String}

theorem trans (h : Passes W s names t) (h' : Passes W t names' u) :
    Passes W s (names ++ names') u := by
  induction h with
  | refl => exact h'
  | step unsolved step _ ih => exact .step unsolved step (ih h')

/-- A stretch is as many steps as it has names. -/
theorem afterSteps (h : Passes W s names t) : s.afterSteps W names.length = .ok t := by
  induction h with
  | refl => rfl
  | step _ step _ ih => rw [List.length_cons, afterSteps_succ, step, Checked.ok_bind, ih]

theorem steps_eq (h : Passes W s names t) : t.steps = s.steps + names.length := by
  induction h with
  | refl => rfl
  | step unsolved step _ ih =>
    obtain ⟨next, -, rfl⟩ := exists_advance unsolved step
    rw [ih, List.length_cons, Nat.add_right_comm, Nat.add_assoc]

/-- Up to a solved state, the phase after each number of steps is the one that is named. -/
theorem exists_phase (h : Passes W s names t) (ht : t.phase = .done) {k : Nat} {name : String}
    (hname : (names ++ ["Done"])[k]? = some name) :
    ∃ r, s.afterSteps W k = .ok r ∧ r.phase.name = name := by
  induction h generalizing k with
  | refl s =>
    cases k with
    | zero => exact ⟨s, rfl, by rw [ht]; exact Option.some.inj hname⟩
    | succ k => cases hname
  | @step s next last names unsolved step rest ih =>
    cases k with
    | zero => exact ⟨s, rfl, Option.some.inj hname⟩
    | succ k =>
      obtain ⟨r, hr, hphase⟩ := ih ht hname
      exact ⟨r, by rw [afterSteps_succ, step, Checked.ok_bind, hr], hphase⟩

/-- A stretch up to a solved state is the history of the run. -/
theorem map_name_history (h : Passes W s names t) (ht : t.phase = .done) {fuel : Nat}
    (hfuel : names.length ≤ fuel) :
    (s :: s.historyFor W fuel).map (·.phase.name) = names ++ ["Done"] := by
  induction h generalizing fuel with
  | refl s =>
    have hdone : s.isDone = true := beq_iff_eq.2 ht
    cases fuel <;> simp [historyFor, hdone, ht, Phase.name]
  | @step s next last names unsolved step rest ih =>
    obtain ⟨fuel, rfl⟩ := Nat.exists_eq_add_one_of_ne_zero (Nat.ne_zero_of_lt hfuel)
    have hdone : s.isDone = false := beq_eq_false_iff_ne.2 unsolved
    rw [List.cons_append, List.map_cons, historyFor, hdone, step]
    exact congrArg _ (ih ht (Nat.le_of_succ_le_succ hfuel))

end Passes

/-! ### The step of each phase -/

/-- The number of covered rows, and one more where priming has a zero to start with: it will cover
the row of that zero, or end the search. -/
def progress (s : Solver n) : Nat :=
  s.cover.rowSet.card + if uncoveredZero? s.costs s.cover = none then 0 else 1

namespace Sound

variable {C : Grid n Int} {p : Potentials n} {s : Solver n}

/-- The work of a phase is a stretch of a run. -/
theorem passes_of_advance (h : Sound W C p s) (hn : 0 < n) (hword : stepBound n < Word.bound)
    (hspread : C.SpreadsFit W) (hdone : s.phase ≠ .done) {next : Solver n}
    (hnext : s.advance W = .ok next) :
    Passes W s [s.phase.name] { next with steps := s.steps + 1 } ∧
      Sound W C (p.next s) { next with steps := s.steps + 1 } :=
  have hstep := h.step_of_advance hn hword (fun _ ↦ hspread) hdone hnext
  ⟨.step hdone hstep.1 (.refl _), hstep.2⟩

/-- Lowering the rows and starring zeros lead to the first cover, with a star. -/
theorem exists_opening (hn : 0 < n) (hword : stepBound n < Word.bound)
    (hspread : C.SpreadsFit W) :
    ∃ s p, Passes W (initial C) ["One", "Two"] s ∧ Sound W C p s ∧ s.phase = .cover := by
  have h := sound_initial W C
  obtain ⟨hpass₁, h₁⟩ := h.passes_of_advance hn hword hspread (by simp [initial])
    (h.advance_reduce rfl hspread)
  obtain ⟨stars, hadvance, -⟩ := h₁.exists_advance_star rfl
  obtain ⟨hpass₂, h₂⟩ := h₁.passes_of_advance hn hword hspread (by simp) hadvance
  exact ⟨_, _, hpass₁.trans hpass₂, h₂, rfl⟩

/-- Covering the columns of the stars ends the run if all rows have stars, and starts a search
otherwise. -/
theorem exists_cover (h : Sound W C p s) (hn : 0 < n) (hword : stepBound n < Word.bound)
    (hspread : C.SpreadsFit W) (hs : s.phase = .cover) :
    ∃ s', Passes W s ["Three"] s' ∧ Sound W C (p.next s) s' ∧ s'.stars = s.stars ∧
      s'.phase = if s.stars.size = n then .done else .prime := by
  obtain ⟨cover, hadvance, hcounted, -, hcolumns⟩ :=
    h.exists_advance_cover hs (lt_bound_of_stepBound_lt hword)
  obtain ⟨hpass, h'⟩ := h.passes_of_advance hn hword hspread (by simp [hs]) hadvance
  rw [hs] at hpass
  refine ⟨_, hpass, h', rfl, ?_⟩
  rw [← hcounted.columnCount_eq_size h.consistent hcolumns]

/-- Priming ends with a seed, or with one more covered row if there was a zero to prime. -/
theorem exists_prime (h : Sound W C p s) (hn : 0 < n) (hword : stepBound n < Word.bound)
    (hspread : C.SpreadsFit W) (hs : s.phase = .prime) :
    ∃ s', Passes W s ["Four"] s' ∧ Sound W C (p.next s) s' ∧ s'.stars = s.stars ∧
      ((∃ i j, s'.phase = .augment i j) ∨
        s'.phase = .shift ∧ s.progress ≤ s'.cover.rowSet.card) := by
  obtain ⟨primes, cover, phase, hadvance, -, hsearched, -, hsub, hgrow⟩ :=
    h.exists_advance_prime hs
  obtain ⟨hpass, h'⟩ := h.passes_of_advance hn hword hspread (by simp [hs]) hadvance
  rw [hs] at hpass
  refine ⟨_, hpass, h', rfl, ?_⟩
  cases phase with
  | augment i j => exact .inl ⟨i, j, rfl⟩
  | shift =>
    refine .inr ⟨rfl, ?_⟩
    have hle := Finset.card_le_card hsub
    rw [progress]
    split
    · exact hle
    · exact hgrow ‹_› rfl
  | reduce => exact hsearched.elim
  | star => exact hsearched.elim
  | cover => exact hsearched.elim
  | prime => exact hsearched.elim
  | done => exact hsearched.elim

/-- A shift makes a zero to prime, and covers nothing. -/
theorem exists_shifted (h : Sound W C p s) (hn : 0 < n) (hword : stepBound n < Word.bound)
    (hspread : C.SpreadsFit W) (hs : s.phase = .shift) :
    ∃ s', Passes W s ["Six"] s' ∧ Sound W C (p.next s) s' ∧ s'.stars = s.stars ∧
      s'.phase = .prime ∧ s'.progress = s.cover.rowSet.card + 1 := by
  obtain ⟨m, -, -, hadvance, -, -, hzero⟩ := h.exists_advance_shift hs
  obtain ⟨hpass, h'⟩ := h.passes_of_advance hn hword hspread (by simp [hs]) hadvance
  rw [hs] at hpass
  refine ⟨_, hpass, h', rfl, rfl, ?_⟩
  rw [progress, if_neg hzero]

/-- Augmenting adds a star. -/
theorem exists_augment (h : Sound W C p s) (hn : 0 < n) (hword : stepBound n < Word.bound)
    (hspread : C.SpreadsFit W) {i j : Fin n} (hs : s.phase = .augment i j) :
    ∃ s', Passes W s ["Five"] s' ∧ Sound W C (p.next s) s' ∧ s'.phase = .cover ∧
      s'.stars.size = s.stars.size + 1 := by
  have hmarked := h.marked
  simp only [Marked, hs] at hmarked
  obtain ⟨path, stars, hadvance, -, haugmented⟩ := h.exists_advance_augment hs
  obtain ⟨hpass, h'⟩ := h.passes_of_advance hn hword hspread (by simp [hs]) hadvance
  rw [hs] at hpass
  exact ⟨_, hpass, h', rfl, haugmented.size_eq h.consistent hmarked.1.2.2.1⟩

/-- Priming and shifting in turn find a seed, and augmenting from it adds a star. All shifts, and
the rows that are covered or about to be, are no more than the stars. -/
theorem exists_search (hn : 0 < n) (hword : stepBound n < Word.bound) (hspread : C.SpreadsFit W)
    (h : Sound W C p s) (hs : s.phase = .prime) :
    ∃ shifts s' p',
      Passes W s (["Four"] ++ (List.replicate shifts ["Six", "Four"]).flatten ++ ["Five"]) s' ∧
      Sound W C p' s' ∧ s'.phase = .cover ∧ s'.stars.size = s.stars.size + 1 ∧
      shifts + s.progress ≤ s.stars.size := by
  -- each shift and the priming after it take one more of the stars
  induction hk : s.stars.size - s.progress using Nat.strong_induction_on generalizing s p with
  | _ k ih =>
  obtain ⟨s₁, hpass₁, h₁, hstars₁, hphase₁⟩ := h.exists_prime hn hword hspread hs
  rcases hphase₁ with ⟨i, j, hphase₁⟩ | ⟨hphase₁, hprogress⟩
  · obtain ⟨s₂, hpass₂, h₂, hphase₂, hsize⟩ := h₁.exists_augment hn hword hspread hphase₁
    have hmarked := h.marked
    simp only [Marked, hs] at hmarked
    refine ⟨0, s₂, _, hpass₁.trans hpass₂, h₂, hphase₂, by rw [hsize, hstars₁], ?_⟩
    have := hmarked.2.1
    rw [progress]
    split <;> omega
  · obtain ⟨s₂, hpass₂, h₂, hstars₂, hphase₂, hprogress₂⟩ :=
      h₁.exists_shifted hn hword hspread hphase₁
    have hstars : s₂.stars = s.stars := hstars₂.trans hstars₁
    have hmarked := h₁.marked
    simp only [Marked, hphase₁] at hmarked
    have hle := hmarked.1.1.card_rowSet_lt (h₁.reduced (by simp [hphase₁])) h₁.consistent hmarked.2
      hmarked.1.2
    rw [hstars₁] at hle
    obtain ⟨shifts, s', p', hpass, h', hphase', hsize, hshifts⟩ :=
      ih _ (by rw [← hk, hstars]; omega) h₂ hphase₂ rfl
    rw [hstars] at hsize hshifts
    refine ⟨shifts + 1, s', p', ?_, h', hphase', hsize, by omega⟩
    exact (hpass₁.trans hpass₂).trans hpass

end Sound

/-! ### Rounds -/

/-- The phases of a round that adds a star, with the number of its shifts. -/
def roundNames (shifts : Nat) : List String :=
  ["Three", "Four"] ++ (List.replicate shifts ["Six", "Four"]).flatten ++ ["Five"]

/-- The phases of a run, with the number of shifts of each of its rounds. -/
def runNames (shifts : List Nat) : List String :=
  ["One", "Two"] ++ shifts.flatMap roundNames ++ ["Three", "Done"]

theorem length_roundNames (shifts : Nat) : (roundNames shifts).length = 3 + 2 * shifts := by
  simp [roundNames]
  omega

theorem length_rounds (shifts : List Nat) :
    (shifts.flatMap roundNames).length = 3 * shifts.length + 2 * shifts.sum := by
  induction shifts with
  | nil => rfl
  | cons shift shifts ih =>
    rw [List.flatMap_cons, List.length_append, ih, length_roundNames, List.length_cons,
      List.sum_cons]
    omega

theorem count_rounds (shifts : List Nat) :
    (shifts.flatMap roundNames).count "Six" = shifts.sum := by
  induction shifts with
  | nil => rfl
  | cons shift shifts ih =>
    rw [List.flatMap_cons, List.count_append, ih, List.sum_cons]
    congr 1
    simp [roundNames, List.count_flatten]

namespace Sound

variable {C : Grid n Int} {p : Potentials n} {s : Solver n}

/-- A round that starts with `k` stars adds one, after at most `k` shifts. -/
theorem exists_round (hn : 0 < n) (hword : stepBound n < Word.bound) (hspread : C.SpreadsFit W)
    (h : Sound W C p s) (hs : s.phase = .cover) (hlt : s.stars.size < n) :
    ∃ shifts s' p', Passes W s (roundNames shifts) s' ∧ Sound W C p' s' ∧ s'.phase = .cover ∧
      s'.stars.size = s.stars.size + 1 ∧ shifts ≤ s.stars.size := by
  obtain ⟨s₁, hpass₁, h₁, hstars₁, hphase₁⟩ := h.exists_cover hn hword hspread hs
  rw [if_neg hlt.ne] at hphase₁
  obtain ⟨shifts, s', p', hpass, h', hphase', hsize, hshifts⟩ :=
    exists_search hn hword hspread h₁ hphase₁
  rw [hstars₁] at hsize hshifts
  exact ⟨shifts, s', p', hpass₁.trans hpass, h', hphase', hsize, by omega⟩

/-- Rounds add stars until each row has one. -/
theorem exists_rounds (hn : 0 < n) (hword : stepBound n < Word.bound) (hspread : C.SpreadsFit W)
    (h : Sound W C p s) (hs : s.phase = .cover) :
    ∃ (shifts : List Nat) (s' : Solver n) (p' : Potentials n),
      Passes W s (shifts.flatMap roundNames) s' ∧ Sound W C p' s' ∧
      s'.phase = .cover ∧ s'.stars.size = n ∧ shifts.length = n - s.stars.size ∧
      ∀ r shift, shifts[r]? = some shift → ∃ t, Passes W s ((shifts.take r).flatMap roundNames) t ∧
        t.phase = .cover ∧ t.stars.size = s.stars.size + r ∧ shift ≤ t.stars.size := by
  induction hk : n - s.stars.size generalizing s p with
  | zero =>
    have hsize : s.stars.size = n := Nat.le_antisymm s.stars.size_le (Nat.le_of_sub_eq_zero hk)
    exact ⟨[], s, p, .refl s, h, hs, hsize, rfl, by simp⟩
  | succ k ih =>
    obtain ⟨shift, s₁, p₁, hpass₁, h₁, hphase₁, hsize₁, hshift⟩ :=
      exists_round hn hword hspread h hs (by omega)
    obtain ⟨shifts, s', p', hpass, h', hphase', hsize', hlength, hrounds⟩ :=
      ih h₁ hphase₁ (by omega)
    refine ⟨shift :: shifts, s', p', hpass₁.trans hpass, h', hphase', hsize', by simp [hlength],
      fun r shift' hr ↦ ?_⟩
    cases r with
    | zero =>
      obtain rfl := Option.some.inj hr
      exact ⟨s, .refl s, hs, rfl, hshift⟩
    | succ r =>
      obtain ⟨t, hpass_t, hphase_t, hsize_t, hle⟩ := hrounds r shift' hr
      exact ⟨t, hpass₁.trans hpass_t, hphase_t, by omega, hle⟩

end Sound

end Solver

/-! ### Whole runs -/

/-- A run for the matrix in which `first` stars are left by the second phase, each round after it
has one of the given numbers of shifts, and the problem is solved in the last state. -/
structure CostMatrix.PhaseRun (W : CostType) (m : CostMatrix Int) (first : Nat) (shifts : List Nat)
    (last : Solver m.size) : Prop where
  /-- The second phase leaves so many stars, and at least one. -/
  first_stars : ∃ s, m.solverAfter W 2 = .ok s ∧ s.stars.size = first
  first_pos : 1 ≤ first
  first_le : first ≤ m.size
  /-- There is a round for each star that is missing. -/
  length_shifts : shifts.length = m.size - first
  /-- The phase after each number of steps, up to the last. -/
  phase : ∀ k name, (Solver.runNames shifts)[k]? = some name →
    ∃ s, m.solverAfter W k = .ok s ∧ s.phase.name = name
  /-- The history of the run goes through the same phases. -/
  history : (Solver.initial m.grid :: (Solver.initial m.grid).history W).map (·.phase.name) =
    Solver.runNames shifts
  /-- Each round starts with one star more than the one before it, and has no more shifts than it
  starts with stars. -/
  round : ∀ r shift, shifts[r]? = some shift →
    ∃ s, m.solverAfter W (2 + ((shifts.take r).flatMap Solver.roundNames).length) = .ok s ∧
      s.phase = .cover ∧ s.stars.size = first + r ∧ shift ≤ s.stars.size
  /-- The shifts are the sixth phases. -/
  count_shift : (Solver.runNames shifts).count "Six" = shifts.sum
  /-- The number of steps to the last state. -/
  steps_eq : last.steps = 3 + 3 * (m.size - first) + 2 * shifts.sum
  steps_le : last.steps ≤ m.size * m.size + 2 * m.size
  length_phases : (Solver.runNames shifts).length = last.steps + 1
  /-- The last state is solved, -/
  done : last.isDone = true
  /-- and it is the state after any number of steps from that one on. -/
  stays : ∀ k, last.steps ≤ k → m.solverAfter W k = .ok last
  step_last : last.step W = .ok last

/-- **Phases of a run.** For every matrix with a row whose spreads fit, a solver goes through the
two opening phases, one round for each star that the second of them leaves missing, and a last cover
of all columns, within the bound on its steps, and then does nothing more. -/
theorem exists_phaseRun {m : CostMatrix Int} (h : m.Over W) (hm : 0 < m.size)
    (hspread : m.SpreadsFit W) : ∃ first shifts last, m.PhaseRun W first shifts last := by
  have hword := Solver.stepBound_lt h.length_lt
  obtain ⟨s₂, p₂, hpass₂, h₂, hphase₂⟩ := Solver.Sound.exists_opening hm hword hspread
  obtain ⟨shifts, s₃, p₃, hpass₃, h₃, hphase₃, hsize₃, hlength, hrounds⟩ :=
    Solver.Sound.exists_rounds hm hword hspread h₂ hphase₂
  obtain ⟨last, hpass, hlast, -, hdone⟩ := h₃.exists_cover hm hword hspread hphase₃
  rw [if_pos hsize₃] at hdone
  have hrun := (hpass₂.trans hpass₃).trans hpass
  have hafter : ∀ k, m.solverAfter W k = (Solver.initial m.grid).afterSteps W k :=
    CostMatrix.solverAfter_eq_afterSteps hm W
  have hsteps : last.steps =
      (["One", "Two"] ++ shifts.flatMap Solver.roundNames ++ ["Three"]).length :=
    hrun.steps_eq.trans (Nat.zero_add _)
  have hisDone : last.isDone = true := beq_iff_eq.2 hdone
  have hstays : ∀ k, last.steps ≤ k → (Solver.initial m.grid).afterSteps W k = .ok last := by
    intro k hk
    obtain ⟨l, rfl⟩ := Nat.exists_eq_add_of_le hk
    rw [Solver.afterSteps_add, hsteps, hrun.afterSteps, Checked.ok_bind,
      Solver.afterSteps_of_isDone hisDone]
  have hnames : Solver.runNames shifts =
      (["One", "Two"] ++ shifts.flatMap Solver.roundNames ++ ["Three"]) ++ ["Done"] := by
    rw [Solver.runNames]
    simp
  have hmarked := h₂.marked
  simp only [Solver.Marked, hphase₂] at hmarked
  have hle : last.steps ≤ m.size * m.size + 2 * m.size := by
    have := hlast.steps_lt
    simp only [Solver.limit, hdone] at this
    rw [Nat.mul_add] at this
    omega
  refine ⟨s₂.stars.size, shifts, last, ?_⟩
  exact {
    first_stars := ⟨s₂, by rw [hafter]; exact hpass₂.afterSteps, rfl⟩
    first_pos := hmarked.1
    first_le := s₂.stars.size_le
    length_shifts := hlength
    phase := fun k name hname ↦ by
      rw [hnames] at hname
      rw [hafter]
      exact hrun.exists_phase hdone hname
    history := by
      rw [hnames]
      exact hrun.map_name_history hdone (by rw [Solver.stepBound]; omega)
    round := fun r shift hr ↦ by
      obtain ⟨t, hpass_t, hphase_t, hsize_t, hle_t⟩ := hrounds r shift hr
      refine ⟨t, ?_, hphase_t, hsize_t, hle_t⟩
      have := (hpass₂.trans hpass_t).afterSteps
      rw [hafter]
      rwa [List.length_append] at this
    count_shift := by
      simp [Solver.runNames, Solver.count_rounds]
    steps_eq := by
      rw [hsteps, List.length_append, List.length_append, Solver.length_rounds, hlength,
        List.length_cons, List.length_singleton, List.length_singleton]
      omega
    steps_le := hle
    length_phases := by
      rw [hnames, List.length_append, hsteps]
      rfl
    done := hisDone
    stays := fun k hk ↦ (hafter k).trans (hstays k hk)
    step_last := Solver.step_of_isDone hisDone }

theorem exists_phaseRun_nearTop :
    CostMatrix.nearTop.Over (.signed 7) ∧ 0 < CostMatrix.nearTop.size ∧
      CostMatrix.nearTop.SpreadsFit (.signed 7) ∧
      ∃ first shifts last, CostMatrix.nearTop.PhaseRun (.signed 7) first shifts last :=
  ⟨CostMatrix.over_nearTop, by decide, CostMatrix.spreadsFit_nearTop,
    exists_phaseRun CostMatrix.over_nearTop (by decide) CostMatrix.spreadsFit_nearTop⟩

end LinearAssignment
