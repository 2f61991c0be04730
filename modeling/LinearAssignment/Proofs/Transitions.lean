import LinearAssignment.Proofs.Checked
import LinearAssignment.Solver.Step

/-!
# What a step can do

`Solver.Advances` says once, for each phase, which part of a state its work replaces, what that part
is computed by, and which phase follows. It holds exactly of what the work of a phase gives
(`advance_eq_ok_iff`), and what a step leaves alone is read off it: costs are changed by lowering
rows and by shifts only (`costs_of_step`), and stars by the greedy start and by augmentations only
(`stars_of_step`).
-/

namespace LinearAssignment.Solver

variable {n : Nat} {W : CostType} {s s' next : Solver n}

/-- What the work of a phase makes of a state. -/
inductive Advances (W : CostType) (s : Solver n) : Solver n → Prop
  /-- The rows are lowered. -/
  | reduce {costs : Grid n Int} (at_phase : s.phase = .reduce)
      (lowered : lowerRows W s.costs = .ok costs) :
      Advances W s { s with costs, phase := .star }
  /-- Zeros are starred. -/
  | star {stars : Stars n} (at_phase : s.phase = .star)
      (starred : starGreedily s.costs s.stars = .ok stars) :
      Advances W s { s with stars, phase := .cover }
  /-- The columns of the stars are covered. -/
  | cover {cover : Cover n} (at_phase : s.phase = .cover)
      (covered : coverStarred s.stars s.cover = .ok cover) :
      Advances W s { s with cover, phase := if cover.columnCount = n then .done else .prime }
  /-- Zeros are primed, and the search says which phase follows. -/
  | prime {primes : Primes n} {cover : Cover n} {phase : Phase n} (at_phase : s.phase = .prime)
      (primed : primeUncovered s.costs s.stars (n + 1) s.primes s.cover =
        .ok (primes, cover, phase)) :
      Advances W s { s with primes, cover, phase }
  /-- The stars are changed along a path, and the other marks are dropped. -/
  | augment {i j : Fin n} {path : List (Hop n)} {stars : Stars n}
      (at_phase : s.phase = .augment i j)
      (found : augmentingPath s.stars s.primes j = .ok path)
      (augmented : augmentAlong s.stars i j path = .ok stars) :
      Advances W s { s with stars, primes := .empty n, cover := .empty n, phase := .cover }
  /-- The costs are shifted. -/
  | shift {costs : Grid n Int} (at_phase : s.phase = .shift)
      (shifted : shiftCosts W s.costs s.cover = .ok costs) :
      Advances W s { s with costs, phase := .prime }
  /-- A solved problem stays as it is. -/
  | done (at_phase : s.phase = .done) : Advances W s s

/-- The work of a phase gives a state exactly if it makes that of the state before. -/
theorem advance_eq_ok_iff : s.advance W = .ok next ↔ Advances W s next := by
  constructor
  · intro h
    cases hs : s.phase with
    | reduce =>
      simp only [advance, hs] at h
      obtain ⟨costs, hcosts, h⟩ := Checked.bind_eq_ok_iff.1 h
      obtain rfl := Except.ok.inj h
      exact .reduce hs hcosts
    | star =>
      simp only [advance, hs] at h
      obtain ⟨stars, hstars, h⟩ := Checked.bind_eq_ok_iff.1 h
      obtain rfl := Except.ok.inj h
      exact .star hs hstars
    | cover =>
      simp only [advance, hs] at h
      obtain ⟨cover, hcover, h⟩ := Checked.bind_eq_ok_iff.1 h
      obtain rfl := Except.ok.inj h
      exact .cover hs hcover
    | prime =>
      simp only [advance, hs] at h
      obtain ⟨⟨primes, cover, phase⟩, hprime, h⟩ := Checked.bind_eq_ok_iff.1 h
      obtain rfl := Except.ok.inj h
      exact .prime hs hprime
    | augment i j =>
      simp only [advance, hs] at h
      obtain ⟨path, hpath, h⟩ := Checked.bind_eq_ok_iff.1 h
      obtain ⟨stars, hstars, h⟩ := Checked.bind_eq_ok_iff.1 h
      obtain rfl := Except.ok.inj h
      exact .augment hs hpath hstars
    | shift =>
      simp only [advance, hs] at h
      obtain ⟨costs, hcosts, h⟩ := Checked.bind_eq_ok_iff.1 h
      obtain rfl := Except.ok.inj h
      exact .shift hs hcosts
    | done =>
      simp only [advance, hs] at h
      obtain rfl := Except.ok.inj h
      exact .done hs
  · intro h
    cases h with
    | reduce hs hcosts => simp [advance, hs, hcosts, Checked.pure_eq_ok]
    | star hs hstars => simp [advance, hs, hstars, Checked.pure_eq_ok]
    | cover hs hcover => simp [advance, hs, hcover, Checked.pure_eq_ok]
    | prime hs hprime => simp [advance, hs, hprime, Checked.pure_eq_ok]
    | augment hs hpath hstars => simp [advance, hs, hpath, hstars, Checked.pure_eq_ok]
    | shift hs hcosts => simp [advance, hs, hcosts, Checked.pure_eq_ok]
    | done hs => simp [advance, hs, Checked.pure_eq_ok]

namespace Advances

/-- Once rows are lowered, costs are changed by shifts only. -/
theorem costs_eq (h : Advances W s next) :
    (s.phase = .shift → shiftCosts W s.costs s.cover = .ok next.costs) ∧
      (s.phase ≠ .reduce → s.phase ≠ .shift → next.costs = s.costs) := by
  cases h with
  | reduce hs => exact ⟨by simp [hs], fun hne ↦ absurd hs hne⟩
  | star hs => exact ⟨by simp [hs], fun _ _ ↦ rfl⟩
  | cover hs => exact ⟨by simp [hs], fun _ _ ↦ rfl⟩
  | prime hs => exact ⟨by simp [hs], fun _ _ ↦ rfl⟩
  | augment hs => exact ⟨by simp [hs], fun _ _ ↦ rfl⟩
  | shift hs hcosts => exact ⟨fun _ ↦ hcosts, fun _ hne ↦ absurd hs hne⟩
  | done hs => exact ⟨by simp [hs], fun _ _ ↦ rfl⟩

/-- Stars are changed by the greedy start and by augmentations only. -/
theorem stars_eq (h : Advances W s next) (hstar : s.phase ≠ .star)
    (haugment : ∀ i j, s.phase ≠ .augment i j) : next.stars = s.stars := by
  cases h with
  | star hs => exact absurd hs hstar
  | augment hs => exact absurd hs (haugment _ _)
  | reduce | cover | prime | shift | done => rfl

end Advances

/-- A step is the work of the phase, and counting it. -/
theorem step_eq_ok (hphase : s.phase ≠ .done)
    (hsteps : s.steps + 1 < Word.bound) (hnext : s.advance W = .ok next) :
    s.step W = .ok { next with steps := s.steps + 1 } := by
  have hadd : Word.add s.steps 1 = .ok (s.steps + 1) := Word.add_eq_ok_iff.2 ⟨hsteps, rfl⟩
  have hdone : s.isDone = false := beq_eq_false_iff_ne.2 hphase
  simp [step, hdone, hnext, hadd, Checked.pure_eq_ok]

/-- A step that changes something is the work of the phase, and is counted. -/
theorem exists_advance (hphase : s.phase ≠ .done)
    (h : s.step W = .ok s') :
    ∃ next, s.advance W = .ok next ∧ s' = { next with steps := s.steps + 1 } := by
  have hdone : s.isDone = false := beq_eq_false_iff_ne.2 hphase
  simp only [step, hdone, Bool.false_eq_true, if_false] at h
  obtain ⟨next, hnext, h⟩ := Checked.bind_eq_ok_iff.1 h
  obtain ⟨steps, hsteps, h⟩ := Checked.bind_eq_ok_iff.1 h
  obtain rfl := (Word.add_eq_ok_iff.1 hsteps).2
  exact ⟨next, hnext, (Except.ok.inj h).symm⟩

/-- Up to its count, a step is what the work of the phase makes of the state. -/
theorem exists_advances (h : s.step W = .ok s') :
    ∃ next, Advances W s next ∧ s' = { next with steps := s'.steps } := by
  by_cases hdone : s.phase = .done
  · rw [step_of_isDone (beq_iff_eq.2 hdone)] at h
    obtain rfl := Except.ok.inj h
    exact ⟨s, .done hdone, rfl⟩
  · obtain ⟨next, hnext, rfl⟩ := exists_advance hdone h
    exact ⟨next, advance_eq_ok_iff.1 hnext, rfl⟩

/-- The costs that a step leaves. -/
theorem costs_of_step (h : s.step W = .ok s') :
    (s.phase = .shift → shiftCosts W s.costs s.cover = .ok s'.costs) ∧
      (s.phase ≠ .reduce → s.phase ≠ .shift → s'.costs = s.costs) := by
  obtain ⟨next, hnext, heq⟩ := exists_advances h
  rw [heq]
  exact hnext.costs_eq

/-- The stars that a step leaves. -/
theorem stars_of_step (h : s.step W = .ok s') (hstar : s.phase ≠ .star)
    (haugment : ∀ i j, s.phase ≠ .augment i j) : s'.stars = s.stars := by
  obtain ⟨next, hnext, heq⟩ := exists_advances h
  rw [heq]
  exact hnext.stars_eq hstar haugment

end LinearAssignment.Solver
