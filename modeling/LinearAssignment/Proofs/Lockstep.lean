import LinearAssignment.Proofs.Runs

/-!
# Solvers in lockstep

The costs of a solver decide what its steps do to the marks, but after the first step they do so
only through their zeros: zeros are what is starred and primed, and a shift changes no mark. So two
solvers that agree on the marks and on which costs are zero take the same step
(`Solver.SameMarks.step`), whatever their cost types are.
-/

namespace LinearAssignment

variable {n : Nat}

/-- The same costs are zero. -/
def Grid.SameZeros (costs costs' : Grid n Int) : Prop :=
  ∀ i j, costs.cell i j = 0 ↔ costs'.cell i j = 0

namespace Grid.SameZeros

variable {costs costs' : Grid n Int}

theorem beq_zero (h : costs.SameZeros costs') (i j : Fin n) :
    (costs.cell i j == 0) = (costs'.cell i j == 0) := by
  rw [Bool.eq_iff_iff, beq_iff_eq, beq_iff_eq]
  exact h i j

theorem starGreedily (h : costs.SameZeros costs') (stars : Stars n) :
    Solver.starGreedily costs stars = Solver.starGreedily costs' stars := by
  simp only [Solver.starGreedily, h.beq_zero]

theorem uncoveredZero? (h : costs.SameZeros costs') (cover : Cover n) :
    Solver.uncoveredZero? costs cover = Solver.uncoveredZero? costs' cover := by
  simp only [Solver.uncoveredZero?, h.beq_zero]

theorem primeUncovered (h : costs.SameZeros costs') (stars : Stars n) (fuel : Nat) :
    ∀ (primes : Primes n) (cover : Cover n),
      Solver.primeUncovered costs stars fuel primes cover =
        Solver.primeUncovered costs' stars fuel primes cover := by
  induction fuel with
  | zero => exact fun _ _ ↦ rfl
  | succ fuel ih =>
    intro primes cover
    simp only [Solver.primeUncovered, h.uncoveredZero?, ih]

end Grid.SameZeros

namespace Solver

/-- Two solvers that differ in their costs only. -/
structure SameMarks (s e : Solver n) : Prop where
  phase_eq : e.phase = s.phase
  steps_eq : e.steps = s.steps
  stars_eq : e.stars = s.stars
  primes_eq : e.primes = s.primes
  cover_eq : e.cover = s.cover

namespace SameMarks

variable {W W' : CostType} {s e s' e' : Solver n}

theorem refl (s : Solver n) : SameMarks s s :=
  ⟨rfl, rfl, rfl, rfl, rfl⟩

theorem symm (h : SameMarks s e) : SameMarks e s :=
  ⟨h.phase_eq.symm, h.steps_eq.symm, h.stars_eq.symm, h.primes_eq.symm, h.cover_eq.symm⟩

theorem trans {t : Solver n} (h : SameMarks s e) (h' : SameMarks e t) : SameMarks s t :=
  ⟨h'.phase_eq.trans h.phase_eq, h'.steps_eq.trans h.steps_eq, h'.stars_eq.trans h.stars_eq,
    h'.primes_eq.trans h.primes_eq, h'.cover_eq.trans h.cover_eq⟩

/-- The other solver is the first one with costs of its own. -/
theorem eq_with_costs (h : SameMarks s e) : e = { s with costs := e.costs } := by
  obtain ⟨costs, stars, primes, cover, phase, steps⟩ := e
  obtain ⟨rfl, rfl, rfl, rfl, rfl⟩ := h
  rfl

/-- The work of a phase changes the marks of both solvers in the same way, if the same costs are
zero where zeros are looked for. -/
theorem advance (h : SameMarks s e) (hzero : s.phase ≠ .reduce → s.costs.SameZeros e.costs)
    (hs : s.advance W = .ok s') (he : e.advance W' = .ok e') : SameMarks s' e' := by
  rw [h.eq_with_costs] at he
  cases hphase : s.phase with
  | reduce =>
    simp only [Solver.advance, hphase] at hs he
    obtain ⟨costs, -, hs⟩ := Checked.bind_eq_ok_iff.1 hs
    obtain ⟨costs', -, he⟩ := Checked.bind_eq_ok_iff.1 he
    rw [← Except.ok.inj hs, ← Except.ok.inj he]
    exact ⟨rfl, rfl, rfl, rfl, rfl⟩
  | star =>
    simp only [Solver.advance, hphase] at hs he
    rw [← (hzero (by simp [hphase])).starGreedily] at he
    obtain ⟨stars, hstars, hs⟩ := Checked.bind_eq_ok_iff.1 hs
    rw [hstars, Checked.ok_bind] at he
    rw [← Except.ok.inj hs, ← Except.ok.inj he]
    exact ⟨rfl, rfl, rfl, rfl, rfl⟩
  | cover =>
    simp only [Solver.advance, hphase] at hs he
    obtain ⟨cover, hcover, hs⟩ := Checked.bind_eq_ok_iff.1 hs
    rw [hcover, Checked.ok_bind] at he
    rw [← Except.ok.inj hs, ← Except.ok.inj he]
    exact ⟨rfl, rfl, rfl, rfl, rfl⟩
  | prime =>
    simp only [Solver.advance, hphase] at hs he
    rw [← (hzero (by simp [hphase])).primeUncovered] at he
    obtain ⟨found, hfound, hs⟩ := Checked.bind_eq_ok_iff.1 hs
    rw [hfound, Checked.ok_bind] at he
    rw [← Except.ok.inj hs, ← Except.ok.inj he]
    exact ⟨rfl, rfl, rfl, rfl, rfl⟩
  | augment i j =>
    simp only [Solver.advance, hphase] at hs he
    obtain ⟨path, hpath, hs⟩ := Checked.bind_eq_ok_iff.1 hs
    obtain ⟨stars, hstars, hs⟩ := Checked.bind_eq_ok_iff.1 hs
    rw [hpath, Checked.ok_bind, hstars, Checked.ok_bind] at he
    rw [← Except.ok.inj hs, ← Except.ok.inj he]
    exact ⟨rfl, rfl, rfl, rfl, rfl⟩
  | shift =>
    simp only [Solver.advance, hphase] at hs he
    obtain ⟨costs, -, hs⟩ := Checked.bind_eq_ok_iff.1 hs
    obtain ⟨costs', -, he⟩ := Checked.bind_eq_ok_iff.1 he
    rw [← Except.ok.inj hs, ← Except.ok.inj he]
    exact ⟨rfl, rfl, rfl, rfl, rfl⟩
  | done =>
    simp only [Solver.advance, hphase] at hs he
    rw [← Except.ok.inj hs, ← Except.ok.inj he]
    exact ⟨hphase.symm, rfl, rfl, rfl, rfl⟩

/-- Two solvers that agree on the marks, and on which costs are zero once rows are lowered, take
the same step. -/
theorem step (h : SameMarks s e) (hzero : s.phase ≠ .reduce → s.costs.SameZeros e.costs)
    (hs : s.step W = .ok s') (he : e.step W' = .ok e') : SameMarks s' e' := by
  by_cases hdone : s.phase = .done
  · rw [step_of_isDone (beq_iff_eq.2 hdone)] at hs
    rw [step_of_isDone (beq_iff_eq.2 (h.phase_eq.trans hdone))] at he
    rwa [← Except.ok.inj hs, ← Except.ok.inj he]
  · obtain ⟨s₁, hs₁, rfl⟩ := exists_advance hdone hs
    obtain ⟨e₁, he₁, rfl⟩ := exists_advance (h.phase_eq ▸ hdone) he
    have hnext := h.advance hzero hs₁ he₁
    exact ⟨hnext.phase_eq, congrArg (· + 1) h.steps_eq, hnext.stars_eq, hnext.primes_eq,
      hnext.cover_eq⟩

end SameMarks

end Solver

end LinearAssignment
