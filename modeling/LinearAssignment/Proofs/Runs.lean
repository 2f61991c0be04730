import LinearAssignment.Proofs.Invariant
import Mathlib.Data.Fintype.EquivFin

/-!
# Runs of the solver

`Solver.afterSteps` is the state after a number of steps, and `CostMatrix.solverAfter` starts them
from a matrix. All states of a run are sound (`Sound.exists_afterSteps`), and since the number of
steps is limited, a run ends in a solved state within the rounds that it is given
(`Sound.exists_runFor`). There each row has a star, and the columns of the stars are those of a
permutation (`Sound.exists_solveInto`).
-/

namespace LinearAssignment

variable {n : Nat}

namespace Solver

/-- A solver is made for every matrix with a row. -/
theorem ofMatrix_eq_ok {m : CostMatrix Int} (h : 0 < m.size) :
    ofMatrix m = .ok (initial m.grid) :=
  if_neg (Nat.ne_of_gt h)

/-- The state after `k` steps. -/
def afterSteps (W : CostType) (s : Solver n) : Nat → Checked (Solver n)
  | 0 => pure s
  | k + 1 => do (← s.afterSteps W k).step W

/-- After some steps, further steps go on from the state that has been reached. -/
theorem afterSteps_add (W : CostType) (s : Solver n) (k l : Nat) :
    s.afterSteps W (k + l) = s.afterSteps W k >>= fun next ↦ next.afterSteps W l := by
  induction l with
  | zero =>
    show s.afterSteps W k = s.afterSteps W k >>= fun next ↦ .ok next
    cases s.afterSteps W k <;> rfl
  | succ l ih =>
    show s.afterSteps W (k + l) >>= (·.step W) = _
    rw [ih, bind_assoc]
    rfl

/-- The first of some steps may be taken apart. -/
theorem afterSteps_succ (W : CostType) (s : Solver n) (k : Nat) :
    s.afterSteps W (k + 1) = s.step W >>= fun next ↦ next.afterSteps W k := by
  rw [Nat.add_comm, afterSteps_add]
  rfl

/-- A solved problem stays as it is. -/
theorem afterSteps_of_isDone {W : CostType} {s : Solver n} (h : s.isDone) (k : Nat) :
    s.afterSteps W k = .ok s := by
  induction k with
  | zero => rfl
  | succ k ih => rw [afterSteps, ih, Checked.ok_bind, step_of_isDone h]

/-- A run that ends is the steps for which it has rounds: those after its end do nothing. -/
theorem afterSteps_of_runFor {W : CostType} (fuel : Nat) :
    ∀ {s s' : Solver n}, s.runFor W fuel = .ok s' → s.afterSteps W fuel = .ok s' := by
  induction fuel with
  | zero =>
    intro s s' h
    rw [runFor] at h
    split at h
    · exact h
    · cases h
  | succ fuel ih =>
    intro s s' h
    rw [runFor] at h
    split at h
    · obtain rfl := Except.ok.inj h
      exact afterSteps_of_isDone ‹_› (fuel + 1)
    · obtain ⟨next, hnext, h⟩ := Checked.bind_eq_ok_iff.1 h
      rw [afterSteps_succ, hnext, Checked.ok_bind]
      exact ih h

/-- A solution lists the columns of the stars after all steps that a run may take. -/
theorem afterSteps_of_solveInto {W : CostType} {s s' : Solver n} {buffer answer : List Nat}
    (h : s.solveInto W buffer = .ok (s', answer)) :
    s.afterSteps W (stepBound n) = .ok s' ∧ s'.starredColumns = .ok answer := by
  rw [solveInto] at h
  split at h
  · obtain ⟨s₁, hrun, h⟩ := Checked.bind_eq_ok_iff.1 h
    obtain ⟨columns, hcolumns, h⟩ := Checked.bind_eq_ok_iff.1 h
    obtain ⟨rfl, rfl⟩ := Prod.mk.inj (Except.ok.inj h)
    exact ⟨afterSteps_of_runFor _ hrun, hcolumns⟩
  · cases h

end Solver

namespace CostMatrix

/-- The state of a new solver for a matrix after `k` steps. -/
def solverAfter (W : CostType) (m : CostMatrix Int) (k : Nat) : Checked (Solver m.size) := do
  (← Solver.ofMatrix m).afterSteps W k

/-- With a row there is a solver, whose steps are taken. -/
theorem solverAfter_eq_afterSteps {m : CostMatrix Int} (hm : 0 < m.size) (W : CostType) (k : Nat) :
    m.solverAfter W k = (Solver.initial m.grid).afterSteps W k := by
  rw [solverAfter, Solver.ofMatrix_eq_ok hm, Checked.ok_bind]

/-- One more step is the step of the state before it. -/
theorem solverAfter_succ {W : CostType} {m : CostMatrix Int} {k : Nat} {s : Solver m.size}
    (h : m.solverAfter W k = .ok s) : m.solverAfter W (k + 1) = s.step W := by
  obtain ⟨s₀, hs₀, hs⟩ := Checked.bind_eq_ok_iff.1 h
  rw [solverAfter, hs₀, Checked.ok_bind, Solver.afterSteps, hs, Checked.ok_bind]

end CostMatrix

namespace Solver

variable {W : CostType} {C : Grid n Int} {p : Potentials n} {s : Solver n}

/-- The first step of a solver. -/
theorem step_initial (hspread : C.SpreadsFit W) : (initial C).step W = .ok { initial C with
    costs := Grid.ofFn fun i j ↦ C.cell i j - C.rowLeast i, phase := .star, steps := 1 } := by
  have hword : 0 + 1 < Word.bound := by decide
  exact step_eq_ok (by simp [initial]) hword ((sound_initial W C).advance_reduce rfl hspread)

namespace Sound

/-- Only the first step lowers rows. -/
theorem phase_ne_reduce (h : Sound W C p s) (hsteps : 0 < s.steps) : s.phase ≠ .reduce := by
  intro hs
  have hlt := h.steps_lt
  simp only [limit, hs] at hlt
  omega

/-- No step leads back to the first phase. -/
theorem phase_ne_reduce_of_step {s' : Solver n} (h : Sound W C p s') (hstep : s.step W = .ok s') :
    s'.phase ≠ .reduce := by
  by_cases hdone : s.phase = .done
  · rw [step_of_isDone (beq_iff_eq.2 hdone)] at hstep
    obtain rfl := Except.ok.inj hstep
    simp [hdone]
  · obtain ⟨next, -, rfl⟩ := exists_advance hdone hstep
    exact h.phase_ne_reduce (Nat.succ_pos _)

/-- Every state of a run is sound, if the spreads fit. -/
theorem exists_afterSteps (hn : 0 < n) (hword : stepBound n < Word.bound)
    (hspread : C.SpreadsFit W) (k : Nat) :
    ∃ s p, (initial C).afterSteps W k = .ok s ∧ Sound W C p s := by
  induction k with
  | zero => exact ⟨initial C, .zero n, rfl, sound_initial W C⟩
  | succ k ih =>
    obtain ⟨s, p, hs, h⟩ := ih
    obtain ⟨s', hstep, h'⟩ := h.exists_step hn hword fun _ ↦ hspread
    refine ⟨s', p.next s, ?_, h'⟩
    rw [afterSteps, hs, Checked.ok_bind, hstep]

/-- A run that is given all the rounds it may need ends in a solved state. -/
theorem exists_runFor (hn : 0 < n) (hword : stepBound n < Word.bound) (fuel : Nat) :
    ∀ {s : Solver n} {p : Potentials n}, Sound W C p s →
      (s.phase = .reduce → C.SpreadsFit W) → stepBound n ≤ s.steps + fuel →
      ∃ s' p', s.runFor W fuel = .ok s' ∧ Sound W C p' s' ∧ s'.phase = .done := by
  induction fuel with
  | zero =>
    intro s p h _ hfuel
    have hdone : s.phase = .done := by
      by_contra hphase
      exact absurd (h.steps_lt_stepBound hn hphase) (Nat.not_lt.2 hfuel)
    exact ⟨s, p, by simp [runFor, isDone, hdone, Checked.pure_eq_ok], h, hdone⟩
  | succ fuel ih =>
    intro s p h hspread hfuel
    by_cases hdone : s.phase = .done
    · exact ⟨s, p, by simp [runFor, isDone, hdone, Checked.pure_eq_ok], h, hdone⟩
    · -- a round is used up and a step is counted
      obtain ⟨s₁, hstep, h₁⟩ := h.exists_step hn hword hspread
      obtain ⟨next, -, hnext⟩ := exists_advance hdone hstep
      have hsteps : s₁.steps = s.steps + 1 := hnext ▸ rfl
      have hphase₁ := h₁.phase_ne_reduce (by omega)
      obtain ⟨s', p', hrun, h', hdone'⟩ := ih h₁ (fun hs₁ ↦ absurd hs₁ hphase₁) (by omega)
      refine ⟨s', p', ?_, h', hdone'⟩
      have hfalse : s.isDone = false := beq_eq_false_iff_ne.2 hdone
      rw [runFor, hfalse, hstep, Checked.ok_bind, hrun]
      rfl

/-- In a solved state each row has a star, in the column that a permutation gives. -/
theorem exists_perm (h : Sound W C p s) (hdone : s.phase = .done) :
    ∃ σ : Equiv.Perm (Fin n), ∀ i, s.stars.columnOf.entry i = some (σ i) := by
  have hmarked := h.marked
  simp only [Marked, hdone] at hmarked
  choose f hf using fun i ↦ Stars.exists_column_of_size_eq hmarked.1 i
  have hinjective : Function.Injective f := fun a b hab ↦
    h.consistent.row_unique (hf a) (hab ▸ hf b)
  exact ⟨Equiv.ofBijective f (Finite.injective_iff_bijective.1 hinjective), hf⟩

end Sound

/-- The columns of the stars are listed if each row has one. -/
theorem starredColumns_eq_ok {σ : Fin n → Fin n}
    (h : ∀ i, s.stars.columnOf.entry i = some (σ i)) :
    s.starredColumns = .ok (List.ofFn fun i ↦ (σ i).val) := by
  rw [starredColumns, Table.toList_eq_map_entry, List.ofFn_eq_map, List.mapM_map]
  exact Checked.mapM_eq_ok fun i _ ↦ by rw [Function.comp_apply, h]; rfl

/-- Solving fills a buffer of the right length with a permutation. -/
theorem Sound.exists_solveInto (h : Sound W C p s) (hn : 0 < n)
    (hword : stepBound n < Word.bound) (hspread : s.phase = .reduce → C.SpreadsFit W)
    {buffer : List Nat} (hbuffer : buffer.length = n) :
    ∃ s' p' σ, s.solveInto W buffer = .ok (s', List.ofFn fun i ↦ (σ i).val) ∧
      Sound W C p' s' ∧ s'.phase = .done ∧
      ∀ i, s'.stars.columnOf.entry i = some ((σ : Equiv.Perm (Fin n)) i) := by
  obtain ⟨s', p', hrun, h', hdone⟩ := h.exists_runFor hn hword (stepBound n) hspread (by omega)
  obtain ⟨σ, hσ⟩ := h'.exists_perm hdone
  refine ⟨s', p', σ, ?_, h', hdone, hσ⟩
  have hrun' : s.run W = .ok s' := hrun
  simp [solveInto, hbuffer, hrun', starredColumns_eq_ok hσ, Checked.pure_eq_ok]

end Solver

namespace CostMatrix

variable {W : CostType} {m : CostMatrix Int} {k : Nat} {s : Solver m.size}

/-- Only a matrix with a row has a solver. -/
theorem size_pos_of_solverAfter (hs : m.solverAfter W k = .ok s) : 0 < m.size := by
  obtain ⟨s₀, hs₀, -⟩ := Checked.bind_eq_ok_iff.1 hs
  rw [Solver.ofMatrix] at hs₀
  split at hs₀
  · cases hs₀
  · exact Nat.pos_of_ne_zero ‹_›

/-- The last of some steps may be taken apart. -/
theorem exists_of_solverAfter_succ (hs : m.solverAfter W (k + 1) = .ok s) :
    ∃ s', m.solverAfter W k = .ok s' ∧ s'.step W = .ok s := by
  obtain ⟨s₀, hs₀, hsteps⟩ := Checked.bind_eq_ok_iff.1 hs
  obtain ⟨s', hs', hstep⟩ := Checked.bind_eq_ok_iff.1 hsteps
  exact ⟨s', by rw [solverAfter, hs₀, Checked.ok_bind, hs'], hstep⟩

/-- Every state of a run is sound, if the spreads fit. -/
theorem exists_sound_of_solverAfter (h : m.Over W) (hspread : m.SpreadsFit W)
    (hs : m.solverAfter W k = .ok s) : ∃ p, Solver.Sound W m.grid p s := by
  have hm := size_pos_of_solverAfter hs
  obtain ⟨s', p, hs', hsound⟩ :=
    Solver.Sound.exists_afterSteps hm (Solver.stepBound_lt h.length_lt) hspread k
  rw [solverAfter_eq_afterSteps hm, hs'] at hs
  exact ⟨p, Except.ok.inj hs ▸ hsound⟩

/-- Any number of steps can be taken, if the spreads fit. -/
theorem exists_solverAfter (h : m.Over W) (hm : 0 < m.size) (hspread : m.SpreadsFit W) (k : Nat) :
    ∃ s, m.solverAfter W k = .ok s := by
  obtain ⟨s, p, hs, -⟩ :=
    Solver.Sound.exists_afterSteps hm (Solver.stepBound_lt h.length_lt) hspread k
  exact ⟨s, (solverAfter_eq_afterSteps hm W k).trans hs⟩

/-- Every state of a run has a step, which does the work of its phase. -/
theorem step_eq_ok_of_solverAfter (h : m.Over W) (hspread : m.SpreadsFit W)
    (hs : m.solverAfter W k = .ok s) (hdone : s.phase ≠ .done) {next : Solver m.size}
    (hnext : s.advance W = .ok next) : s.step W = .ok { next with steps := s.steps + 1 } := by
  obtain ⟨p, hsound⟩ := exists_sound_of_solverAfter h hspread hs
  exact (hsound.step_of_advance (size_pos_of_solverAfter hs) (Solver.stepBound_lt h.length_lt)
    (fun _ ↦ hspread) hdone hnext).1

/-- After the first step, rows are lowered. -/
theorem phase_ne_reduce_of_solverAfter (h : m.Over W) (hspread : m.SpreadsFit W) (hk : 0 < k)
    (hs : m.solverAfter W k = .ok s) : s.phase ≠ .reduce := by
  obtain ⟨k, rfl⟩ := Nat.exists_eq_add_one_of_ne_zero hk.ne'
  obtain ⟨s', -, hstep⟩ := exists_of_solverAfter_succ hs
  obtain ⟨p, hsound⟩ := exists_sound_of_solverAfter h hspread hs
  exact hsound.phase_ne_reduce_of_step hstep

/-- The first step takes the least cost of its row from each cost. -/
theorem cell_of_solverAfter_one (hspread : m.SpreadsFit W) (hs : m.solverAfter W 1 = .ok s)
    (i j : Fin m.size) : s.costs.cell i j = m.grid.cell i j - m.grid.rowLeast i := by
  obtain ⟨s₀, hs₀, hstep⟩ := exists_of_solverAfter_succ hs
  rw [solverAfter_eq_afterSteps (size_pos_of_solverAfter hs)] at hs₀
  obtain rfl := Except.ok.inj hs₀
  obtain rfl := Except.ok.inj ((Solver.step_initial hspread).symm.trans hstep)
  exact Grid.cell_ofFn _ i j

end CostMatrix

end LinearAssignment
