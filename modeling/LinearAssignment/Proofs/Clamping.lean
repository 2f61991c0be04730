import LinearAssignment.Proofs.Lockstep
import LinearAssignment.Proofs.Optimality

/-!
# Clamping cannot be seen

A solver of a bounded cost type runs in lockstep with the exact one, which is the same solver at
`CostType.unbounded`: there nothing overflows, and nothing is clamped. The two are related by
`Solver.Twin`: they have the same marks, and their costs are reduced by the same potentials. This is
kept by a step, because stored and exact costs have the same zeros and the same least uncovered
cost. Entries that were never clamped are the exact ones, which is kept as well.

So the cost type has no influence on a run, and `solverAfter_refines_exact` says so of every state
and of the answer.
-/

namespace LinearAssignment

variable {n : Nat} {W : CostType}

namespace Solver

/-- The next step stores the largest cost in a cell, in place of a sum that is larger still. -/
def Clamps (W : CostType) (s : Solver n) (i j : Fin n) : Prop :=
  s.phase = .shift ∧ s.cover.rows.entry i = true ∧ s.cover.columns.entry j = true ∧
    ∃ m top, leastUncovered? s.costs s.cover = some m ∧ W.greatest? = some top ∧
      top < s.costs.cell i j + m

/-- How a solver is related to the exact one, with the cells that have been clamped. -/
structure Refines (clamped : Fin n → Fin n → Prop) (s e : Solver n) : Prop where
  /-- Phase, number of steps, stars, primes and covers are the same. -/
  same : SameMarks s e
  /-- A shift is by the same amount. -/
  same_shift : s.phase = .shift → ∃ m, leastUncovered? s.costs s.cover = some m ∧
    leastUncovered? e.costs e.cover = some m
  /-- Once the rows are lowered, costs are not negative. -/
  nonneg : s.phase ≠ .reduce → ∀ i j, 0 ≤ s.costs.cell i j
  /-- They are not above the exact ones. -/
  le_exact : s.phase ≠ .reduce → ∀ i j, s.costs.cell i j ≤ e.costs.cell i j
  /-- They are the exact ones where no cost was clamped. -/
  eq_exact : ∀ i j, ¬ clamped i j → s.costs.cell i j = e.costs.cell i j
  /-- They are zero where the exact ones are. -/
  same_zeros : s.phase ≠ .reduce → s.costs.SameZeros e.costs

/-- A solver and the exact one, reduced by the same potentials. -/
structure Twin (W : CostType) (C : Grid n Int) (p : Potentials n) (s e : Solver n) : Prop where
  sound : Sound W C p s
  sound_exact : Sound .unbounded C p e
  same : SameMarks s e

end Solver

namespace Solver.Twin

variable {C : Grid n Int} {p : Potentials n} {s e s' e' : Solver n}

theorem initial (W : CostType) (C : Grid n Int) :
    Twin W C (.zero n) (Solver.initial C) (Solver.initial C) :=
  ⟨sound_initial W C, sound_initial .unbounded C, .refl _⟩

/-- The costs of the exact solver are the exact reduced costs. -/
theorem costs_exact (h : Twin W C p s e) (hs : s.phase ≠ .reduce) :
    e.costs = Grid.ofFn (p.exact C) :=
  (h.sound_exact.reduced (h.same.phase_eq ▸ hs)).cell_eq_exact

theorem le_exact (h : Twin W C p s e) (hs : s.phase ≠ .reduce) (i j : Fin n) :
    s.costs.cell i j ≤ e.costs.cell i j := by
  rw [h.costs_exact hs, Grid.cell_ofFn]
  exact (h.sound.reduced hs).le_exact i j

theorem sameZeros (h : Twin W C p s e) (hs : s.phase ≠ .reduce) :
    s.costs.SameZeros e.costs := fun i j ↦ by
  rw [h.costs_exact hs, Grid.cell_ofFn]
  exact (h.sound.reduced hs).cell_eq_zero_iff i j

/-- Both solvers shift by the same amount, and the shifts go through. -/
theorem exists_shift (h : Twin W C p s e) (hs : s.phase = .shift) :
    ∃ m, leastUncovered? s.costs s.cover = some m ∧ leastUncovered? e.costs e.cover = some m ∧
      shiftCosts W s.costs s.cover = .ok (shiftedCosts W m s.cover s.costs) ∧
      shiftCosts .unbounded e.costs e.cover = .ok (shiftedCosts .unbounded m e.cover e.costs) := by
  have hphase : s.phase ≠ .reduce := by simp [hs]
  have hreduced := h.sound.reduced hphase
  have hreduced' := h.sound_exact.reduced (h.same.phase_eq ▸ hphase)
  have hmarked := h.sound.marked
  simp only [Marked, hs] at hmarked
  obtain ⟨⟨hsearch, hzero⟩, hlt⟩ := hmarked
  -- a cell without stars in its row and column is not covered, and bounds the amount
  obtain ⟨i, hi⟩ := Stars.exists_free_row hlt
  obtain ⟨j, hj⟩ := h.sound.consistent.exists_free_column hlt
  have hi' := hsearch.row_of_free hi
  have hj' := hsearch.column_of_free hj
  obtain ⟨m, hm⟩ := exists_leastUncovered? s.costs hi' hj'
  have hm' : leastUncovered? e.costs e.cover = some m := by
    rw [h.costs_exact hphase, h.same.cover_eq]
    exact hreduced.leastUncovered?_exact hi hj hi' hj' hm
  have hzero' : uncoveredZero? e.costs e.cover = none := by
    rw [h.same.cover_eq, ← (h.sameZeros hphase).uncoveredZero?, hzero]
  exact ⟨m, hm, hm', hreduced.shiftCosts_eq_ok hzero hm, hreduced'.shiftCosts_eq_ok hzero' hm'⟩

/-- A step changes the potentials of both solvers in the same way. -/
theorem next_eq (h : Twin W C p s e) : p.next e = p.next s := by
  have hphase := h.same.phase_eq
  by_cases hreduce : s.phase = .reduce
  · rw [p.next_of_reduce hreduce, p.next_of_reduce (hphase.trans hreduce),
      h.sound.unchanged hreduce, h.sound_exact.unchanged (hphase.trans hreduce)]
  · by_cases hshift : s.phase = .shift
    · obtain ⟨m, hm, hm', -⟩ := h.exists_shift hshift
      rw [p.next_of_shift hshift hm, p.next_of_shift (hphase.trans hshift) hm', h.same.cover_eq]
    · rw [p.next_eq_self hreduce hshift, p.next_eq_self (hphase ▸ hreduce) (hphase ▸ hshift)]

/-- Both solvers take a step, and are related as before after it. -/
theorem exists_step (h : Twin W C p s e) (hn : 0 < n) (hword : stepBound n < Word.bound)
    (hspread : C.SpreadsFit W) :
    ∃ s' e', s.step W = .ok s' ∧ e.step .unbounded = .ok e' ∧ Twin W C (p.next s) s' e' := by
  obtain ⟨s', hs, hsound⟩ := h.sound.exists_step hn hword fun _ ↦ hspread
  obtain ⟨e', he, hsound'⟩ := h.sound_exact.exists_step hn hword
    fun _ _ ↦ CostType.atMost_unbounded _
  exact ⟨s', e', hs, he, hsound, h.next_eq ▸ hsound', h.same.step h.sameZeros hs he⟩

/-- A cost that is exact before a step that does not clamp it is exact after it. -/
theorem cell_eq_of_step (h : Twin W C p s e) (h' : Twin W C (p.next s) s' e')
    (hs : s.step W = .ok s') (he : e.step .unbounded = .ok e') {i j : Fin n}
    (hclamps : ¬ s.Clamps W i j) (heq : s.costs.cell i j = e.costs.cell i j) :
    s'.costs.cell i j = e'.costs.cell i j := by
  by_cases hreduce : s.phase = .reduce
  · -- nothing has been shifted yet, so no cost is high
    have hphase' := h'.sound.phase_ne_reduce_of_step hs
    have hreduced := h'.sound.reduced hphase'
    rw [h'.costs_exact hphase', Grid.cell_ofFn]
    refine (hreduced.exact_or_high i j).resolve_right fun hhigh ↦ hhigh ?_
    rw [p.next_of_reduce hreduce]
    show W.AtMost (s'.costs.cell i j + 0)
    rw [Int.add_zero]
    exact hreduced.atMost i j
  · by_cases hshift : s.phase = .shift
    · obtain ⟨m, hm, -, hok, hok'⟩ := h.exists_shift hshift
      have hcosts := Except.ok.inj (((costs_of_step hs).1 hshift).symm.trans hok)
      have hcosts' := Except.ok.inj
        (((costs_of_step he).1 (h.same.phase_eq.trans hshift)).symm.trans hok')
      rw [hcosts, hcosts', cell_shiftedCosts, cell_shiftedCosts, h.same.cover_eq, ← heq]
      cases hi : s.cover.rows.entry i with
      | true =>
        cases hj : s.cover.columns.entry j with
        | true =>
          show W.clamp (s.costs.cell i j + m) = s.costs.cell i j + m
          exact CostType.clamp_of_atMost fun top htop ↦ Int.not_lt.1 fun hlt ↦
            hclamps ⟨hshift, hi, hj, m, top, hm, htop, hlt⟩
        | false => rfl
      | false =>
        cases s.cover.columns.entry j with
        | true => rfl
        | false => rfl
    · rw [(costs_of_step hs).2 hreduce hshift,
        (costs_of_step he).2 (h.same.phase_eq ▸ hreduce) (h.same.phase_eq ▸ hshift), heq]

/-- Twins refine each other, if costs are exact where none was clamped. -/
theorem refines (h : Twin W C p s e) {clamped : Fin n → Fin n → Prop}
    (heq : ∀ i j, ¬ clamped i j → s.costs.cell i j = e.costs.cell i j) :
    Refines clamped s e where
  same := h.same
  same_shift hs := by
    obtain ⟨m, hm, hm', -⟩ := h.exists_shift hs
    exact ⟨m, hm, hm'⟩
  nonneg hs := (h.sound.reduced hs).nonneg
  le_exact := h.le_exact
  eq_exact := heq
  same_zeros := h.sameZeros

end Solver.Twin

namespace CostMatrix

variable {m : CostMatrix Int}

/-- One of the first `k` steps of a new solver for the matrix clamps a cell. -/
def ClampedBefore (W : CostType) (m : CostMatrix Int) (k : Nat) (i j : Fin m.size) : Prop :=
  ∃ l < k, ∃ s, m.solverAfter W l = .ok s ∧ s.Clamps W i j

/-- Every state of a run has a twin in the exact run. -/
theorem exists_twin (hm : 0 < m.size) (hword : Solver.stepBound m.size < Word.bound)
    (hspread : m.SpreadsFit W) (k : Nat) :
    ∃ p s e, m.solverAfter W k = .ok s ∧ m.solverAfter .unbounded k = .ok e ∧
      Solver.Twin W m.grid p s e ∧
      ∀ i j, ¬ m.ClampedBefore W k i j → s.costs.cell i j = e.costs.cell i j := by
  induction k with
  | zero =>
    have hinitial : ∀ W', m.solverAfter W' 0 = .ok (.initial m.grid) := fun W' ↦
      solverAfter_eq_afterSteps hm W' 0
    exact ⟨_, _, _, hinitial W, hinitial .unbounded, .initial W m.grid, fun _ _ _ ↦ rfl⟩
  | succ k ih =>
    obtain ⟨p, s, e, hs, he, h, heq⟩ := ih
    obtain ⟨s', e', hstep, hstep', h'⟩ := h.exists_step hm hword hspread
    refine ⟨_, s', e', (solverAfter_succ hs).trans hstep, (solverAfter_succ he).trans hstep', h',
      fun i j hclamped ↦ ?_⟩
    refine h.cell_eq_of_step h' hstep hstep' (fun hclamps ↦ ?_) (heq i j fun hbefore ↦ ?_)
    · exact hclamped ⟨k, Nat.lt_succ_self k, s, hs, hclamps⟩
    · obtain ⟨l, hl, hclamps⟩ := hbefore
      exact hclamped ⟨l, Nat.lt_succ_of_lt hl, hclamps⟩

/-- Two cost types take the same steps. -/
theorem exists_sameMarks {W' : CostType} (hm : 0 < m.size)
    (hword : Solver.stepBound m.size < Word.bound) (hspread : m.SpreadsFit W)
    (hspread' : m.SpreadsFit W') (k : Nat) :
    ∃ s s', m.solverAfter W k = .ok s ∧ m.solverAfter W' k = .ok s' ∧ s.SameMarks s' := by
  obtain ⟨p, s, e, hs, he, h, -⟩ := exists_twin hm hword hspread k
  obtain ⟨p', s', e', hs', he', h', -⟩ := exists_twin hm hword hspread' k
  obtain rfl := Except.ok.inj (he.symm.trans he')
  exact ⟨s, s', hs, hs', h.same.trans h'.same.symm⟩

end CostMatrix

/-- An answer lists the columns of the stars after all steps that a run may take. -/
theorem assign_eq_starredColumns {m : CostMatrix Int} {answer : List Nat} (hm : 1 < m.size)
    (h : assign W m = .ok answer) :
    ∃ s, m.solverAfter W (Solver.stepBound m.size) = .ok s ∧ s.starredColumns = .ok answer := by
  rw [assign] at h
  split at h
  · omega
  · omega
  · obtain ⟨s₀, hs₀, h⟩ := Checked.bind_eq_ok_iff.1 h
    obtain ⟨⟨s, columns⟩, hsolve, h⟩ := Checked.bind_eq_ok_iff.1 h
    obtain rfl := Except.ok.inj h
    obtain ⟨hsteps, hcolumns⟩ := Solver.afterSteps_of_solveInto hsolve
    refine ⟨s, ?_, hcolumns⟩
    rw [CostMatrix.solverAfter, hs₀, Checked.ok_bind, hsteps]

/-- Solvers that have the same marks after all steps that a run may take give the same answer. -/
theorem assign_eq_of_sameMarks {W' : CostType} {C C' : Grid n Int} {answer answer' : List Nat}
    (hn : 0 < n) (hsame : ∃ s s', (CostMatrix.mk n C).solverAfter W (Solver.stepBound n) = .ok s ∧
      (CostMatrix.mk n C').solverAfter W' (Solver.stepBound n) = .ok s' ∧ s.SameMarks s')
    (h : assign W ⟨n, C⟩ = .ok answer) (h' : assign W' ⟨n, C'⟩ = .ok answer') :
    answer = answer' := by
  obtain ⟨t, t', ht, ht', hsame⟩ := hsame
  rcases Nat.lt_or_ge 1 n with hone | hone
  · obtain ⟨s, hs, hcolumns⟩ := assign_eq_starredColumns hone h
    obtain ⟨s', hs', hcolumns'⟩ := assign_eq_starredColumns hone h'
    obtain rfl := Except.ok.inj (hs.symm.trans ht)
    obtain rfl := Except.ok.inj (hs'.symm.trans ht')
    rw [Solver.starredColumns, hsame.stars_eq] at hcolumns'
    exact Except.ok.inj (hcolumns.symm.trans hcolumns')
  · -- with one row no solver is asked
    obtain rfl : n = 1 := Nat.le_antisymm hone hn
    have hsingle : ∀ W C, assign W ⟨1, C⟩ = .ok [0] := fun _ _ ↦ rfl
    rw [hsingle] at h h'
    exact Except.ok.inj (h.symm.trans h')

/-- Two cost types give the same answer. -/
theorem assign_eq_of_fits {W' : CostType} {m : CostMatrix Int} {answer answer' : List Nat}
    (hm : 0 < m.size) (hword : Solver.stepBound m.size < Word.bound) (hspread : m.SpreadsFit W)
    (hspread' : m.SpreadsFit W') (h : assign W m = .ok answer) (h' : assign W' m = .ok answer') :
    answer = answer' :=
  assign_eq_of_sameMarks hm (CostMatrix.exists_sameMarks hm hword hspread hspread' _) h h'

/-- **Clamping cannot be seen.** After any number of steps, a solver has the marks of the exact one
and shifts by the same amount, and its costs are between zero and the exact ones, exact where none
was clamped, and zero where the exact ones are. So two cost types that both admit a matrix take the
same steps and give the same answer. -/
theorem solverAfter_refines_exact {m : CostMatrix Int} (h : m.Over W) (hm : 0 < m.size)
    (hspread : m.SpreadsFit W) :
    (∀ k, ∃ s e, m.solverAfter W k = .ok s ∧ m.solverAfter .unbounded k = .ok e ∧
      s.Refines (m.ClampedBefore W k) e) ∧
    ∀ W', m.Over W' → m.SpreadsFit W' →
      (∀ k, ∃ s s', m.solverAfter W k = .ok s ∧ m.solverAfter W' k = .ok s' ∧ s.SameMarks s') ∧
      ∃ answer, assign W m = .ok answer ∧ assign W' m = .ok answer := by
  have hword := Solver.stepBound_lt h.length_lt
  refine ⟨fun k ↦ ?_, fun W' h' hspread' ↦
    ⟨CostMatrix.exists_sameMarks hm hword hspread hspread', ?_⟩⟩
  · obtain ⟨p, s, e, hs, he, htwin, heq⟩ := CostMatrix.exists_twin hm hword hspread k
    exact ⟨s, e, hs, he, htwin.refines heq⟩
  · obtain ⟨σ, hanswer, -⟩ := exists_assign_of_pos h hspread hm
    obtain ⟨τ, hanswer', -⟩ := exists_assign_of_pos h' hspread' hm
    refine ⟨_, hanswer, ?_⟩
    rw [hanswer', assign_eq_of_fits hm hword hspread hspread' hanswer hanswer']

theorem solverAfter_refines_exact_nearTop :
    CostMatrix.nearTop.Over (.signed 7) ∧ 0 < CostMatrix.nearTop.size ∧
      CostMatrix.nearTop.SpreadsFit (.signed 7) ∧ CostMatrix.nearTop.Over (.signed 15) ∧
      CostMatrix.nearTop.SpreadsFit (.signed 15) ∧
      (∃ s e, CostMatrix.nearTop.solverAfter (.signed 7) 8 = .ok s ∧
        CostMatrix.nearTop.solverAfter .unbounded 8 = .ok e ∧
        s.Refines (CostMatrix.nearTop.ClampedBefore (.signed 7) 8) e) ∧
      ∃ answer, assign (.signed 7) CostMatrix.nearTop = .ok answer ∧
        assign (.signed 15) CostMatrix.nearTop = .ok answer :=
  have hwide : CostMatrix.nearTop.Over (.signed 15) := ⟨by decide, by decide⟩
  have hspread : CostMatrix.nearTop.SpreadsFit (.signed 15) := by decide
  have hrefines := solverAfter_refines_exact CostMatrix.over_nearTop (by decide)
    CostMatrix.spreadsFit_nearTop
  ⟨CostMatrix.over_nearTop, by decide, CostMatrix.spreadsFit_nearTop, hwide, hspread,
    hrefines.1 8, (hrefines.2 _ hwide hspread).2⟩

-- the sum `125 + 3` does not fit seven bits
example : (CostMatrix.nearTop.solverAfter (.signed 7) 7).map (·.costs.entries) =
    .ok [123, 123, 0, 120, 0, 0, 0, 0, 127] := by
  cbv

example : (CostMatrix.nearTop.solverAfter .unbounded 7).map (·.costs.entries) =
    .ok [123, 123, 0, 120, 0, 0, 0, 0, 128] := by
  cbv

end LinearAssignment
