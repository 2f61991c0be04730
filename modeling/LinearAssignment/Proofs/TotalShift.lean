import LinearAssignment.Proofs.Certificate
import LinearAssignment.Proofs.Clamping

/-!
# The total of all shifts

A run shifts by amounts that depend on the costs, and its cost type has to make room for what they
add up to. A cell whose row and column have no star has paid for every shift so far, since its row
was never covered and its column was never covered either; so the total is at most what the first
step has left of it (`CostMatrix.totalShift_le_of_free`), and in the end at most the largest cost
that the first step has left.

An exact cost grows by the amount of a shift at most, so it stays within twice that largest cost
(`CostMatrix.exact_le`). Where this is of the type nothing is clamped. Where a cost is clamped, it
falls behind the exact one and stays behind it (`CostMatrix.lt_exact_of_clampedBefore`), and as
stored and exact costs have the same zeros, it is never zero again.
-/

namespace LinearAssignment

variable {n : Nat}

namespace Solver

/-- The amount by which the next step shifts costs. -/
def shiftAmount (s : Solver n) : Int :=
  if s.phase = .shift then (leastUncovered? s.costs s.cover).getD 0 else 0

variable {W : CostType} {C : Grid n Int} {p : Potentials n} {s s' : Solver n}

theorem shiftAmount_of_ne (hs : s.phase ≠ .shift) : s.shiftAmount = 0 :=
  if_neg hs

/-- Once the rows are lowered, a step adds its amount to the total of all shifts. -/
theorem shifted_next (p : Potentials n) (hs : s.phase ≠ .reduce) :
    (p.next s).shifted = p.shifted + s.shiftAmount := by
  by_cases hshift : s.phase = .shift
  · simp only [Potentials.next, shiftAmount, hshift, if_true, Potentials.shift]
  · rw [p.next_eq_self hs hshift, shiftAmount_of_ne hshift, Int.add_zero]

namespace Sound

/-- A shift is by its least uncovered cost, and this is positive. -/
theorem leastUncovered?_eq_shiftAmount (h : Sound W C p s) (hs : s.phase = .shift) :
    leastUncovered? s.costs s.cover = some s.shiftAmount ∧ 1 ≤ s.shiftAmount := by
  obtain ⟨m, hm, hpos, -⟩ := h.exists_advance_shift hs
  have hamount : s.shiftAmount = m := by rw [shiftAmount, if_pos hs, hm, Option.getD_some]
  rw [hamount]
  exact ⟨hm, hpos⟩

theorem shiftAmount_nonneg (h : Sound W C p s) : 0 ≤ s.shiftAmount := by
  by_cases hs : s.phase = .shift
  · have := (h.leastUncovered?_eq_shiftAmount hs).2
    omega
  · rw [shiftAmount_of_ne hs]

/-- A step raises an exact cost by its amount at most. -/
theorem exact_next_le (h : Sound W C p s) (hs : s.phase ≠ .reduce) (i j : Fin n) :
    (p.next s).exact C i j ≤ p.exact C i j + s.shiftAmount := by
  have hnonneg := h.shiftAmount_nonneg
  by_cases hshift : s.phase = .shift
  · rw [p.next_of_shift hshift (h.leastUncovered?_eq_shiftAmount hshift).1]
    simp only [Potentials.exact, Potentials.shift]
    split <;> split <;> omega
  · rw [p.next_eq_self hs hshift, shiftAmount_of_ne hshift, Int.add_zero]

/-- Where the next step clamps a cost, the exact one is above the largest of the type. -/
theorem not_atMost_exact_of_clamps (h : Sound W C p s) {i j : Fin n} (hclamps : s.Clamps W i j) :
    ¬ W.AtMost ((p.next s).exact C i j) := by
  obtain ⟨hs, hi, hj, m, top, hm, htop, hlt⟩ := hclamps
  have hle := (h.reduced (by simp [hs])).le_exact i j
  rw [p.next_of_shift hs hm, exact_shift, hi, hj]
  show ¬ W.AtMost (p.exact C i j + m)
  intro hatMost
  have := hatMost top htop
  omega

/-- A cost that is behind the exact one before a step is so after it. -/
theorem lt_exact_of_step (h : Sound W C p s) (hs : s.phase ≠ .reduce) (hstep : s.step W = .ok s')
    {i j : Fin n} (hlt : s.costs.cell i j < p.exact C i j) :
    s'.costs.cell i j < (p.next s).exact C i j := by
  by_cases hshift : s.phase = .shift
  · obtain ⟨m, hm, -, hadvance, -⟩ := h.exists_advance_shift hshift
    obtain ⟨next, hnext, rfl⟩ := exists_advance (by simp [hshift]) hstep
    obtain rfl := Except.ok.inj (hadvance.symm.trans hnext)
    have hsub := sub_le_sub_shiftedCost W m (s.cover.rows.entry i) (s.cover.columns.entry j)
      (s.costs.cell i j) (p.exact C i j)
    rw [p.next_of_shift hshift hm, exact_shift]
    show (shiftedCosts W m s.cover s.costs).cell i j < _
    rw [cell_shiftedCosts]
    omega
  · rwa [(costs_of_step hstep).2 hs hshift, p.next_eq_self hs hshift]

end Sound

end Solver

namespace CostMatrix

variable {W : CostType} {m : CostMatrix Int} {k l : Nat} {s : Solver m.size}

/-- The amount by which a new solver for the matrix shifts costs after `k` steps. -/
def shiftAmount (W : CostType) (m : CostMatrix Int) (k : Nat) : Int :=
  match m.solverAfter W k with
  | .ok s => s.shiftAmount
  | .error _ => 0

/-- The total of the shifts among the first `k` steps. -/
def totalShift (W : CostType) (m : CostMatrix Int) (k : Nat) : Int :=
  ∑ l ∈ Finset.range k, m.shiftAmount W l

theorem shiftAmount_eq (hs : m.solverAfter W k = .ok s) : m.shiftAmount W k = s.shiftAmount := by
  rw [shiftAmount, hs]

theorem totalShift_succ (hs : m.solverAfter W k = .ok s) :
    m.totalShift W (k + 1) = m.totalShift W k + s.shiftAmount := by
  rw [totalShift, Finset.sum_range_succ, shiftAmount_eq hs, totalShift]

/-- Steps that do not shift leave the total as it is. -/
theorem totalShift_eq_of_le (hlk : l ≤ k) (hnone : ∀ l' t, l ≤ l' → l' < k →
    m.solverAfter W l' = .ok t → t.phase ≠ .shift) : m.totalShift W k = m.totalShift W l := by
  refine (Finset.sum_subset (Finset.range_mono hlk) fun l' hl' hnot ↦ ?_).symm
  have hlt := Finset.mem_range.1 hl'
  have hle := Nat.not_lt.1 fun hlt ↦ hnot (Finset.mem_range.2 hlt)
  rw [shiftAmount]
  split
  · exact Solver.shiftAmount_of_ne (hnone l' _ hle hlt ‹_›)
  · rfl

/-- The potentials after the first step leave what it leaves of each cost. -/
theorem exact_potentialsAfter_one (hm : 0 < m.size) (W : CostType) (i j : Fin m.size) :
    (m.potentialsAfter W 1).exact m.grid i j = m.grid.cell i j - m.grid.rowLeast i := by
  rw [potentialsAfter_succ (solverAfter_eq_afterSteps hm W 0)]
  exact Int.sub_zero _

section Run

variable (h : m.Over W) (hspread : m.SpreadsFit W)
include h hspread

/-- After the first step, costs are reduced by the potentials of the step. -/
theorem reduced_of_solverAfter (hk : 0 < k) (hs : m.solverAfter W k = .ok s) :
    Reduced W m.grid (m.potentialsAfter W k) s.stars s.costs :=
  (sound_of_solverAfter h hspread hs).1.reduced (phase_ne_reduce_of_solverAfter h hspread hk hs)

/-- The ghost total of all shifts is the sum of their amounts. -/
theorem shifted_potentialsAfter (hs : m.solverAfter W k = .ok s) :
    (m.potentialsAfter W k).shifted = m.totalShift W k := by
  induction k generalizing s with
  | zero => rfl
  | succ k ih =>
    obtain ⟨s', hs', -⟩ := exists_of_solverAfter_succ hs
    rw [potentialsAfter_succ hs', totalShift_succ hs', ← ih hs']
    cases k with
    | zero =>
      -- the first step lowers rows
      rw [solverAfter_eq_afterSteps (size_pos_of_solverAfter hs) W 0] at hs'
      obtain rfl := Except.ok.inj hs'
      rfl
    | succ k =>
      exact Solver.shifted_next _ (phase_ne_reduce_of_solverAfter h hspread k.add_one_pos hs')

/-- An exact cost is what the first step has left of it, and at most all shifts together. -/
theorem exact_le (hs : m.solverAfter W (k + 1) = .ok s) (i j : Fin m.size) :
    (m.potentialsAfter W (k + 1)).exact m.grid i j ≤
      m.grid.cell i j - m.grid.rowLeast i + m.totalShift W (k + 1) := by
  induction k generalizing s with
  | zero =>
    rw [exact_potentialsAfter_one (size_pos_of_solverAfter hs),
      ← shifted_potentialsAfter h hspread hs]
    exact Int.le_add_of_nonneg_right
      (reduced_of_solverAfter h hspread Nat.one_pos hs).shifted_nonneg
  | succ k ih =>
    obtain ⟨s', hs', -⟩ := exists_of_solverAfter_succ hs
    have hnext := (sound_of_solverAfter h hspread hs').1.exact_next_le
      (phase_ne_reduce_of_solverAfter h hspread k.add_one_pos hs') i j
    have hle := ih hs'
    rw [potentialsAfter_succ hs', totalShift_succ hs']
    omega

/-- The total of all shifts is at most what the first step has left of the cost of a cell without
stars in its row and column. -/
theorem totalShift_le_of_free (hs : m.solverAfter W (k + 1) = .ok s) {i j : Fin m.size}
    (hi : s.stars.columnOf.entry i = none) (hj : s.stars.rowOf.entry j = none) :
    m.totalShift W (k + 1) ≤ m.grid.cell i j - m.grid.rowLeast i := by
  have hreduced := reduced_of_solverAfter h hspread k.add_one_pos hs
  have hle := hreduced.cell_add_shifted_le hi hj
  have hnonneg := hreduced.nonneg i j
  rw [shifted_potentialsAfter h hspread hs] at hle
  omega

/-- After a shift, this is so for a cell without stars in its row and column before it. -/
theorem totalShift_le_of_shift (hs : m.solverAfter W k = .ok s) (hshift : s.phase = .shift)
    {i j : Fin m.size} (hi : s.stars.columnOf.entry i = none)
    (hj : s.stars.rowOf.entry j = none) :
    m.totalShift W (k + 1) ≤ m.grid.cell i j - m.grid.rowLeast i := by
  obtain ⟨s', hs'⟩ := exists_solverAfter h (size_pos_of_solverAfter hs) hspread (k + 1)
  have hstars := Solver.stars_of_step ((solverAfter_succ hs).symm.trans hs') (by simp [hshift])
    (by simp [hshift])
  exact totalShift_le_of_free h hspread hs' (hstars ▸ hi) (hstars ▸ hj)

/-- The total of all shifts is at most the largest cost that the first step has left. -/
theorem totalShift_le {R : Int} (hm : 0 < m.size)
    (hR : ∀ i j, m.grid.cell i j - m.grid.rowLeast i ≤ R) (k : Nat) : m.totalShift W k ≤ R := by
  induction k with
  | zero =>
    have hle := hR ⟨0, hm⟩ ⟨0, hm⟩
    have := m.grid.rowLeast_le ⟨0, hm⟩ ⟨0, hm⟩
    show 0 ≤ R
    omega
  | succ k ih =>
    obtain ⟨s, hs⟩ := exists_solverAfter h hm hspread k
    by_cases hshift : s.phase = .shift
    · -- some row and some column have no star
      have hsound := (sound_of_solverAfter h hspread hs).1
      obtain ⟨-, hlt⟩ := hsound.searching.1 (.inr hshift)
      obtain ⟨i, hi⟩ := Stars.exists_free_row hlt
      obtain ⟨j, hj⟩ := hsound.consistent.exists_free_column hlt
      exact (totalShift_le_of_shift h hspread hs hshift hi hj).trans (hR i j)
    · rwa [totalShift_succ hs, Solver.shiftAmount_of_ne hshift, Int.add_zero]

/-- Costs that have been clamped are behind the exact ones. -/
theorem lt_exact_of_clampedBefore (hs : m.solverAfter W k = .ok s) {i j : Fin m.size}
    (hclamped : m.ClampedBefore W k i j) :
    s.costs.cell i j < (m.potentialsAfter W k).exact m.grid i j := by
  induction k generalizing s with
  | zero =>
    obtain ⟨l, hl, -⟩ := hclamped
    exact absurd hl (Nat.not_lt_zero l)
  | succ k ih =>
    obtain ⟨s', hs', hstep⟩ := exists_of_solverAfter_succ hs
    have hsound := (sound_of_solverAfter h hspread hs').1
    rw [potentialsAfter_succ hs']
    obtain ⟨l, hl, t, ht, hclamps⟩ := hclamped
    rcases Nat.lt_succ_iff_lt_or_eq.1 hl with hlt | rfl
    · -- it was clamped before the last step, so rows have been lowered
      have hphase := phase_ne_reduce_of_solverAfter h hspread (Nat.zero_lt_of_lt hlt) hs'
      exact hsound.lt_exact_of_step hphase hstep (ih hs' ⟨l, hlt, t, ht, hclamps⟩)
    · obtain rfl := Except.ok.inj (hs'.symm.trans ht)
      have hreduced := reduced_of_solverAfter h hspread l.add_one_pos hs
      refine Int.not_le.1 fun hle ↦ hsound.not_atMost_exact_of_clamps hclamps ?_
      exact (hreduced.atMost i j).mono hle

/-- So they are positive, as they would be zero where the exact ones are. -/
theorem pos_of_clampedBefore (hs : m.solverAfter W k = .ok s) {i j : Fin m.size}
    (hclamped : m.ClampedBefore W k i j) : 0 < s.costs.cell i j := by
  have hk : 0 < k := hclamped.elim fun l hl ↦ Nat.zero_lt_of_lt hl.1
  have hreduced := reduced_of_solverAfter h hspread hk hs
  refine lt_of_le_of_ne (hreduced.nonneg i j) fun hzero ↦ ?_
  have hlt := lt_exact_of_clampedBefore h hspread hs hclamped
  rw [(hreduced.cell_eq_zero_iff i j).1 hzero.symm, ← hzero] at hlt
  exact Int.lt_irrefl 0 hlt

/-- Nothing is clamped if twice the largest cost that the first step has left is of the type. -/
theorem not_clampedBefore {R : Int} (hm : 0 < m.size)
    (hR : ∀ i j, m.grid.cell i j - m.grid.rowLeast i ≤ R) (hfits : W.AtMost (2 * R)) (k : Nat)
    (i j : Fin m.size) : ¬ m.ClampedBefore W k i j := by
  rintro ⟨l, -, s, hs, hclamps⟩
  obtain ⟨s', hs'⟩ := exists_solverAfter h hm hspread (l + 1)
  have hexact := exact_le h hspread hs' i j
  have htotal := totalShift_le h hspread hm hR (l + 1)
  have hcell := hR i j
  rw [potentialsAfter_succ hs] at hexact
  refine (sound_of_solverAfter h hspread hs).1.not_atMost_exact_of_clamps hclamps ?_
  exact hfits.mono (by omega)

/-- Stored costs are at most those of the exact run. -/
theorem cell_le_exact {e : Solver m.size} (hs : m.solverAfter W (k + 1) = .ok s)
    (he : m.solverAfter .unbounded (k + 1) = .ok e) (i j : Fin m.size) :
    s.costs.cell i j ≤ e.costs.cell i j := by
  obtain ⟨p, s', e', hs', he', htwin, -⟩ := exists_twin (size_pos_of_solverAfter hs)
    (Solver.stepBound_lt h.length_lt) hspread (k + 1)
  obtain rfl := Except.ok.inj (hs.symm.trans hs')
  obtain rfl := Except.ok.inj (he.symm.trans he')
  exact htwin.le_exact (phase_ne_reduce_of_solverAfter h hspread k.add_one_pos hs) i j

end Run

/-- Those are at most twice the largest cost that the first step has left. -/
theorem exact_le_two_mul (h : m.Over W) {R : Int} (hm : 0 < m.size)
    (hR : ∀ i j, m.grid.cell i j - m.grid.rowLeast i ≤ R) {e : Solver m.size}
    (he : m.solverAfter .unbounded (k + 1) = .ok e) (i j : Fin m.size) :
    e.costs.cell i j ≤ 2 * R := by
  have h' : m.Over .unbounded := ⟨fun _ _ ↦ trivial, h.length_lt⟩
  have hspread' : m.SpreadsFit .unbounded := fun _ ↦ CostType.atMost_unbounded _
  have hreduced := reduced_of_solverAfter h' hspread' k.add_one_pos he
  have hexact := exact_le h' hspread' he i j
  have htotal := totalShift_le h' hspread' hm hR (k + 1)
  have hle := hR i j
  rw [hreduced.cell_eq_exact, Grid.cell_ofFn]
  omega

/-- What bounds the shifts of a run, given the costs `r` after the first step and the largest `R` of
them. -/
structure ShiftsBounded (W : CostType) (m : CostMatrix Int) (r : Grid m.size Int) (R : Int) :
    Prop where
  first : ∃ s, m.solverAfter W 1 = .ok s ∧ s.costs = r
  largest : (∃ i j, r.cell i j = R) ∧ ∀ i j, r.cell i j ≤ R
  /-- The amounts that are added up are the least uncovered costs, and positive. -/
  amount : ∀ k s, m.solverAfter W k = .ok s → s.phase = .shift →
    Solver.leastUncovered? s.costs s.cover = some (m.shiftAmount W k) ∧ 1 ≤ m.shiftAmount W k
  /-- After `k` steps, the last shift among which is that after `l` steps, the total is at most the
  first cost of each cell without stars in its row and column at that shift. -/
  total_le_free : ∀ k l s, l < k → m.solverAfter W l = .ok s → s.phase = .shift →
    (∀ l' t, l < l' → l' < k → m.solverAfter W l' = .ok t → t.phase ≠ .shift) →
    ∀ i j, s.stars.columnOf.entry i = none → s.stars.rowOf.entry j = none →
      m.totalShift W k ≤ r.cell i j
  total_le : ∀ k, m.totalShift W k ≤ R
  /-- Stored costs are at most the exact ones, those of the run in which nothing is clamped, and
  these are at most twice the largest first cost. -/
  exact_le : ∀ k s e, m.solverAfter W (k + 1) = .ok s → m.solverAfter .unbounded (k + 1) = .ok e →
    ∀ i j, s.costs.cell i j ≤ e.costs.cell i j ∧ e.costs.cell i j ≤ 2 * R
  /-- If this is of the type, nothing is clamped. -/
  not_clamped : W.AtMost (2 * R) → ∀ k i j, ¬ m.ClampedBefore W k i j
  /-- A cost that has been clamped stays positive, and gets no mark. -/
  clamped_pos : ∀ k s i j, m.solverAfter W k = .ok s → m.ClampedBefore W k i j →
    0 < s.costs.cell i j ∧ ¬ s.stars.contains i j ∧ ¬ s.primes.contains i j

end CostMatrix

/-- **The total of all shifts is bounded.** For every matrix with a row whose spreads fit, all
shifts of a run together are at most the largest cost that the first step has left. So exact costs
are at most twice as large, and a cost that has been clamped stays positive. -/
theorem exists_shiftsBounded {W : CostType} {m : CostMatrix Int} (h : m.Over W) (hm : 0 < m.size)
    (hspread : m.SpreadsFit W) : ∃ r R, m.ShiftsBounded W r R := by
  obtain ⟨first, hfirst⟩ := CostMatrix.exists_solverAfter h hm hspread 1
  have hcell := CostMatrix.cell_of_solverAfter_one hspread hfirst
  have hlargest : ∀ i j, first.costs.cell i j ≤ greatestCost first.costs.entries := fun i j ↦
    le_greatestCost (first.costs.mem_entries_iff.2 ⟨i, j, rfl⟩)
  have hentries : first.costs.entries ≠ [] :=
    List.ne_nil_of_mem (first.costs.mem_entries_iff.2 ⟨⟨0, hm⟩, ⟨0, hm⟩, rfl⟩)
  have hR : ∀ i j, m.grid.cell i j - m.grid.rowLeast i ≤ greatestCost first.costs.entries :=
    fun i j ↦ hcell i j ▸ hlargest i j
  refine ⟨first.costs, greatestCost first.costs.entries, ?_⟩
  exact {
    first := ⟨first, hfirst, rfl⟩
    largest := ⟨first.costs.mem_entries_iff.1 (greatestCost_mem hentries), hlargest⟩
    amount := fun k s hs hshift ↦ by
      rw [CostMatrix.shiftAmount_eq hs]
      exact (CostMatrix.sound_of_solverAfter h hspread hs).1.leastUncovered?_eq_shiftAmount hshift
    total_le_free := fun k l s hlk hs hshift hlast i j hi hj ↦ by
      rw [CostMatrix.totalShift_eq_of_le hlk hlast, hcell]
      exact CostMatrix.totalShift_le_of_shift h hspread hs hshift hi hj
    total_le := CostMatrix.totalShift_le h hspread hm hR
    exact_le := fun k s e hs he i j ↦
      ⟨CostMatrix.cell_le_exact h hspread hs he i j, CostMatrix.exact_le_two_mul h hm hR he i j⟩
    not_clamped := CostMatrix.not_clampedBefore h hspread hm hR
    clamped_pos := fun k s i j hs hclamped ↦ by
      have hpos := CostMatrix.pos_of_clampedBefore h hspread hs hclamped
      have hk : 0 < k := hclamped.elim fun l hl ↦ Nat.zero_lt_of_lt hl.1
      have hreduced := CostMatrix.reduced_of_solverAfter h hspread hk hs
      have hsound := (CostMatrix.sound_of_solverAfter h hspread hs).1
      refine ⟨hpos, fun hstar ↦ hpos.ne' ?_, fun hprime ↦ hpos.ne' ?_⟩
      · exact hreduced.star_zero i j (Solver.contains_stars_iff.1 hstar)
      · exact hsound.prime_zero (Solver.contains_primes_iff.1 hprime) }

theorem exists_shiftsBounded_nearTop :
    CostMatrix.nearTop.Over (.signed 7) ∧ 0 < CostMatrix.nearTop.size ∧
      CostMatrix.nearTop.SpreadsFit (.signed 7) ∧
      ∃ r R, CostMatrix.nearTop.ShiftsBounded (.signed 7) r R :=
  ⟨CostMatrix.over_nearTop, by decide, CostMatrix.spreadsFit_nearTop,
    exists_shiftsBounded CostMatrix.over_nearTop (by decide) CostMatrix.spreadsFit_nearTop⟩

end LinearAssignment
