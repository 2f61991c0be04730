import LinearAssignment.Proofs.Marks
import LinearAssignment.Proofs.Optimality

/-!
# The dual certificate of a run

The potentials that the costs of a solver are reduced by are the solution of a dual problem: they
leave no cost negative, so all of them together are a lower bound for the total of every
permutation. `CostMatrix.potentialsAfter` follows them along a run, and `CostMatrix.Certificate`
says what they certify after each number of steps.

Only a shift changes them once the rows have been lowered. It takes its amount from the covered
rows and gives it to the columns that are not covered. There are as many covered rows and columns
together as there are stars (`Searching.card_rowSet_add_card_columnSet`), so the sum of all
potentials grows by the amount once for each star that is missing (`Potentials.total_shift`).
-/

namespace LinearAssignment

variable {n : Nat}

namespace Potentials

/-- The potentials of the columns lie between zero and the total of all shifts. -/
def Bounded (p : Potentials n) : Prop :=
  ∀ j, 0 ≤ p.column j ∧ p.column j ≤ p.shifted

theorem bounded_zero (n : Nat) : (zero n).Bounded :=
  fun _ ↦ ⟨le_rfl, le_rfl⟩

theorem bounded_lowered (C : Grid n Int) : (lowered C).Bounded :=
  fun _ ↦ ⟨le_rfl, le_rfl⟩

/-- A shift raises the potential of a column by its amount or not at all. -/
theorem Bounded.shift {p : Potentials n} (h : p.Bounded) {m : Int} (hm : 0 ≤ m)
    (cover : Cover n) : (p.shift m cover).Bounded := fun j ↦ by
  have hj := h j
  simp only [Potentials.shift]
  split <;> omega

/-- The sum of all potentials. -/
def total (p : Potentials n) : Int :=
  ∑ i, p.row i + ∑ j, p.column j

/-- A shift adds its amount once for each column that is not covered, and takes it away once for
each covered row. -/
theorem total_shift (p : Potentials n) (m : Int) (cover : Cover n) :
    (p.shift m cover).total =
      p.total + m * ((n : Int) - (cover.rowSet.card + cover.columnSet.card : Nat)) := by
  have hsum : ∀ t : Table n Bool, ∑ i, (if t.entry i = true then m else 0) =
      (Finset.univ.filter fun i ↦ t.entry i = true).card * m := fun t ↦ by
    rw [← Finset.sum_filter, Finset.sum_const, nsmul_eq_mul]
  have hrow : ∑ i, (p.shift m cover).row i = ∑ i, p.row i - cover.rowSet.card * m := by
    have hcell : ∀ i, (p.shift m cover).row i =
        p.row i - if cover.rows.entry i = true then m else 0 := fun i ↦ by
      simp only [shift]
      split <;> simp
    rw [Finset.sum_congr rfl fun i _ ↦ hcell i, Finset.sum_sub_distrib, hsum, Cover.rowSet]
  have hcolumn : ∑ j, (p.shift m cover).column j =
      ∑ j, p.column j + (n * m - cover.columnSet.card * m) := by
    have hcell : ∀ j, (p.shift m cover).column j =
        p.column j + (m - if cover.columns.entry j = true then m else 0) := fun j ↦ by
      simp only [shift]
      split <;> simp
    rw [Finset.sum_congr rfl fun j _ ↦ hcell j, Finset.sum_add_distrib, Finset.sum_sub_distrib,
      hsum, Finset.sum_const, Finset.card_univ, Fintype.card_fin, nsmul_eq_mul, Cover.columnSet]
  rw [total, total, hrow, hcolumn]
  push_cast
  ring

end Potentials

namespace Solver

/-- What potentials `u` of the rows and `v` of the columns certify about a state of a solver for
the costs `C`. -/
structure CertifiedBy (C : Grid n Int) (u v : Fin n → Int) (s : Solver n) : Prop where
  /-- Stored costs are not negative. -/
  cost_nonneg : ∀ i j, 0 ≤ s.costs.cell i j
  /-- Stored costs are at most what the potentials leave of the given ones. -/
  cost_le : ∀ i j, s.costs.cell i j ≤ C.cell i j - u i - v j
  /-- Where a stored cost is zero, the potentials make up for the whole cost. -/
  zero_tight : ∀ i j, s.costs.cell i j = 0 → C.cell i j = u i + v j
  /-- So they do at stars and primes. -/
  mark_tight : ∀ i j, s.stars.contains i j ∨ s.primes.contains i j → C.cell i j = u i + v j
  /-- The potentials of columns are not negative. -/
  column_nonneg : ∀ j, 0 ≤ v j
  /-- A column without a star has the largest of them. -/
  column_free : ∀ j, (∀ i, ¬ s.stars.contains i j) → ∀ k, v k ≤ v j

namespace Sound

variable {W : CostType} {C : Grid n Int} {p : Potentials n} {s s' : Solver n}

/-- The potentials of a sound state certify it. -/
theorem certifiedBy (h : Sound W C p s) (hp : p.Bounded) (hs : s.phase ≠ .reduce) :
    s.CertifiedBy C p.row p.column := by
  have hreduced := h.reduced hs
  have htight : ∀ i j, s.costs.cell i j = 0 → C.cell i j = p.row i + p.column j := by
    intro i j hij
    have hexact := (hreduced.cell_eq_zero_iff i j).1 hij
    rw [Potentials.exact] at hexact
    omega
  refine ⟨hreduced.nonneg, hreduced.le_exact, htight, fun i j hij ↦ htight i j ?_,
    fun j ↦ (hp j).1, fun j hj k ↦ ?_⟩
  · rcases hij with hstar | hprime
    · exact hreduced.star_zero i j (contains_stars_iff.1 hstar)
    · exact h.prime_zero (contains_primes_iff.1 hprime)
  · have hfree : s.stars.rowOf.entry j = none := h.consistent.rowOf_eq_none_iff.2 fun i hij ↦
      hj i (contains_stars_iff.2 hij)
    rw [hreduced.column_free j hfree]
    exact (hp k).2

/-- In a shift there is a positive amount, and the potentials change by it. -/
theorem exists_shift (h : Sound W C p s) (hs : s.phase = .shift) :
    ∃ m, leastUncovered? s.costs s.cover = some m ∧ 1 ≤ m ∧ p.next s = p.shift m s.cover ∧
      (p.next s).total = p.total + m * ((n : Int) - s.stars.size) := by
  obtain ⟨hsearch, -⟩ := h.searching.1 (.inr hs)
  obtain ⟨m, hm, hpos, -⟩ := h.exists_advance_shift hs
  have hnext := p.next_of_shift hs hm
  refine ⟨m, hm, hpos, hnext, ?_⟩
  rw [hnext, Potentials.total_shift, hsearch.card_rowSet_add_card_columnSet h.consistent]

/-- A step keeps the potentials of the columns in their bounds. -/
theorem bounded_next (h : Sound W C p s) (hp : p.Bounded) : (p.next s).Bounded := by
  by_cases hreduce : s.phase = .reduce
  · rw [p.next_of_reduce hreduce]
    exact Potentials.bounded_lowered s.costs
  · by_cases hshift : s.phase = .shift
    · obtain ⟨m, -, hm, hnext, -⟩ := h.exists_shift hshift
      rw [hnext]
      exact hp.shift (by omega) s.cover
    · rwa [p.next_eq_self hreduce hshift]

end Sound

/-- In a solved state, the assignment lists the columns that a permutation gives. -/
theorem assignment_eq_some {s : Solver n} (hdone : s.phase = .done) {σ : Fin n → Fin n}
    (hσ : ∀ i, s.stars.columnOf.entry i = some (σ i)) :
    s.assignment = some (List.ofFn fun i ↦ (σ i).val) := by
  have hisDone : s.isDone = true := beq_iff_eq.2 hdone
  have hcolumn : ((fun j ↦ j.map Fin.val) ∘ s.stars.columnOf.entry) =
      fun i ↦ (pure (σ i).val : Option Nat) := funext fun i ↦ by
    rw [Function.comp_apply, hσ]
    rfl
  rw [assignment, if_pos hisDone, Table.toList_eq_map_entry, List.ofFn_eq_map, List.mapM_map,
    hcolumn, List.mapM_pure]
  rfl

end Solver

namespace CostMatrix

variable {W : CostType} {m : CostMatrix Int}

/-- The potentials after `k` steps of a new solver for the matrix. -/
def potentialsAfter (W : CostType) (m : CostMatrix Int) : Nat → Potentials m.size
  | 0 => .zero m.size
  | k + 1 =>
    match m.solverAfter W k with
    | .ok s => (m.potentialsAfter W k).next s
    | .error _ => m.potentialsAfter W k

theorem potentialsAfter_succ {k : Nat} {s : Solver m.size} (h : m.solverAfter W k = .ok s) :
    m.potentialsAfter W (k + 1) = (m.potentialsAfter W k).next s := by
  rw [potentialsAfter, h]

/-- Every state of a run is sound with the potentials of its step. -/
theorem exists_sound (hm : 0 < m.size) (hword : Solver.stepBound m.size < Word.bound)
    (hspread : m.SpreadsFit W) (k : Nat) :
    ∃ s, m.solverAfter W k = .ok s ∧ Solver.Sound W m.grid (m.potentialsAfter W k) s ∧
      (m.potentialsAfter W k).Bounded := by
  induction k with
  | zero =>
    exact ⟨.initial m.grid, solverAfter_eq_afterSteps hm W 0, Solver.sound_initial W m.grid,
      Potentials.bounded_zero m.size⟩
  | succ k ih =>
    obtain ⟨s, hs, h, hbounded⟩ := ih
    obtain ⟨s', hstep, h'⟩ := h.exists_step hm hword fun _ ↦ hspread
    rw [potentialsAfter_succ hs]
    exact ⟨s', (solverAfter_succ hs).trans hstep, h', h.bounded_next hbounded⟩

/-- A state of a run is sound with the potentials of its step. -/
theorem sound_of_solverAfter (h : m.Over W) (hspread : m.SpreadsFit W) {k : Nat}
    {s : Solver m.size} (hs : m.solverAfter W k = .ok s) :
    Solver.Sound W m.grid (m.potentialsAfter W k) s ∧ (m.potentialsAfter W k).Bounded := by
  obtain ⟨s', hs', hsound⟩ :=
    exists_sound (size_pos_of_solverAfter hs) (Solver.stepBound_lt h.length_lt) hspread k
  obtain rfl := Except.ok.inj (hs.symm.trans hs')
  exact hsound

/-- Potentials `u k` of the rows and `v k` of the columns after each number `k` of steps certify a
run for the matrix. -/
structure Certificate (W : CostType) (m : CostMatrix Int)
    (u v : Nat → Fin m.size → Int) : Prop where
  /-- There is a state after any number of steps. -/
  exists_state : ∀ k, ∃ s, m.solverAfter W k = .ok s
  /-- Once the rows are lowered, the potentials certify the state. -/
  certified : ∀ k s, m.solverAfter W k = .ok s → s.phase ≠ .reduce →
    s.CertifiedBy m.grid (u k) (v k)
  /-- A shift by `a` raises the sum of all potentials by `a` for each star that is missing. -/
  shift : ∀ k s, m.solverAfter W k = .ok s → s.phase = .shift →
    ∃ a, Solver.leastUncovered? s.costs s.cover = some a ∧ 1 ≤ a ∧
      ∑ i, u (k + 1) i + ∑ j, v (k + 1) j =
        ∑ i, u k i + ∑ j, v k j + a * ((m.size : Int) - s.stars.size)
  /-- Once the rows are lowered, nothing but a shift changes the potentials. -/
  kept : ∀ k s, m.solverAfter W k = .ok s → s.phase ≠ .reduce → s.phase ≠ .shift →
    u (k + 1) = u k ∧ v (k + 1) = v k
  /-- When the problem is solved, the assignment costs the sum of all potentials, and no permutation
  costs less. -/
  optimal : ∀ k s, m.solverAfter W k = .ok s → s.phase = .done →
    ∃ σ : Equiv.Perm (Fin m.size), s.assignment = some (List.ofFn fun i ↦ (σ i).val) ∧
      m.exactTotal σ = ∑ i, u k i + ∑ j, v k j ∧
      ∀ τ : Equiv.Perm (Fin m.size), ∑ i, u k i + ∑ j, v k j ≤ m.exactTotal τ

end CostMatrix

/-- **Dual certificate.** For every matrix with a row whose spreads fit, potentials can be chosen
along the run that certify each of its states, and the optimality of the last one. -/
theorem exists_certificate {W : CostType} {m : CostMatrix Int} (h : m.Over W) (hm : 0 < m.size)
    (hspread : m.SpreadsFit W) : ∃ u v, m.Certificate W u v := by
  have hsound : ∀ k s, m.solverAfter W k = .ok s →
      Solver.Sound W m.grid (m.potentialsAfter W k) s ∧ (m.potentialsAfter W k).Bounded :=
    fun _ _ hs ↦ CostMatrix.sound_of_solverAfter h hspread hs
  refine ⟨fun k ↦ (m.potentialsAfter W k).row, fun k ↦ (m.potentialsAfter W k).column, ?_⟩
  exact {
    exists_state := CostMatrix.exists_solverAfter h hm hspread
    certified := fun k s hs hphase ↦ (hsound k s hs).1.certifiedBy (hsound k s hs).2 hphase
    shift := fun k s hs hphase ↦ by
      obtain ⟨a, ha, hpos, -, htotal⟩ := (hsound k s hs).1.exists_shift hphase
      rw [CostMatrix.potentialsAfter_succ hs]
      exact ⟨a, ha, hpos, htotal⟩
    kept := fun k s hs hreduce hshift ↦ by
      rw [CostMatrix.potentialsAfter_succ hs, Potentials.next_eq_self _ hreduce hshift]
      exact ⟨rfl, rfl⟩
    optimal := fun k s hs hdone ↦ by
      have hs' := (hsound k s hs).1
      obtain ⟨σ, hσ⟩ := hs'.exists_perm hdone
      have hreduced := hs'.reduced (by simp [hdone])
      exact ⟨σ, Solver.assignment_eq_some hdone hσ, hreduced.sum_potentials_eq hσ,
        hreduced.sum_potentials_le⟩ }

theorem exists_certificate_nearTop :
    CostMatrix.nearTop.Over (.signed 7) ∧ 0 < CostMatrix.nearTop.size ∧
      CostMatrix.nearTop.SpreadsFit (.signed 7) ∧
      ∃ u v, CostMatrix.nearTop.Certificate (.signed 7) u v :=
  ⟨CostMatrix.over_nearTop, by decide, CostMatrix.spreadsFit_nearTop,
    exists_certificate CostMatrix.over_nearTop (by decide) CostMatrix.spreadsFit_nearTop⟩

end LinearAssignment
