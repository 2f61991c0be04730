import LinearAssignment.Proofs.Clamping

/-!
# Other costs with the same run

Two changes of the costs have a known influence on the solver.

Where all costs are multiplied by the same positive factor and each row is raised by an amount of
its own (`Grid.Rescales`), the exact solver does the same: its potentials change in the same way
(`Potentials.rescale`), and so reduced costs are only multiplied. The zeros and the place of the
least uncovered cost are the same, and the two runs are in lockstep (`Solver.Rescaled`). Solvers of
a bounded cost type are, because they are in lockstep with the exact ones; that clamping may change
a cost in one of the runs and not in the other is no matter. With the factor one, already the first
step makes the costs equal (`Solver.step_initial_congr`).

Where the columns are raised as well (`Grid.Offsets`), the runs differ. Each total is raised by all
of the amounts together, and so the same permutations are optimal.
-/

namespace LinearAssignment

variable {n : Nat} {W : CostType} {C C' : Grid n Int} {d : Int} {k l : Fin n → Int}

/-! ### Multiplied costs and raised rows -/

/-- The costs `C'` are `d` times the costs `C`, and row `i` is raised by `k i`. -/
def Grid.Rescales (d : Int) (k : Fin n → Int) (C C' : Grid n Int) : Prop :=
  ∀ i j, C'.cell i j = d * C.cell i j + k i

/-- The least cost of a row is rescaled like all others. -/
theorem Grid.Rescales.rowLeast_eq (h : C.Rescales d k C') (hd : 0 ≤ d) (i : Fin n) :
    C'.rowLeast i = d * C.rowLeast i + k i := by
  obtain ⟨j, hj⟩ := C.exists_cell_eq_rowLeast i
  obtain ⟨j', hj'⟩ := C'.exists_cell_eq_rowLeast i
  refine le_antisymm ?_ ?_
  · calc C'.rowLeast i ≤ C'.cell i j := C'.rowLeast_le i j
      _ = d * C.rowLeast i + k i := by rw [h i j, hj]
  · calc d * C.rowLeast i + k i ≤ d * C.cell i j' + k i :=
          Int.add_le_add_right (Int.mul_le_mul_of_nonneg_left (C.rowLeast_le i j') hd) _
      _ = C'.rowLeast i := by rw [← h i j', hj']

namespace Potentials

/-- The potentials for rescaled costs. -/
def rescale (d : Int) (k : Fin n → Int) (p : Potentials n) : Potentials n where
  row i := d * p.row i + k i
  column j := d * p.column j
  shifted := d * p.shifted

/-- Exact reduced costs are multiplied. -/
theorem exact_rescale (h : C.Rescales d k C') (p : Potentials n) (i j : Fin n) :
    (p.rescale d k).exact C' i j = d * p.exact C i j := by
  rw [exact, exact, rescale, h i j]
  ring

theorem lowered_rescale (h : C.Rescales d k C') (hd : 0 ≤ d) :
    (lowered C).rescale d k = lowered C' := by
  have hrow : C'.rowLeast = fun i ↦ d * C.rowLeast i + k i := funext (h.rowLeast_eq hd)
  rw [lowered, lowered, rescale, hrow]
  simp only [Int.mul_zero]

theorem shift_rescale (p : Potentials n) (m : Int) (cover : Cover n) :
    (p.shift m cover).rescale d k = (p.rescale d k).shift (d * m) cover := by
  simp only [rescale, shift, Potentials.mk.injEq]
  refine ⟨funext fun i ↦ ?_, funext fun j ↦ ?_, by ring⟩
  · split <;> ring
  · split <;> ring

end Potentials

namespace Solver

/-- The least uncovered cost is multiplied if all costs are. -/
theorem leastUncovered?_of_mul {costs costs' : Grid n Int} (hd : 0 ≤ d)
    (h : ∀ i j, costs'.cell i j = d * costs.cell i j) (cover : Cover n) :
    leastUncovered? costs' cover = (leastUncovered? costs cover).map (d * ·) := by
  cases hm : leastUncovered? costs cover with
  | none =>
    have hnone : uncoveredCosts costs cover = [] := List.min?_eq_none_iff.1 hm
    rw [Option.map_none, leastUncovered?, List.min?_eq_none_iff, List.eq_nil_iff_forall_not_mem]
    intro c hc
    obtain ⟨i, j, hi, hj, -⟩ := mem_uncoveredCosts_iff.1 hc
    have hmem := mem_uncoveredCosts_iff.2 ⟨i, j, hi, hj, (rfl : costs.cell i j = _)⟩
    exact List.not_mem_nil (hnone ▸ hmem)
  | some m =>
    obtain ⟨⟨i, j, hi, hj, hij⟩, hleast⟩ := leastUncovered?_eq_some_iff.1 hm
    rw [Option.map_some, leastUncovered?_eq_some_iff]
    refine ⟨⟨i, j, hi, hj, by rw [h, hij]⟩, fun i' j' hi' hj' ↦ ?_⟩
    rw [h]
    exact Int.mul_le_mul_of_nonneg_left (hleast i' j' hi' hj') hd

/-- Exact solvers for costs and for rescaled costs, with the same marks and rescaled
potentials. -/
structure Rescaled (d : Int) (k : Fin n → Int) (C C' : Grid n Int) (p : Potentials n)
    (s e : Solver n) : Prop where
  sound : Sound .unbounded C p s
  sound_rescaled : Sound .unbounded C' (p.rescale d k) e
  same : SameMarks s e

namespace Rescaled

variable {p : Potentials n} {s e : Solver n}

/-- Once the rows are lowered, costs are multiplied. -/
theorem cell_eq (h : Rescaled d k C C' p s e) (hC : C.Rescales d k C') (hs : s.phase ≠ .reduce)
    (i j : Fin n) : e.costs.cell i j = d * s.costs.cell i j := by
  rw [(h.sound.reduced hs).cell_eq_exact,
    (h.sound_rescaled.reduced (h.same.phase_eq ▸ hs)).cell_eq_exact, Grid.cell_ofFn,
    Grid.cell_ofFn, Potentials.exact_rescale hC]

/-- So they have the same zeros. -/
theorem sameZeros (h : Rescaled d k C C' p s e) (hC : C.Rescales d k C') (hd : 1 ≤ d)
    (hs : s.phase ≠ .reduce) : s.costs.SameZeros e.costs := fun i j ↦ by
  have hne : d ≠ 0 := by omega
  rw [h.cell_eq hC hs, mul_eq_zero, or_iff_right hne]

/-- A step rescales the potentials that it leads to. -/
theorem next_eq (h : Rescaled d k C C' p s e) (hC : C.Rescales d k C') (hd : 1 ≤ d) :
    (p.rescale d k).next e = (p.next s).rescale d k := by
  have hnonneg : 0 ≤ d := by omega
  have hphase := h.same.phase_eq
  by_cases hreduce : s.phase = .reduce
  · rw [p.next_of_reduce hreduce, Potentials.next_of_reduce _ (hphase.trans hreduce),
      h.sound.unchanged hreduce, h.sound_rescaled.unchanged (hphase.trans hreduce),
      Potentials.lowered_rescale hC hnonneg]
  · by_cases hshift : s.phase = .shift
    · obtain ⟨m, hm, -⟩ := h.sound.exists_advance_shift hshift
      have hm' : leastUncovered? e.costs e.cover = some (d * m) := by
        rw [h.same.cover_eq, leastUncovered?_of_mul hnonneg (h.cell_eq hC hreduce), hm,
          Option.map_some]
      rw [p.next_of_shift hshift hm, Potentials.next_of_shift _ (hphase.trans hshift) hm',
        Potentials.shift_rescale, h.same.cover_eq]
    · rw [p.next_eq_self hreduce hshift,
        Potentials.next_eq_self _ (hphase ▸ hreduce) (hphase ▸ hshift)]

/-- Both solvers take a step, and are related as before after it. -/
theorem exists_step (h : Rescaled d k C C' p s e) (hC : C.Rescales d k C') (hd : 1 ≤ d)
    (hn : 0 < n) (hword : stepBound n < Word.bound) :
    ∃ s' e', s.step .unbounded = .ok s' ∧ e.step .unbounded = .ok e' ∧
      Rescaled d k C C' (p.next s) s' e' := by
  obtain ⟨s', hs, hsound⟩ := h.sound.exists_step hn hword
    fun _ _ ↦ CostType.atMost_unbounded _
  obtain ⟨e', he, hsound'⟩ := h.sound_rescaled.exists_step hn hword
    fun _ _ ↦ CostType.atMost_unbounded _
  exact ⟨s', e', hs, he, hsound, h.next_eq hC hd ▸ hsound',
    h.same.step (h.sameZeros hC hd) hs he⟩

end Rescaled

end Solver

namespace CostMatrix

/-- The exact runs for costs and for rescaled costs are in lockstep. -/
theorem exists_rescaled (hC : C.Rescales d k C') (hd : 1 ≤ d) (hn : 0 < n)
    (hword : Solver.stepBound n < Word.bound) (t : Nat) :
    ∃ p s e, (CostMatrix.mk n C).solverAfter .unbounded t = .ok s ∧
      (CostMatrix.mk n C').solverAfter .unbounded t = .ok e ∧
      Solver.Rescaled d k C C' p s e := by
  induction t with
  | zero =>
    have hinitial : ∀ G : Grid n Int,
        (CostMatrix.mk n G).solverAfter .unbounded 0 = .ok (.initial G) := fun _ ↦
      solverAfter_eq_afterSteps hn .unbounded 0
    -- nothing is lowered yet, so potentials do not matter
    have hsound := Solver.sound_initial .unbounded C'
    exact ⟨.zero n, _, _, hinitial C, hinitial C', Solver.sound_initial .unbounded C,
      ⟨hsound.consistent, hsound.counted, hsound.marked, hsound.unchanged, fun h ↦ absurd rfl h,
        hsound.steps_lt⟩, ⟨rfl, rfl, rfl, rfl, rfl⟩⟩
  | succ t ih =>
    obtain ⟨p, s, e, hs, he, h⟩ := ih
    obtain ⟨s', e', hstep, hstep', h'⟩ := h.exists_step hC hd hn hword
    exact ⟨p.next s, s', e', (solverAfter_succ hs).trans hstep, (solverAfter_succ he).trans hstep',
      h'⟩

/-- So are the runs at a bounded cost type, which are in lockstep with the exact ones. -/
theorem exists_sameMarks_of_rescales (hC : C.Rescales d k C') (hd : 1 ≤ d) (hn : 0 < n)
    (hword : Solver.stepBound n < Word.bound) (hspread : C.SpreadsFit W)
    (hspread' : C'.SpreadsFit W) (t : Nat) :
    ∃ s s', (CostMatrix.mk n C).solverAfter W t = .ok s ∧
      (CostMatrix.mk n C').solverAfter W t = .ok s' ∧ s.SameMarks s' := by
  obtain ⟨p, s, e, hs, he, h, -⟩ := exists_twin (m := ⟨n, C⟩) hn hword hspread t
  obtain ⟨p', s', e', hs', he', h', -⟩ := exists_twin (m := ⟨n, C'⟩) hn hword hspread' t
  obtain ⟨q, f, f', hf, hf', hsame⟩ := exists_rescaled hC hd hn hword t
  obtain rfl := Except.ok.inj (he.symm.trans hf)
  obtain rfl := Except.ok.inj (he'.symm.trans hf')
  exact ⟨s, s', hs, hs', (h.same.trans hsame.same).trans h'.same.symm⟩

end CostMatrix

/-! ### Raised rows alone -/

namespace Solver

/-- Where rows are raised, the first step leads to the same state. -/
theorem step_initial_congr (hC : C.Rescales 1 k C') (hspread : C.SpreadsFit W)
    (hspread' : C'.SpreadsFit W) : (initial C').step W = (initial C).step W := by
  have hlowered : (Grid.ofFn fun i j ↦ C'.cell i j - C'.rowLeast i) =
      Grid.ofFn fun i j ↦ C.cell i j - C.rowLeast i := Grid.ext_cell fun i j ↦ by
    rw [Grid.cell_ofFn, Grid.cell_ofFn, hC i j, hC.rowLeast_eq Int.one_nonneg]
    omega
  rw [step_initial hspread, step_initial hspread', hlowered]
  rfl

end Solver

/-- Where rows are raised, all states after the first step are the same. -/
theorem CostMatrix.solverAfter_congr (hC : C.Rescales 1 k C') (hn : 0 < n)
    (hspread : C.SpreadsFit W) (hspread' : C'.SpreadsFit W) {t : Nat} (ht : 1 ≤ t) :
    (CostMatrix.mk n C').solverAfter W t = (CostMatrix.mk n C).solverAfter W t := by
  obtain ⟨t, rfl⟩ := Nat.exists_eq_add_of_le' ht
  rw [solverAfter_eq_afterSteps hn, solverAfter_eq_afterSteps hn, Solver.afterSteps_succ,
    Solver.afterSteps_succ, Solver.step_initial_congr hC hspread hspread']

/-! ### Solutions of runs in lockstep -/

/-- A solution that is asked for after some steps lists the stars after all further steps. -/
theorem CostMatrix.solverAfter_of_solveInto {m : CostMatrix Int} {t : Nat} {s e : Solver m.size}
    {buffer answer : List Nat} (hs : m.solverAfter W t = .ok s)
    (h : s.solveInto W buffer = .ok (e, answer)) :
    m.solverAfter W (t + Solver.stepBound m.size) = .ok e ∧ e.starredColumns = .ok answer := by
  obtain ⟨hsteps, hcolumns⟩ := Solver.afterSteps_of_solveInto h
  obtain ⟨s₀, hs₀, hs⟩ := Checked.bind_eq_ok_iff.1 hs
  refine ⟨?_, hcolumns⟩
  rw [CostMatrix.solverAfter, hs₀, Checked.ok_bind, Solver.afterSteps_add, hs, Checked.ok_bind,
    hsteps]

/-- Runs in lockstep give the same solution, after however many steps it is asked for. -/
theorem CostMatrix.exists_solveInto_of_rescales (hC : C.Rescales d k C') (hd : 1 ≤ d) (hn : 0 < n)
    (hword : Solver.stepBound n < Word.bound) (hspread : C.SpreadsFit W)
    (hspread' : C'.SpreadsFit W) {t : Nat} {s s' : Solver n}
    (hs : (CostMatrix.mk n C).solverAfter W t = .ok s)
    (hs' : (CostMatrix.mk n C').solverAfter W t = .ok s') {buffer : List Nat}
    (hbuffer : buffer.length = n) :
    ∃ e e' answer, s.solveInto W buffer = .ok (e, answer) ∧
      s'.solveInto W buffer = .ok (e', answer) := by
  obtain ⟨p, s₁, f, hs₁, -, h, -⟩ := exists_twin (m := ⟨n, C⟩) hn hword hspread t
  obtain ⟨p', s₁', f', hs₁', -, h', -⟩ := exists_twin (m := ⟨n, C'⟩) hn hword hspread' t
  obtain rfl := Except.ok.inj (hs.symm.trans hs₁)
  obtain rfl := Except.ok.inj (hs'.symm.trans hs₁')
  obtain ⟨e, q, σ, hsolve, -⟩ := h.sound.exists_solveInto hn hword (fun _ ↦ hspread) hbuffer
  obtain ⟨e', q', σ', hsolve', -⟩ := h'.sound.exists_solveInto hn hword (fun _ ↦ hspread') hbuffer
  obtain ⟨he, hcolumns⟩ := solverAfter_of_solveInto hs hsolve
  obtain ⟨he', hcolumns'⟩ := solverAfter_of_solveInto hs' hsolve'
  -- both solutions are read off the stars after equally many steps
  obtain ⟨f, f', hf, hf', hsame⟩ := exists_sameMarks_of_rescales hC hd hn hword hspread hspread'
    (t + Solver.stepBound n)
  obtain rfl := Except.ok.inj (he.symm.trans hf)
  obtain rfl := Except.ok.inj (he'.symm.trans hf')
  rw [Solver.starredColumns, hsame.stars_eq] at hcolumns'
  have hanswer := Except.ok.inj (hcolumns'.symm.trans hcolumns)
  exact ⟨e, e', _, hsolve, hanswer ▸ hsolve'⟩

/-! ### Raised columns -/

/-- The costs `C'` are the costs `C` with row `i` raised by `k i` and column `j` by `l j`. -/
def Grid.Offsets (k l : Fin n → Int) (C C' : Grid n Int) : Prop :=
  ∀ i j, C'.cell i j = C.cell i j + k i + l j

/-- No permutation has a smaller exact total. -/
def CostMatrix.IsOptimal (m : CostMatrix Int) (σ : Equiv.Perm (Fin m.size)) : Prop :=
  ∀ τ : Equiv.Perm (Fin m.size), m.exactTotal σ ≤ m.exactTotal τ

namespace Grid.Offsets

/-- Every total is raised by all of the amounts. -/
theorem exactTotal_eq (h : C.Offsets k l C') (τ : Equiv.Perm (Fin n)) :
    (CostMatrix.mk n C').exactTotal τ =
      (CostMatrix.mk n C).exactTotal τ + (∑ i, k i + ∑ j, l j) :=
  calc ∑ i, C'.cell i (τ i)
      = ∑ i, (C.cell i (τ i) + k i + l (τ i)) := Finset.sum_congr rfl fun i _ ↦ h i (τ i)
    _ = ∑ i, C.cell i (τ i) + ∑ i, k i + ∑ i, l (τ i) := by
      rw [Finset.sum_add_distrib, Finset.sum_add_distrib]
    _ = ∑ i, C.cell i (τ i) + ∑ i, k i + ∑ j, l j := by rw [Equiv.sum_comp τ l]
    _ = ∑ i, C.cell i (τ i) + (∑ i, k i + ∑ j, l j) := Int.add_assoc _ _ _

/-- So the same permutations are optimal. -/
theorem isOptimal_iff (h : C.Offsets k l C') (σ : Equiv.Perm (Fin n)) :
    (CostMatrix.mk n C').IsOptimal σ ↔ (CostMatrix.mk n C).IsOptimal σ := by
  refine forall_congr' fun τ ↦ ?_
  rw [h.exactTotal_eq, h.exactTotal_eq]
  exact Int.add_le_add_iff_right _

end Grid.Offsets

/-- **Costs with the same answers.** Where all costs are multiplied by a positive factor and rows
are raised, a run goes through the same phases and marks, and gives the same solution whenever it is
asked for; if rows are raised only, it has the same costs from the first step on. Where columns are
raised as well, the answers for either matrix are optimal for the other, and the least total is
raised by all of the amounts. -/
theorem exists_sameMarks_of_rescales_and_isOptimal_of_offsets (h : (CostMatrix.mk n C).Over W)
    (h' : (CostMatrix.mk n C').Over W) (hn : 0 < n) (hspread : C.SpreadsFit W)
    (hspread' : C'.SpreadsFit W) :
    (∀ d k, 1 ≤ d → C.Rescales d k C' →
      (∀ t, ∃ s s', (CostMatrix.mk n C).solverAfter W t = .ok s ∧
        (CostMatrix.mk n C').solverAfter W t = .ok s' ∧ s.SameMarks s' ∧
        (d = 1 → 1 ≤ t → s'.costs = s.costs) ∧
        ∀ buffer, buffer.length = n → ∃ e e' answer, s.solveInto W buffer = .ok (e, answer) ∧
          s'.solveInto W buffer = .ok (e', answer)) ∧
      ∃ answer, assign W ⟨n, C⟩ = .ok answer ∧ assign W ⟨n, C'⟩ = .ok answer) ∧
    ∀ k l, C.Offsets k l C' → ∃ σ σ' : Equiv.Perm (Fin n),
      assign W ⟨n, C⟩ = .ok (List.ofFn fun i ↦ (σ i).val) ∧
      assign W ⟨n, C'⟩ = .ok (List.ofFn fun i ↦ (σ' i).val) ∧
      (CostMatrix.mk n C).IsOptimal σ ∧ (CostMatrix.mk n C').IsOptimal σ ∧
      (CostMatrix.mk n C).IsOptimal σ' ∧ (CostMatrix.mk n C').IsOptimal σ' ∧
      (CostMatrix.mk n C').exactTotal σ' =
        (CostMatrix.mk n C).exactTotal σ + (∑ i, k i + ∑ j, l j) := by
  have hword := Solver.stepBound_lt h.length_lt
  obtain ⟨σ, hσ, hoptimal⟩ := exists_assign_of_pos h hspread hn
  obtain ⟨σ', hσ', hoptimal'⟩ := exists_assign_of_pos h' hspread' hn
  constructor
  · intro d k hd hC
    have hlockstep := CostMatrix.exists_sameMarks_of_rescales hC hd hn hword hspread hspread'
    refine ⟨fun t ↦ ?_, _, hσ, ?_⟩
    · obtain ⟨s, s', hs, hs', hsame⟩ := hlockstep t
      refine ⟨s, s', hs, hs', hsame, ?_, fun buffer ↦
        CostMatrix.exists_solveInto_of_rescales hC hd hn hword hspread hspread' hs hs'⟩
      rintro rfl ht
      have heq := CostMatrix.solverAfter_congr hC hn hspread hspread' ht
      rw [hs, hs'] at heq
      rw [Except.ok.inj heq]
    · rw [hσ', assign_eq_of_sameMarks hn (hlockstep _) hσ hσ']
  · intro k l hC
    have hiff := hC.isOptimal_iff
    refine ⟨σ, σ', hσ, hσ', hoptimal, (hiff σ).2 hoptimal, (hiff σ').1 hoptimal', hoptimal', ?_⟩
    -- both permutations are optimal for either matrix, so they have the same total
    rw [hC.exactTotal_eq, le_antisymm ((hiff σ').1 hoptimal' σ) (hoptimal σ')]

/-- Costs with seven bits besides the sign, of which a third of the largest spread is used. -/
def Grid.narrow : Grid 3 Int :=
  #v[#v[42, 42, 0], #v[41, 1, 0], #v[1, 0, 42]]

/-- The same costs multiplied by three, with the first two rows lowered into the type. A run has to
clamp one of their reduced costs. -/
def Grid.tripled : Grid 3 Int :=
  #v[#v[-2, -2, -128], #v[-5, -125, -128], #v[3, 0, 126]]

/-- The same costs with rows and columns raised and lowered. -/
def Grid.tilted : Grid 3 Int :=
  #v[#v[43, 40, 6], #v[39, -4, 3], #v[1, -3, 47]]

theorem exists_sameMarks_of_rescales_and_isOptimal_of_offsets_narrow :
    (CostMatrix.mk 3 Grid.narrow).Over (.signed 7) ∧
      (CostMatrix.mk 3 Grid.tripled).Over (.signed 7) ∧
      (CostMatrix.mk 3 Grid.tilted).Over (.signed 7) ∧ 0 < 3 ∧
      Grid.narrow.SpreadsFit (.signed 7) ∧ Grid.tripled.SpreadsFit (.signed 7) ∧
      Grid.tilted.SpreadsFit (.signed 7) ∧
      Grid.narrow.Rescales 3 (Table.entry #v[-128, -128, 0]) Grid.tripled ∧
      Grid.narrow.Offsets (Table.entry #v[1, -2, 0]) (Table.entry #v[0, -3, 5]) Grid.tilted ∧
      (∃ s s', (CostMatrix.mk 3 Grid.narrow).solverAfter (.signed 7) 8 = .ok s ∧
        (CostMatrix.mk 3 Grid.tripled).solverAfter (.signed 7) 8 = .ok s' ∧ s.SameMarks s') ∧
      (∃ answer, assign (.signed 7) ⟨3, Grid.narrow⟩ = .ok answer ∧
        assign (.signed 7) ⟨3, Grid.tripled⟩ = .ok answer) ∧
      ∃ σ σ' : Equiv.Perm (Fin 3),
        assign (.signed 7) ⟨3, Grid.tilted⟩ = .ok (List.ofFn fun i ↦ (σ' i).val) ∧
        (CostMatrix.mk 3 Grid.tilted).IsOptimal σ' ∧ (CostMatrix.mk 3 Grid.narrow).IsOptimal σ' ∧
        (CostMatrix.mk 3 Grid.tilted).exactTotal σ' =
          (CostMatrix.mk 3 Grid.narrow).exactTotal σ + 1 := by
  have hnarrow : (CostMatrix.mk 3 Grid.narrow).Over (.signed 7) := ⟨by decide, by decide⟩
  have htripled : (CostMatrix.mk 3 Grid.tripled).Over (.signed 7) := ⟨by decide, by decide⟩
  have htilted : (CostMatrix.mk 3 Grid.tilted).Over (.signed 7) := ⟨by decide, by decide⟩
  have hspread : Grid.narrow.SpreadsFit (.signed 7) := by decide
  have hspread₁ : Grid.tripled.SpreadsFit (.signed 7) := by decide
  have hspread₂ : Grid.tilted.SpreadsFit (.signed 7) := by decide
  have hrescales : Grid.narrow.Rescales 3 (Table.entry #v[-128, -128, 0]) Grid.tripled := by
    unfold Grid.Rescales
    decide
  have hoffsets : Grid.narrow.Offsets (Table.entry #v[1, -2, 0]) (Table.entry #v[0, -3, 5])
      Grid.tilted := by
    unfold Grid.Offsets
    decide
  obtain ⟨hruns, hanswer⟩ := (exists_sameMarks_of_rescales_and_isOptimal_of_offsets hnarrow
    htripled (by decide) hspread hspread₁).1 3 _ (by decide) hrescales
  obtain ⟨s, s', hs, hs', hsame, -⟩ := hruns 8
  obtain ⟨σ, σ', -, hσ', -, -, hoptimal, hoptimal', htotal⟩ :=
    (exists_sameMarks_of_rescales_and_isOptimal_of_offsets hnarrow htilted (by decide) hspread
      hspread₂).2 _ _ hoffsets
  exact ⟨hnarrow, htripled, htilted, by decide, hspread, hspread₁, hspread₂, hrescales, hoffsets,
    ⟨s, s', hs, hs', hsame⟩, hanswer, σ, σ', hσ', hoptimal', hoptimal, htotal⟩

-- three times the last cost does not fit seven bits
example : ((CostMatrix.mk 3 Grid.narrow).solverAfter (.signed 7) 7).map (·.costs.entries) =
    .ok [40, 41, 0, 39, 0, 0, 0, 0, 43] := by
  cbv

example : ((CostMatrix.mk 3 Grid.tripled).solverAfter (.signed 7) 7).map (·.costs.entries) =
    .ok [120, 123, 0, 117, 0, 0, 0, 0, 127] := by
  cbv

end LinearAssignment
