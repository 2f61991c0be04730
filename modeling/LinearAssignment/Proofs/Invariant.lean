import LinearAssignment.Proofs.Augmentation
import LinearAssignment.Proofs.Greedy
import LinearAssignment.Proofs.Shift
import LinearAssignment.Proofs.Transitions
import LinearAssignment.Solver.Run
import Mathlib.Tactic.Ring

/-!
# The invariant of the solver

`Solver.Sound` is what holds in every state of a solver: the stars are a matching and the count of
covered columns is right, the marks are those of the phase (`Solver.Marked`), the stored costs are
related to the given ones through potentials (`Reduced`), and the number of steps is below a limit
that is read off the phase and the marks (`Solver.limit`).

The limit counts rounds. With `k` stars at most `k` shifts are made before the next augmentation,
because each of them is followed by the priming of one more starred row, and because the last
starred row cannot be among them: a row without a star keeps a zero, which would be uncovered
(`Searching.card_rowSet_lt`).

For each phase there is one lemma that says what its work gives in a sound state
(`Sound.advance_reduce`, `Sound.exists_advance_star` and so on), and one that the step leads to a
sound state again. `Sound.exists_step` is the sum of the latter: a step faults only if it lowers
rows whose spreads do not fit.
-/

namespace LinearAssignment

variable {n : Nat}

/-- The potentials after a step. -/
def Potentials.next (p : Potentials n) (s : Solver n) : Potentials n :=
  match s.phase with
  | .reduce => .lowered s.costs
  | .shift => p.shift ((Solver.leastUncovered? s.costs s.cover).getD 0) s.cover
  | _ => p

namespace Potentials

variable {s : Solver n}

theorem next_of_reduce (p : Potentials n) (hs : s.phase = .reduce) :
    p.next s = .lowered s.costs := by
  simp only [next, hs]

theorem next_of_shift (p : Potentials n) {m : Int} (hs : s.phase = .shift)
    (hm : Solver.leastUncovered? s.costs s.cover = some m) : p.next s = p.shift m s.cover := by
  simp only [next, hs, hm, Option.getD_some]

/-- A step that neither lowers rows nor shifts keeps the potentials. -/
theorem next_eq_self (p : Potentials n) (hreduce : s.phase ≠ .reduce)
    (hshift : s.phase ≠ .shift) : p.next s = p := by
  rw [next]
  split
  · exact absurd ‹_› hreduce
  · exact absurd ‹_› hshift
  · rfl

end Potentials

namespace Solver

/-- How the marks are related to each other in each phase. -/
def Marked (s : Solver n) : Prop :=
  match s.phase with
  | .reduce | .star => s.stars = .empty n ∧ s.primes = .empty n ∧ s.cover = .empty n
  | .cover => 1 ≤ s.stars.size ∧ s.primes = .empty n ∧ s.cover = .empty n
  | .prime => Searching s.costs s.stars s.primes s.cover none ∧
      s.cover.rowSet.card < s.stars.size ∧ s.stars.size < n
  | .augment i j => Searched s.costs s.stars s.primes s.cover (.augment i j) ∧ s.stars.size < n
  | .shift => Searched s.costs s.stars s.primes s.cover .shift ∧ s.stars.size < n
  | .done => s.stars.size = n ∧ s.primes = .empty n ∧ (∀ i, s.cover.rows.entry i = false) ∧
      ∀ j, s.cover.columns.entry j = true

/-- What the number of steps stays below. Before a zero is primed or a row is covered there have
been no more than `k * (k + 2)` steps with `k` stars; each covered row stands for a shift and a
search after it, and so does an uncovered zero that is yet to be primed. -/
def limit (s : Solver n) : Nat :=
  match s.phase with
  | .reduce => 1
  | .star => 2
  | .cover => s.stars.size * (s.stars.size + 2)
  | .prime => s.stars.size * (s.stars.size + 2) + 1 + 2 * s.cover.rowSet.card +
      if uncoveredZero? s.costs s.cover = none then 0 else 2
  | .augment _ _ => s.stars.size * (s.stars.size + 2) + 2 * s.stars.size + 2
  | .shift => s.stars.size * (s.stars.size + 2) + 2 + 2 * s.cover.rowSet.card
  | .done => n * (n + 2) + 1

/-- The invariant of a solver for the costs `C`, with the potentials `p`. -/
structure Sound (W : CostType) (C : Grid n Int) (p : Potentials n) (s : Solver n) : Prop where
  /-- The stars are a matching. -/
  consistent : s.stars.Consistent
  /-- The number of covered columns is right. -/
  counted : s.cover.Counted
  /-- The marks are those of the phase. -/
  marked : s.Marked
  /-- Before the first step, the costs are the given ones. -/
  unchanged : s.phase = .reduce → s.costs = C
  /-- After it, they are reduced by the potentials. -/
  reduced : s.phase ≠ .reduce → Reduced W C p s.stars s.costs
  /-- The number of steps is limited. -/
  steps_lt : s.steps < s.limit

/-- The number of steps to solve a problem is a word if the number of its cells is one for a
vector. -/
theorem stepBound_lt (h : n * n < 0x8000000000000000) : stepBound n < Word.bound := by
  have hn : n < 0x100000000 := by
    by_contra hge
    have := Nat.mul_le_mul (Nat.not_lt.1 hge) (Nat.not_lt.1 hge)
    omega
  unfold stepBound Word.bound
  omega

/-- So is the number of workers. -/
theorem lt_bound_of_stepBound_lt (h : stepBound n < Word.bound) : n < Word.bound := by
  unfold stepBound at h
  omega

/-- The state before the first step is sound. -/
theorem sound_initial (W : CostType) (C : Grid n Int) : Sound W C (.zero n) (initial C) where
  consistent := Stars.consistent_empty n
  counted := Cover.counted_empty n
  marked := ⟨rfl, rfl, rfl⟩
  unchanged _ := rfl
  reduced h := absurd rfl h
  steps_lt := Nat.zero_lt_one

end Solver

/-- When no zero is uncovered, some row with a star is not covered. Otherwise no column would be,
and the zero of a row without a star would be uncovered. -/
theorem Searching.card_rowSet_lt {W : CostType} {C costs : Grid n Int} {p : Potentials n}
    {stars : Stars n} {primes : Primes n} {cover : Cover n}
    (h : Searching costs stars primes cover none) (hreduced : Reduced W C p stars costs)
    (hstars : stars.Consistent) (hlt : stars.size < n)
    (hzero : Solver.uncoveredZero? costs cover = none) : cover.rowSet.card < stars.size := by
  refine Nat.lt_of_le_of_ne h.card_rowSet_le fun heq ↦ ?_
  have hset : cover.rowSet = stars.starredRows :=
    Finset.eq_of_subset_of_card_le h.rowSet_subset (by rw [heq, Stars.size_eq_card])
  obtain ⟨i, hi⟩ := Stars.exists_free_row hlt
  obtain ⟨j, hj⟩ := hreduced.zero_free i hi
  refine Solver.uncoveredZero?_eq_none_iff.1 hzero i j (h.row_of_free hi) ?_ hj
  rw [Bool.eq_false_iff]
  intro hcovered
  obtain ⟨k, hk, hrow⟩ := (h.column_covered j).1 hcovered
  have hmem : k ∈ cover.rowSet := hset ▸ Stars.mem_starredRows.2 ⟨j, (hstars k j).2 hk⟩
  rw [Cover.mem_rowSet, hrow] at hmem
  exact Bool.false_ne_true hmem

namespace Solver.Sound

variable {W : CostType} {C : Grid n Int} {p : Potentials n} {s : Solver n}

/-- Before the problem is solved, the number of steps has not reached its bound. -/
theorem steps_lt_stepBound (h : Sound W C p s) (hn : 0 < n) (hphase : s.phase ≠ .done) :
    s.steps < stepBound n := by
  have hsteps := h.steps_lt
  have hmarked := h.marked
  have hbound : stepBound n = n * (n + 2) := by
    rw [stepBound, Nat.mul_add, Nat.mul_comm 2 n]
  have hle : s.stars.size * (s.stars.size + 2) ≤ n * (n + 2) :=
    Nat.mul_le_mul s.stars.size_le (Nat.add_le_add_right s.stars.size_le 2)
  have hnext : s.stars.size < n →
      s.stars.size * (s.stars.size + 2) + 2 * s.stars.size + 3 ≤ n * (n + 2) := fun hlt ↦
    calc s.stars.size * (s.stars.size + 2) + 2 * s.stars.size + 3
        = (s.stars.size + 1) * (s.stars.size + 1 + 2) := by ring
      _ ≤ n * (n + 2) := Nat.mul_le_mul hlt (Nat.add_le_add_right hlt 2)
  have hthree : 3 ≤ n * (n + 2) := Nat.mul_le_mul hn (Nat.add_le_add_right hn 2)
  cases hs : s.phase with
  | reduce => simp only [limit, hs] at hsteps; omega
  | star => simp only [limit, hs] at hsteps; omega
  | cover => simp only [limit, hs] at hsteps; omega
  | prime =>
    simp only [limit, Marked, hs] at hsteps hmarked
    have := hnext hmarked.2.2
    have := hmarked.2.1
    split at hsteps <;> omega
  | augment i j =>
    simp only [limit, Marked, hs] at hsteps hmarked
    have := hnext hmarked.2
    omega
  | shift =>
    simp only [limit, Marked, hs] at hsteps hmarked
    have := hnext hmarked.2
    have := hmarked.1.1.card_rowSet_le
    omega
  | done => exact absurd hs hphase

/-! ### The work of each phase -/

/-- Rows are lowered by their least costs. -/
theorem advance_reduce (h : Sound W C p s) (hs : s.phase = .reduce) (hspread : C.SpreadsFit W) :
    s.advance W = .ok { s with
      costs := Grid.ofFn fun i j ↦ C.cell i j - C.rowLeast i, phase := .star } :=
  advance_eq_ok_iff.2 (.reduce hs (by rw [h.unchanged hs, lowerRows_eq_ok hspread]))

/-- Zeros are starred until none can be added. -/
theorem exists_advance_star (h : Sound W C p s) (hs : s.phase = .star) :
    ∃ stars, s.advance W = .ok { s with stars, phase := .cover } ∧
      stars.Maximal s.costs (List.finRange n) := by
  have hmarked := h.marked
  simp only [Marked, hs] at hmarked
  obtain ⟨stars, hstars, hgreedy⟩ := exists_starGreedily s.costs
  exact ⟨stars, advance_eq_ok_iff.2 (.star hs (hmarked.1 ▸ hstars)), hgreedy.maximal⟩

/-- The columns of the stars are covered, and no others. -/
theorem exists_advance_cover (h : Sound W C p s) (hs : s.phase = .cover) (hn : n < Word.bound) :
    ∃ cover, s.advance W = .ok { s with
        cover, phase := if cover.columnCount = n then .done else .prime } ∧
      cover.Counted ∧ (∀ i, cover.rows.entry i = false) ∧
      ∀ j, cover.columns.entry j = true ↔ (s.stars.rowOf.entry j).isSome := by
  have hmarked := h.marked
  simp only [Marked, hs] at hmarked
  obtain ⟨cover, hcover, hcovered⟩ := exists_coverStarred s.stars hn
  exact ⟨cover, advance_eq_ok_iff.2 (.cover hs (hmarked.2.2 ▸ hcover)), hcovered⟩

/-- Priming comes to an end within one round more than there are stars. -/
theorem exists_advance_prime (h : Sound W C p s) (hs : s.phase = .prime) :
    ∃ primes cover phase, s.advance W = .ok { s with primes, cover, phase } ∧
      (∀ fuel, s.stars.size < fuel →
        primeUncovered s.costs s.stars fuel s.primes s.cover = .ok (primes, cover, phase)) ∧
      Searched s.costs s.stars primes cover phase ∧ cover.Counted ∧
      s.cover.rowSet ⊆ cover.rowSet ∧
      (uncoveredZero? s.costs s.cover ≠ none → phase = .shift →
        s.cover.rowSet.card < cover.rowSet.card) := by
  have hmarked := h.marked
  simp only [Marked, hs] at hmarked
  obtain ⟨primes, cover, phase, hprime, hsearched⟩ :=
    hmarked.1.exists_primeUncovered h.consistent (s.stars.size + 1) h.counted (by omega)
  have hrounds : ∀ fuel, s.stars.size < fuel →
      primeUncovered s.costs s.stars fuel s.primes s.cover = .ok (primes, cover, phase) :=
    fun fuel hfuel ↦ primeUncovered_of_le _ hprime hfuel
  exact ⟨primes, cover, phase,
    advance_eq_ok_iff.2 (.prime hs (hrounds (n + 1) (Nat.lt_succ_of_le s.stars.size_le))),
    hrounds, hsearched⟩

/-- Augmenting finds a path and changes the stars along it. -/
theorem exists_advance_augment (h : Sound W C p s) {i j : Fin n} (hs : s.phase = .augment i j) :
    ∃ path stars, s.advance W = .ok { s with
        stars, primes := .empty n, cover := .empty n, phase := .cover } ∧
      augmentingPath s.stars s.primes j = .ok path ∧
      Augmented s.stars s.primes i j path stars := by
  have hmarked := h.marked
  simp only [Marked, hs] at hmarked
  obtain ⟨⟨hsearch, -, hfree, hj⟩, -⟩ := hmarked
  obtain ⟨path, stars, hpath, haugment, haugmented⟩ :=
    hsearch.exists_augmentAlong h.consistent hfree hj
  exact ⟨path, stars, advance_eq_ok_iff.2 (.augment hs hpath haugment), hpath, haugmented⟩

/-- Shifting is by the least uncovered cost, which is positive, and goes on with the search. -/
theorem exists_advance_shift (h : Sound W C p s) (hs : s.phase = .shift) :
    ∃ m, leastUncovered? s.costs s.cover = some m ∧ 1 ≤ m ∧
      s.advance W = .ok { s with costs := shiftedCosts W m s.cover s.costs, phase := .prime } ∧
      Reduced W C (p.shift m s.cover) s.stars (shiftedCosts W m s.cover s.costs) ∧
      Searching (shiftedCosts W m s.cover s.costs) s.stars s.primes s.cover none ∧
      uncoveredZero? (shiftedCosts W m s.cover s.costs) s.cover ≠ none := by
  have hmarked := h.marked
  simp only [Marked, hs] at hmarked
  obtain ⟨⟨hsearch, hzero⟩, hlt⟩ := hmarked
  have hreduced := h.reduced (by simp [hs])
  obtain ⟨m, hm, hshift, hshifted⟩ := hreduced.exists_shift hsearch h.consistent hlt hzero
  exact ⟨m, hm, hreduced.one_le_of_leastUncovered? hzero hm,
    advance_eq_ok_iff.2 (.shift hs hshift), hshifted⟩

/-! ### The step of each phase -/

/-- Lowering the rows goes through if all spreads fit. -/
theorem exists_step_reduce (h : Sound W C p s) (hs : s.phase = .reduce)
    (hspread : C.SpreadsFit W) (hword : s.steps + 1 < Word.bound) :
    ∃ s', s.step W = .ok s' ∧ Sound W C (p.next s) s' := by
  have hcosts := h.unchanged hs
  have hmarked := h.marked
  have hsteps := h.steps_lt
  simp only [Marked, limit, hs] at hmarked hsteps
  refine ⟨_, step_eq_ok (by simp [hs]) hword (h.advance_reduce hs hspread), ?_⟩
  have hnext : p.next s = .lowered C := hcosts ▸ p.next_of_reduce hs
  rw [hnext]
  exact {
    consistent := h.consistent
    counted := h.counted
    marked := hmarked
    unchanged := fun hphase ↦ by simp at hphase
    reduced := fun _ ↦ by
      rw [hmarked.1]
      exact Reduced.lowered hspread
    steps_lt := Nat.succ_lt_succ hsteps }

/-- Starring greedily gives at least one star. -/
theorem exists_step_star (h : Sound W C p s) (hs : s.phase = .star) (hn : 0 < n)
    (hword : s.steps + 1 < Word.bound) :
    ∃ s', s.step W = .ok s' ∧ Sound W C (p.next s) s' := by
  have hreduced := h.reduced (by simp [hs])
  have hmarked := h.marked
  have hsteps := h.steps_lt
  simp only [Marked, limit, hs] at hmarked hsteps
  obtain ⟨stars, hadvance, hmaximal⟩ := h.exists_advance_star hs
  refine ⟨_, step_eq_ok (by simp [hs]) hword hadvance, ?_⟩
  have hnext : p.next s = p := p.next_eq_self (by simp [hs]) (by simp [hs])
  have hfree : ∀ i, s.stars.columnOf.entry i = none := by simp [hmarked.1, Stars.empty]
  -- the first row has a zero, as it has no star yet
  obtain ⟨j, hj⟩ := hreduced.zero_free ⟨0, hn⟩ (hfree _)
  have hsize := hmaximal.size_pos (List.mem_finRange _) hj
  rw [hnext]
  exact {
    consistent := hmaximal.consistent
    counted := h.counted
    marked := ⟨hsize, hmarked.2⟩
    unchanged := fun hphase ↦ by simp at hphase
    reduced := fun _ ↦ hreduced.congr_stars (fun i _ ↦ hfree i)
      (fun j _ ↦ by simp [hmarked.1, Stars.empty]) fun i j hij ↦ (hmaximal.star_zero i j hij).2
    steps_lt := by
      have := Nat.mul_le_mul hsize (Nat.add_le_add_right hsize 2)
      show s.steps + 1 < stars.size * (stars.size + 2)
      omega }

/-- Covering the columns of the stars ends the run or starts a search. -/
theorem exists_step_cover (h : Sound W C p s) (hs : s.phase = .cover) (hn : n < Word.bound)
    (hword : s.steps + 1 < Word.bound) :
    ∃ s', s.step W = .ok s' ∧ Sound W C (p.next s) s' := by
  have hreduced := h.reduced (by simp [hs])
  have hmarked := h.marked
  have hsteps := h.steps_lt
  simp only [Marked, limit, hs] at hmarked hsteps
  obtain ⟨hsize, hprimes, -⟩ := hmarked
  obtain ⟨cover, hadvance, hcounted, hrows, hcolumns⟩ := h.exists_advance_cover hs hn
  refine ⟨_, step_eq_ok (by simp [hs]) hword hadvance, ?_⟩
  have hnext : p.next s = p := p.next_eq_self (by simp [hs]) (by simp [hs])
  have hcount := hcounted.columnCount_eq_size h.consistent hcolumns
  rw [hnext, hcount]
  by_cases hdone : s.stars.size = n
  · simp only [if_pos hdone]
    refine ⟨h.consistent, hcounted, ⟨hdone, hprimes, hrows, fun j ↦ ?_⟩, by simp,
      fun _ ↦ hreduced, ?_⟩
    · have huniv : cover.columnSet = Finset.univ := Finset.eq_univ_of_card _ (by
        rw [← Cover.counted_iff.1 hcounted, hcount, hdone, Fintype.card_fin])
      exact Cover.mem_columnSet.1 (huniv ▸ Finset.mem_univ j)
    · show s.steps + 1 < n * (n + 2) + 1
      rw [hdone] at hsteps
      omega
  · simp only [if_neg hdone]
    have hrowSet : cover.rowSet = ∅ := by
      ext i
      simp [Cover.mem_rowSet, hrows]
    refine ⟨h.consistent, hcounted, ⟨?_, ?_, Nat.lt_of_le_of_ne s.stars.size_le hdone⟩, by simp,
      fun _ ↦ hreduced, ?_⟩
    · show Searching s.costs s.stars s.primes cover none
      rw [hprimes]
      exact .start hrows hcolumns
    · show cover.rowSet.card < s.stars.size
      rw [hrowSet, Finset.card_empty]
      omega
    · simp only [limit]
      omega

/-- Priming zeros goes on with an augmentation or a shift. -/
theorem exists_step_prime (h : Sound W C p s) (hs : s.phase = .prime)
    (hword : s.steps + 1 < Word.bound) :
    ∃ s', s.step W = .ok s' ∧ Sound W C (p.next s) s' := by
  have hreduced := h.reduced (by simp [hs])
  have hmarked := h.marked
  have hsteps := h.steps_lt
  simp only [Marked, limit, hs] at hmarked hsteps
  obtain ⟨-, hcard, hlt⟩ := hmarked
  obtain ⟨primes, cover, phase, hadvance, -, hsearched, hcounted, hsub, hgrow⟩ :=
    h.exists_advance_prime hs
  refine ⟨_, step_eq_ok (by simp [hs]) hword hadvance, ?_⟩
  have hnext : p.next s = p := p.next_eq_self (by simp [hs]) (by simp [hs])
  have hle := Finset.card_le_card hsub
  rw [hnext]
  cases phase with
  | shift =>
    refine ⟨h.consistent, hcounted, ⟨hsearched, hlt⟩, by simp, fun _ ↦ hreduced, ?_⟩
    show s.steps + 1 < s.stars.size * (s.stars.size + 2) + 2 + 2 * cover.rowSet.card
    -- a search that starts with an uncovered zero has covered one more row
    split at hsteps
    · omega
    · have := hgrow ‹_› rfl
      omega
  | augment i j =>
    refine ⟨h.consistent, hcounted, ⟨hsearched, hlt⟩, by simp, fun _ ↦ hreduced, ?_⟩
    show s.steps + 1 < s.stars.size * (s.stars.size + 2) + 2 * s.stars.size + 2
    split at hsteps <;> omega
  | reduce => exact hsearched.elim
  | star => exact hsearched.elim
  | cover => exact hsearched.elim
  | prime => exact hsearched.elim
  | done => exact hsearched.elim

/-- Augmenting gives one more star and clears the other marks. -/
theorem exists_step_augment (h : Sound W C p s) {i j : Fin n} (hs : s.phase = .augment i j)
    (hword : s.steps + 1 < Word.bound) :
    ∃ s', s.step W = .ok s' ∧ Sound W C (p.next s) s' := by
  have hreduced := h.reduced (by simp [hs])
  have hmarked := h.marked
  have hsteps := h.steps_lt
  simp only [Marked, limit, hs] at hmarked hsteps
  obtain ⟨⟨hsearch, hseed, hfree, -⟩, -⟩ := hmarked
  obtain ⟨path, stars, hadvance, -, haugmented⟩ := h.exists_advance_augment hs
  refine ⟨_, step_eq_ok (by simp [hs]) hword hadvance, ?_⟩
  have hnext : p.next s = p := p.next_eq_self (by simp [hs]) (by simp [hs])
  have hsize := haugmented.size_eq h.consistent hfree
  rw [hnext]
  exact {
    consistent := haugmented.consistent
    counted := Cover.counted_empty n
    marked := ⟨by simp [hsize], rfl, rfl⟩
    unchanged := fun hphase ↦ by simp at hphase
    reduced := fun _ ↦ hreduced.congr_stars (fun a ha ↦ haugmented.free_row h.consistent ha)
      (fun b hb ↦ haugmented.free_column h.consistent hb) fun a b hab ↦
        (haugmented.star_or_prime hseed hab).elim (hreduced.star_zero a b)
          (hsearch.prime_zero a b)
    steps_lt := by
      show s.steps + 1 < stars.size * (stars.size + 2)
      calc s.steps + 1
          < s.stars.size * (s.stars.size + 2) + 2 * s.stars.size + 2 + 1 := Nat.succ_lt_succ hsteps
        _ = stars.size * (stars.size + 2) := by rw [hsize]; ring }

/-- Shifting costs goes back to priming, with a zero to prime. -/
theorem exists_step_shift (h : Sound W C p s) (hs : s.phase = .shift)
    (hword : s.steps + 1 < Word.bound) :
    ∃ s', s.step W = .ok s' ∧ Sound W C (p.next s) s' := by
  have hreduced := h.reduced (by simp [hs])
  have hmarked := h.marked
  have hsteps := h.steps_lt
  simp only [Marked, limit, hs] at hmarked hsteps
  obtain ⟨⟨hsearch, hzero⟩, hlt⟩ := hmarked
  obtain ⟨m, hm, -, hadvance, hreduced', hsearch', hzero'⟩ := h.exists_advance_shift hs
  refine ⟨_, step_eq_ok (by simp [hs]) hword hadvance, ?_⟩
  rw [p.next_of_shift hs hm]
  exact {
    consistent := h.consistent
    counted := h.counted
    marked := ⟨hsearch', hsearch.card_rowSet_lt hreduced h.consistent hlt hzero, hlt⟩
    unchanged := fun hphase ↦ by simp at hphase
    reduced := fun _ ↦ hreduced'
    steps_lt := by
      simp only [limit, if_neg hzero']
      omega }

/-- A step from a sound state gives a sound state, if the spreads fit where rows are lowered. -/
theorem exists_step (h : Sound W C p s) (hn : 0 < n) (hword : stepBound n < Word.bound)
    (hspread : s.phase = .reduce → C.SpreadsFit W) :
    ∃ s', s.step W = .ok s' ∧ Sound W C (p.next s) s' := by
  by_cases hdone : s.phase = .done
  · refine ⟨s, step_of_isDone (by simp [isDone, hdone]), ?_⟩
    have hnext : p.next s = p := p.next_eq_self (by simp [hdone]) (by simp [hdone])
    rwa [hnext]
  · have hsteps : s.steps + 1 < Word.bound :=
      Nat.lt_of_le_of_lt (h.steps_lt_stepBound hn hdone) hword
    cases hs : s.phase with
    | reduce => exact h.exists_step_reduce hs (hspread hs) hsteps
    | star => exact h.exists_step_star hs hn hsteps
    | cover => exact h.exists_step_cover hs (lt_bound_of_stepBound_lt hword) hsteps
    | prime => exact h.exists_step_prime hs hsteps
    | augment i j => exact h.exists_step_augment hs hsteps
    | shift => exact h.exists_step_shift hs hsteps
    | done => exact absurd hs hdone

/-- A step from a sound state is the work of its phase, if that gives a state. -/
theorem step_of_advance (h : Sound W C p s) (hn : 0 < n) (hword : stepBound n < Word.bound)
    (hspread : s.phase = .reduce → C.SpreadsFit W) (hdone : s.phase ≠ .done) {next : Solver n}
    (hnext : s.advance W = .ok next) :
    s.step W = .ok { next with steps := s.steps + 1 } ∧
      Sound W C (p.next s) { next with steps := s.steps + 1 } := by
  have hsteps : s.steps + 1 < Word.bound :=
    Nat.lt_of_le_of_lt (h.steps_lt_stepBound hn hdone) hword
  have hstep := step_eq_ok hdone hsteps hnext
  obtain ⟨s', hs', h'⟩ := h.exists_step hn hword hspread
  obtain rfl := Except.ok.inj (hs'.symm.trans hstep)
  exact ⟨hstep, h'⟩

/-- Where some spread does not fit, the first step overflows. -/
theorem step_eq_error (h : Sound W C p s) (hs : s.phase = .reduce) (hspread : ¬ C.SpreadsFit W) :
    s.step W = .error (.overflow .subtract) := by
  have hdone : s.isDone = false := by simp [isDone, hs]
  have hadvance : s.advance W = .error (.overflow .subtract) := by
    simp [advance, hs, h.unchanged hs, lowerRows_eq_error hspread]
  simp [step, hdone, hadvance]

end Solver.Sound

end LinearAssignment
