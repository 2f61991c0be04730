import LinearAssignment.Dimacs.Instance
import Mathlib.Data.Nat.Count
import Mathlib.Data.Nat.Nth

/-!
# The numbers of workers and tasks

The nodes of an instance are numbered from one on, and the workers among them have numbers of their
own, and so have the tasks. The number of a worker is the number of workers before it
(`Nat.count`), so the worker with number `i` is the `i`-th one (`Nat.nth`), counting from zero, and
likewise for tasks; `roleOf` finds these numbers (`Sides.roleOf_eq`). An arc from a worker to a task
belongs into the cell `cellOf` of a table of all costs, and no two of them into the same
(`Sides.cellOf_inj`).
-/

namespace LinearAssignment.Dimacs

/-- A node is a task of an instance with `n` workers. -/
def IsTask (n : Nat) (workers : List Nat) (v : Nat) : Prop :=
  1 ≤ v ∧ v ≤ 2 * n ∧ v ∉ workers

instance (n : Nat) (workers : List Nat) : DecidablePred (IsTask n workers) := fun v ↦
  inferInstanceAs (Decidable (1 ≤ v ∧ v ≤ 2 * n ∧ v ∉ workers))

/-- Half of the nodes of an instance are workers. -/
structure Sides (n : Nat) (workers : List Nat) : Prop where
  /-- There are `n` workers. -/
  length_eq : workers.length = n
  /-- They are different. -/
  nodup : workers.Nodup
  /-- They are nodes. -/
  mem_nodes : ∀ u ∈ workers, 1 ≤ u ∧ u ≤ 2 * n

/-- The place in row-major order of the cost of an arc from a worker to a task. -/
def cellOf (n : Nat) (workers : List Nat) (ends : Nat × Nat) : Nat :=
  Nat.count (· ∈ workers) ends.1 * n + Nat.count (IsTask n workers) ends.2

/-! ### Counting -/

/-- The members of a list without repetitions below a bound, counted on either side. -/
theorem countP_lt_eq_count {xs : List Nat} (h : xs.Nodup) (bound : Nat) :
    xs.countP (· < bound) = Nat.count (· ∈ xs) bound := by
  rw [List.countP_eq_length_filter, ← List.toFinset_card_of_nodup (h.filter _),
    Nat.count_eq_card_filter_range]
  congr 1
  ext x
  simp [and_comm]

/-- The number of members of a predicate before the `i`-th is `i`. -/
theorem nth_mem_and_count_nth {p : Nat → Prop} [DecidablePred p] {bound i : Nat}
    (h : i < Nat.count p bound) : p (Nat.nth p i) ∧ Nat.count p (Nat.nth p i) = i := by
  have hcard : ∀ hf : (Set.ofPred p).Finite, i < hf.toFinset.card := fun hf ↦
    Nat.lt_of_lt_of_le h (Nat.count_le_card hf bound)
  exact ⟨Nat.nth_mem i hcard, Nat.count_nth hcard⟩

namespace Sides

variable {n i j u v : Nat} {workers : List Nat}

/-- Up to any node, each node is a worker or a task. -/
theorem count_add_count (h : Sides n workers) (hu : u ≤ 2 * n) :
    Nat.count (· ∈ workers) (u + 1) + Nat.count (IsTask n workers) (u + 1) = u := by
  induction u with
  | zero =>
    have hzero : 0 ∉ workers := fun hmem ↦ absurd (h.mem_nodes 0 hmem).1 (by decide)
    simp [Nat.count_succ, hzero, IsTask]
  | succ u ih =>
    rw [Nat.count_succ, Nat.count_succ (IsTask n workers)]
    have hprev := ih (Nat.le_of_succ_le hu)
    by_cases hmem : u + 1 ∈ workers
    · rw [if_pos hmem, if_neg fun htask : IsTask n workers (u + 1) ↦ htask.2.2 hmem]
      omega
    · rw [if_neg hmem, if_pos ⟨Nat.succ_pos u, hu, hmem⟩]
      omega

theorem count_workers (h : Sides n workers) : Nat.count (· ∈ workers) (2 * n + 1) = n := by
  rw [← countP_lt_eq_count h.nodup, List.countP_eq_length.2, h.length_eq]
  exact fun u hu ↦ decide_eq_true (Nat.lt_succ_of_le (h.mem_nodes u hu).2)

theorem count_tasks (h : Sides n workers) : Nat.count (IsTask n workers) (2 * n + 1) = n := by
  have hall := h.count_add_count (Nat.le_refl (2 * n))
  rw [h.count_workers] at hall
  omega

/-- The number of a worker is below the number of workers. -/
theorem count_worker_lt (h : Sides n workers) (hu : u ∈ workers) :
    Nat.count (· ∈ workers) u < n := by
  conv_rhs => rw [← h.count_workers]
  exact Nat.count_strict_mono hu (Nat.lt_succ_of_le (h.mem_nodes u hu).2)

/-- The number of a task is below the number of workers. -/
theorem count_task_lt (h : Sides n workers) (hv : IsTask n workers v) :
    Nat.count (IsTask n workers) v < n := by
  conv_rhs => rw [← h.count_tasks]
  exact Nat.count_strict_mono hv (Nat.lt_succ_of_le hv.2.1)

/-- There is a worker with each number. -/
theorem nth_worker (h : Sides n workers) (hi : i < n) :
    Nat.nth (· ∈ workers) i ∈ workers ∧
      Nat.count (· ∈ workers) (Nat.nth (· ∈ workers) i) = i :=
  nth_mem_and_count_nth (h.count_workers.symm ▸ hi)

/-- There is a task with each number. -/
theorem nth_task (h : Sides n workers) (hj : j < n) :
    IsTask n workers (Nat.nth (IsTask n workers) j) ∧
      Nat.count (IsTask n workers) (Nat.nth (IsTask n workers) j) = j :=
  nth_mem_and_count_nth (h.count_tasks.symm ▸ hj)

/-! ### Roles and cells -/

/-- The role of a node is its number among the workers or among the tasks. -/
theorem roleOf_eq {draft : Array Nat} (hdraft : draft.toList.map (· + 1) = workers)
    (h : Sides n workers) (hu : u < 2 * n) :
    roleOf draft (2 * n) u = .ok (if u + 1 ∈ workers then
      .worker (Nat.count (· ∈ workers) (u + 1))
      else .task (Nat.count (IsTask n workers) (u + 1))) := by
  have hbefore : (draft.countP fun w ↦ w < u) = Nat.count (· ∈ workers) (u + 1) := by
    rw [← countP_lt_eq_count h.nodup, ← hdraft, List.countP_map, ← Array.countP_toList]
    simp [Function.comp_def]
  have hmem : u ∈ draft ↔ u + 1 ∈ workers := by
    simp [← hdraft]
  have hafter : u - Nat.count (· ∈ workers) (u + 1) = Nat.count (IsTask n workers) (u + 1) :=
    Nat.sub_eq_of_eq_add' (h.count_add_count (Nat.le_of_lt hu)).symm
  simp only [roleOf, if_pos hu, hbefore, hmem, hafter]

/-- The cell of an arc from a worker to a task is one of the table. -/
theorem cellOf_lt (h : Sides n workers) (hu : u ∈ workers) (hv : IsTask n workers v) :
    cellOf n workers (u, v) < n * n :=
  CostMatrix.index_lt ⟨_, h.count_worker_lt hu⟩ ⟨_, h.count_task_lt hv⟩

/-- The row and the column of a cell are the numbers of the worker and the task. -/
theorem cellOf_eq_iff (h : Sides n workers) (hu : u ∈ workers) (hv : IsTask n workers v)
    (hi : i < n) (hj : j < n) : cellOf n workers (u, v) = i * n + j ↔
      u = Nat.nth (· ∈ workers) i ∧ v = Nat.nth (IsTask n workers) j := by
  obtain ⟨hworker, hicount⟩ := h.nth_worker hi
  obtain ⟨htask, hjcount⟩ := h.nth_task hj
  constructor
  · intro heq
    have hrow := congrArg (· / n) heq
    have hcolumn := congrArg (· % n) heq
    simp only [cellOf, Nat.mul_comm _ n, Nat.mul_add_div (Nat.zero_lt_of_lt hi),
      Nat.div_eq_of_lt (h.count_task_lt hv), Nat.div_eq_of_lt hj, Nat.add_zero] at hrow
    simp only [cellOf, Nat.mul_add_mod_self_right, Nat.mod_eq_of_lt (h.count_task_lt hv),
      Nat.mod_eq_of_lt hj] at hcolumn
    exact ⟨Nat.count_injective hu hworker (hrow.trans hicount.symm),
      Nat.count_injective hv htask (hcolumn.trans hjcount.symm)⟩
  · rintro ⟨rfl, rfl⟩
    simp only [cellOf, hicount, hjcount]

/-- Arcs from a worker to a task with the same cell are between the same nodes. -/
theorem cellOf_inj (h : Sides n workers) {u' v' : Nat} (hu : u ∈ workers) (hu' : u' ∈ workers)
    (hv : IsTask n workers v) (hv' : IsTask n workers v')
    (heq : cellOf n workers (u, v) = cellOf n workers (u', v')) : (u, v) = (u', v') := by
  have hnodes := (h.cellOf_eq_iff hu hv (h.count_worker_lt hu') (h.count_task_lt hv')).1 heq
  rw [Nat.nth_count hu', Nat.nth_count hv'] at hnodes
  rw [hnodes.1, hnodes.2]

end Sides

end LinearAssignment.Dimacs
