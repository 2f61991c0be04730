import LinearAssignment.Dimacs.Solution
import LinearAssignment.Proofs.Dimacs.Fields
import LinearAssignment.Proofs.Dimacs.FirstIssue
import Mathlib.Data.List.Basic
import Mathlib.Data.List.Induction
import Mathlib.Data.List.Perm.Subperm
import Mathlib.Tactic.MkIffOfInductiveProp

/-!
# Pairs of workers and tasks

The pairs of a solution are entered into tables one after the other. `Flow.issue?` says what is
wrong with a pair in view of the pairs before it, and the tables know enough of these to find it
(`Matched.Holds.add_eq`, `findsIssues_add`). So all pairs are entered if they are a `Pairing`, in
which each joins a worker to a task and no node occurs twice; otherwise the first pair with an issue
ends the reading (`foldlM_add_cases`).

With as many pairs as workers, a pairing leaves no worker and no task out (`pairing_iff_perm`). Then
no place in the table is empty, and the list of the tasks in it is a permutation
(`Pairing.perm_assignment`).
-/

namespace LinearAssignment.Dimacs

variable {n : Nat} {flows : List Flow} {flow : Flow} {matched : Matched}

/-! ### Issues of a pair -/

/-- A pair joins a worker to a task of a solution with `n` pairs. -/
def Flow.Joins (n : Nat) (flow : Flow) : Prop :=
  (1 ≤ flow.worker ∧ flow.worker ≤ n) ∧ n < flow.task ∧ flow.task ≤ 2 * n

instance (n : Nat) : DecidablePred (Flow.Joins n) := fun flow ↦
  inferInstanceAs (Decidable ((1 ≤ flow.worker ∧ flow.worker ≤ n) ∧ n < flow.task ∧
    flow.task ≤ 2 * n))

/-- What is wrong with a pair of a solution with `n` pairs, in view of the pairs before it. -/
def Flow.issue? (n : Nat) (before : List Flow) (flow : Flow) : Option DataIssue :=
  if ¬ flow.Joins n then some (.invalidPair flow.worker flow.task)
  else if flow.worker ∈ before.map Flow.worker then some (.workerTwice flow.worker)
  else if flow.task ∈ before.map Flow.task then some (.taskTwice flow.task)
  else none

theorem Flow.issue?_eq_none_iff : flow.issue? n flows = none ↔
    flow.Joins n ∧ flow.worker ∉ flows.map Flow.worker ∧ flow.task ∉ flows.map Flow.task := by
  rw [issue?]
  split
  · simp [*]
  · split
    · simp [*]
    · split <;> simp_all

/-- Each pair joins a worker to a task, and no worker or task occurs twice. -/
@[mk_iff]
structure Pairing (n : Nat) (flows : List Flow) : Prop where
  /-- Each pair joins a worker to a task. -/
  joins : ∀ flow ∈ flows, flow.Joins n
  /-- The workers are different. -/
  nodup_workers : (flows.map Flow.worker).Nodup
  /-- The tasks are different. -/
  nodup_tasks : (flows.map Flow.task).Nodup

theorem pairing_nil (n : Nat) : Pairing n [] :=
  ⟨List.forall_mem_nil _, .nil, .nil⟩

/-- A pairing can be extended by exactly the pairs without an issue. -/
theorem pairing_append_singleton_iff :
    Pairing n (flows ++ [flow]) ↔ Pairing n flows ∧ flow.issue? n flows = none := by
  simp only [Flow.issue?_eq_none_iff, pairing_iff, List.map_append, List.map_singleton,
    List.nodup_append, List.mem_append, List.mem_singleton]
  grind

/-! ### The tables -/

/-- The tables hold some pairs. -/
structure Matched.Holds (n : Nat) (matched : Matched) (flows : List Flow) : Prop where
  /-- There is a place for each worker. -/
  size_taskOf : matched.taskOf.size = n
  /-- There is a place for each task. -/
  size_taken : matched.taken.size = n
  /-- The task at the place of a worker is that of its pair, both counted from zero on. -/
  taskOf_iff : ∀ i < n, ∀ j, matched.taskOf[i]? = some (some j) ↔
    ∃ flow ∈ flows, flow.worker = i + 1 ∧ flow.task - n - 1 = j
  /-- A task is taken if it occurs in a pair. -/
  taken_iff : ∀ j < n, matched.taken[j]? = some true ↔ n + j + 1 ∈ flows.map Flow.task

/-- The tables with one more pair. -/
def Matched.put (n : Nat) (matched : Matched) (flow : Flow) : Matched where
  taskOf := matched.taskOf.setIfInBounds (flow.worker - 1) (some (flow.task - n - 1))
  taken := matched.taken.setIfInBounds (flow.task - n - 1) true

/-- The tasks of the workers in order. Workers without a task are left out. -/
def Matched.assignment (matched : Matched) : List Nat :=
  matched.taskOf.toList.filterMap id

theorem isPair_eq (hword : 2 * n < Word.bound) (flow : Flow) :
    isPair n flow.worker flow.task = .ok (decide (flow.Joins n)) := by
  have hmul : Word.mul 2 n = .ok (2 * n) := Word.mul_eq_ok_iff.2 ⟨hword, rfl⟩
  rw [isPair]
  split
  · have hjoins : ¬ flow.Joins n := by
      rw [Flow.Joins]
      omega
    rw [decide_eq_false hjoins]
    rfl
  · have hjoins : flow.Joins n ↔ flow.task ≤ 2 * n := by
      rw [Flow.Joins]
      omega
    rw [hmul, decide_eq_decide.2 hjoins]
    rfl

namespace Matched.Holds

theorem empty (n : Nat) : (Matched.empty n).Holds n [] where
  size_taskOf := Array.size_replicate
  size_taken := Array.size_replicate
  taskOf_iff i hi j := by simp [Matched.empty, hi]
  taken_iff j hj := by simp [Matched.empty, hj]

/-- A worker has a task if it occurs in a pair. -/
theorem isSome_iff (h : matched.Holds n flows) {worker : Nat} (hlow : 1 ≤ worker)
    (hi : worker - 1 < matched.taskOf.size) :
    matched.taskOf[worker - 1].isSome = true ↔ worker ∈ flows.map Flow.worker := by
  have hiff := h.taskOf_iff (worker - 1) (h.size_taskOf ▸ hi)
  rw [Array.getElem?_eq_getElem hi] at hiff
  rw [Option.isSome_iff_exists, List.mem_map]
  constructor
  · rintro ⟨j, hj⟩
    obtain ⟨flow, hflow, hworker, -⟩ := (hiff j).1 (congrArg some hj)
    exact ⟨flow, hflow, by omega⟩
  · rintro ⟨flow, hflow, hworker⟩
    exact ⟨_, Option.some.inj ((hiff _).2 ⟨flow, hflow, by omega, rfl⟩)⟩

theorem put (h : matched.Holds n flows) (hissue : flow.issue? n flows = none) :
    (matched.put n flow).Holds n (flows ++ [flow]) where
  size_taskOf := by rw [Matched.put, Array.size_setIfInBounds, h.size_taskOf]
  size_taken := by rw [Matched.put, Array.size_setIfInBounds, h.size_taken]
  taskOf_iff i hi j := by
    obtain ⟨⟨⟨hlow, -⟩, -⟩, hnew, -⟩ := Flow.issue?_eq_none_iff.1 hissue
    rw [Matched.put, Array.getElem?_setIfInBounds, h.size_taskOf]
    by_cases heq : flow.worker - 1 = i
    · -- no pair before has this worker
      have hworker : flow.worker = i + 1 := by omega
      have hbefore : ∀ f ∈ flows, f.worker ≠ i + 1 := fun f hf hfi ↦
        hnew (List.mem_map.2 ⟨f, hf, hfi.trans hworker.symm⟩)
      rw [if_pos heq, if_pos (heq ▸ hi)]
      constructor
      · intro hj
        exact ⟨flow, by simp, hworker, Option.some.inj (Option.some.inj hj)⟩
      · rintro ⟨f, hf, hfi, rfl⟩
        rcases List.mem_append.1 hf with hf | hf
        · exact absurd hfi (hbefore f hf)
        · rw [List.mem_singleton.1 hf]
    · rw [if_neg heq, h.taskOf_iff i hi]
      have hworker : flow.worker ≠ i + 1 := by omega
      simp [or_and_right, exists_or, hworker]
  taken_iff j hj := by
    obtain ⟨⟨-, htask, -⟩, -⟩ := Flow.issue?_eq_none_iff.1 hissue
    have heq : flow.task - n - 1 = j ↔ n + j + 1 = flow.task := by omega
    rw [Matched.put, Array.getElem?_setIfInBounds, h.size_taken, List.map_append,
      List.map_singleton, List.mem_append, List.mem_singleton, ← heq, ← h.taken_iff j hj]
    by_cases hj' : flow.task - n - 1 = j
    · rw [if_pos hj', if_pos (hj' ▸ hj)]
      simp [hj']
    · rw [if_neg hj', or_iff_left hj']

/-- The tables find what is wrong with a pair. -/
theorem add_eq (h : matched.Holds n flows) (hword : 2 * n < Word.bound) (flow : Flow) :
    matched.add n flow = match flow.issue? n flows with
      | some issue => throw (.onLine flow.line (.data issue))
      | none => pure (matched.put n flow) := by
  rw [Matched.add, isPair_eq hword, Flow.issue?]
  by_cases hjoins : flow.Joins n
  · obtain ⟨⟨hlow, hhigh⟩, htask, htask'⟩ := id hjoins
    have hi : Word.sub flow.worker 1 = .ok (flow.worker - 1) :=
      Word.sub_eq_ok_iff.2 ⟨hlow, rfl⟩
    have hj : Word.sub flow.task n = .ok (flow.task - n) :=
      Word.sub_eq_ok_iff.2 ⟨Nat.le_of_lt htask, rfl⟩
    have hj' : Word.sub (flow.task - n) 1 = .ok (flow.task - n - 1) :=
      Word.sub_eq_ok_iff.2 ⟨by omega, rfl⟩
    have hi' : flow.worker - 1 < matched.taskOf.size := by
      rw [h.size_taskOf]
      omega
    have hj'' : flow.task - n - 1 < matched.taken.size := by
      rw [h.size_taken]
      omega
    have htaken : matched.taken[flow.task - n - 1] = true ↔ flow.task ∈ flows.map Flow.task := by
      have hiff := h.taken_iff (flow.task - n - 1) (by omega)
      rw [Array.getElem?_eq_getElem hj'', Option.some.injEq] at hiff
      rw [hiff, show n + (flow.task - n - 1) + 1 = flow.task by omega]
    simp only [hjoins, hi, hj, hj', Reading.liftM_ok_bind, Reading.throw_bind, decide_true,
      if_true, dif_pos hi', dif_pos hj'', h.isSome_iff hlow hi', htaken, not_true, if_false]
    split
    · rfl
    · split
      · rfl
      · simp [Matched.put, Array.setIfInBounds, hi', hj'']
  · simp [hjoins]

end Matched.Holds

/-! ### All pairs -/

/-- The pairs before some pair of a pairing are a pairing. -/
theorem Pairing.of_append {after : List Flow} (h : Pairing n (flows ++ after)) :
    Pairing n flows where
  joins flow hflow := h.joins flow (List.mem_append_left _ hflow)
  nodup_workers := (List.nodup_append.1 (List.map_append ▸ h.nodup_workers)).1
  nodup_tasks := (List.nodup_append.1 (List.map_append ▸ h.nodup_tasks)).1

/-- Pairs are a pairing exactly if none of them has an issue. -/
theorem pairing_iff_passes : Pairing n flows ↔ Passes (Flow.issue? n) flows := by
  induction flows using List.reverseRecOn with
  | nil => exact iff_of_true (pairing_nil n) (passes_nil _)
  | append_singleton flows flow ih =>
    rw [pairing_append_singleton_iff, passes_append_singleton_iff, ih]

/-- Entering a pair into the tables finds its issue. -/
theorem findsIssues_add (hword : 2 * n < Word.bound) (flows : List Flow) :
    FindsIssues (Flow.issue? n) Flow.line (Matched.Holds n) (.empty n) (Matched.add n) flows where
  start := .empty n
  round_eq_throw before flow _ matched issue hholds hissue := by
    rw [hholds.add_eq hword, hissue]
  exists_round before flow _ matched hholds hissue :=
    ⟨matched.put n flow, by rw [hholds.add_eq hword, hissue], hholds.put hissue⟩

/-- Either the pairs are a pairing and all of them are entered, or the first one that has an issue
is reported. -/
theorem foldlM_add_cases (hword : 2 * n < Word.bound) (flows : List Flow) :
    (Pairing n flows ∧
      ∃ matched, flows.foldlM (Matched.add n) (.empty n) = pure matched ∧ matched.Holds n flows) ∨
    ∃ before flow after issue, flows = before ++ flow :: after ∧ Pairing n before ∧
      flow.issue? n before = some issue ∧
      flows.foldlM (Matched.add n) (.empty n) = throw (.onLine flow.line (.data issue)) := by
  have hfinds := findsIssues_add hword flows
  rcases passes_or_exists_firstIssue (Flow.issue? n) flows with hpasses | ⟨flow, issue, hfirst⟩
  · exact .inl ⟨pairing_iff_passes.2 hpasses, hfinds.exists_foldlM hpasses⟩
  · obtain ⟨before, after, hflows, hpasses, hissue⟩ := id hfirst
    exact .inr ⟨before, flow, after, issue, hflows, pairing_iff_passes.2 hpasses, hissue,
      hfinds.foldlM_eq_throw hfirst⟩

/-! ### As many pairs as workers -/

/-- Different numbers of an interval, as many as it has, are all of its numbers. -/
theorem perm_range'_of_nodup {xs : List Nat} {start : Nat} (hnodup : xs.Nodup)
    (hlength : xs.length = n) (hmem : ∀ x ∈ xs, start ≤ x ∧ x < start + n) :
    xs.Perm (List.range' start n) := by
  refine (List.subperm_of_subset hnodup fun x hx ↦ ?_).perm_of_length_le ?_
  · exact List.mem_range'_1.2 (hmem x hx)
  · exact Nat.le_of_eq (List.length_range'.trans hlength.symm)

/-- As many pairs as workers are a pairing if the workers are all workers and the tasks all
tasks. -/
theorem pairing_iff_perm (hlength : flows.length = n) : Pairing n flows ↔
    (flows.map Flow.worker).Perm (List.range' 1 n) ∧
      (flows.map Flow.task).Perm (List.range' (n + 1) n) := by
  constructor
  · rintro ⟨hjoins, hworkers, htasks⟩
    refine ⟨perm_range'_of_nodup hworkers (by rw [List.length_map, hlength]) ?_,
      perm_range'_of_nodup htasks (by rw [List.length_map, hlength]) ?_⟩
    · intro u hu
      obtain ⟨flow, hflow, rfl⟩ := List.mem_map.1 hu
      have := (hjoins flow hflow).1
      omega
    · intro v hv
      obtain ⟨flow, hflow, rfl⟩ := List.mem_map.1 hv
      have := (hjoins flow hflow).2
      omega
  · rintro ⟨hworkers, htasks⟩
    refine ⟨fun flow hflow ↦ ?_, hworkers.nodup_iff.2 List.nodup_range',
      htasks.nodup_iff.2 List.nodup_range'⟩
    have hworker := List.mem_range'_1.1 (hworkers.mem_iff.1 (List.mem_map_of_mem hflow))
    have htask := List.mem_range'_1.1 (htasks.mem_iff.1 (List.mem_map_of_mem hflow))
    rw [Flow.Joins]
    omega

section Assignment

variable (h : Pairing n flows) (hlength : flows.length = n) (hholds : matched.Holds n flows)

include h hholds in
/-- The table has the task of each pair at the place of its worker. -/
theorem Pairing.getElem?_taskOf (hflow : flow ∈ flows) :
    matched.taskOf.toList[flow.worker - 1]? = some (some (flow.task - n - 1)) := by
  obtain ⟨⟨hlow, hhigh⟩, -⟩ := h.joins flow hflow
  rw [Array.getElem?_toList, hholds.taskOf_iff _ (by omega)]
  exact ⟨flow, hflow, by omega, rfl⟩

include h hlength hholds in
/-- No place of the table is empty, as every worker occurs in a pair. -/
theorem Pairing.map_some_assignment : matched.assignment.map some = matched.taskOf.toList := by
  rw [Matched.assignment, List.map_filterMap]
  refine (List.filterMap_eq_map_iff_forall_eq_some.2 fun entry hentry ↦ ?_).trans (List.map_id _)
  obtain ⟨i, hi, rfl⟩ := List.mem_iff_getElem.1 hentry
  have hi' : i < n := by rwa [Array.length_toList, hholds.size_taskOf] at hi
  have hmem : i + 1 ∈ List.range' 1 n := List.mem_range'_1.2 ⟨by omega, by omega⟩
  obtain ⟨flow, hflow, hworker⟩ :=
    List.mem_map.1 (((pairing_iff_perm hlength).1 h).1.mem_iff.2 hmem)
  have hget := h.getElem?_taskOf hholds hflow
  rw [hworker, Nat.add_sub_cancel, List.getElem?_eq_getElem hi, Option.some.injEq] at hget
  rw [hget]
  rfl

include h hlength hholds in
/-- The assignment has the task of each pair at the place of its worker. -/
theorem Pairing.getElem?_assignment (hflow : flow ∈ flows) :
    matched.assignment[flow.worker - 1]? = some (flow.task - n - 1) := by
  have hget := h.getElem?_taskOf hholds hflow
  rw [← h.map_some_assignment hlength hholds, List.getElem?_map, Option.map_eq_some_iff] at hget
  obtain ⟨_, hget, ⟨⟩⟩ := hget
  exact hget

include h hlength hholds in
/-- The assignment is a permutation, as every task occurs in a pair. -/
theorem Pairing.perm_assignment : matched.assignment.Perm (List.range n) := by
  have hsize : matched.assignment.length = n := by
    rw [← List.length_map some, h.map_some_assignment hlength hholds, Array.length_toList,
      hholds.size_taskOf]
  refine ((List.subperm_of_subset List.nodup_range fun j hj ↦ ?_).perm_of_length_le ?_).symm
  · have hmem : n + 1 + j ∈ List.range' (n + 1) n :=
      List.mem_range'_1.2 ⟨by omega, Nat.add_lt_add_left (List.mem_range.1 hj) _⟩
    obtain ⟨flow, hflow, htask⟩ :=
      List.mem_map.1 (((pairing_iff_perm hlength).1 h).2.mem_iff.2 hmem)
    have hget := h.getElem?_assignment hlength hholds hflow
    rw [htask, show n + 1 + j - n - 1 = j by omega] at hget
    exact List.mem_of_getElem? hget
  · exact Nat.le_of_eq (hsize.trans List.length_range.symm)

end Assignment

end LinearAssignment.Dimacs
