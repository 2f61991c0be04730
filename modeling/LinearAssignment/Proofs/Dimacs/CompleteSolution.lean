import LinearAssignment.Proofs.Dimacs.CompleteInstance
import LinearAssignment.Proofs.Dimacs.Pairing
import LinearAssignment.Proofs.Dimacs.SolutionItems

/-!
# Complete solutions

A text is the file of a solution if its data lines are, in any order, one line with the value and a
line for each pair, such that each worker and each task occurs in one pair (`IsSolution`). The
number of workers is the number of pairs. Exactly these texts are read
(`exists_readSolution_iff_isSolution`). Reading never asks whether every worker occurs, and would
leave out a worker that does not, so that later tasks were given to wrong workers; but there are as
many pairs as workers, and no worker occurs twice.
-/

namespace LinearAssignment.Dimacs

variable {α : Type} {spelling : Spelling α} {text : String} {v : α} {a : List Nat}
  {flows : List Flow} {items : List (SolutionItem α)} {pairs : List (Nat × Nat)}

/-- The text is the file of a solution with some value and pairs: its data lines are the line of the
value and those of the pairs, and each worker and each task occurs in one of the pairs. -/
structure IsSolution (spelling : Spelling α) (text : String) (v : α) (pairs : List (Nat × Nat)) :
    Prop where
  /-- What the data lines say. -/
  lines : ∃ items, List.Forall₂ (SolutionItem.Spells spelling) (dataLines text) items ∧
    SolutionItem.values items = [v] ∧ SolutionItem.pairs items = pairs
  /-- The workers are the first nodes. -/
  workers : (pairs.map Prod.fst).Perm (List.range' 1 pairs.length)
  /-- The tasks are the nodes after the workers. -/
  tasks : (pairs.map Prod.snd).Perm (List.range' (pairs.length + 1) pairs.length)

/-- The list has the task of each worker, with workers and tasks counted from zero on. -/
structure IsAssignmentOf (pairs : List (Nat × Nat)) (a : List Nat) : Prop where
  /-- There is a task for each worker. -/
  length_eq : a.length = pairs.length
  /-- The task of a worker is that of its pair. -/
  getElem?_eq : ∀ p ∈ pairs, a[p.1 - 1]? = some (p.2 - pairs.length - 1)
  /-- The tasks are all tasks. -/
  perm : a.Perm (List.range pairs.length)

/-! ### The pairs of a file -/

/-- The tables of as many workers as there are pairs, with the pairs entered. -/
def enterPairs (flows : List Flow) : Reading Matched :=
  flows.foldlM (Matched.add flows.length) (.empty flows.length)

/-- The pairs that some items name on the data lines of a text. -/
def flowsOf (text : String) (items : List (SolutionItem α)) : List Flow :=
  SolutionItem.flows ((numberedDataLines text).map Prod.snd) items

theorem map_flowsOf
    (hspells : List.Forall₂ (SolutionItem.Spells spelling) (dataLines text) items) :
    (flowsOf text items).map (fun flow ↦ (flow.worker, flow.task)) = SolutionItem.pairs items := by
  refine SolutionItem.map_flows ?_
  rw [← hspells.length_eq, ← map_fst_numberedDataLines, List.length_map, List.length_map]

/-- A pair is entered only if the nodes of the instance are words. -/
theorem two_mul_lt_of_add {n : Nat} {matched matched' : Matched} {flow : Flow}
    (h : matched.add n flow = pure matched') : 2 * n < Word.bound := by
  rw [Matched.add, Reading.bind_eq_pure_iff] at h
  obtain ⟨joins, hjoins, h⟩ := h
  rw [Reading.liftM_eq_pure_iff, isPair] at hjoins
  split at hjoins
  · obtain rfl := Except.ok.inj hjoins
    exact absurd h Reading.throw_ne_pure
  · cases hmul : Word.mul 2 n with
    | error fault =>
      rw [hmul] at hjoins
      cases hjoins
    | ok nodes => exact (Word.mul_eq_ok_iff.1 hmul).1

/-- The pairs of a file are entered only if they are a pairing, and then they determine the
assignment. -/
theorem enterPairs_eq_pure {matched : Matched} (h : enterPairs flows = pure matched) :
    Pairing flows.length flows ∧ matched.Holds flows.length flows := by
  have hword : 2 * flows.length < Word.bound := by
    cases flows with
    | nil => decide
    | cons flow flows =>
      rw [enterPairs, List.foldlM_cons, Reading.bind_eq_pure_iff] at h
      obtain ⟨first, hfirst, -⟩ := h
      exact two_mul_lt_of_add hfirst
  rcases foldlM_add_cases hword flows with ⟨hpairing, matched', hfold, hholds⟩ | hissue
  · rw [enterPairs, hfold, Reading.pure_eq_pure_iff] at h
    exact ⟨hpairing, h ▸ hholds⟩
  · obtain ⟨_, _, _, _, -, -, -, hfold⟩ := hissue
    rw [enterPairs, hfold] at h
    exact absurd h Reading.throw_ne_pure

/-- The pairs of a pairing are entered. -/
theorem Pairing.exists_enterPairs (h : Pairing flows.length flows)
    (hword : 2 * flows.length < Word.bound) :
    ∃ matched, enterPairs flows = pure matched ∧ matched.Holds flows.length flows := by
  rcases foldlM_add_cases hword flows with ⟨-, hfold⟩ | ⟨before, flow, after, _, rfl, -, hissue, -⟩
  · exact hfold
  · have happend : Pairing (before ++ flow :: after).length (before ++ [flow] ++ after) := by
      rwa [← List.append_cons]
    rw [(pairing_append_singleton_iff.1 happend.of_append).2] at hissue
    cases hissue

/-! ### The whole file -/

/-- If the data lines spell items with one value, the pairs among them are entered. -/
theorem readSolution_of_spells
    (hspells : List.Forall₂ (SolutionItem.Spells spelling) (dataLines text) items)
    (hvalues : SolutionItem.values items = [v]) :
    readSolution spelling (.ofString text) = do
      let matched ← enterPairs (flowsOf text items)
      return (v, matched.assignment) := by
  have hdraft : (Listing.ofSource (.ofString text)).entries.foldlM
      (SolutionDraft.readEntry spelling) .empty =
        pure ⟨some v, (flowsOf text items).toArray⟩ := by
    refine foldlM_readEntry_eq_pure_iff.2 ⟨items, ?_, Nat.le_of_eq (by rw [hvalues]; rfl), ?_⟩
    · rwa [Listing.map_allFields_entries]
    · rw [SolutionDraft.ofItems, hvalues, Listing.map_line_entries]
      rfl
  rw [readSolution, hdraft, Listing.checkEnd_ofString]
  simp only [pure_bind, List.size_toArray, List.foldlM_toArray']
  rfl

/-- The data lines of a text that is read spell items with one value. -/
theorem exists_items_of_readSolution (h : readSolution spelling (.ofString text) = pure (v, a)) :
    ∃ items, List.Forall₂ (SolutionItem.Spells spelling) (dataLines text) items ∧
      SolutionItem.values items = [v] := by
  rw [readSolution, Reading.bind_eq_pure_iff] at h
  obtain ⟨draft, hdraft, h⟩ := h
  obtain ⟨items, hspells, hvalues, rfl⟩ := foldlM_readEntry_eq_pure_iff.1 hdraft
  rw [Listing.map_allFields_entries] at hspells
  rw [Listing.checkEnd_ofString, pure_bind, SolutionDraft.ofItems] at h
  refine ⟨items, hspells, ?_⟩
  cases hitems : SolutionItem.values items with
  | nil =>
    rw [hitems] at h
    exact absurd h Reading.throw_ne_pure
  | cons v' rest =>
    rw [hitems] at h hvalues
    obtain ⟨matched, -, heq⟩ := Reading.bind_eq_pure_iff.1 h
    obtain rfl : v' = v := (Prod.mk.inj (Reading.pure_eq_pure_iff.1 heq)).1
    have hrest : rest = [] := by simpa using hvalues
    rw [hrest]

theorem Pairing.isAssignmentOf {matched : Matched} (h : Pairing flows.length flows)
    (hholds : matched.Holds flows.length flows) :
    IsAssignmentOf (flows.map fun flow ↦ (flow.worker, flow.task)) matched.assignment := by
  have hperm := h.perm_assignment rfl hholds
  refine ⟨?_, fun p hp ↦ ?_, by rwa [List.length_map]⟩
  · rw [hperm.length_eq, List.length_range, List.length_map]
  · obtain ⟨flow, hflow, rfl⟩ := List.mem_map.1 hp
    rw [List.length_map]
    exact h.getElem?_assignment rfl hholds hflow

/-- If the data lines spell items with one value, and the pairs among them are a pairing, the text
is the file of a solution. -/
theorem Pairing.isSolution (h : Pairing (flowsOf text items).length (flowsOf text items))
    (hspells : List.Forall₂ (SolutionItem.Spells spelling) (dataLines text) items)
    (hvalues : SolutionItem.values items = [v]) :
    IsSolution spelling text v (SolutionItem.pairs items) := by
  obtain ⟨hworkers, htasks⟩ := (pairing_iff_perm rfl).1 h
  refine ⟨⟨items, hspells, hvalues, rfl⟩, ?_, ?_⟩
  · rw [← map_flowsOf hspells, List.map_map, List.length_map]
    exact hworkers
  · rw [← map_flowsOf hspells, List.map_map, List.length_map]
    exact htasks

/-- A text that is read is the file of a solution. -/
theorem exists_isSolution_of_read (h : readSolution spelling (.ofString text) = pure (v, a)) :
    ∃ pairs, IsSolution spelling text v pairs := by
  obtain ⟨items, hspells, hvalues⟩ := exists_items_of_readSolution h
  rw [readSolution_of_spells hspells hvalues, Reading.bind_eq_pure_iff] at h
  obtain ⟨matched, hmatched, -⟩ := h
  exact ⟨_, (enterPairs_eq_pure hmatched).1.isSolution hspells hvalues⟩

/-- The nodes of the file of a solution are words. -/
theorem IsSolution.two_mul_lt (h : IsSolution spelling text v pairs) :
    2 * pairs.length < Word.bound := by
  obtain ⟨⟨items, hspells, -, rfl⟩, -, htasks⟩ := h
  rcases Nat.eq_zero_or_pos (SolutionItem.pairs items).length with hzero | hpos
  · rw [hzero]
    decide
  · have hlast : 2 * (SolutionItem.pairs items).length ∈ List.range'
        ((SolutionItem.pairs items).length + 1) (SolutionItem.pairs items).length := by
      rw [List.mem_range'_1]
      omega
    -- the last task is on the line of some pair
    obtain ⟨p, hp, htask⟩ := List.mem_map.1 (htasks.mem_iff.2 hlast)
    exact htask ▸ (SolutionItem.lt_bound_of_mem_pairs hspells hp).2

/-- The file of a solution is read as its value and the assignment of its pairs. -/
theorem IsSolution.exists_read (h : IsSolution spelling text v pairs) :
    ∃ a, readSolution spelling (.ofString text) = pure (v, a) ∧ IsAssignmentOf pairs a := by
  have hword := h.two_mul_lt
  obtain ⟨⟨items, hspells, hvalues, rfl⟩, hworkers, htasks⟩ := h
  rw [readSolution_of_spells hspells hvalues]
  rw [← map_flowsOf hspells, List.length_map] at hword
  rw [← map_flowsOf hspells, List.map_map, List.length_map] at hworkers htasks
  have hpairing := (pairing_iff_perm rfl).2 ⟨hworkers, htasks⟩
  obtain ⟨matched, hmatched, hholds⟩ := hpairing.exists_enterPairs hword
  rw [hmatched, ← map_flowsOf hspells]
  exact ⟨matched.assignment, rfl, hpairing.isAssignmentOf hholds⟩

/-- **Which texts are solutions.** Exactly the files of solutions are read, and what is read is the
value together with the task of each worker. No task is left out, and none is given twice. -/
theorem exists_readSolution_iff_isSolution (spelling : Spelling α) (text : String) (v : α) :
    ((∃ a, readSolution spelling (.ofString text) = pure (v, a)) ↔
      ∃ pairs, IsSolution spelling text v pairs) ∧
    ∀ pairs a, IsSolution spelling text v pairs →
      readSolution spelling (.ofString text) = pure (v, a) → IsAssignmentOf pairs a := by
  refine ⟨⟨?_, ?_⟩, ?_⟩
  · rintro ⟨a, h⟩
    exact exists_isSolution_of_read h
  · rintro ⟨pairs, h⟩
    obtain ⟨a, ha, -⟩ := h.exists_read
    exact ⟨a, ha⟩
  · intro pairs a h ha
    obtain ⟨a', ha', hassignment⟩ := h.exists_read
    obtain ⟨-, rfl⟩ := Prod.mk.inj (Reading.pure_eq_pure_iff.1 (ha'.symm.trans ha))
    exact hassignment

/-- A solution with the line of the value between those of the pairs. -/
def valueBetween : String :=
  "f 2 3 1\nc  value\n\ts -3\r\n\nf  1 4 1"

theorem exists_readSolution_iff_isSolution_valueBetween :
    IsSolution (.integer (.signed 8)) valueBetween (-3) [(2, 3), (1, 4)] ∧
      readSolution (.integer (.signed 8)) (.ofString valueBetween) = pure (-3, [1, 0]) ∧
      IsAssignmentOf [(2, 3), (1, 4)] [1, 0] := by
  have hlines : dataLines valueBetween =
    [["f", "2", "3", "1"], ["s", "-3"], ["f", "1", "4", "1"]] := by decide +kernel
  have hsolution : IsSolution (.integer (.signed 8)) valueBetween (-3) [(2, 3), (1, 4)] :=
    { lines := ⟨[.pair 2 3, .value (-3), .pair 1 4], hlines ▸
        .cons ⟨"2", "3", "1", rfl, by decide +kernel, by decide +kernel, by decide +kernel⟩
          (.cons ⟨"-3", rfl, by decide +kernel⟩ (.cons ⟨"1", "4", "1", rfl, by decide +kernel,
            by decide +kernel, by decide +kernel⟩ .nil)), rfl, rfl⟩
      workers := by decide
      tasks := by decide }
  have hread : readSolution (.integer (.signed 8)) (.ofString valueBetween) =
    pure (-3, [1, 0]) := by decide +kernel
  obtain ⟨-, hassignment⟩ :=
    exists_readSolution_iff_isSolution (.integer (.signed 8)) valueBetween (-3)
  exact ⟨hsolution, hread, hassignment _ _ hsolution hread⟩

end LinearAssignment.Dimacs
