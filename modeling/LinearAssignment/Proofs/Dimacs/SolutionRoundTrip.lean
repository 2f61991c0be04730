import LinearAssignment.Proofs.Dimacs.CompleteSolution
import LinearAssignment.Proofs.Dimacs.InstanceRoundTrip
import LinearAssignment.Proofs.Optimality

/-!
# Solutions that are read back

The file of a list of tasks spells the value and the pairs of each worker with its task
(`solutionItems`), on lines with consecutive numbers. Among these pairs no worker occurs twice, so
the first pair with an issue is the first one whose task is out of range or was given before
(`issue?_writtenFlows_eq_none_iff`). There is none exactly if the list is a permutation
(`pairing_writtenFlows_iff`), and only then the list is read back.
-/

namespace LinearAssignment

/-- Only if all lines can be composed, they are delivered to a sink that is never full. -/
theorem Text.exists_eq_ok_of_deliver {lines : List (Checked String)} {before text : String}
    (h : Text.deliver none before lines = pure text) : ∀ line ∈ lines, ∃ s, line = .ok s := by
  induction lines generalizing before with
  | nil => exact List.forall_mem_nil _
  | cons line lines ih =>
    obtain ⟨next, hline, hrest⟩ := Reading.bind_eq_pure_iff.1 h
    exact List.forall_mem_cons.2 ⟨⟨next, Reading.liftM_eq_pure_iff.1 hline⟩, ih hrest⟩

namespace Dimacs

variable {α : Type} {spelling : Spelling α} {a : List Nat} {v : α} {n i j : Nat} {text : String}

/-! ### Writing -/

/-- The fields of the line of an item. -/
def SolutionItem.spell (spelling : Spelling α) : SolutionItem α → List String
  | value v => ["s", spelling.write v]
  | pair worker task => ["f", toString worker, toString task, "1"]

/-- The items of a list of tasks with a value. -/
def solutionItems (a : List Nat) (v : α) : List (SolutionItem α) :=
  .value v :: a.zipIdx.map fun (j, i) ↦ .pair (i + 1) (a.length + j + 1)

/-- The text whose lines are the fields of the items of a list of tasks. -/
def solutionText (spelling : Spelling α) (a : List Nat) (v : α) : String :=
  String.join (((solutionItems a v).map (SolutionItem.spell spelling)).map fun fields ↦
    " ".intercalate fields ++ "\n")

theorem flowLine_eq_ok_iff {line : String} : flowLine n i j = .ok line ↔
    i + 1 < Word.bound ∧ n + j + 1 < Word.bound ∧
      " ".intercalate ["f", toString (i + 1), toString (n + j + 1), "1"] ++ "\n" = line := by
  have htext : "f " ++ toString (i + 1) ++ " " ++ toString (n + j + 1) ++ " 1\n" =
      " ".intercalate ["f", toString (i + 1), toString (n + j + 1), "1"] ++ "\n" := by
    simp only [show "f " = "f" ++ " " from rfl, show " 1\n" = " " ++ "1" ++ "\n" from rfl,
      String.intercalate_cons_cons, String.intercalate_singleton, String.append_assoc]
  rw [← htext]
  simp only [flowLine, Checked.bind_eq_ok_iff, Word.add_eq_ok_iff]
  constructor
  · rintro ⟨_, ⟨hi, rfl⟩, _, ⟨-, rfl⟩, _, ⟨hj, rfl⟩, hline⟩
    exact ⟨hi, hj, Except.ok.inj hline⟩
  · rintro ⟨hi, hj, rfl⟩
    exact ⟨_, ⟨hi, rfl⟩, _, ⟨Nat.lt_of_succ_lt hj, rfl⟩, _, ⟨hj, rfl⟩, rfl⟩

/-- If all node numbers are words, the lines of a list of tasks are those of its items. -/
theorem solutionLines_eq (hlength : a.length < Word.bound)
    (hwords : ∀ j ∈ a, a.length + j + 1 < Word.bound) : solutionLines spelling a v =
      (((solutionItems a v).map (SolutionItem.spell spelling)).map fun fields ↦
        " ".intercalate fields ++ "\n").map pure := by
  have hvalue : "s " ++ spelling.write v ++ "\n" =
      " ".intercalate ["s", spelling.write v] ++ "\n" := by
    simp only [show "s " = "s" ++ " " from rfl, String.intercalate_cons_cons,
      String.intercalate_singleton]
  simp only [solutionLines, solutionItems, List.map_cons, List.map_map, hvalue]
  refine congrArg (List.cons _) (List.map_congr_left fun (j, i) hmem ↦ ?_)
  have hi : i < a.length := (List.mem_zipIdx' hmem).1
  exact flowLine_eq_ok_iff.2
    ⟨Nat.lt_of_le_of_lt hi hlength, hwords j (List.fst_mem_of_mem_zipIdx hmem), rfl⟩

/-- A list of tasks is written exactly if all node numbers are words. -/
theorem writeSolution_none_eq_pure_iff (hlength : a.length < Word.bound) :
    writeSolution spelling none a v = pure text ↔
      (∀ j ∈ a, a.length + j + 1 < Word.bound) ∧ text = solutionText spelling a v := by
  have hwrite (hwords : ∀ j ∈ a, a.length + j + 1 < Word.bound) :
      writeSolution spelling none a v = pure (solutionText spelling a v) := by
    rw [writeSolution, solutionLines_eq hlength hwords, Text.deliver_none, String.empty_append,
      solutionText]
  constructor
  · intro h
    have hwords : ∀ j ∈ a, a.length + j + 1 < Word.bound := by
      intro j hj
      obtain ⟨i, hi, rfl⟩ := List.mem_iff_getElem.1 hj
      obtain ⟨line, hline⟩ := Text.exists_eq_ok_of_deliver h (flowLine a.length i a[i])
        (List.mem_cons_of_mem _ (List.mem_map.2
          ⟨(a[i], i), List.mem_zipIdx_iff_getElem?.2 (List.getElem?_eq_getElem hi), rfl⟩))
      exact (flowLine_eq_ok_iff.1 hline).2.1
    exact ⟨hwords, Reading.pure_eq_pure_iff.1 (h.symm.trans (hwrite hwords))⟩
  · rintro ⟨hwords, rfl⟩
    exact hwrite hwords

/-! ### The lines of the file -/

section Lines

variable (hfield : Text.IsField (spelling.write v))

include hfield in
/-- All fields of the file are fields. -/
theorem isField_of_mem_spell {item : SolutionItem α} (hitem : item ∈ solutionItems a v)
    {field : String} (hmem : field ∈ item.spell spelling) : Text.IsField field := by
  have hnumber := Numeral.isField_toString
  rcases List.mem_cons.1 hitem with rfl | hitem
  · simp only [SolutionItem.spell, List.mem_cons, List.not_mem_nil, or_false] at hmem
    rcases hmem with rfl | rfl
    · exact (by decide : Text.IsField "s")
    · exact hfield
  · obtain ⟨_, -, rfl⟩ := List.mem_map.1 hitem
    simp only [SolutionItem.spell, List.mem_cons, List.not_mem_nil, or_false] at hmem
    rcases hmem with rfl | rfl | rfl | rfl
    · exact (by decide : Text.IsField "f")
    · exact hnumber _
    · exact hnumber _
    · exact (by decide : Text.IsField "1")

include hfield in
/-- The lines of the file are its data lines. -/
theorem numberedDataLines_solutionText (a : List Nat) :
    numberedDataLines (solutionText spelling a v) =
      ((solutionItems a v).map (SolutionItem.spell spelling)).zipIdx 1 := by
  refine numberedDataLines_join (fun row hrow field hmem ↦ ?_) fun row hrow ↦ ?_
  · obtain ⟨item, hitem, rfl⟩ := List.mem_map.1 hrow
    exact isField_of_mem_spell hfield hitem hmem
  · obtain ⟨item, -, rfl⟩ := List.mem_map.1 hrow
    cases item <;> rfl

/-- The pair of worker `i` with task `j` in the file of `n` tasks. The value is on the first
line. -/
def writtenFlow (n i j : Nat) : Flow where
  line := i + 2
  worker := i + 1
  task := n + j + 1

@[simp]
theorem writtenFlow_worker (n i j : Nat) : (writtenFlow n i j).worker = i + 1 :=
  rfl

@[simp]
theorem writtenFlow_task (n i j : Nat) : (writtenFlow n i j).task = n + j + 1 :=
  rfl

/-- The pairs in the file of a list of tasks. -/
def writtenFlows (a : List Nat) : List Flow :=
  a.zipIdx.map fun (j, i) ↦ writtenFlow a.length i j

include hfield in
theorem flowsOf_solutionText (a : List Nat) :
    flowsOf (solutionText spelling a v) (solutionItems a v) = writtenFlows a := by
  have hzip (f : Nat × Nat → SolutionItem α) : (List.range' 2 a.length).zip (a.zipIdx.map f) =
      a.zipIdx.map fun p ↦ (p.2 + 2, f p) :=
    List.ext_getElem (by simp) fun i _ _ ↦ by simp [Nat.add_comm]
  -- the first line is that of the value
  have hlines : (numberedDataLines (solutionText spelling a v)).map Prod.snd =
      1 :: List.range' 2 a.length := by
    rw [numberedDataLines_solutionText hfield, List.zipIdx_map_snd, solutionItems]
    simp [List.range'_succ]
  rw [flowsOf, hlines, solutionItems, SolutionItem.flows, List.zip_cons_cons, hzip,
    List.filterMap_cons_none rfl, List.filterMap_map]
  exact congrFun List.filterMap_eq_map a.zipIdx

include hfield in
/-- The lines of the file spell the items if all node numbers are words. -/
theorem spells_solutionItems (hread : spelling.read (spelling.write v) = .ok v)
    (hlength : a.length < Word.bound) (hwords : ∀ j ∈ a, a.length + j + 1 < Word.bound) :
    List.Forall₂ (SolutionItem.Spells spelling) (dataLines (solutionText spelling a v))
      (solutionItems a v) := by
  rw [← map_fst_numberedDataLines, numberedDataLines_solutionText hfield, List.zipIdx_map_fst,
    List.forall₂_map_left_iff, List.forall₂_same]
  intro item hitem
  rcases List.mem_cons.1 hitem with rfl | hitem
  · exact ⟨_, rfl, hread⟩
  · obtain ⟨⟨j, i⟩, hmem, rfl⟩ := List.mem_map.1 hitem
    have hi : i < a.length := (List.mem_zipIdx' hmem).1
    exact ⟨_, _, _, rfl, Spelling.read_write_word (Nat.lt_of_le_of_lt hi hlength),
      Spelling.read_write_word (hwords j (List.fst_mem_of_mem_zipIdx hmem)),
      Spelling.read_write_word (by decide : 1 < Word.bound)⟩

include hfield in
/-- Reading the file of a list of tasks is entering its pairs. -/
theorem readSolution_solutionText (hread : spelling.read (spelling.write v) = .ok v)
    (hlength : a.length < Word.bound) (hwords : ∀ j ∈ a, a.length + j + 1 < Word.bound) :
    readSolution spelling (.ofString (solutionText spelling a v)) = do
      let matched ← enterPairs (writtenFlows a)
      return (v, matched.assignment) := by
  have hvalues : SolutionItem.values (solutionItems a v) = [v] := by
    simp [solutionItems, SolutionItem.values, SolutionItem.value?, List.filterMap_map,
      Function.comp_def]
  rw [readSolution_of_spells (spells_solutionItems hfield hread hlength hwords) hvalues,
    flowsOf_solutionText hfield]

end Lines

/-! ### The pairs of the file -/

/-- The task at a place of a list is out of range, or stands at a place before. -/
def Misassigned (a : List Nat) (i : Nat) : Prop :=
  ∃ j, a[i]? = some j ∧ (a.length ≤ j ∨ j ∈ a.take i)

theorem length_writtenFlows (a : List Nat) : (writtenFlows a).length = a.length := by
  simp [writtenFlows]

theorem getElem?_writtenFlows (hi : i < a.length) :
    (writtenFlows a)[i]? = some (writtenFlow a.length i a[i]) := by
  simp [writtenFlows, hi]

theorem map_worker_writtenFlows (a : List Nat) :
    (writtenFlows a).map Flow.worker = List.range' 1 a.length :=
  List.ext_getElem (by simp [writtenFlows]) fun i _ _ ↦ by
    simp [writtenFlows, Nat.add_comm]

theorem map_task_writtenFlows (a : List Nat) :
    (writtenFlows a).map Flow.task = a.map (a.length + 1 + ·) :=
  List.ext_getElem (by simp [writtenFlows]) fun i _ _ ↦ by
    simp [writtenFlows, Nat.add_right_comm]

/-- The pairs of the file are a pairing exactly if the list is a permutation. -/
theorem pairing_writtenFlows_iff :
    Pairing a.length (writtenFlows a) ↔ a.Perm (List.range a.length) := by
  rw [pairing_iff_perm (length_writtenFlows a), map_worker_writtenFlows, map_task_writtenFlows,
    List.range'_eq_map_range (s := a.length + 1),
    List.map_perm_map_iff fun _ _ ↦ Nat.add_left_cancel]
  exact and_iff_right (.refl _)

/-- A pair of the file has no issue exactly if its task is in range and was not given before. -/
theorem issue?_writtenFlows_eq_none_iff (hi : i < a.length) :
    Flow.issue? a.length ((writtenFlows a).take i) (writtenFlow a.length i a[i]) = none ↔
      ¬ Misassigned a i := by
  -- workers are written in order, so only a task can be there already
  have hworker :
      (writtenFlow a.length i a[i]).worker ∉ ((writtenFlows a).take i).map Flow.worker := by
    rw [List.map_take, map_worker_writtenFlows, List.mem_take_iff_getElem]
    rintro ⟨k, hk, heq⟩
    rw [List.getElem_range', writtenFlow_worker] at heq
    omega
  have htask : (writtenFlow a.length i a[i]).task ∈ ((writtenFlows a).take i).map Flow.task ↔
      a[i] ∈ a.take i := by
    rw [List.map_take, map_task_writtenFlows, ← List.map_take, writtenFlow_task,
      show a.length + a[i] + 1 = a.length + 1 + a[i] from Nat.add_right_comm _ _ _]
    exact List.mem_map_of_injective (fun _ _ ↦ Nat.add_left_cancel)
  have hmis : Misassigned a i ↔ a.length ≤ a[i] ∨ a[i] ∈ a.take i := by
    simp [Misassigned, hi]
  have hjoins : (writtenFlow a.length i a[i]).Joins a.length ↔ a[i] < a.length := by
    rw [Flow.Joins, writtenFlow_worker, writtenFlow_task]
    omega
  rw [Flow.issue?_eq_none_iff, htask, hmis, hjoins, not_or, Nat.not_le, and_iff_right hworker]

/-- The pairs of the first workers are a pairing exactly if none of these is misassigned. -/
theorem pairing_take_writtenFlows_iff {k : Nat} (hk : k ≤ a.length) :
    Pairing a.length ((writtenFlows a).take k) ↔ ∀ i < k, ¬ Misassigned a i := by
  induction k with
  | zero => exact iff_of_true (pairing_nil _) nofun
  | succ k ih =>
    rw [List.take_add_one, getElem?_writtenFlows hk, Option.toList_some,
      pairing_append_singleton_iff, ih (Nat.le_of_succ_le hk), issue?_writtenFlows_eq_none_iff hk]
    grind

/-! ### Permutations -/

section Reading

variable (hfield : Text.IsField (spelling.write v))
  (hread : spelling.read (spelling.write v) = .ok v) (hnodes : 2 * a.length < Word.bound)

/-- The assignment of the pairs of the file is the list. -/
theorem assignment_writtenFlows {matched : Matched} (h : Pairing a.length (writtenFlows a))
    (hholds : matched.Holds a.length (writtenFlows a)) : matched.assignment = a := by
  have hlength := length_writtenFlows a
  have hsize : matched.assignment.length = a.length :=
    (h.perm_assignment hlength hholds).length_eq.trans List.length_range
  refine List.ext_getElem hsize fun i hi hi' ↦ ?_
  have hget := h.getElem?_assignment hlength hholds
    (List.mem_of_getElem? (getElem?_writtenFlows hi'))
  rw [writtenFlow_worker, Nat.add_sub_cancel, List.getElem?_eq_getElem hi, Option.some.injEq,
    writtenFlow_task] at hget
  omega

include hfield hread hnodes in
/-- The file of a permutation is read as the permutation. -/
theorem readSolution_of_perm (hperm : a.Perm (List.range a.length)) :
    readSolution spelling (.ofString (solutionText spelling a v)) = pure (v, a) := by
  have hpairing : Pairing (writtenFlows a).length (writtenFlows a) :=
    length_writtenFlows a ▸ pairing_writtenFlows_iff.2 hperm
  obtain ⟨matched, hmatched, hholds⟩ :=
    hpairing.exists_enterPairs (length_writtenFlows a ▸ hnodes)
  rw [length_writtenFlows] at hpairing hholds
  rw [readSolution_solutionText hfield hread (by omega), hmatched, pure_bind,
    assignment_writtenFlows hpairing hholds]
  intro j hj
  have := List.mem_range.1 (hperm.mem_iff.1 hj)
  omega

include hfield hread hnodes in
/-- The file of another list is refused on the line of the first worker that is misassigned. -/
theorem readSolution_of_not_perm (hwords : ∀ j ∈ a, a.length + j + 1 < Word.bound)
    (hperm : ¬ a.Perm (List.range a.length)) :
    ∃ i issue, Misassigned a i ∧ (∀ i' < i, ¬ Misassigned a i') ∧
      readSolution spelling (.ofString (solutionText spelling a v)) =
        throw (.onLine (i + 2) (.data issue)) := by
  rcases foldlM_add_cases hnodes (writtenFlows a) with
    ⟨hpairing, -⟩ | ⟨before, flow, after, issue, hflows, hbefore, hissue, hfold⟩
  · exact absurd (pairing_writtenFlows_iff.1 hpairing) hperm
  · have hi : before.length < a.length := by
      rw [← length_writtenFlows a, hflows]
      simp
    -- the pair that ends the reading is that of the worker after the ones before it
    have htake : (writtenFlows a).take before.length = before := by rw [hflows, List.take_left]
    have hflow : flow = writtenFlow a.length before.length a[before.length] := by
      have hget := getElem?_writtenFlows hi
      rw [hflows, List.getElem?_append_right (Nat.le_refl _), Nat.sub_self] at hget
      exact Option.some.inj hget
    refine ⟨before.length, issue, ?_, ?_, ?_⟩
    · by_contra hmis
      rw [← issue?_writtenFlows_eq_none_iff hi, htake, ← hflow, hissue] at hmis
      cases hmis
    · rwa [← pairing_take_writtenFlows_iff (Nat.le_of_lt hi), htake]
    · rw [readSolution_solutionText hfield hread (by omega) hwords, enterPairs, length_writtenFlows,
        hfold, Reading.throw_bind, hflow, writtenFlow]

end Reading

/-- **Round trip of solutions.** A list of tasks is read back from its file, with its value, exactly
if it is a permutation. Every other list is refused, and the error names the line of the first
worker whose task is out of range or was given before. An assignment that was found is always read
back. -/
theorem readSolution_writeSolution {W : CostType} {v : Int} (hv : W.Fits v) :
    (∀ a text, a.length < 0x4000000000000000 →
      writeSolution (.integer W) none a v = pure text →
      (readSolution (.integer W) (.ofString text) = pure (v, a) ↔
        a.Perm (List.range a.length)) ∧
      (¬ a.Perm (List.range a.length) → ∃ i issue, Misassigned a i ∧
        (∀ i' < i, ¬ Misassigned a i') ∧
        readSolution (.integer W) (.ofString text) = throw (.onLine (i + 2) (.data issue)))) ∧
    ∀ (W' : CostType) (m : CostMatrix Int) (a : List Nat), m.Over W' → assign W' m = .ok a →
      ∃ text, writeSolution (.integer W) none a v = pure text ∧
        readSolution (.integer W) (.ofString text) = pure (v, a) := by
  have hfield : Text.IsField ((Spelling.integer W).write v) := Numeral.isField_write v
  have hread : (Spelling.integer W).read ((Spelling.integer W).write v) = .ok v :=
    Numeral.read_write hv
  constructor
  · intro a text hlength hwrite
    have hnodes : 2 * a.length < Word.bound :=
      Nat.lt_trans (Nat.mul_lt_mul_of_pos_left hlength Nat.two_pos) (by decide)
    obtain ⟨hwords, rfl⟩ := (writeSolution_none_eq_pure_iff (by omega)).1 hwrite
    have hrefused := readSolution_of_not_perm hfield hread hnodes hwords
    refine ⟨⟨fun h ↦ ?_, readSolution_of_perm hfield hread hnodes⟩, hrefused⟩
    by_contra hperm
    obtain ⟨_, _, -, -, herror⟩ := hrefused hperm
    exact Reading.throw_ne_pure (herror.symm.trans h)
  · intro W' m a hm ha
    have hperm := perm_of_assign hm ha
    have hlength : a.length = m.size := hperm.length_eq.trans List.length_range
    have hnodes : 2 * a.length < Word.bound := hlength ▸ two_mul_size_lt hm.length_lt
    have hwords : ∀ j ∈ a, a.length + j + 1 < Word.bound := by
      intro j hj
      have := List.mem_range.1 (hperm.mem_iff.1 hj)
      omega
    exact ⟨_, (writeSolution_none_eq_pure_iff (by omega)).2 ⟨hwords, rfl⟩,
      readSolution_of_perm hfield hread hnodes (hlength ▸ hperm)⟩

theorem readSolution_writeSolution_secondTask :
    (CostType.signed 8).Fits (-7) ∧
      writeSolution (.integer (.signed 8)) none [1, 1, 5] (-7) =
        pure "s -7\nf 1 5 1\nf 2 5 1\nf 3 9 1\n" ∧
      (∃ issue, readSolution (.integer (.signed 8))
        (.ofString "s -7\nf 1 5 1\nf 2 5 1\nf 3 9 1\n") = throw (.onLine 3 (.data issue))) ∧
      readSolution (.integer (.signed 8)) (.ofString "s -7\nf 1 4 1\nf 2 3 1\n") =
        pure (-7, [1, 0]) ∧
      CostMatrix.nearTop.Over (.signed 7) ∧
      assign (.signed 7) CostMatrix.nearTop = .ok [2, 1, 0] ∧
      ∃ text, writeSolution (.integer (.signed 8)) none [2, 1, 0] (-7) = pure text ∧
        readSolution (.integer (.signed 8)) (.ofString text) = pure (-7, [2, 1, 0]) := by
  have hfits : (CostType.signed 8).Fits (-7) := by decide
  obtain ⟨hlists, hanswers⟩ := readSolution_writeSolution hfits
  have hwrite : writeSolution (.integer (.signed 8)) none [1, 1, 5] (-7) =
    pure "s -7\nf 1 5 1\nf 2 5 1\nf 3 9 1\n" := rfl
  have hanswer : assign (.signed 7) CostMatrix.nearTop = .ok [2, 1, 0] := by decide +kernel
  obtain ⟨i, issue, hi, hfirst, hread⟩ :=
    (hlists [1, 1, 5] _ (by decide) hwrite).2 (by decide)
  -- the second worker has the task of the first
  obtain rfl : i = 1 := by
    have hsecond : Misassigned [1, 1, 5] 1 := ⟨1, rfl, .inr (by decide)⟩
    have hnotFirst : i ≠ 0 := by
      rintro rfl
      obtain ⟨j, ⟨⟩, h | h⟩ := hi
      · exact absurd h (by decide)
      · exact absurd h List.not_mem_nil
    have hle : i ≤ 1 := Nat.not_lt.1 fun hlt ↦ hfirst 1 hlt hsecond
    omega
  exact ⟨hfits, hwrite, ⟨issue, hread⟩,
    (hlists [1, 0] "s -7\nf 1 4 1\nf 2 3 1\n" (by decide) rfl).1.2 (by decide),
    CostMatrix.over_nearTop, hanswer, hanswers _ _ _ CostMatrix.over_nearTop hanswer⟩

end Dimacs

end LinearAssignment
