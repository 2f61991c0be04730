import LinearAssignment.Proofs.Dimacs.CompleteSolution

/-!
# Reading always ends with an answer

A reading has an answer if it gives a value or an error, and not a fault (`Reading.Answers`). Most
parts of the readers have an answer on any fields. The others subtract from a node that has been
checked, compute the cell of an arc, or look into a table, and they have one because of what was
read before. So the lemma for a bind hands the value of its first part to the second
(`Reading.Answers.bind`), and the one for a loop hands the state after the earlier rounds to a round
(`Reading.answers_foldlM`).

Two errors are internal: that a cost is missing, and that the costs have the wrong number. After all
arcs have been placed there is no empty cell, since there are as many arcs as cells
(`InstanceDraft.Holds.complete`), so neither is reported.
-/

namespace LinearAssignment.Dimacs

/-- A flaw that no file has, because others are found before it. Every other flaw has `id` as a
proof that it is not internal. -/
def Issue.IsInternal : Issue → Prop
  | .data .incomplete => True
  | .data (.shape _) => True
  | _ => False

/-- An error that no file leads to. -/
def Error.IsInternal : Error → Prop
  | .unreadable _ => False
  | .onLine _ issue => issue.IsInternal

/-- A flaw that is looked for only after the last line, when it is known which lines there are. -/
def Issue.IsDeferred : Issue → Prop
  | .format .missingProblem => True
  | .format .missingValue => True
  | .data (.wrongWorkers ..) => True
  | .data (.wrongArcs ..) => True
  | .data (.sourceNotWorker _) => True
  | .data (.sinkNotTask _) => True
  | .data (.duplicateArc ..) => True
  | .data .incomplete => True
  | .data (.shape _) => True
  | .data (.invalidPair ..) => True
  | .data (.workerTwice _) => True
  | .data (.taskTwice _) => True
  | _ => False

/-- An error that is looked for only after the last line. -/
def Error.IsDeferred : Error → Prop
  | .unreadable _ => False
  | .onLine _ issue => issue.IsDeferred

theorem Error.IsInternal.isDeferred {e : Error} (h : e.IsInternal) : e.IsDeferred := by
  cases e with
  | unreadable e => exact h
  | onLine line issue =>
    cases issue with
    | format issue => exact h.elim
    | data issue => cases issue <;> first | exact trivial | exact h.elim

/-! ### Answers -/

open Reading

/-- Internal errors are looked for only after the last line. -/
theorem answers_not_isInternal {α : Type} {x : Reading α}
    (h : Answers (¬ Error.IsDeferred ·) x) : Answers (¬ Error.IsInternal ·) x :=
  h.mono fun _ ↦ mt Error.IsInternal.isDeferred

/-! ### Lines -/

namespace FieldReader

variable {α β : Type} {fields : List String}

/-- A reader of fields ends with a value or with a flaw that is not left to the end. -/
def AnswersOn (fields : List String) (reader : FieldReader α) : Prop :=
  Answers (¬ Issue.IsDeferred ·) (reader.run fields)

theorem answersOn_pure (fields : List String) (a : α) : AnswersOn fields (pure a) :=
  answers_pure _

theorem answersOn_malformed (fields : List String) {issue : FormatIssue}
    (h : ¬ (Issue.format issue).IsDeferred) :
    AnswersOn fields (malformed issue : FieldReader α) :=
  answers_throw h

theorem answersOn_invalid (fields : List String) {issue : DataIssue}
    (h : ¬ (Issue.data issue).IsDeferred) : AnswersOn fields (invalid issue : FieldReader α) :=
  answers_throw h

theorem AnswersOn.bind {x : FieldReader α} {f : α → FieldReader β} (hx : AnswersOn fields x)
    (hf : ∀ a rest, x.run fields = pure (a, rest) → AnswersOn rest (f a)) :
    AnswersOn fields (x >>= f) := by
  rw [AnswersOn, StateT.run_bind]
  exact Answers.bind hx fun (a, rest) h ↦ hf a rest h

theorem answersOn_ite {c : Prop} [Decidable c] {x y : FieldReader α} (hx : c → AnswersOn fields x)
    (hy : ¬ c → AnswersOn fields y) : AnswersOn fields (if c then x else y) := by
  split
  · exact hx ‹_›
  · exact hy ‹_›

/-- After a flaw, no more is read. -/
theorem answersOn_invalid_bind {issue : DataIssue} {f : β → FieldReader α}
    (h : ¬ (Issue.data issue).IsDeferred) : AnswersOn fields (invalid issue >>= f) :=
  (answersOn_invalid fields h).bind fun _ _ hrun ↦ absurd hrun (run_invalid_ne_pure fields)

theorem answersOn_malformed_bind {issue : FormatIssue} {f : β → FieldReader α}
    (h : ¬ (Issue.format issue).IsDeferred) : AnswersOn fields (malformed issue >>= f) :=
  (answersOn_malformed fields h).bind fun _ _ hrun ↦
    absurd hrun (run_malformed_ne_pure fields)

theorem answersOn_field (fields : List String) (spelling : Spelling α) (what : String) :
    AnswersOn fields (field spelling what) := by
  cases fields with
  | nil => exact answersOn_malformed [] id
  | cons token rest =>
    simp only [field, AnswersOn, StateT.run_bind, StateT.run_get, pure_bind]
    split
    · exact answers_pure _
    · exact answersOn_malformed _ id

theorem answersOn_keyword (fields : List String) (word : String) :
    AnswersOn fields (keyword word) := by
  cases fields with
  | nil => exact answersOn_malformed [] id
  | cons token rest =>
    simp only [keyword, AnswersOn, StateT.run_bind, StateT.run_get, pure_bind]
    split
    · exact answers_pure _
    · exact answersOn_malformed _ id

theorem answersOn_finish (fields : List String) : AnswersOn fields finish := by
  cases fields with
  | nil => exact answersOn_pure [] _
  | cons token rest => exact answersOn_malformed (token :: rest) id

theorem answersOn_finish_pure (fields : List String) (a : α) :
    AnswersOn fields (finish >>= fun _ ↦ pure a) :=
  (answersOn_finish fields).bind fun _ rest _ ↦ answersOn_pure rest a

theorem answersOn_sub_one {u : Nat} (hu : 1 ≤ u) (fields : List String) :
    AnswersOn fields (liftM (Word.sub u 1)) := by
  rw [Word.sub_eq_ok_iff.2 ⟨hu, rfl⟩]
  exact answersOn_pure fields _

/-- Checking a node has an answer, and what follows it has one if it does so for nodes. -/
theorem answersOn_checkNode_bind {header : Header} {node : Nat} {f : Unit → FieldReader α}
    (hf : 1 ≤ node → AnswersOn fields (f ())) :
    AnswersOn fields (InstanceDraft.checkNode header node >>= f) := by
  rw [InstanceDraft.checkNode]
  split
  · rw [pure_bind]
    exact hf (And.left ‹_›)
  · exact answersOn_invalid_bind id

end FieldReader

open FieldReader

section Lines

variable {α : Type} (spelling : Spelling α) (header : Header) (line : Nat) (fields : List String)
  (entry : Entry)

theorem answersOn_readValue (draft : SolutionDraft α) :
    AnswersOn fields (draft.readValue spelling) := by
  refine answersOn_ite (fun _ ↦ answersOn_malformed_bind id) fun _ ↦ ?_
  refine (answersOn_field _ _ _).bind fun value rest _ ↦ ?_
  exact answersOn_finish_pure rest _

theorem answersOn_readFlow (draft : SolutionDraft α) : AnswersOn fields (draft.readFlow line) := by
  refine (answersOn_field _ _ _).bind fun worker rest _ ↦ ?_
  refine (answersOn_field _ _ _).bind fun task rest _ ↦ ?_
  refine (answersOn_field _ _ _).bind fun flow rest _ ↦ ?_
  refine answersOn_ite (fun _ ↦ ?_) fun _ ↦ answersOn_invalid_bind id
  exact answersOn_finish_pure rest _

theorem answersOn_readWorker (draft : InstanceDraft α) :
    AnswersOn fields (draft.readWorker header) := by
  refine (answersOn_field _ _ _).bind fun u rest _ ↦ ?_
  refine answersOn_checkNode_bind fun hu ↦ ?_
  refine answersOn_ite (fun _ ↦ answersOn_invalid_bind id) fun _ ↦ ?_
  refine (answersOn_sub_one hu rest).bind fun node rest _ ↦ ?_
  refine answersOn_ite (fun _ ↦ answersOn_invalid_bind id) fun _ ↦ ?_
  exact answersOn_finish_pure rest _

theorem answersOn_readArc (draft : InstanceDraft α) :
    AnswersOn fields (draft.readArc spelling header line) := by
  refine (answersOn_field _ _ _).bind fun u rest _ ↦ ?_
  refine (answersOn_field _ _ _).bind fun v rest _ ↦ ?_
  refine (answersOn_field _ _ _).bind fun cost rest _ ↦ ?_
  refine answersOn_checkNode_bind fun hu ↦ ?_
  refine answersOn_checkNode_bind fun hv ↦ ?_
  refine answersOn_ite (fun _ ↦ answersOn_invalid_bind id) fun _ ↦ ?_
  refine (answersOn_sub_one hu rest).bind fun source rest _ ↦ ?_
  refine (answersOn_sub_one hv rest).bind fun sink rest _ ↦ ?_
  exact answersOn_finish_pure rest _

/-- A reader on the fields of an entry has an answer on the entry. -/
theorem Entry.answers_run {entry : Entry} {reader : FieldReader α}
    (h : AnswersOn entry.fields reader) : Answers (¬ Error.IsDeferred ·) (entry.run reader) := by
  rw [Entry.run, StateT.run'_eq, map_eq_pure_bind]
  exact (Answers.bind h fun _ _ ↦ answers_pure _).adapt fun _ hissue ↦ hissue

theorem answers_readHeader : Answers (¬ Error.IsDeferred ·) (readHeader entry) := by
  refine entry.answers_run (answersOn_ite (fun _ ↦ ?_) fun _ ↦ answersOn_malformed_bind id)
  refine (answersOn_keyword _ _).bind fun _ rest _ ↦ ?_
  refine (answersOn_field _ _ _).bind fun nodes rest _ ↦ ?_
  refine (answersOn_field _ _ _).bind fun arcs rest _ ↦ ?_
  refine answersOn_ite (fun _ ↦ ?_) fun _ ↦ answersOn_invalid_bind id
  refine answersOn_ite (fun _ ↦ ?_) fun _ ↦ answersOn_invalid_bind id
  exact answersOn_finish_pure rest _

theorem InstanceDraft.answers_readEntry (draft : InstanceDraft α) :
    Answers (¬ Error.IsDeferred ·) (draft.readEntry spelling header entry) := by
  refine entry.answers_run ?_
  split
  · exact answersOn_readWorker header _ draft
  · exact answersOn_readArc spelling header _ _ draft
  · exact answersOn_malformed _ id

theorem SolutionDraft.answers_readEntry (draft : SolutionDraft α) :
    Answers (¬ Error.IsDeferred ·) (draft.readEntry spelling entry) := by
  refine entry.answers_run ?_
  split
  · exact answersOn_readValue spelling _ draft
  · exact answersOn_readFlow _ _ draft
  · exact answersOn_malformed _ id

theorem Listing.answers_checkEnd (listing : Listing) :
    Answers (¬ Error.IsInternal ·) listing.checkEnd := by
  rw [checkEnd]
  split
  · exact answers_throw id
  · exact answers_pure _

end Lines

/-! ### Arcs -/

section Arcs

variable {α : Type} {n line : Nat} {workers : List Nat} {items : List (Item α)}

/-- An arc between nodes has an answer if the table has a cell for each worker and each task. -/
theorem answers_placeArc {draft : Array Nat} (h : Sides n workers)
    (hdraft : draft.toList.map (· + 1) = workers) (hword : n * n < Word.bound)
    {table : Array (Option α)} (htable : table.size = n * n) {arc : Arc α}
    (hsource : arc.source < 2 * n) (hsink : arc.sink < 2 * n) :
    Answers (¬ Error.IsInternal ·) (placeArc ⟨line, n, n * n⟩ draft table arc) := by
  have hnodes : (⟨line, n, n * n⟩ : Header).nodes = 2 * n := rfl
  rw [placeArc, hnodes, h.roleOf_eq hdraft hsource, h.roleOf_eq hdraft hsink]
  by_cases hu : arc.source + 1 ∈ workers
  · by_cases hv : arc.sink + 1 ∈ workers
    · rw [if_pos hu, if_pos hv]
      exact answers_throw id
    · -- only here something is computed: the place of the cell, which is one of the table
      have hlt : Nat.count (· ∈ workers) (arc.source + 1) * n +
          Nat.count (IsTask n workers) (arc.sink + 1) < n * n :=
        h.cellOf_lt hu ⟨Nat.succ_pos _, hsink, hv⟩
      have hcell := Nat.lt_trans hlt hword
      have hrow := Nat.lt_of_le_of_lt (Nat.le_add_right _ _) hcell
      rw [if_pos hu, if_neg hv]
      simp only [liftM_ok_bind, Word.mul_eq_ok_iff.2 ⟨hrow, rfl⟩,
        Word.add_eq_ok_iff.2 ⟨hcell, rfl⟩]
      rw [dif_pos (htable.symm ▸ hlt)]
      split
      · exact answers_throw id
      · exact answers_pure _
  · rw [if_neg hu]
    simp only [liftM_ok_bind]
    exact answers_throw id

theorem answers_foldlM_placeArc {draft : Array Nat} (h : Sides n workers)
    (hdraft : draft.toList.map (· + 1) = workers) (hword : n * n < Word.bound)
    {arcs : List (Arc α)} (hnodes : ∀ arc ∈ arcs, arc.source < 2 * n ∧ arc.sink < 2 * n) :
    Answers (¬ Error.IsInternal ·)
      (arcs.foldlM (placeArc ⟨line, n, n * n⟩ draft) (Array.replicate (n * n) none)) := by
  refine answers_foldlM fun before arc after harcs table htable ↦ ?_
  obtain ⟨-, -, rfl⟩ := (foldlM_placeArc_eq_pure_iff h hdraft hword fun arc' hmem ↦
    hnodes arc' (harcs ▸ List.mem_append_left _ hmem)).1 htable
  have hends := hnodes arc (harcs ▸ List.mem_append_right _ List.mem_cons_self)
  exact answers_placeArc h hdraft hword (size_filled before) hends.1 hends.2

variable {draft : InstanceDraft α}

/-- If as many arcs as cells join workers to tasks, and no two have the same cell, there is an arc
from each worker to each task. -/
theorem InstanceDraft.Holds.complete (h : draft.Holds items)
    (hsides : Sides n (Item.workers items)) (hlength : (Item.ends items).length = n * n)
    (hjoins : ∀ arc ∈ draft.arcs.toList, arc.Joins n (Item.workers items))
    (hnodup : (draft.arcs.toList.map fun arc ↦ cellOf n (Item.workers items) arc.item.1).Nodup) :
    Complete n items := by
  rw [← h.map_cellOf_ends] at hnodup
  have hends : ∀ e ∈ Item.ends items, e.1 ∈ Item.workers items ∧
      IsTask n (Item.workers items) e.2 := by
    intro e he
    rw [← h.ends_eq] at he
    obtain ⟨arc, harc, rfl⟩ := List.mem_map.1 he
    exact hjoins arc harc
  have hcells : ((Item.ends items).map (cellOf n (Item.workers items))).Perm
      (List.range' 0 (n * n)) := by
    refine perm_range'_of_nodup hnodup (by rw [List.length_map, hlength]) fun k hk ↦ ?_
    obtain ⟨e, he, rfl⟩ := List.mem_map.1 hk
    exact ⟨Nat.zero_le _, by simpa using hsides.cellOf_lt (hends e he).1 (hends e he).2⟩
  refine ⟨hsides, hlength, fun u hu v hv ↦ List.count_eq_one_of_mem hnodup.of_map ?_⟩
  -- the cell of the worker and the task is that of some arc, which is between these nodes
  obtain ⟨e, he, heq⟩ := List.mem_map.1 (hcells.mem_iff.2
    (List.mem_range'_1.2 ⟨Nat.zero_le _, by simpa using hsides.cellOf_lt hu hv⟩))
  exact hsides.cellOf_inj (hends e he).1 hu (hends e he).2 hv heq ▸ he

/-- With the right numbers of workers and arcs, the table is a matrix once all arcs are placed. -/
theorem InstanceDraft.Holds.exists_matrixOfTable (h : draft.Holds items) (hfits : Fits n items)
    (hworkers : draft.workers.size = n) (harcs : draft.arcs.size = n * n)
    (hword : n * n < Word.bound) {table : Array (Option α)}
    (htable : draft.arcs.toList.foldlM (placeArc ⟨line, n, n * n⟩ draft.workers)
      (Array.replicate (n * n) none) = pure table) :
    ∃ m, matrixOfTable ⟨line, n, n * n⟩ table = pure m := by
  have hsides := h.sides hfits hworkers
  have hlength := h.length_ends.trans harcs
  have hnodes : ∀ arc ∈ draft.arcs.toList, arc.source < 2 * n ∧ arc.sink < 2 * n :=
    fun _ ↦ hfits.arc_lt h
  obtain ⟨hjoins, hnodup, -⟩ :=
    (foldlM_placeArc_eq_pure_iff hsides h.workers_eq hword hnodes).1 htable
  have hcomplete := h.complete hsides hlength hjoins hnodup
  obtain ⟨m, hm⟩ := hcomplete.exists_isMatrixOf
  obtain ⟨table', htable', hmatrix⟩ :=
    (h.exists_table_iff hsides hlength hnodes hword).2 ⟨hcomplete, hm⟩
  obtain rfl := Reading.pure_eq_pure_iff.1 (htable'.symm.trans htable)
  exact ⟨m, hmatrix⟩

/-- With the right numbers of workers and arcs, placing the arcs has an answer, and after that the
table is a matrix. -/
theorem InstanceDraft.Holds.answers_table (h : draft.Holds items) (hfits : Fits n items)
    (hworkers : draft.workers.size = n) (harcs : draft.arcs.size = n * n)
    (hword : n * n < Word.bound) : Answers (¬ Error.IsInternal ·) (do
      let table ← draft.arcs.toList.foldlM (placeArc ⟨line, n, n * n⟩ draft.workers)
        (Array.replicate (n * n) none)
      matrixOfTable ⟨line, n, n * n⟩ table) := by
  refine (answers_foldlM_placeArc (h.sides hfits hworkers) h.workers_eq hword
    fun _ ↦ hfits.arc_lt h).bind fun table htable ↦ ?_
  obtain ⟨m, hm⟩ := h.exists_matrixOfTable hfits hworkers harcs hword htable
  exact hm ▸ answers_pure m

end Arcs

/-! ### Files -/

section Files

variable {α : Type} (spelling : Spelling α) (source : Text.Source)

/-- Reading an instance has an answer, and reports no internal error. -/
theorem answers_readInstance :
    Answers (¬ Error.IsInternal ·) (readInstance spelling source) := by
  rw [readInstance]
  split
  · exact (Listing.answers_checkEnd _).bind fun _ _ ↦ answers_throw id
  · refine (answers_not_isInternal (answers_readHeader _)).bind fun header hheader ↦ ?_
    obtain ⟨n, rfl, hhead⟩ := readHeader_eq_pure_iff.1 hheader
    refine (answers_foldlM fun _ entry _ _ draft _ ↦
      answers_not_isInternal (draft.answers_readEntry spelling _ entry)).bind fun draft hdraft ↦ ?_
    obtain ⟨items, -, hfits, hholds⟩ := exists_items_of_foldlM hdraft
    refine (Listing.answers_checkEnd _).bind fun _ _ ↦ ?_
    rw [← Array.foldlM_toList]
    refine answers_ite (fun hworkers ↦ ?_) fun _ ↦ answers_throw id
    refine answers_ite (fun harcs ↦ ?_) fun _ ↦ answers_throw id
    exact hholds.answers_table hfits hworkers harcs hhead.lt_bound

theorem Listing.length_entries_le (read : Nat) (lines : List (Except Text.ReadError String)) :
    (ofLines read lines).entries.length ≤ lines.length := by
  induction lines generalizing read with
  | nil => exact Nat.le_refl 0
  | cons line lines ih =>
    cases line with
    | error e => exact Nat.zero_le _
    | ok text =>
      have htail : (ofLines read (.ok text :: lines)).entries =
          (Entry.ofLine? (read + 1) text).toList ++ (ofLines (read + 1) lines).entries := rfl
      have hhead : (Entry.ofLine? (read + 1) text).toList.length ≤ 1 := Option.length_toList_le
      have := ih (read + 1)
      rw [htail, List.length_append, List.length_cons]
      omega

theorem Flow.not_isInternal_of_issue? {n : Nat} {before : List Flow} {flow : Flow}
    {issue : DataIssue} (h : flow.issue? n before = some issue) :
    ¬ (Issue.data issue).IsInternal := by
  rw [issue?] at h
  split_ifs at h <;> cases h <;> exact id

/-- Reading a solution has an answer unless there are more lines than nodes can be numbered. -/
theorem answers_readSolution (hlines : 2 * source.lines.length < Word.bound) :
    Answers (¬ Error.IsInternal ·) (readSolution spelling source) := by
  rw [readSolution]
  refine (answers_foldlM fun _ entry _ _ draft _ ↦
      answers_not_isInternal (draft.answers_readEntry spelling entry)).bind fun draft hdraft ↦ ?_
  refine (Listing.answers_checkEnd _).bind fun _ _ ↦ ?_
  split
  · exact answers_throw id
  · obtain ⟨items, -, -, rfl⟩ := foldlM_readEntry_eq_pure_iff.1 hdraft
    -- each pair is on a line of its own, so twice their number is a word
    have hlength : (SolutionItem.flows
        ((Listing.ofSource source).entries.map Entry.line) items).length ≤ source.lines.length :=
      Nat.le_trans (SolutionItem.length_flows_le _ items)
        (Nat.le_trans (Nat.le_of_eq (List.length_map _)) (Listing.length_entries_le 0 source.lines))
    rw [SolutionDraft.ofItems]
    simp only [List.size_toArray, List.foldlM_toArray']
    refine Answers.bind ?_ fun matched _ ↦ answers_pure _
    rcases foldlM_add_cases (Nat.lt_of_le_of_lt (Nat.mul_le_mul_left 2 hlength) hlines) _ with
      ⟨-, matched, hfold, -⟩ | ⟨_, flow, _, issue, -, -, hissue, hfold⟩
    · exact hfold ▸ answers_pure matched
    · rw [hfold]
      exact answers_throw (Flow.not_isInternal_of_issue? hissue)

end Files

/-- **Reading always ends with an answer.** Whatever bytes a source delivers, and however it ends,
reading an instance or a solution gives a value or an error and never ends with a fault. An instance
is never refused because a cost is missing, or because the costs have the wrong number. Solutions
have to have so few lines that their nodes can be numbered. -/
theorem exists_run_readInstance_and_readSolution {α : Type} (spelling : Spelling α)
    (source : Text.Source) :
    (∃ r, (readInstance spelling source).run = .ok r ∧ ∀ line,
      r ≠ .error (.onLine line (.data .incomplete)) ∧
      ∀ e, r ≠ .error (.onLine line (.data (.shape e)))) ∧
    (source.lines.length < 0x4000000000000000 →
      ∃ r, (readSolution spelling source).run = .ok r) := by
  constructor
  · obtain ⟨r, hr, hinternal⟩ := (answers_readInstance spelling source).exists_run
    exact ⟨r, hr, fun line ↦ ⟨fun h ↦ hinternal _ h trivial, fun e h ↦ hinternal _ h trivial⟩⟩
  · intro hlines
    have hnodes : 2 * source.lines.length < Word.bound :=
      Nat.lt_trans (Nat.mul_lt_mul_of_pos_left hlines Nat.two_pos) (by decide)
    obtain ⟨r, hr, -⟩ := (answers_readSolution spelling source hnodes).exists_run
    exact ⟨r, hr⟩

/-- The line of a value, then a line that is no text, and then the stream breaks off. -/
def undecodableLine : Text.Source where
  bytes := [0x73, 0x20, 0x31, 0x0A, 0xFF, 0x0A, 0x66]
  breaks := true

theorem exists_run_readInstance_and_readSolution_undecodableLine :
    undecodableLine.lines.length < 0x4000000000000000 ∧
      (∃ r, (readSolution (.integer (.unsigned 8)) undecodableLine).run = .ok r) ∧
      readSolution (.integer (.unsigned 8)) undecodableLine = throw (.unreadable .undecodable) ∧
      (∃ r, (readInstance (.integer (.unsigned 8)) undecodableLine).run = .ok r) ∧
      readInstance (.integer (.unsigned 8)) undecodableLine =
        throw (.onLine 1 (.format (.notProblem "s"))) := by
  have hlines : undecodableLine.lines.length < 0x4000000000000000 := by decide +kernel
  obtain ⟨⟨r, hr, -⟩, hsolution⟩ :=
    exists_run_readInstance_and_readSolution (.integer (.unsigned 8)) undecodableLine
  exact ⟨hlines, hsolution hlines, by decide +kernel, ⟨r, hr⟩, by decide +kernel⟩

end LinearAssignment.Dimacs
