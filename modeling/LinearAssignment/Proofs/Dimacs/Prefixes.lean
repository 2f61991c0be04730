import LinearAssignment.Proofs.Dimacs.LineByLine

/-!
# What the first lines of a file decide

Reading an instance and reading a solution are both readings line by line (`readInstance_eq`,
`readSolution_eq`), in which errors of an entry are never of the kinds that are deferred
(`defers_instanceReader`, `defers_solutionReader`). So an error of a line is decided by the lines up
to it, and a value only by the whole stream: `DecidedByLines` says what this means for streams of
bytes that are cut right after a line end.
-/

namespace LinearAssignment.Dimacs

open Reading
open Text (Source)

variable {α σ β : Type}

/-! ### The two readers -/

section Readers

variable (spelling : Spelling α)

/-- What the entries of an instance amount to after a number of lines: there have to be as many
workers and arcs as announced, and then the arcs are placed. -/
def InstanceDraft.finish (lines : Nat) (header : Header) (draft : InstanceDraft α) :
    Reading (CostMatrix α) :=
  if draft.workers.size = header.workers then
    if draft.arcs.size = header.arcs then do
      let table ←
        draft.arcs.foldlM (placeArc header draft.workers) (Array.replicate header.arcs none)
      matrixOfTable header table
    else throw (.onLine lines (.data (.wrongArcs header.arcs draft.arcs.size)))
  else throw (.onLine lines (.data (.wrongWorkers header.workers draft.workers.size)))

/-- What the entries of a solution amount to after a number of lines: there has to be a value, and
then the pairs are entered. -/
def SolutionDraft.finish (lines : Nat) (draft : SolutionDraft α) : Reading (α × List Nat) :=
  match draft.value with
  | none => throw (.onLine lines (.format .missingValue))
  | some value => do
    let n := draft.flows.size
    let matched ← draft.flows.foldlM (Matched.add n) (.empty n)
    return (value, matched.taskOf.toList.filterMap id)

/-- How instances are read. There is no header before the first entry. -/
def instanceReader : EntryReader (Option (Header × InstanceDraft α)) (CostMatrix α) where
  start := none
  handle
    | none, entry => do return some (← readHeader entry, .empty)
    | some (header, draft), entry => do
      return some (header, ← draft.readEntry spelling header entry)
  finish
    | lines, none => throw (.onLine lines (.format .missingProblem))
    | lines, some (header, draft) => draft.finish lines header

/-- How solutions are read. -/
def solutionReader : EntryReader (SolutionDraft α) (α × List Nat) where
  start := .empty
  handle draft entry := draft.readEntry spelling entry
  finish lines draft := draft.finish lines

variable {spelling} in
/-- Once there is a header, the other entries are read into the draft. -/
theorem foldlM_handle_instanceReader (header : Header) (draft : InstanceDraft α)
    (entries : List Entry) :
    entries.foldlM (instanceReader spelling).handle (some (header, draft)) = (do
      let draft ← entries.foldlM (InstanceDraft.readEntry spelling header) draft
      return some (header, draft)) := by
  induction entries generalizing draft with
  | nil => rfl
  | cons entry entries ih =>
    have hfirst : (instanceReader spelling).handle (some (header, draft)) entry =
        (do return some (header, ← draft.readEntry spelling header entry)) := rfl
    rw [List.foldlM_cons, List.foldlM_cons, hfirst]
    simp only [bind_assoc, pure_bind, ih]

/-- The first entry of an instance is read as its problem line, and the others into a draft. -/
theorem foldlM_handle_start (first : Entry) (entries : List Entry) :
    (first :: entries).foldlM (instanceReader spelling).handle (instanceReader spelling).start = (do
      let header ← readHeader first
      let draft ← entries.foldlM (InstanceDraft.readEntry spelling header) .empty
      return some (header, draft)) := by
  have hfirst : (instanceReader spelling).handle (instanceReader spelling).start first =
      (do return some (← readHeader first, .empty)) := rfl
  rw [List.foldlM_cons, hfirst]
  simp only [bind_assoc, pure_bind, foldlM_handle_instanceReader]

/-- An instance is read line by line. -/
theorem readInstance_eq (source : Source) :
    readInstance spelling source = (instanceReader spelling).readLines source.lines := by
  rw [EntryReader.readLines_lines, readInstance]
  cases (Listing.ofSource source).entries with
  | nil => rfl
  | cons first entries =>
    rw [foldlM_handle_start]
    simp only [bind_assoc, pure_bind]
    rfl

/-- A solution is read line by line. -/
theorem readSolution_eq (source : Source) :
    readSolution spelling source = (solutionReader spelling).readLines source.lines := by
  rw [EntryReader.readLines_lines, readSolution]
  rfl

/-! ### Errors of entries and errors after the last line -/

/-- The errors of an entry are on its line. -/
theorem Entry.answers_run_onLine {entry : Entry} {reader : FieldReader α}
    (h : Answers (¬ Error.IsDeferred ·) (entry.run reader)) :
    Answers (fun e ↦ ∃ issue, e = .onLine entry.line issue ∧ ¬ issue.IsDeferred)
      (entry.run reader) := by
  have hline : ThrowsOnly (fun e ↦ ∃ issue, e = .onLine entry.line issue) (entry.run reader) := by
    rw [Entry.run]
    exact throwsOnly_adapt fun issue ↦ ⟨issue, rfl⟩
  rcases h with ⟨a, ha⟩ | ⟨e, he, hdeferred⟩
  · exact .inl ⟨a, ha⟩
  · obtain ⟨issue, rfl⟩ := hline e he
    exact .inr ⟨_, he, issue, rfl, hdeferred⟩

theorem throwsOnly_placeArc (header : Header) (workers : Array Nat) (table : Array (Option α))
    (arc : Arc α) : ThrowsOnly Error.IsDeferred (placeArc header workers table arc) := by
  refine (throwsOnly_liftM _).bind fun source ↦ (throwsOnly_liftM _).bind fun sink ↦ ?_
  split
  · refine (throwsOnly_liftM _).bind fun row ↦ (throwsOnly_liftM _).bind fun index ↦ ?_
    split
    · exact throwsOnly_ite (throwsOnly_throw trivial) (throwsOnly_pure _)
    · exact nofun
  · exact throwsOnly_throw trivial
  · exact throwsOnly_throw trivial

theorem throwsOnly_matrixOfTable (header : Header) (table : Array (Option α)) :
    ThrowsOnly Error.IsDeferred (matrixOfTable header table) := by
  rw [matrixOfTable]
  split
  · exact throwsOnly_throw trivial
  · exact throwsOnly_adapt fun _ ↦ trivial

theorem InstanceDraft.throwsOnly_finish (lines : Nat) (header : Header) (draft : InstanceDraft α) :
    ThrowsOnly Error.IsDeferred (draft.finish lines header) := by
  rw [finish, ← Array.foldlM_toList]
  refine throwsOnly_ite ?_ (throwsOnly_throw trivial)
  refine throwsOnly_ite ?_ (throwsOnly_throw trivial)
  exact (throwsOnly_foldlM (throwsOnly_placeArc header _) _ _).bind
    (throwsOnly_matrixOfTable header)

theorem throwsOnly_add (n : Nat) (matched : Matched) (flow : Flow) :
    ThrowsOnly Error.IsDeferred (matched.add n flow) := by
  refine (throwsOnly_liftM _).bind fun joins ↦ ?_
  refine throwsOnly_ite ?_ (throwsOnly_throw trivial)
  refine (throwsOnly_liftM _).bind fun i ↦ (throwsOnly_liftM _).bind fun past ↦
    (throwsOnly_liftM _).bind fun j ↦ ?_
  split
  · refine throwsOnly_ite (throwsOnly_throw trivial) ?_
    split
    · exact throwsOnly_ite (throwsOnly_throw trivial) (throwsOnly_pure _)
    · exact nofun
  · exact nofun

theorem SolutionDraft.throwsOnly_finish (lines : Nat) (draft : SolutionDraft α) :
    ThrowsOnly Error.IsDeferred (draft.finish lines) := by
  rw [finish]
  split
  · exact throwsOnly_throw trivial
  · simp only [← Array.foldlM_toList]
    exact (throwsOnly_foldlM (throwsOnly_add _) _ _).bind fun _ ↦ throwsOnly_pure _

theorem defers_instanceReader : (instanceReader spelling).Defers where
  handle state entry :=
    match state with
    | none => (Entry.answers_run_onLine (answers_readHeader entry)).bind fun _ _ ↦ answers_pure _
    | some (header, draft) => (Entry.answers_run_onLine (draft.answers_readEntry spelling header
        entry)).bind fun _ _ ↦ answers_pure _
  finish lines state :=
    match state with
    | none => throwsOnly_throw trivial
    | some (header, draft) => draft.throwsOnly_finish lines header

theorem defers_solutionReader : (solutionReader spelling).Defers where
  handle draft entry := Entry.answers_run_onLine (draft.answers_readEntry spelling entry)
  finish lines draft := draft.throwsOnly_finish lines

end Readers

/-! ### Streams -/

/-- What the lines of a stream decide of its reading. The lines that end with a line end are whole;
a stream may go on after them in any way. -/
structure DecidedByLines (reader : EntryReader σ β) (read : Source → Reading β) : Prop where
  /-- The errors that are raised on a line are those that are not deferred. -/
  raisesOn_iff : ∀ source line issue, read source = throw (.onLine line issue) →
    (reader.RaisesOn source.lines line issue ↔ ¬ issue.IsDeferred)
  /-- An error that is raised on a whole line is the answer for every stream with the same lines up
  to it. -/
  read_eq_of_raisesOn : ∀ head rest breaks line issue, Source.EndsLine head →
    line ≤ head.count Source.newline →
    reader.RaisesOn (⟨head ++ rest, breaks⟩ : Source).lines line issue →
    ∀ rest' breaks', read ⟨head ++ rest', breaks'⟩ = throw (.onLine line issue)
  /-- If no whole line before the break of a stream raises an error, the break is the answer. -/
  read_eq_of_breaks : ∀ source, source.breaks = true →
    (∀ e, reader.handleLines (Source.wholeLines source.bytes) ≠ throw e) →
    read source = throw (.unreadable .broken)
  /-- If no line before one that cannot be read raises an error, that failure is the answer. -/
  read_eq_of_unreadable : ∀ source before e after,
    source.lines = before ++ .error e :: after → (∀ e', reader.handleLines before ≠ throw e') →
    read source = throw (.unreadable e)

/-- A line that is among the first ones of a longer list is one of the shorter list. -/
theorem exists_append_of_length_lt {γ : Type} {xs ys before after : List γ} {x : γ}
    (h : xs ++ ys = before ++ x :: after) (hlength : before.length < xs.length) :
    ∃ between, xs = before ++ x :: between ∧ after = between ++ ys := by
  rcases List.append_eq_append_iff.1 h with ⟨between, hbefore, -⟩ | ⟨between, rfl, hbetween⟩
  · have := congrArg List.length hbefore
    rw [List.length_append] at this
    omega
  · cases between with
    | nil => simp at hlength
    | cons y between =>
      obtain ⟨rfl, rfl⟩ := List.cons.inj hbetween
      exact ⟨between, rfl, rfl⟩

/-- A reading line by line whose errors of entries are not deferred is decided by its lines. -/
theorem EntryReader.Defers.decidedByLines {reader : EntryReader σ β} {read : Source → Reading β}
    (h : reader.Defers) (hread : ∀ source, read source = reader.readLines source.lines) :
    DecidedByLines reader read where
  raisesOn_iff source line issue herror := h.raisesOn_iff (hread source ▸ herror)
  read_eq_of_raisesOn head rest breaks line issue hhead hline hraises rest' breaks' := by
    obtain ⟨before, text, after, state, hlines, rfl, hbefore, hraise⟩ := hraises
    rw [Source.lines_append hhead] at hlines
    rw [← Source.length_wholeLines] at hline
    obtain ⟨between, hhead', -⟩ := exists_append_of_length_lt hlines hline
    rw [hread, Source.lines_append hhead, hhead', List.append_assoc, List.cons_append]
    exact readLines_of_raises _ hbefore hraise
  read_eq_of_breaks source hbreaks hwhole := by
    obtain ⟨state, hstate⟩ := h.exists_handleLines hwhole
    rw [hread, Source.lines_of_breaks hbreaks]
    exact readLines_of_raises [] hstate rfl
  read_eq_of_unreadable source before e after hlines hbefore := by
    obtain ⟨state, hstate⟩ := h.exists_handleLines hbefore
    rw [hread, hlines]
    exact readLines_of_raises after hstate rfl

/-- **Errors of a line are decided by the lines up to it.** Whatever follows them, the error is the
same, and it is never one of those that are deferred. A stream that breaks off before any such error
is refused for the break: it has no value, and none of the deferred errors. -/
theorem decidedByLines_readInstance_and_readSolution (spelling : Spelling α) :
    DecidedByLines (instanceReader spelling) (readInstance spelling) ∧
      DecidedByLines (solutionReader spelling) (readSolution spelling) :=
  ⟨(defers_instanceReader spelling).decidedByLines (readInstance_eq spelling),
    (defers_solutionReader spelling).decidedByLines (readSolution_eq spelling)⟩

/-- A solution with a second value on its second line. -/
def secondValue : List UInt8 :=
  (Source.ofString "s 1\ns 2\n").bytes

/-- A stream that breaks off within the line after the value. -/
def brokenPair : Source where
  bytes := (Source.ofString "s 1\nf 1 2").bytes
  breaks := true

theorem decidedByLines_readInstance_and_readSolution_secondValue :
    (∀ rest breaks, readSolution (.integer (.unsigned 8)) ⟨secondValue ++ rest, breaks⟩ =
      throw (.onLine 2 (.format .secondValue))) ∧
    readSolution (.integer (.unsigned 8)) brokenPair = throw (.unreadable .broken) ∧
    readInstance (.integer (.unsigned 8)) brokenPair =
      throw (.onLine 1 (.format (.notProblem "s"))) := by
  obtain ⟨-, h⟩ := decidedByLines_readInstance_and_readSolution (.integer (.unsigned 8))
  have hread : readSolution (.integer (.unsigned 8)) ⟨secondValue ++ [], false⟩ =
    throw (.onLine 2 (.format .secondValue)) := by decide +kernel
  have hentry : Entry.ofLine? 1 "s 1" = some ⟨1, "s", ["1"]⟩ := by decide +kernel
  have hvalue : (solutionReader (.integer (.unsigned 8))).handleLines [.ok "s 1"] =
      pure ⟨some 1, #[]⟩ := by
    have hdraft : SolutionDraft.readEntry (.integer (.unsigned 8)) .empty ⟨1, "s", ["1"]⟩ =
        pure ⟨some 1, #[]⟩ :=
      SolutionDraft.readEntry_eq_pure_iff.2 ⟨.value 1, ⟨"1", rfl, by decide +kernel⟩, rfl, rfl⟩
    simp [EntryReader.handleLines, EntryReader.handleLine, hentry, solutionReader, hdraft]
  have hwhole : Source.wholeLines brokenPair.bytes = [.ok "s 1"] := by decide +kernel
  exact ⟨h.read_eq_of_raisesOn secondValue [] false 2 _ (by decide +kernel) (by decide +kernel)
      ((h.raisesOn_iff _ _ _ hread).2 id),
    h.read_eq_of_breaks brokenPair rfl fun e he ↦ throw_ne_pure (he.symm.trans (hwhole ▸ hvalue)),
    by decide +kernel⟩

end LinearAssignment.Dimacs
