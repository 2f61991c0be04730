import LinearAssignment.Proofs.Dimacs.Prefixes

/-!
# Lines that carry no data

One more line that carries no data is put into a file, behind its first `k` lines. It changes
nothing but the numbers of the lines that follow it, which are now one higher (`numberAfter`). The
states of the readers keep the numbers of lines with arcs and pairs, so the two readings are
compared through a renumbering of the states: each part of a reader commutes with it
(`EntryReader.Renumbers`), and so does the loop over the lines
(`EntryReader.Renumbers.handleLines_insert`).

Errors of lines name the line that they are about. Those that say what is missing at the end of the
file name the last line, which always comes after the new one (`Error.insertLine`).
-/

namespace LinearAssignment.Dimacs

open Text (ReadError Source)

variable {α β γ ε ε' σ : Type}

/-! ### Renumbering -/

/-- The number of a line after one more line has been put in behind the first `k` lines. -/
def numberAfter (k line : Nat) : Nat :=
  if k < line then line + 1 else line

/-- A flaw that is reported for the end of a file: something has not come up to its last line. -/
def Issue.isAtEnd : Issue → Bool
  | .format .missingProblem => true
  | .format .missingValue => true
  | .data (.wrongWorkers ..) => true
  | .data (.wrongArcs ..) => true
  | _ => false

/-- The error of a file after one more line that carries no data has been put in behind the first
`k` lines. -/
def Error.insertLine (k : Nat) : Error → Error
  | .unreadable e => .unreadable e
  | .onLine line issue => .onLine (if k < line ∨ issue.isAtEnd then line + 1 else line) issue

theorem Issue.isAtEnd_eq_false {issue : Issue} (h : ¬ issue.IsDeferred) :
    issue.isAtEnd = false := by
  rw [← Bool.not_eq_true]
  refine mt (fun hend ↦ ?_) h
  cases issue with
  | format issue => cases issue <;> first | exact trivial | cases hend
  | data issue => cases issue <;> first | exact trivial | cases hend

theorem Error.insertLine_onLine (k line : Nat) {issue : Issue} (h : issue.isAtEnd = false) :
    Error.insertLine k (.onLine line issue) = .onLine (numberAfter k line) issue := by
  rw [insertLine, h, numberAfter]
  simp

theorem Error.insertLine_atEnd (k line : Nat) {issue : Issue} (h : issue.isAtEnd = true) :
    Error.insertLine k (.onLine line issue) = .onLine (line + 1) issue := by
  rw [insertLine, h, if_pos (.inr rfl)]

/-- An entry on the renumbered line. -/
def Entry.renumber (k : Nat) (entry : Entry) : Entry :=
  { entry with line := numberAfter k entry.line }

/-- A problem line on the renumbered line. -/
def Header.renumber (k : Nat) (header : Header) : Header :=
  { header with line := numberAfter k header.line }

/-- An arc on the renumbered line. -/
def Arc.renumber (k : Nat) (arc : Arc α) : Arc α :=
  { arc with line := numberAfter k arc.line }

/-- A pair on the renumbered line. -/
def Flow.renumber (k : Nat) (flow : Flow) : Flow :=
  { flow with line := numberAfter k flow.line }

/-- The arcs on their renumbered lines. -/
def InstanceDraft.renumber (k : Nat) (draft : InstanceDraft α) : InstanceDraft α :=
  { draft with arcs := draft.arcs.map (Arc.renumber k) }

/-- The pairs on their renumbered lines. -/
def SolutionDraft.renumber (k : Nat) (draft : SolutionDraft α) : SolutionDraft α :=
  { draft with flows := draft.flows.map (Flow.renumber k) }

@[simp]
theorem InstanceDraft.renumber_empty (k : Nat) :
    (InstanceDraft.empty : InstanceDraft α).renumber k = .empty :=
  congrArg (InstanceDraft.mk #[]) (Array.map_empty (f := Arc.renumber k))

@[simp]
theorem SolutionDraft.renumber_empty (k : Nat) :
    (SolutionDraft.empty : SolutionDraft α).renumber k = .empty :=
  congrArg (SolutionDraft.mk none) (Array.map_empty (f := Flow.renumber k))

/-- The entry on a line has the number of the line. -/
theorem Entry.ofLine?_numberAfter (k line : Nat) (text : String) :
    Entry.ofLine? (numberAfter k line) text = (Entry.ofLine? line text).map (Entry.renumber k) := by
  rw [Entry.ofLine?, Entry.ofLine?]
  cases Text.fields text with
  | nil => rfl
  | cons kind fields =>
    show (if _ then _ else _) = Option.map _ (if _ then _ else _)
    split <;> rfl

/-! ### Readings of renumbered lines -/

open Reading FieldReader

/-- A reader of fields raises on the renumbered line what it raises on the line. -/
theorem Entry.run_renumber (k : Nat) {entry : Entry} {reader : FieldReader α}
    (h : Answers (¬ Error.IsDeferred ·) (entry.run reader)) (states : α → β) :
    (entry.renumber k).run (states <$> reader) =
      (states <$> entry.run reader).adapt (Error.insertLine k) := by
  have hrun {δ : Type} (number : Nat) (x : FieldReader δ) :
      (⟨number, entry.kind, entry.fields⟩ : Entry).run x =
        (Prod.fst <$> x.run entry.fields).adapt fun issue ↦ .onLine number issue := rfl
  rw [show entry = ⟨entry.line, entry.kind, entry.fields⟩ from rfl, hrun] at h
  rw [Entry.renumber, hrun, show entry.run reader = _ from hrun entry.line reader, StateT.run_map]
  revert h
  rcases reader.run entry.fields with fault | issue | ⟨a, rest⟩
  · exact fun _ ↦ rfl
  · intro h
    have hissue : ¬ issue.IsDeferred := h.throwsOnly (.onLine entry.line issue) rfl
    show (throw (Error.onLine (numberAfter k entry.line) issue) : Reading β) =
      throw (Error.insertLine k (Error.onLine entry.line issue))
    rw [Error.insertLine_onLine k entry.line (Issue.isAtEnd_eq_false hissue)]
  · exact fun _ ↦ rfl

/-! ### Readers that commute with a renumbering -/

namespace EntryReader

/-- A reader works alike on states in which lines are renumbered. -/
structure Renumbers (reader : EntryReader σ β) (k : Nat) (states : σ → σ) : Prop where
  /-- The first state has no lines. -/
  start : states reader.start = reader.start
  /-- An entry does on the renumbered line what it does on the line. -/
  handle : ∀ state entry, reader.handle (states state) (entry.renumber k) =
    (states <$> reader.handle state entry).adapt (Error.insertLine k)
  /-- What the state amounts to does not depend on the numbers of the lines, but errors do. -/
  finish : ∀ lines state, reader.finish (lines + 1) (states state) =
    (reader.finish lines state).adapt (Error.insertLine k)

namespace Renumbers

variable {reader : EntryReader σ β} {k : Nat} {states : σ → σ} (h : reader.Renumbers k states)

include h in
theorem handleLine (state : σ) (row : Except ReadError String × Nat) :
    reader.handleLine (states state) (row.map id (numberAfter k)) =
      (states <$> reader.handleLine state row).adapt (Error.insertLine k) := by
  obtain ⟨e | text, line⟩ := row
  · rfl
  · have hentry := Entry.ofLine?_numberAfter k line text
    show reader.handleLine (states state) (.ok text, numberAfter k line) = _
    cases hline : Entry.ofLine? line text with
    | none =>
      rw [hline] at hentry
      rw [handleLine_of_eq_none hline, handleLine_of_eq_none hentry]
      rfl
    | some entry =>
      rw [hline] at hentry
      rw [handleLine_of_eq_some hline, handleLine_of_eq_some hentry]
      exact h.handle state entry

end Renumbers

/-- The rows of lines among which one is put in are the renumbered rows and the new one. -/
theorem map_numberAfter_zipIdx (before after : List (Except ReadError String)) :
    ((before ++ after).zipIdx 1).map (Prod.map id (numberAfter before.length)) =
      before.zipIdx 1 ++ after.zipIdx (before.length + 2) := by
  rw [List.zipIdx_append, List.map_append]
  congr 1
  · refine (List.map_congr_left fun row hrow ↦ ?_).trans (List.map_id _)
    have hle := (List.mem_zipIdx hrow).2.1
    rw [Prod.map, numberAfter, if_neg (by omega)]
    rfl
  · rw [show before.length + 2 = 1 + before.length + 1 by omega, List.zipIdx_succ]
    refine List.map_congr_left fun row hrow ↦ ?_
    have hle := (List.mem_zipIdx hrow).1
    rw [Prod.map, numberAfter, if_pos (by omega)]
    rfl

/-- A line that carries no data is not handled. -/
theorem handleLine_of_not_carriesData (reader : EntryReader σ β) (state : σ) {text : String}
    (h : carriesData (Text.fields text) = false) (line : Nat) :
    reader.handleLine state (.ok text, line) = pure state := by
  refine handleLine_of_eq_none ?_
  rw [Entry.ofLine?]
  cases hfields : Text.fields text with
  | nil => rfl
  | cons kind fields =>
    rw [hfields, carriesData] at h
    exact if_pos (by simpa using h)

variable {reader : EntryReader σ β} {states : σ → σ} {before : List (Except ReadError String)}

/-- After one more line that carries no data, the lines are handled alike. -/
theorem Renumbers.handleLines_insert (h : reader.Renumbers before.length states) {text : String}
    (htext : carriesData (Text.fields text) = false) (after : List (Except ReadError String)) :
    reader.handleLines (before ++ .ok text :: after) =
      (states <$> reader.handleLines (before ++ after)).adapt (Error.insertLine before.length) := by
  have hrows : (before ++ .ok text :: after).zipIdx 1 =
      before.zipIdx 1 ++ (.ok text, before.length + 1) :: after.zipIdx (before.length + 2) := by
    rw [List.zipIdx_append, List.zipIdx_cons, Nat.add_comm 1]
  have hloop := foldlM_renumber h.handleLine ((before ++ after).zipIdx 1) reader.start
  rw [map_numberAfter_zipIdx, List.foldlM_append, h.start] at hloop
  rw [handleLines, hrows, List.foldlM_append, handleLines, ← hloop]
  simp only [List.foldlM_cons, handleLine_of_not_carriesData reader _ htext, pure_bind]

/-- After one more line that carries no data, the file is read alike. -/
theorem Renumbers.readLines_insert (h : reader.Renumbers before.length states) {text : String}
    (htext : carriesData (Text.fields text) = false) (after : List (Except ReadError String)) :
    reader.readLines (before ++ .ok text :: after) =
      (reader.readLines (before ++ after)).adapt (Error.insertLine before.length) := by
  have hlength : (before ++ .ok text :: after).length = (before ++ after).length + 1 := by
    simp only [List.length_append, List.length_cons]
    omega
  rw [readLines, readLines, h.handleLines_insert htext, hlength, adapt_map, adapt_bind,
    bind_map_left]
  simp only [h.finish]

end EntryReader

/-! ### The two readers -/

section Readers

variable (spelling : Spelling α) (k : Nat)

theorem readHeader_renumber (entry : Entry) : readHeader (entry.renumber k) =
    (Header.renumber k <$> readHeader entry).adapt (Error.insertLine k) := by
  rw [readHeader, readHeader, ← Entry.run_renumber k (answers_readHeader entry)]
  simp only [map_bind, apply_ite (Functor.map (Header.renumber k)), map_pure]
  rfl

theorem InstanceDraft.readEntry_renumber (header : Header) (draft : InstanceDraft α)
    (entry : Entry) : (draft.renumber k).readEntry spelling (header.renumber k)
      (entry.renumber k) =
        (renumber k <$> draft.readEntry spelling header entry).adapt (Error.insertLine k) := by
  rw [readEntry, readEntry,
    ← Entry.run_renumber k (draft.answers_readEntry spelling header entry)]
  congr 1
  obtain ⟨line, kind, fields⟩ := entry
  dsimp only [Entry.renumber]
  split
  · simp only [readWorker, map_bind, apply_ite (Functor.map (renumber k)), map_pure]
    rfl
  · simp only [readArc, map_bind, apply_ite (Functor.map (renumber k)), map_pure, renumber,
      Array.size_map, Array.map_push]
    rfl
  · rfl

theorem SolutionDraft.readEntry_renumber (draft : SolutionDraft α) (entry : Entry) :
    (draft.renumber k).readEntry spelling (entry.renumber k) =
      (renumber k <$> draft.readEntry spelling entry).adapt (Error.insertLine k) := by
  rw [readEntry, readEntry, ← Entry.run_renumber k (draft.answers_readEntry spelling entry)]
  congr 1
  obtain ⟨line, kind, fields⟩ := entry
  dsimp only [Entry.renumber]
  split
  · simp only [readValue, map_bind, apply_ite (Functor.map (renumber k)), map_pure]
    rfl
  · simp only [readFlow, map_bind, apply_ite (Functor.map (renumber k)), map_pure, renumber,
      Array.map_push]
    rfl
  · rfl

omit spelling in
/-- An error after the last line that names an earlier line. -/
theorem throw_numberAfter {issue : DataIssue} (h : (Issue.data issue).isAtEnd = false)
    (line : Nat) : (throw (.onLine (numberAfter k line) (.data issue)) : Reading α) =
      (throw (.onLine line (.data issue)) : Reading α).adapt (Error.insertLine k) :=
  congrArg throw (Error.insertLine_onLine k line h).symm

omit spelling in
theorem placeArc_renumber (header : Header) (workers : Array Nat) (table : Array (Option α))
    (arc : Arc α) : placeArc (header.renumber k) workers table (arc.renumber k) =
      (placeArc header workers table arc).adapt (Error.insertLine k) := by
  rw [placeArc, placeArc, adapt_bind, adapt_liftM]
  refine bind_congr fun source ↦ ?_
  rw [adapt_bind, adapt_liftM]
  refine bind_congr fun sink ↦ ?_
  cases source with
  | task _ => exact throw_numberAfter k rfl arc.line
  | worker i =>
    cases sink with
    | worker _ => exact throw_numberAfter k rfl arc.line
    | task j =>
      dsimp only
      rw [adapt_bind, adapt_liftM]
      refine bind_congr fun row ↦ ?_
      rw [adapt_bind, adapt_liftM]
      refine bind_congr fun index ↦ ?_
      split
      · split
        · exact throw_numberAfter k rfl arc.line
        · rfl
      · rfl

omit spelling in
theorem matrixOfTable_renumber (header : Header) (table : Array (Option α)) :
    matrixOfTable (header.renumber k) table =
      (matrixOfTable header table).adapt (Error.insertLine k) := by
  rw [matrixOfTable, matrixOfTable]
  cases table.mapM id with
  | none => exact throw_numberAfter k rfl header.line
  | some costs =>
    dsimp only
    show (CostMatrix.ofEntries header.workers costs).adapt _ = _
    rcases CostMatrix.ofEntries header.workers costs with fault | e | m
    · rfl
    · exact throw_numberAfter k rfl header.line
    · rfl

omit spelling in
theorem InstanceDraft.finish_renumber (lines : Nat) (header : Header) (draft : InstanceDraft α) :
    (draft.renumber k).finish (lines + 1) (header.renumber k) =
      (draft.finish lines header).adapt (Error.insertLine k) := by
  have hsize : (draft.renumber k).arcs.size = draft.arcs.size := Array.size_map
  have htable : (draft.renumber k).arcs.foldlM (placeArc (header.renumber k) draft.workers)
      (Array.replicate header.arcs none) =
        (draft.arcs.foldlM (placeArc header draft.workers)
          (Array.replicate header.arcs none)).adapt (Error.insertLine k) := by
    rw [← Array.foldlM_toList, ← Array.foldlM_toList, renumber, Array.toList_map]
    exact foldlM_map_adapt (placeArc_renumber k header draft.workers) _ _
  rw [finish, finish]
  show (if draft.workers.size = header.workers then
    if (draft.renumber k).arcs.size = header.arcs then
      (draft.renumber k).arcs.foldlM (placeArc (header.renumber k) draft.workers)
        (Array.replicate header.arcs none) >>= matrixOfTable (header.renumber k)
    else throw (.onLine (lines + 1) (.data (.wrongArcs header.arcs (draft.renumber k).arcs.size)))
    else throw (.onLine (lines + 1) (.data (.wrongWorkers header.workers draft.workers.size)))) = _
  by_cases hworkers : draft.workers.size = header.workers
  · rw [if_pos hworkers, if_pos hworkers]
    by_cases harcs : draft.arcs.size = header.arcs
    · rw [if_pos harcs, if_pos (hsize.trans harcs), htable, adapt_bind]
      exact bind_congr (matrixOfTable_renumber k header)
    · rw [if_neg harcs, if_neg (mt hsize.symm.trans harcs), hsize, adapt_throw,
        Error.insertLine_atEnd k lines rfl]
  · rw [if_neg hworkers, if_neg hworkers, adapt_throw, Error.insertLine_atEnd k lines rfl]

omit spelling in
theorem add_renumber (n : Nat) (matched : Matched) (flow : Flow) :
    matched.add n (flow.renumber k) = (matched.add n flow).adapt (Error.insertLine k) := by
  rw [Matched.add, Matched.add, adapt_bind, adapt_liftM]
  refine bind_congr fun joins ↦ ?_
  cases joins with
  | false => exact throw_numberAfter k rfl flow.line
  | true =>
    simp only [if_true]
    rw [adapt_bind, adapt_liftM]
    refine bind_congr fun i ↦ ?_
    rw [adapt_bind, adapt_liftM]
    refine bind_congr fun past ↦ ?_
    rw [adapt_bind, adapt_liftM]
    refine bind_congr fun j ↦ ?_
    split
    · split
      · exact throw_numberAfter k rfl flow.line
      · split
        · split
          · exact throw_numberAfter k rfl flow.line
          · rfl
        · rfl
    · rfl

omit spelling in
theorem SolutionDraft.finish_renumber (lines : Nat) (draft : SolutionDraft α) :
    (draft.renumber k).finish (lines + 1) = (draft.finish lines).adapt (Error.insertLine k) := by
  have hsize : (draft.renumber k).flows.size = draft.flows.size := Array.size_map
  have hmatched (n : Nat) : (draft.renumber k).flows.foldlM (Matched.add n) (.empty n) =
      (draft.flows.foldlM (Matched.add n) (.empty n)).adapt (Error.insertLine k) := by
    rw [← Array.foldlM_toList, ← Array.foldlM_toList, renumber, Array.toList_map]
    exact foldlM_map_adapt (add_renumber k n) _ _
  cases hvalue : draft.value with
  | none =>
    rw [finish, finish, show (draft.renumber k).value = none from hvalue, hvalue]
    exact congrArg throw (Error.insertLine_atEnd k lines rfl).symm
  | some value =>
    have hfinish (lines : Nat) (draft : SolutionDraft α) (h : draft.value = some value) :
        draft.finish lines =
          (fun matched ↦ (value, matched.taskOf.toList.filterMap id)) <$>
            draft.flows.foldlM (Matched.add draft.flows.size) (.empty draft.flows.size) := by
      rw [finish, h]
      rfl
    rw [hfinish lines draft hvalue, hfinish _ (draft.renumber k) hvalue, adapt_map, hmatched,
      hsize]

/-- The states of the reader of instances on their renumbered lines. -/
theorem renumbers_instanceReader : (instanceReader spelling).Renumbers k
    (Option.map (Prod.map (Header.renumber k) (InstanceDraft.renumber k))) where
  start := rfl
  handle state entry := by
    cases state with
    | none =>
      show (do return some (← readHeader (entry.renumber k), InstanceDraft.empty)) = _
      rw [readHeader_renumber]
      show _ = (_ <$> (do return some (← readHeader entry, InstanceDraft.empty))).adapt _
      simp only [map_bind, adapt_bind, map_pure, adapt_pure, adapt_map, bind_map_left,
        Option.map_some, Prod.map_apply, InstanceDraft.renumber_empty]
    | some parts =>
      obtain ⟨header, draft⟩ := parts
      show (do return some (header.renumber k, ← (draft.renumber k).readEntry spelling
        (header.renumber k) (entry.renumber k))) = _
      rw [InstanceDraft.readEntry_renumber]
      show _ = (_ <$> (do return some (header, ← draft.readEntry spelling header entry))).adapt _
      simp only [map_bind, adapt_bind, map_pure, adapt_pure, adapt_map, bind_map_left]
      rfl
  finish lines state :=
    match state with
    | none => congrArg throw (Error.insertLine_atEnd k lines rfl).symm
    | some (header, draft) => draft.finish_renumber k lines header

theorem renumbers_solutionReader :
    (solutionReader spelling).Renumbers k (SolutionDraft.renumber k) where
  start := SolutionDraft.renumber_empty k
  handle draft entry := draft.readEntry_renumber spelling k entry
  finish lines draft := draft.finish_renumber k lines

end Readers

/-! ### Streams -/

/-- A line that carries no data is read over, wherever lines may be put into a stream. -/
theorem EntryReader.readLines_insertLine {reader : EntryReader σ β} {states : Nat → σ → σ}
    (h : ∀ k, reader.Renumbers k (states k)) {head : List UInt8} {text : String}
    (hhead : Source.EndsLine head) (hline : '\n' ∉ text.toList)
    (htext : carriesData (Text.fields text) = false) (rest : List UInt8) (breaks : Bool) :
    reader.readLines (⟨head ++ (Source.lineBytes text ++ rest), breaks⟩ : Source).lines =
      (reader.readLines (⟨head ++ rest, breaks⟩ : Source).lines).adapt
        (Error.insertLine (head.count Source.newline)) := by
  rw [Source.lines_append hhead, Source.lines_append (Source.endsLine_lineBytes text),
    Source.wholeLines_lineBytes hline, Source.lines_append hhead, ← Source.length_wholeLines]
  exact (h _).readLines_insert htext _

/-- **Lines that carry no data change nothing but the numbers of lines.** If one is put into a
stream before its first line or right after a line end, then the reading ends as before: with the
same value, the same failure of the stream, or the same error, on the line where it is now found. -/
theorem readInstance_and_readSolution_insertLine (spelling : Spelling α) {head : List UInt8}
    {text : String} (hhead : Source.EndsLine head) (hline : '\n' ∉ text.toList)
    (htext : carriesData (Text.fields text) = false) (rest : List UInt8) (breaks : Bool) :
    readInstance spelling ⟨head ++ (Source.lineBytes text ++ rest), breaks⟩ =
      (readInstance spelling ⟨head ++ rest, breaks⟩).adapt
        (Error.insertLine (head.count Source.newline)) ∧
    readSolution spelling ⟨head ++ (Source.lineBytes text ++ rest), breaks⟩ =
      (readSolution spelling ⟨head ++ rest, breaks⟩).adapt
        (Error.insertLine (head.count Source.newline)) := by
  simp only [readInstance_eq, readSolution_eq]
  exact ⟨EntryReader.readLines_insertLine (renumbers_instanceReader spelling) hhead hline htext
      rest breaks,
    EntryReader.readLines_insertLine (renumbers_solutionReader spelling) hhead hline htext
      rest breaks⟩

/-- The line of a value. -/
def valueLine : List UInt8 :=
  (Source.ofString "s 1\n").bytes

/-- The lines of two pairs with the same worker. -/
def workerTwice : List UInt8 :=
  (Source.ofString "f 1 3 1\nf 1 4 1\n").bytes

theorem readInstance_and_readSolution_insertLine_workerTwice :
    readInstance (.integer (.unsigned 8))
        ⟨valueLine ++ (Source.lineBytes "c" ++ workerTwice), false⟩ =
      throw (.onLine 1 (.format (.notProblem "s"))) ∧
    readSolution (.integer (.unsigned 8))
        ⟨valueLine ++ (Source.lineBytes "c" ++ workerTwice), false⟩ =
      throw (.onLine 4 (.data (.workerTwice 1))) := by
  obtain ⟨hinstance, hsolution⟩ := readInstance_and_readSolution_insertLine
    (.integer (.unsigned 8)) (show Source.EndsLine valueLine by decide +kernel)
    (show '\n' ∉ "c".toList by decide +kernel) (by decide +kernel) workerTwice false
  rw [hinstance, hsolution]
  decide +kernel

end LinearAssignment.Dimacs
