import LinearAssignment.Proofs.Dimacs.Totality
import LinearAssignment.Proofs.Text.WholeLines

/-!
# Reading line by line

Instances and solutions are read in the same way: the entries are handled one after the other, and
after the last line it is said what they amount to. An `EntryReader` is made of these parts. Its
reading is one loop over the lines with their numbers, in which a line without an entry changes
nothing and a line that cannot be read ends the loop (`EntryReader.readLines_lines`).

A loop that ends with an error does not look at the lines that follow
(`EntryReader.readLines_of_raises`). So an error that is raised on a line is the answer for every
stream that starts with the lines up to it, and if the stream fails before any such error, the
failure is the answer. All other errors are deferred: they are looked for after the last line, and
they are of other kinds (`EntryReader.Defers`).
-/

namespace LinearAssignment.Dimacs

open Text (ReadError Source)

open Reading

/-! ### Readers of entries -/

/-- How files of one kind are read: the entries are handled one after the other, and after the last
line it is said what they amount to. -/
structure EntryReader (σ β : Type) where
  /-- The state before the first entry. -/
  start : σ
  /-- What an entry does to the state. -/
  handle : σ → Entry → Reading σ
  /-- What a state amounts to after a number of lines. -/
  finish : Nat → σ → Reading β

namespace EntryReader

variable {σ β : Type} (reader : EntryReader σ β)

/-- Handles a line with its number. -/
def handleLine (state : σ) (row : Except ReadError String × Nat) : Reading σ :=
  match row with
  | (.error e, _) => throw (.unreadable e)
  | (.ok text, line) =>
    match Entry.ofLine? line text with
    | none => pure state
    | some entry => reader.handle state entry

/-- Handles the first lines of a file. -/
def handleLines (lines : List (Except ReadError String)) : Reading σ :=
  (lines.zipIdx 1).foldlM reader.handleLine reader.start

/-- Reads a file that has some lines. -/
def readLines (lines : List (Except ReadError String)) : Reading β := do
  reader.finish lines.length (← reader.handleLines lines)

/-- The error is raised on a line: those before it are handled without one. -/
def RaisesOn (lines : List (Except ReadError String)) (line : Nat) (issue : Issue) : Prop :=
  ∃ before text after state, lines = before ++ .ok text :: after ∧ before.length + 1 = line ∧
    reader.handleLines before = pure state ∧
    reader.handleLine state (.ok text, line) = throw (.onLine line issue)

/-- Handling the entries of a listing and checking how it ended is handling its lines. -/
theorem foldlM_entries_ofLines {γ : Type} (read : Nat) (lines : List (Except ReadError String))
    (state : σ) (next : Nat → σ → Reading γ) :
    (do
      let state ← (Listing.ofLines read lines).entries.foldlM reader.handle state
      (Listing.ofLines read lines).checkEnd
      next (Listing.ofLines read lines).lines state) =
    (do
      let state ← (lines.zipIdx (read + 1)).foldlM reader.handleLine state
      next (read + lines.length) state) := by
  induction lines generalizing read state with
  | nil => rfl
  | cons line lines ih =>
    rw [List.zipIdx_cons, List.foldlM_cons]
    cases line with
    | error e => rfl
    | ok text =>
      have hentries : (Listing.ofLines read (.ok text :: lines)).entries =
          (Entry.ofLine? (read + 1) text).toList ++ (Listing.ofLines (read + 1) lines).entries :=
        rfl
      have hend : (Listing.ofLines read (.ok text :: lines)).checkEnd =
          (Listing.ofLines (read + 1) lines).checkEnd := rfl
      have hlines : (Listing.ofLines read (.ok text :: lines)).lines =
          (Listing.ofLines (read + 1) lines).lines := rfl
      have hlength : read + (.ok text :: lines : List (Except ReadError String)).length =
          read + 1 + lines.length := by
        rw [List.length_cons]
        omega
      rw [hentries, hend, hlines, hlength, List.foldlM_append, handleLine]
      cases Entry.ofLine? (read + 1) text with
      | none => exact ih (read + 1) state
      | some entry =>
        simp only [Option.toList_some, List.foldlM_cons, List.foldlM_nil, bind_pure, bind_assoc,
          ih (read + 1)]

/-- A file is read by handling its entries, checking how it ended, and finishing. -/
theorem readLines_lines (source : Source) : reader.readLines source.lines =
    (do
      let state ← (Listing.ofSource source).entries.foldlM reader.handle reader.start
      (Listing.ofSource source).checkEnd
      reader.finish (Listing.ofSource source).lines state) := by
  rw [Listing.ofSource, foldlM_entries_ofLines, readLines, handleLines]
  simp only [Nat.zero_add]

/-! ### The first error -/

variable {reader} {lines before after : List (Except ReadError String)}
  {line : Except ReadError String} {state : σ} {e : Error}

theorem handleLine_of_eq_none {text : String} {number : Nat}
    (h : Entry.ofLine? number text = none) :
    reader.handleLine state (.ok text, number) = pure state := by
  rw [handleLine, h]

theorem handleLine_of_eq_some {text : String} {number : Nat} {entry : Entry}
    (h : Entry.ofLine? number text = some entry) :
    reader.handleLine state (.ok text, number) = reader.handle state entry := by
  rw [handleLine, h]

theorem handleLines_append_singleton (lines : List (Except ReadError String))
    (line : Except ReadError String) : reader.handleLines (lines ++ [line]) =
      (do reader.handleLine (← reader.handleLines lines) (line, lines.length + 1)) := by
  rw [handleLines, List.zipIdx_append, List.foldlM_append, Nat.add_comm 1]
  simp only [List.zipIdx_cons, List.zipIdx_nil, List.foldlM_cons, List.foldlM_nil, bind_pure]
  rfl

/-- An error that is raised on a line is the answer, whatever lines follow. -/
theorem readLines_of_raises (after : List (Except ReadError String))
    (hbefore : reader.handleLines before = pure state)
    (hline : reader.handleLine state (line, before.length + 1) = throw e) :
    reader.readLines (before ++ line :: after) = throw e := by
  have hlines : reader.handleLines (before ++ line :: after) = throw e := by
    have hrow : (before ++ line :: after).zipIdx 1 =
        (before ++ [line]).zipIdx 1 ++ after.zipIdx (1 + (before ++ [line]).length) := by
      rw [← List.zipIdx_append, List.append_assoc, List.singleton_append]
    have hfirst : reader.handleLines (before ++ [line]) =
        (do reader.handleLine (← reader.handleLines before) (line, before.length + 1)) :=
      handleLines_append_singleton before line
    rw [hbefore, pure_bind, hline] at hfirst
    rw [handleLines, hrow, List.foldlM_append, ← handleLines, hfirst, throw_bind]
  rw [readLines, hlines, throw_bind]

/-- If handling the lines ends with an error, some line is the first that raises one. -/
theorem exists_raises_of_handleLines (h : reader.handleLines lines = throw e) :
    ∃ before line after state, lines = before ++ line :: after ∧
      reader.handleLines before = pure state ∧
      reader.handleLine state (line, before.length + 1) = throw e := by
  induction lines using List.reverseRecOn with
  | nil => cases h
  | append_singleton lines line ih =>
    rw [handleLines_append_singleton] at h
    rcases hlines : reader.handleLines lines with fault | e' | state
    · rw [hlines] at h
      cases h
    · rw [hlines] at h
      obtain ⟨before, first, after, state, rfl, hbefore, hfirst⟩ := ih (hlines.trans h)
      exact ⟨before, first, after ++ [line], state, by simp, hbefore, hfirst⟩
    · rw [hlines] at h
      exact ⟨lines, line, [], state, rfl, hlines, h⟩

/-! ### Errors that are deferred -/

variable (reader) in
/-- What an entry does may raise an error on its line, and what all entries amount to may raise one
of the errors that are deferred. -/
structure Defers : Prop where
  /-- Errors of an entry are raised on its line, and are not deferred. -/
  handle : ∀ state entry, Answers
    (fun e ↦ ∃ issue, e = .onLine entry.line issue ∧ ¬ issue.IsDeferred)
    (reader.handle state entry)
  /-- Errors after the last line are deferred. -/
  finish : ∀ lines state, ThrowsOnly Error.IsDeferred (reader.finish lines state)

namespace Defers

variable (h : reader.Defers)

include h in
/-- A line that can be read raises errors of its own, which are not deferred. -/
theorem handleLine_eq_throw {text : String} {number : Nat}
    (hline : reader.handleLine state (.ok text, number) = throw e) :
    ∃ issue, e = .onLine number issue ∧ ¬ issue.IsDeferred := by
  cases hentry : Entry.ofLine? number text with
  | none =>
    rw [handleLine_of_eq_none hentry] at hline
    cases hline
  | some entry =>
    rw [handleLine_of_eq_some hentry] at hline
    have hnumber : entry.line = number := by
      rw [Entry.ofLine?] at hentry
      split at hentry
      · cases hentry
      · split at hentry
        · cases hentry
        · exact Option.some.inj hentry ▸ rfl
    exact hnumber ▸ (h.handle state entry).throwsOnly e hline

include h in
/-- Handling a line has an answer. -/
theorem answers_handleLine (state : σ) (row : Except ReadError String × Nat) :
    Answers (fun _ ↦ True) (reader.handleLine state row) := by
  obtain ⟨e | text, number⟩ := row
  · exact answers_throw trivial
  · cases hentry : Entry.ofLine? number text with
    | none => exact handleLine_of_eq_none hentry ▸ answers_pure state
    | some entry =>
      exact handleLine_of_eq_some hentry ▸ (h.handle state entry).mono fun _ _ ↦ trivial

include h in
/-- Lines are handled if none of them raises an error and all can be read. -/
theorem exists_handleLines (hlines : ∀ e, reader.handleLines lines ≠ throw e) :
    ∃ state, reader.handleLines lines = pure state := by
  have hanswers : Answers (fun _ ↦ True) (reader.handleLines lines) :=
    answers_foldlM fun _ row _ _ state _ ↦ h.answers_handleLine state row
  exact hanswers.resolve_right fun ⟨e, he, _⟩ ↦ hlines e he

include h in
/-- The errors that are raised on a line are those that are not deferred. -/
theorem raisesOn_iff {number : Nat} {issue : Issue}
    (hread : reader.readLines lines = throw (.onLine number issue)) :
    reader.RaisesOn lines number issue ↔ ¬ issue.IsDeferred := by
  constructor
  · intro ⟨before, text, after, state, _, _, _, hline⟩
    obtain ⟨_, ⟨⟩, hissue⟩ := h.handleLine_eq_throw hline
    exact hissue
  · intro hissue
    rcases hlines : reader.handleLines lines with fault | e | state
    · rw [readLines, hlines] at hread
      cases hread
    · rw [readLines, hlines] at hread
      obtain rfl : e = .onLine number issue := throw_eq_throw_iff.1 hread
      obtain ⟨before, line, after, state, rfl, hbefore, hline⟩ :=
        exists_raises_of_handleLines hlines
      cases line with
      | error e => cases hline
      | ok text =>
        obtain ⟨_, ⟨⟩, -⟩ := h.handleLine_eq_throw hline
        exact ⟨before, text, after, state, rfl, rfl, hbefore, hline⟩
    · rw [readLines, hlines] at hread
      exact absurd (h.finish _ state _ hread) hissue

end Defers

end EntryReader

end LinearAssignment.Dimacs
