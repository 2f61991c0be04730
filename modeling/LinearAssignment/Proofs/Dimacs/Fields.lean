import LinearAssignment.Dimacs.Instance
import LinearAssignment.Proofs.Readings
import LinearAssignment.Proofs.Text.Lines

/-!
# What the readers of fields accept

A reading gives a value only if each of its parts does, and these `iff` lemmas say when the parts
do: a bind (`Reading.bind_eq_pure_iff`), a field (`FieldReader.run_field_eq_pure_iff`), the check
that no field is left (`FieldReader.run_finish_eq_pure_iff`). With them the reader of a line is
unfolded into the fields that the line must have, without its errors.

The entries of a file are its data lines with their numbers (`Listing.map_numberedFields_entries`).
-/

namespace LinearAssignment.Dimacs

/-! ### Readers that give a value -/

namespace FieldReader

variable {α β : Type} {fields rest : List String}

theorem run_bind_eq_pure_iff {x : FieldReader α} {f : α → FieldReader β} {b : β} :
    (x >>= f).run fields = pure (b, rest) ↔
      ∃ a left, x.run fields = pure (a, left) ∧ (f a).run left = pure (b, rest) := by
  rw [StateT.run_bind, Reading.bind_eq_pure_iff, Prod.exists]

theorem run_pure_eq_pure_iff {fields : List String} {a b : α} :
    (pure a : FieldReader α).run fields = pure (b, rest) ↔ a = b ∧ fields = rest := by
  rw [StateT.run_pure, Reading.pure_eq_pure_iff, Prod.mk.injEq]

theorem run_ite_eq_pure_iff {c : Prop} [Decidable c] {x y : FieldReader α} {p : α × List String} :
    StateT.run (if c then x else y) fields = pure p ↔
      c ∧ x.run fields = pure p ∨ ¬ c ∧ y.run fields = pure p := by
  split <;> simp [*]

theorem run_liftM_eq_pure_iff {x : Checked α} {a : α} :
    (liftM x : FieldReader α).run fields = pure (a, rest) ↔ x = .ok a ∧ fields = rest := by
  rcases x with e | b
  · exact iff_of_false nofun nofun
  · exact run_pure_eq_pure_iff.trans (by rw [Except.ok.injEq])

theorem run_malformed_ne_pure (fields : List String) {issue : FormatIssue} {p : α × List String} :
    (malformed issue : FieldReader α).run fields ≠ pure p :=
  nofun

theorem run_invalid_ne_pure (fields : List String) {issue : DataIssue} {p : α × List String} :
    (invalid issue : FieldReader α).run fields ≠ pure p :=
  nofun

theorem run_field_eq_pure_iff {spelling : Spelling α} {what : String} {a : α} :
    (field spelling what).run fields = pure (a, rest) ↔
      ∃ token, fields = token :: rest ∧ spelling.read token = .ok a := by
  cases fields with
  | nil => exact iff_of_false (run_malformed_ne_pure []) nofun
  | cons token left =>
    cases hread : spelling.read token with
    | error flaw =>
      have hrun : (field spelling what).run (token :: left) =
          StateT.run (malformed (.invalidField what token flaw)) (token :: left) := by
        simp only [field, StateT.run_bind, StateT.run_get, pure_bind, hread]
      rw [hrun]
      exact iff_of_false (run_malformed_ne_pure _) (by simp [hread])
    | ok value =>
      have hrun : (field spelling what).run (token :: left) = StateT.run (pure value) left := by
        simp only [field, StateT.run_bind, StateT.run_get, StateT.run_set, pure_bind, hread]
      rw [hrun, run_pure_eq_pure_iff]
      constructor
      · rintro ⟨rfl, rfl⟩
        exact ⟨token, rfl, hread⟩
      · rintro ⟨_, ⟨⟩, h⟩
        exact ⟨Except.ok.inj (hread.symm.trans h), rfl⟩

theorem run_keyword_eq_pure_iff {word : String} {u : Unit} :
    (keyword word).run fields = pure (u, rest) ↔ fields = word :: rest := by
  cases fields with
  | nil => exact iff_of_false (run_malformed_ne_pure []) nofun
  | cons token left =>
    have hrun : (keyword word).run (token :: left) =
        StateT.run (if token = word then set left else malformed (.wrongKeyword word token))
          (token :: left) := rfl
    rw [hrun]
    split <;> rename_i h
    · rw [show StateT.run (set left : FieldReader Unit) (token :: left) =
        StateT.run (pure u) left from rfl, run_pure_eq_pure_iff]
      simp [h]
    · exact iff_of_false (run_malformed_ne_pure _) (by simp [h])

theorem run_finish_eq_pure_iff {u : Unit} :
    finish.run fields = pure (u, rest) ↔ fields = [] ∧ rest = [] := by
  cases fields with
  | nil => exact run_pure_eq_pure_iff.trans (by simp [eq_comm])
  | cons token left => exact iff_of_false (run_malformed_ne_pure (token :: left)) nofun

end FieldReader

/-- A reader on an entry gives a value if it does so on the fields, whatever it leaves of them. -/
theorem Entry.run_eq_pure_iff {α : Type} {entry : Entry} {reader : FieldReader α} {a : α} :
    entry.run reader = pure a ↔ ∃ rest, StateT.run reader entry.fields = pure (a, rest) := by
  rw [Entry.run, Reading.adapt_eq_pure_iff, StateT.run'_eq, map_eq_pure_bind,
    Reading.bind_eq_pure_iff]
  simp [Reading.pure_eq_pure_iff]

/-! ### Data lines -/

/-- Whether the fields of a line carry data: there are fields, and the first does not start with
`c`. -/
def carriesData : List String → Bool
  | [] => false
  | kind :: _ => kind.toList.head? != some 'c'

/-- The fields of the lines of a text that carry data. -/
def dataLines (text : String) : List (List String) :=
  ((Text.lines text).map Text.fields).filter carriesData

/-- The fields of the lines of a text that carry data, with the numbers of the lines. -/
def numberedDataLines (text : String) : List (List String × Nat) :=
  (((Text.lines text).map Text.fields).zipIdx 1).filter fun row ↦ carriesData row.1

theorem map_fst_numberedDataLines (text : String) :
    (numberedDataLines text).map Prod.fst = dataLines text := by
  calc (numberedDataLines text).map Prod.fst
      = ((((Text.lines text).map Text.fields).zipIdx 1).map Prod.fst).filter carriesData := by
        rw [List.filter_map, numberedDataLines]
        rfl
    _ = dataLines text := by rw [List.zipIdx_map_fst, dataLines]

section Join

variable {rows : List (List String)} (h : ∀ row ∈ rows, ∀ field ∈ row, Text.IsField field)

include h in
/-- The fields of a text whose lines consist of fields with blanks between them. -/
theorem map_fields_lines_join :
    (Text.lines (String.join (rows.map fun row ↦ " ".intercalate row ++ "\n"))).map Text.fields =
      rows ++ [[]] := by
  have hlines : Text.lines (String.join (rows.map fun row ↦ " ".intercalate row ++ "\n")) =
      rows.map (" ".intercalate ·) ++ [""] := by
    rw [← Text.lines_join, List.map_map]
    · rfl
    · intro l hl
      obtain ⟨row, hrow, rfl⟩ := List.mem_map.1 hl
      exact Text.newline_notMem_intercalate (h row hrow)
  have hrows : (rows.map (" ".intercalate ·)).map Text.fields = rows := by
    rw [List.map_map]
    exact (List.map_congr_left fun row hrow ↦ Text.fields_intercalate (h row hrow)).trans
      (List.map_id rows)
  rw [hlines, List.map_append, hrows]
  rfl

include h in
/-- The data lines of such a text. -/
theorem dataLines_join :
    dataLines (String.join (rows.map fun row ↦ " ".intercalate row ++ "\n")) =
      rows.filter carriesData := by
  rw [dataLines, map_fields_lines_join h, List.filter_append]
  exact List.append_nil _

include h in
/-- If all lines of such a text carry data, they have consecutive numbers. -/
theorem numberedDataLines_join (hdata : ∀ row ∈ rows, carriesData row = true) :
    numberedDataLines (String.join (rows.map fun row ↦ " ".intercalate row ++ "\n")) =
      rows.zipIdx 1 := by
  rw [numberedDataLines, map_fields_lines_join h, List.zipIdx_append, List.filter_append,
    List.filter_eq_self.2 fun row hrow ↦ hdata _ (List.fst_mem_of_mem_zipIdx hrow)]
  exact List.append_nil _

end Join

/-- All fields of an entry. -/
def Entry.allFields (entry : Entry) : List String :=
  entry.kind :: entry.fields

/-- All fields of an entry, with the number of its line. -/
def Entry.numberedFields (entry : Entry) : List String × Nat :=
  (entry.allFields, entry.line)

/-- A line has an entry with its fields if they carry data. -/
theorem Entry.map_numberedFields_ofLine? (line : Nat) (text : String) :
    (Entry.ofLine? line text).toList.map Entry.numberedFields =
      [(Text.fields text, line)].filter fun row ↦ carriesData row.1 := by
  rw [Entry.ofLine?]
  cases hfields : Text.fields text with
  | nil => rfl
  | cons kind fields =>
    by_cases hkind : kind.toList.head? = some 'c'
    · simp [carriesData, hkind]
    · rw [List.filter_cons_of_pos (by simp [carriesData, hkind])]
      simp [hkind, Entry.numberedFields, Entry.allFields]

namespace Listing

theorem failure_ofLines (read : Nat) (texts : List String) :
    (ofLines read (texts.map .ok)).failure = none := by
  induction texts generalizing read with
  | nil => rfl
  | cons text texts ih => exact ih (read + 1)

theorem map_numberedFields_entries_ofLines (read : Nat) (texts : List String) :
    (ofLines read (texts.map .ok)).entries.map Entry.numberedFields =
      ((texts.map Text.fields).zipIdx (read + 1)).filter fun row ↦ carriesData row.1 := by
  induction texts generalizing read with
  | nil => rfl
  | cons text texts ih =>
    have htail : (ofLines read ((text :: texts).map .ok)).entries =
        (Entry.ofLine? (read + 1) text).toList ++ (ofLines (read + 1) (texts.map .ok)).entries :=
      rfl
    rw [htail, List.map_append, Entry.map_numberedFields_ofLine?, ih, ← List.filter_append]
    rfl

/-- The entries of a text are its data lines, with the numbers of the lines. -/
theorem map_numberedFields_entries (text : String) :
    (ofSource (.ofString text)).entries.map Entry.numberedFields = numberedDataLines text := by
  obtain ⟨texts, hlines, htexts⟩ := Text.Source.exists_lines_ofString text
  rw [ofSource, hlines, map_numberedFields_entries_ofLines, numberedDataLines]
  rcases htexts with h | h
  · rw [h]
  · rw [h, List.map_append, List.zipIdx_append, List.filter_append]
    exact (List.append_nil _).symm

/-- The entries of a text are its data lines. -/
theorem map_allFields_entries (text : String) :
    (ofSource (.ofString text)).entries.map Entry.allFields = dataLines text := by
  rw [← map_fst_numberedDataLines, ← map_numberedFields_entries, List.map_map]
  rfl

theorem map_line_entries (text : String) :
    (ofSource (.ofString text)).entries.map Entry.line =
      (numberedDataLines text).map Prod.snd := by
  rw [← map_numberedFields_entries, List.map_map]
  rfl

/-- All lines of a text can be read. -/
theorem checkEnd_ofString (text : String) : (ofSource (.ofString text)).checkEnd = pure () := by
  obtain ⟨texts, hlines, -⟩ := Text.Source.exists_lines_ofString text
  rw [checkEnd, ofSource, hlines, failure_ofLines]

end Listing

end LinearAssignment.Dimacs
