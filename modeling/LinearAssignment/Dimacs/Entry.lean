import LinearAssignment.Dimacs.Error
import LinearAssignment.Spelling
import LinearAssignment.Text.Blank

/-!
# Entries of DIMACS files

Each line of a file that has a field, and whose first field does not start with `c`, is an entry.
Its first field is its kind, and the other fields are taken from left to right. The entries of a
file are listed with their line numbers, together with how the reading of lines ended. An entry is
handled before the next line is read, so an error of an entry comes before errors of later lines.
-/

namespace LinearAssignment.Dimacs

/-- A line of a file that carries data. -/
structure Entry where
  /-- The number of the line, from one on. -/
  line : Nat
  /-- The first field. -/
  kind : String
  /-- The other fields. -/
  fields : List String
deriving DecidableEq, Repr

/-- The entry on a line, unless the line is blank or a comment. -/
def Entry.ofLine? (line : Nat) (text : String) : Option Entry :=
  match Text.fields text with
  | [] => none
  | kind :: fields =>
    if kind.toList.head? = some 'c' then none else some ⟨line, kind, fields⟩

/-- The entries of a file, as far as its lines could be read. -/
structure Listing where
  /-- The entries in order. -/
  entries : List Entry
  /-- The number of lines that were read. -/
  lines : Nat
  /-- What ended the reading, if it was not the end of the file. -/
  failure : Option Text.ReadError
deriving DecidableEq, Repr

namespace Listing

/-- The entries on lines that follow the first `read` lines of a file. -/
def ofLines (read : Nat) : List (Except Text.ReadError String) → Listing
  | [] => ⟨[], read, none⟩
  | .error e :: _ => ⟨[], read, some e⟩
  | .ok text :: rest =>
    let tail := ofLines (read + 1) rest
    { tail with entries := (Entry.ofLine? (read + 1) text).toList ++ tail.entries }

/-- The entries of a source. -/
def ofSource (source : Text.Source) : Listing :=
  ofLines 0 source.lines

/-- Goes on only if all lines could be read. -/
def checkEnd (listing : Listing) : Reading Unit :=
  match listing.failure with
  | some e => throw (.unreadable e)
  | none => pure ()

/-- An error of the whole file, which is found at its end. -/
def fail {α : Type} (listing : Listing) (issue : Issue) : Reading α :=
  throw (.onLine listing.lines issue)

end Listing

/-! ### Fields of an entry

The fields that are left are a state. An issue does not say on which line it is; that is added when
the reader is run on an entry. -/

/-- A computation on the fields of an entry that are left. -/
abbrev FieldReader := StateT (List String) (ExceptT Issue Checked)

namespace FieldReader

/-- Ends with a flaw of form. -/
def malformed {α : Type} (issue : FormatIssue) : FieldReader α :=
  throw (.format issue)

/-- Ends with a flaw of meaning. -/
def invalid {α : Type} (issue : DataIssue) : FieldReader α :=
  throw (.data issue)

/-- Takes a field that stands for a value. -/
def field {α : Type} (spelling : Spelling α) (what : String) : FieldReader α := do
  match ← get with
  | [] => malformed (.missingField what)
  | token :: rest =>
    match spelling.read token with
    | .ok value =>
      set rest
      return value
    | .error flaw => malformed (.invalidField what token flaw)

/-- Takes a field that must be a keyword. -/
def keyword (word : String) : FieldReader Unit := do
  match ← get with
  | [] => malformed (.missingKeyword word)
  | token :: rest =>
    if token = word then set rest else malformed (.wrongKeyword word token)

/-- Checks that no field is left. -/
def finish : FieldReader Unit := do
  match ← get with
  | [] => pure ()
  | token :: _ => malformed (.extraField token)

end FieldReader

/-- The result of a reader on the fields of an entry. -/
def Entry.run {α : Type} (entry : Entry) (reader : FieldReader α) : Reading α :=
  ((reader.run' entry.fields).adapt fun issue ↦ .onLine entry.line issue)

end LinearAssignment.Dimacs
