import LinearAssignment.Proofs.Text.Lines

/-!
# Streams that are cut between two lines

A stream may be cut before its first byte or right after a line end (`Source.EndsLine`). The lines
on the two sides of such a cut do not depend on each other: the lines of the stream are the whole
lines before the cut and then those of the stream after it (`Source.lines_append`). There are as
many whole lines as line ends (`Source.length_wholeLines`).
-/

namespace LinearAssignment.Text.Source

/-- The bytes are lines that end with a line end: the next byte starts a line. -/
def EndsLine (head : List UInt8) : Prop :=
  head = [] ∨ head.getLast? = some newline

instance : DecidablePred EndsLine := fun head ↦
  inferInstanceAs (Decidable (head = [] ∨ head.getLast? = some newline))

/-- The lines of some bytes that end with a line end. -/
def wholeLines (bytes : List UInt8) : List (Except ReadError String) :=
  (bytes.splitOn newline).dropLast.map decode

/-- The bytes of a text and a line end. -/
def lineBytes (text : String) : List UInt8 :=
  (ofString text).bytes ++ [newline]

variable {head : List UInt8} {text : String}

/-- The lines of a stream are its whole lines and what comes after the last line end. -/
theorem lines_eq (source : Source) : source.lines =
    wholeLines source.bytes ++ source.lastLine ((source.bytes.splitOn newline).getLastD []) :=
  rfl

/-- A stream that breaks off has its whole lines and then the break. -/
theorem lines_of_breaks {source : Source} (h : source.breaks = true) :
    source.lines = wholeLines source.bytes ++ [.error .broken] := by
  rw [lines_eq, lastLine, if_pos h]

/-- Bytes that end with a line end are what comes before it and the line end. -/
theorem EndsLine.eq_nil_or_concat (h : EndsLine head) :
    head = [] ∨ ∃ init, head = init ++ [newline] := by
  rcases h with h | h
  · exact .inl h
  · exact .inr (List.getLast?_eq_some_iff.1 h)

theorem wholeLines_concat (init : List UInt8) :
    wholeLines (init ++ [newline]) = (init.splitOn newline).map decode := by
  rw [wholeLines, List.splitOn_append_cons_self, List.splitOn_nil, List.dropLast_concat]

/-- A stream that is cut between two lines has the lines before the cut and those after it. -/
theorem lines_append (h : EndsLine head) (rest : List UInt8) (breaks : Bool) :
    (⟨head ++ rest, breaks⟩ : Source).lines =
      wholeLines head ++ (⟨rest, breaks⟩ : Source).lines := by
  rcases h.eq_nil_or_concat with rfl | ⟨init, rfl⟩
  · rfl
  · obtain ⟨parts, last, hrest⟩ : ∃ parts last, rest.splitOn newline = parts ++ [last] :=
      ⟨_, _, (List.dropLast_concat_getLast (List.splitOn_ne_nil newline rest)).symm⟩
    have hsplit : (init ++ [newline] ++ rest).splitOn newline =
        init.splitOn newline ++ parts ++ [last] := by
      rw [List.append_assoc, List.singleton_append, List.splitOn_append_cons_self, hrest,
        List.append_assoc]
    rw [lines_eq, lines_eq, wholeLines_concat, wholeLines, wholeLines, hsplit, hrest,
      List.dropLast_concat, List.dropLast_concat, List.getLastD_concat, List.getLastD_concat,
      List.map_append, List.append_assoc]
    rfl

/-- Each line end ends a whole line. -/
theorem length_wholeLines (bytes : List UInt8) :
    (wholeLines bytes).length = bytes.count newline := by
  rw [wholeLines, List.length_map, List.length_dropLast, length_splitOn,
    Nat.add_sub_cancel]

/-- The whole lines of a text with one line end are the text. -/
theorem wholeLines_lineBytes (h : '\n' ∉ text.toList) :
    wholeLines (lineBytes text) = [.ok text] := by
  rw [lineBytes, wholeLines_concat, bytes_ofString, splitOn_flatMap_utf8EncodeChar,
    List.splitOn_eq_singleton h, List.map_singleton, List.map_singleton,
    decode_flatMap_utf8EncodeChar, String.ofList_toList]

theorem endsLine_lineBytes (text : String) : EndsLine (lineBytes text) :=
  .inr List.getLast?_concat

end LinearAssignment.Text.Source
