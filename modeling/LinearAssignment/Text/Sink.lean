import LinearAssignment.Fault

/-!
# Sinks of text

A sink takes text line by line, and it may be full after some number of bytes. A line is composed
before any of it is delivered, so a fault of a line comes after all lines before it, and only if the
sink had room for them.
-/

namespace LinearAssignment.Text

/-- The sink was full before all text was delivered. -/
structure SinkFull where
  /-- The bytes that were delivered. -/
  written : List UInt8
deriving DecidableEq, Repr

/-- The text delivered to a sink with room for `room` bytes, or for any number, after the text
`before`. -/
def deliver (room : Option Nat) (before : String) :
    List (Checked String) → ExceptT SinkFull Checked String
  | [] => pure before
  | line :: lines => do
    let text := before ++ (← line)
    match room with
    | none => deliver room text lines
    | some k =>
      if text.utf8ByteSize ≤ k then deliver room text lines
      else throw ⟨text.toByteArray.data.toList.take k⟩

end LinearAssignment.Text
