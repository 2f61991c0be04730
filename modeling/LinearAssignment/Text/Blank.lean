/-!
# Blanks and fields

The fields of a line are the runs of characters between blanks, which are the characters with the
Unicode property White_Space. Zero-width characters are not among them.
-/

namespace LinearAssignment.Text

/-- The characters with the property White_Space, as ranges of code points. -/
def blankRanges : List (Nat × Nat) :=
  [(0x09, 0x0D), (0x20, 0x20), (0x85, 0x85), (0xA0, 0xA0), (0x1680, 0x1680), (0x2000, 0x200A),
    (0x2028, 0x2029), (0x202F, 0x202F), (0x205F, 0x205F), (0x3000, 0x3000)]

/-- Whether a character separates fields. -/
def isBlank (c : Char) : Bool :=
  blankRanges.any fun (low, high) ↦ low ≤ c.toNat && c.toNat ≤ high

/-- The fields of a text. -/
def fields (text : String) : List String :=
  ((text.toList.splitOnP isBlank).filter fun field ↦ !field.isEmpty).map String.ofList

/-! ### Laws -/

/-- The blanks of the ASCII range that are known everywhere are blanks. -/
theorem isBlank_of_isWhitespace {c : Char} (h : c.isWhitespace) : isBlank c := by
  simp only [Char.isWhitespace, Bool.or_eq_true, decide_eq_true_eq] at h
  rcases h with ((rfl | rfl) | rfl) | rfl <;> decide

end LinearAssignment.Text
