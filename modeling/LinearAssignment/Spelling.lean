import LinearAssignment.Numeral

/-!
# Spellings of costs

The file formats say how costs are arranged, not what they are. A spelling says how one cost is read
from a token and written as one: integers of a cost type as decimal numerals, or tokens as they
stand.
-/

namespace LinearAssignment

/-- How the costs of a file are read and written. -/
structure Spelling (α : Type) where
  /-- The cost that a token stands for. -/
  read : String → Except Numeral.Flaw α
  /-- The text of a cost. -/
  write : α → String

namespace Spelling

/-- The integers of a cost type, as decimal numerals. -/
def integer (W : CostType) : Spelling Int where
  read token := Numeral.read W token.toList
  write := Numeral.write

/-- Words, as decimal numerals. -/
def word : Spelling Nat where
  read token := (Numeral.read .word token.toList).map Int.toNat
  write n := Numeral.write n

/-- Tokens that stand for themselves. -/
def token : Spelling String where
  read token := .ok token
  write token := token

end Spelling

end LinearAssignment
