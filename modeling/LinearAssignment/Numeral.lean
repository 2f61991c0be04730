import LinearAssignment.CostType

/-!
# Decimal numerals

Reading and writing of integers. A numeral is a run of decimal digits after an optional sign; a
minus sign is only there for types with costs below zero. The digits are taken from left to right
with the value so far, and each of them is first checked to be a digit and then to keep the value
within the type. So of two flaws the one further left is reported, and a numeral that is too long
and ends in a letter is too large exactly if its digits leave the type before the letter.
-/

namespace LinearAssignment.Numeral

/-- What keeps a text from being a numeral of a cost type. -/
inductive Flaw
  | empty
  | invalidDigit
  | tooLarge
  | tooSmall
deriving DecidableEq, Repr

/-- The text of a flaw. -/
def Flaw.message : Flaw → String
  | empty => "cannot parse integer from empty string"
  | invalidDigit => "invalid digit found in string"
  | tooLarge => "number too large to fit in target type"
  | tooSmall => "number too small to fit in target type"

/-- The value of a decimal digit. -/
def digit? (c : Char) : Option Nat :=
  if c.isDigit then some (c.toNat - '0'.toNat) else none

/-- The value of digits after the ones that have the value `acc`; below zero, each digit counts
downwards. -/
def accumulate (W : CostType) (negative : Bool) (acc : Int) : List Char → Except Flaw Int
  | [] => .ok acc
  | c :: cs =>
    match digit? c with
    | none => .error .invalidDigit
    | some d =>
      let next := if negative then 10 * acc - d else 10 * acc + d
      if W.Fits next then accumulate W negative next cs
      else .error (if negative then .tooSmall else .tooLarge)

/-- The value of a numeral. -/
def read (W : CostType) : List Char → Except Flaw Int
  | [] => .error .empty
  | ['+'] => .error .invalidDigit
  | ['-'] => .error .invalidDigit
  | '+' :: cs => accumulate W false 0 cs
  | c :: cs =>
    if c = '-' ∧ W.hasNegative then accumulate W true 0 cs
    else accumulate W false 0 (c :: cs)

/-- The numeral of an integer. -/
def write : Int → String
  | .ofNat n => n.repr
  | .negSucc n => "-" ++ (n + 1).repr

end LinearAssignment.Numeral
