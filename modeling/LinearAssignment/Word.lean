import LinearAssignment.Fault

/-!
# Word arithmetic

Sizes, indices and node numbers are 64-bit words. They are kept as natural numbers, and each
operation checks that its exact result is a word again: `add_eq_ok_iff`, `sub_eq_ok_iff` and
`mul_eq_ok_iff` say that it succeeds exactly then, and that its result is the exact one.

No vector has more bytes than the largest signed word, so room for entries that have more is refused
(`reserve_eq_ok_iff`).
-/

namespace LinearAssignment.Word

/-- The number of words. -/
def bound : Nat := 0x10000000000000000

/-- The sum of two words. -/
def add (a b : Nat) : Checked Nat :=
  if a + b < bound then .ok (a + b) else .error (.overflow .add)

/-- The difference of two words, which must not be negative. -/
def sub (a b : Nat) : Checked Nat :=
  if b ≤ a then .ok (a - b) else .error (.overflow .subtract)

/-- The product of two words. -/
def mul (a b : Nat) : Checked Nat :=
  if a * b < bound then .ok (a * b) else .error (.overflow .multiply)

/-- Makes room for a vector of `count` entries of `width` bytes each. -/
def reserve (count width : Nat) : Checked Unit :=
  if count * width < 0x8000000000000000 then .ok () else .error .capacity

/-- Adding succeeds exactly if the sum is a word. -/
theorem add_eq_ok_iff {a b c : Nat} : add a b = .ok c ↔ a + b < bound ∧ a + b = c := by
  grind [add]

/-- Subtracting succeeds exactly if the difference is not negative. -/
theorem sub_eq_ok_iff {a b c : Nat} : sub a b = .ok c ↔ b ≤ a ∧ a - b = c := by
  grind [sub]

/-- Multiplying succeeds exactly if the product is a word. -/
theorem mul_eq_ok_iff {a b c : Nat} : mul a b = .ok c ↔ a * b < bound ∧ a * b = c := by
  grind [mul]

/-- There is room exactly if the number of bytes is a signed word. -/
theorem reserve_eq_ok_iff {count width : Nat} :
    reserve count width = .ok () ↔ count * width < 0x8000000000000000 := by
  grind [reserve]

end LinearAssignment.Word
