import LinearAssignment.Fault

/-!
# Cost types

Costs are integers, and a cost type says which of them a matrix may hold: those of an unsigned or a
signed width, or all of them. Arithmetic is done on exact integers and then checked against the
type, so the same algorithm runs at every width, and at `CostType.unbounded` it is the exact
algorithm, in which nothing overflows and nothing is clamped.
-/

namespace LinearAssignment

/-- The integers that a cost may be. -/
inductive CostType
  /-- From `0` to `2 ^ bits - 1`. -/
  | unsigned (bits : Nat)
  /-- From `-2 ^ bits` to `2 ^ bits - 1`; the sign is not counted in `bits`. -/
  | signed (bits : Nat)
  /-- All integers. -/
  | unbounded
deriving DecidableEq, Repr

namespace CostType

/-- Whether an integer is a cost of the type. -/
def Fits : CostType → Int → Prop
  | unsigned bits, c => 0 ≤ c ∧ c < (Nat.pow 2 bits : Int)
  | signed bits, c => -(Nat.pow 2 bits : Int) ≤ c ∧ c < (Nat.pow 2 bits : Int)
  | unbounded, _ => True

/-- The number that is left of an integer without its sign bit. -/
def payload : Int → Nat
  | .ofNat n => n
  | .negSucc n => n

theorem payload_lt_iff {c : Int} {k : Nat} : payload c < k ↔ -(k : Int) ≤ c ∧ c < (k : Int) := by
  cases c with
  | ofNat n => simp only [payload, Int.ofNat_eq_natCast]; omega
  | negSucc n => simp only [payload]; omega

/-- No bits are left of a number above the first ones exactly if it is below their power. -/
theorem shiftRight_eq_zero_iff {n bits : Nat} : n >>> bits = 0 ↔ n < Nat.pow 2 bits := by
  rw [Nat.shiftRight_eq_div_pow]
  exact Nat.div_eq_zero_iff_lt (Nat.two_pow_pos bits)

/-- The range is tested on the bits of an integer, without computing its ends. -/
instance (W : CostType) (c : Int) : Decidable (W.Fits c) :=
  match W with
  | unsigned bits => decidable_of_iff (0 ≤ c ∧ payload c >>> bits = 0) (by
      rw [shiftRight_eq_zero_iff, payload_lt_iff]
      exact ⟨fun h ↦ ⟨h.1, h.2.2⟩, fun h ↦ ⟨h.1, Int.le_trans (Int.neg_nonpos_of_nonneg
        (Int.natCast_nonneg _)) h.1, h.2⟩⟩)
  | signed bits => decidable_of_iff (payload c >>> bits = 0) (by
      rw [shiftRight_eq_zero_iff, payload_lt_iff]
      exact Iff.rfl)
  | unbounded => .isTrue trivial

/-- The largest cost of the type, if there is one. -/
def greatest? : CostType → Option Int
  | unsigned bits => some ((Nat.pow 2 bits : Int) - 1)
  | signed bits => some ((Nat.pow 2 bits : Int) - 1)
  | unbounded => none

/-- Whether costs below zero are of the type. -/
def hasNegative : CostType → Bool
  | unsigned _ => false
  | signed _ => true
  | unbounded => true

/-- The number of bytes that a cost of the type takes. Costs without a largest one have no fixed
width, and none is counted for them. -/
def width : CostType → Nat
  | unsigned bits => (bits + 7) / 8
  | signed bits => bits / 8 + 1
  | unbounded => 0

/-- The type of words: node numbers and other counts are read as its costs. -/
def word : CostType := unsigned 64

/-- The exact result of an operation, if it is a cost of the type. -/
def check (W : CostType) (op : Operation) (c : Int) : Checked Int :=
  if W.Fits c then .ok c else .error (.overflow op)

/-- The sum of two costs. -/
def add (W : CostType) (a b : Int) : Checked Int :=
  W.check .add (a + b)

/-- The difference of two costs. -/
def sub (W : CostType) (a b : Int) : Checked Int :=
  W.check .subtract (a - b)

/-- The cost `c` raised by `m`, or the largest cost of the type where the sum is larger still. The
comparison is with `greatest - m`, so that no sum is formed that does not fit. -/
def raise (W : CostType) (m c : Int) : Checked Int :=
  match W.greatest? with
  | none => W.add c m
  | some top => do
    let room ← W.sub top m
    if c > room then pure top else W.add c m

/-- A check succeeds exactly on the costs of the type, and changes nothing. -/
theorem check_eq_ok_iff {W : CostType} {op : Operation} {c d : Int} :
    W.check op c = .ok d ↔ W.Fits c ∧ c = d := by
  unfold check; split <;> simp_all

/-- Zero is a cost of every type. -/
theorem fits_zero (W : CostType) : W.Fits 0 := by
  cases W with
  | unsigned bits => exact ⟨Int.le_refl 0, Int.natCast_pos.2 (Nat.two_pow_pos bits)⟩
  | signed bits =>
    exact ⟨Int.neg_nonpos_of_nonneg (Int.natCast_nonneg _),
      Int.natCast_pos.2 (Nat.two_pow_pos bits)⟩
  | unbounded => trivial

/-- A type with a cost below zero has negative costs. -/
theorem hasNegative_of_fits {W : CostType} {c : Int} (h : W.Fits c) (hc : c < 0) :
    W.hasNegative = true := by
  cases W with
  | unsigned bits => exact absurd h.1 (Int.not_le.2 hc)
  | signed bits => rfl
  | unbounded => rfl

/-- The costs of a type without negative costs are not below zero. -/
theorem nonneg_of_fits {W : CostType} {c : Int} (hW : W.hasNegative = false) (h : W.Fits c) :
    0 ≤ c :=
  Int.not_lt.1 fun hc ↦ absurd (hasNegative_of_fits h hc) (Bool.eq_false_iff.1 hW)

end CostType

end LinearAssignment
