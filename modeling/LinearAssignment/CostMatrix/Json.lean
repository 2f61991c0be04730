import LinearAssignment.CostMatrix.Build
import LinearAssignment.Json.Skip
import LinearAssignment.Numeral

/-!
# The JSON form of cost matrices

A matrix is written as an object with its size `n` and its entries `data` in row-major order. It is
read from such an object with its members in any order, other members being ignored, or from an
array of the two values. The shape is checked as soon as the object or array is closed, and only
then that no text follows it.
-/

namespace LinearAssignment

/-- Why a JSON text is not a cost matrix. -/
inductive JsonError
  /-- The text is not JSON, or not of the form of a matrix. -/
  | malformed
  /-- The entries do not fill a square of the given size. -/
  | shape (e : ShapeError)
deriving DecidableEq, Repr

namespace CostMatrix

open Json

/-! ### Reading integers -/

/-- The value of decimal digits. -/
def valueOfDigits (digits : List Char) : Nat :=
  digits.foldl (fun n c ↦ 10 * n + (c.toNat - '0'.toNat)) 0

/-- Whether costs of a type may be written as negative zero. Up to 64 bits, negative zero counts as
a number that is not an integer. -/
def negativeZeroFits : CostType → Bool
  | .unsigned _ => false
  | .signed bits => decide (64 ≤ bits)
  | .unbounded => true

/-- The integer of a cost type that a token stands for. -/
def integer? (W : CostType) : Token → Option Int
  | .number negative digits true =>
    let magnitude := valueOfDigits digits
    let c : Int := if negative then -magnitude else magnitude
    if negative ∧ magnitude = 0 ∧ ¬negativeZeroFits W then none
    else if W.Fits c then some c
    else none
  | _ => none

/-- The elements of an array of integers after its first, and what follows the array. -/
def moreIntegers? (W : CostType) : List Token → Option (List Int × List Token)
  | .closeBracket :: ts => some ([], ts)
  | .comma :: t :: ts => do
    let c ← integer? W t
    let (cs, rest) ← moreIntegers? W ts
    return (c :: cs, rest)
  | _ => none

/-- An array of integers, and what follows it. -/
def integers? (W : CostType) : List Token → Option (List Int × List Token)
  | .openBracket :: .closeBracket :: ts => some ([], ts)
  | .openBracket :: t :: ts => do
    let c ← integer? W t
    let (cs, rest) ← moreIntegers? W ts
    return (c :: cs, rest)
  | _ => none

/-- A size, and what follows it. -/
def size? : List Token → Option (Nat × List Token)
  | t :: ts => (integer? .word t).map fun n ↦ (n.toNat, ts)
  | [] => none

/-! ### Reading members -/

/-- The members of an object that have been read. -/
structure Members where
  /-- The size. -/
  size : Option Nat
  /-- The entries. -/
  data : Option (List Int)
deriving DecidableEq, Repr

/-- The value of a member, after its key. The size and the entries must not be given twice. -/
def member? (W : CostType) (m : Members) (key : String) (ts : List Token) :
    Option (Members × List Token) :=
  if key = "n" then
    if m.size.isSome then none
    else (size? ts).map fun (n, rest) ↦ ({ m with size := some n }, rest)
  else if key = "data" then
    if m.data.isSome then none
    else (integers? W ts).map fun (data, rest) ↦ ({ m with data := some data }, rest)
  else (skipValue? ts).map fun rest ↦ (m, rest)

theorem length_size_lt {ts rest : List Token} {n : Nat} (h : size? ts = some (n, rest)) :
    rest.length < ts.length := by
  unfold size? at h
  split at h
  · obtain ⟨c, -, he⟩ := Option.map_eq_some_iff.1 h
    obtain ⟨-, rfl⟩ := Prod.mk.inj he
    simp
  · simp at h

theorem length_moreIntegers_lt {W : CostType} {ts rest : List Token} {cs : List Int}
    (h : moreIntegers? W ts = some (cs, rest)) : rest.length < ts.length := by
  fun_induction moreIntegers? W ts generalizing cs rest with
  | case1 ts =>
    obtain ⟨-, rfl⟩ := Prod.mk.inj (Option.some.inj h)
    simp
  | case2 t ts ih =>
    simp only [Option.bind_eq_bind, Option.bind_eq_some_iff, Option.pure_def, Option.some.injEq,
      Prod.mk.injEq, Prod.exists] at h
    obtain ⟨c, -, cs', r', hr, -, rfl⟩ := h
    have := ih hr
    simp only [List.length_cons]
    omega
  | case3 => simp at h

theorem length_integers_lt {W : CostType} {ts rest : List Token} {cs : List Int}
    (h : integers? W ts = some (cs, rest)) : rest.length < ts.length := by
  unfold integers? at h
  split at h
  · obtain ⟨-, rfl⟩ := Prod.mk.inj (Option.some.inj h)
    simp only [List.length_cons]
    omega
  · simp only [Option.bind_eq_bind, Option.bind_eq_some_iff, Option.pure_def, Option.some.injEq,
      Prod.mk.injEq, Prod.exists] at h
    obtain ⟨c, -, cs', r', hr, -, rfl⟩ := h
    have := length_moreIntegers_lt hr
    simp only [List.length_cons]
    omega
  · simp at h

/-- The value of a member takes at least one token. -/
theorem length_member_lt {W : CostType} {m m' : Members} {key : String} {ts rest : List Token}
    (h : member? W m key ts = some (m', rest)) : rest.length < ts.length := by
  unfold member? at h
  split at h
  · split at h
    · simp at h
    · obtain ⟨⟨n, r⟩, hr, he⟩ := Option.map_eq_some_iff.1 h
      obtain ⟨-, rfl⟩ := Prod.mk.inj he
      exact length_size_lt hr
  · split at h
    · split at h
      · simp at h
      · obtain ⟨⟨n, r⟩, hr, he⟩ := Option.map_eq_some_iff.1 h
        obtain ⟨-, rfl⟩ := Prod.mk.inj he
        exact length_integers_lt hr
    · obtain ⟨r, hr, he⟩ := Option.map_eq_some_iff.1 h
      obtain ⟨-, rfl⟩ := Prod.mk.inj he
      exact Skipping.length_rest_lt hr

/-- The members of an object from a key on, and what follows the object. -/
def members? (W : CostType) (m : Members) : List Token → Option (Members × List Token)
  | .string (some key) :: .colon :: ts =>
    match _h : member? W m key ts with
    | some (m', .closeBrace :: rest) => some (m', rest)
    | some (m', .comma :: rest) => members? W m' rest
    | _ => none
  | _ => none
termination_by ts => ts.length
decreasing_by
  have := length_member_lt _h
  simp only [List.length_cons] at this ⊢
  omega

/-! ### Reading and writing matrices -/

/-- The size and the entries of a matrix, and what follows it. -/
def sizeAndData? (W : CostType) : List Token → Option (Nat × List Int × List Token)
  | .openBrace :: ts => do
    let (m, rest) ← members? W ⟨none, none⟩ ts
    return (← m.size, ← m.data, rest)
  | .openBracket :: ts => do
    let (n, rest) ← size? ts
    match rest with
    | .comma :: rest =>
      let (data, rest) ← integers? W rest
      match rest with
      | .closeBracket :: rest => return (n, data, rest)
      | _ => none
    | _ => none
  | _ => none

/-- The matrix that a JSON text stands for. -/
def ofJson (W : CostType) (text : String) : ExceptT JsonError Checked (CostMatrix Int) :=
  match sizeAndData? W (tokens text.toList) with
  | none => throw .malformed
  | some (n, data, rest) => do
    let m ← (ofEntries n data.toArray).adapt .shape
    unless rest.isEmpty do throw .malformed
    return m

/-- The entries of a matrix, between commas. -/
def entriesText (separator : String) (m : CostMatrix Int) : String :=
  separator.intercalate (m.entries.map Numeral.write)

/-- The JSON form of a matrix. -/
def toJson (m : CostMatrix Int) : String :=
  "\x7b\"n\":" ++ toString m.size ++ ",\"data\":[" ++ m.entriesText "," ++ "]\x7d"

/-- The form of a matrix in which it is shown to a person. -/
def describe (m : CostMatrix Int) : String :=
  "Matrix \x7b n: " ++ toString m.size ++ ", data: [" ++ m.entriesText ", " ++ "] \x7d"

end CostMatrix

end LinearAssignment
