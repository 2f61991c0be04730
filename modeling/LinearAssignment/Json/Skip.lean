import LinearAssignment.Json.Token

/-!
# Skipping JSON values

A value that nobody asks for is skipped token by token. The brackets that are open are kept in a
list, so that values may be nested to any depth, and every token is checked to be one that may
follow.
-/

namespace LinearAssignment.Json

/-- The two kinds of brackets. -/
inductive Bracket
  | object
  | array
deriving DecidableEq, Repr

/-- What may come next within a value. -/
inductive Expected
  /-- A value, or the end of an array if it has no element yet. -/
  | value (orEnd : Bool)
  /-- A key, or the end of an object if it has no member yet. -/
  | key (orEnd : Bool)
  /-- The colon after a key. -/
  | colon
  /-- A comma, or the end of the innermost bracket. -/
  | separator
deriving DecidableEq, Repr

/-- How far the skipping of a value has come: what is expected, and the open brackets from the
innermost one on. -/
structure Skipping where
  /-- What may come next. -/
  expected : Expected
  /-- The brackets that are open. -/
  opened : List Bracket
deriving DecidableEq, Repr

namespace Skipping

/-- Before a value. -/
def start : Skipping where
  expected := .value false
  opened := []

/-- After a value within the given brackets: there is nothing more to skip if there are none. -/
def afterValue : List Bracket → Option Skipping
  | [] => none
  | opened => some ⟨.separator, opened⟩

/-- The effect of a token: an error, the end of the value, or a later state of skipping. -/
def advance? (s : Skipping) (t : Token) : Option (Option Skipping) :=
  match s.expected, t with
  | .value _, .openBrace => some (some ⟨.key true, .object :: s.opened⟩)
  | .value _, .openBracket => some (some ⟨.value true, .array :: s.opened⟩)
  | .value _, .literal => some (afterValue s.opened)
  | .value _, .number _ _ _ => some (afterValue s.opened)
  | .value _, .string _ => some (afterValue s.opened)
  | .value true, .closeBracket => some (afterValue s.opened.tail)
  | .key _, .string _ => some (some ⟨.colon, s.opened⟩)
  | .key true, .closeBrace => some (afterValue s.opened.tail)
  | .colon, .colon => some (some ⟨.value false, s.opened⟩)
  | .separator, t =>
    match s.opened, t with
    | .object :: _, .comma => some (some ⟨.key false, s.opened⟩)
    | .array :: _, .comma => some (some ⟨.value false, s.opened⟩)
    | .object :: opened, .closeBrace => some (afterValue opened)
    | .array :: opened, .closeBracket => some (afterValue opened)
    | _, _ => none
  | _, _ => none

/-- The tokens after the value that is being skipped. -/
def rest? (s : Skipping) : List Token → Option (List Token)
  | [] => none
  | t :: ts =>
    match s.advance? t with
    | none => none
    | some none => some ts
    | some (some s) => s.rest? ts

theorem length_rest_lt {s : Skipping} {ts rest : List Token} (h : s.rest? ts = some rest) :
    rest.length < ts.length := by
  induction ts generalizing s with
  | nil => simp [rest?] at h
  | cons t ts ih =>
    unfold rest? at h
    split at h
    · simp at h
    · obtain rfl := Option.some.inj h
      simp
    · exact Nat.lt_succ_of_lt (ih h)

end Skipping

/-- The tokens after a value. -/
def skipValue? (ts : List Token) : Option (List Token) :=
  Skipping.start.rest? ts

end LinearAssignment.Json
