import LinearAssignment.Json.Skip

/-!
# JSON values

The grammar of JSON as trees: a `Value` has its tokens (`Value.tokens`), and the tokens of a text
are one value if they are those of some tree. Nothing is lost that a reader could ask for, except
what the words `true`, `false` and `null` are.

A value is skipped exactly if the tokens start with one (`skipValue?_eq_some_iff`). The state of
skipping is a list of open brackets, and `Skipping.resume?` is what is left to do after a value
within them. So for each part of a value there is one lemma that skips it and one that finds it: the
value itself, the elements of an array or the members of an object from the first on, and those that
follow.
-/

namespace LinearAssignment.Json

/-- A JSON value. Of words and numbers it has what tokens have of them. -/
inductive Value
  /-- One of the words `true`, `false` and `null`. -/
  | literal
  /-- A number: its sign, the digits before the point, and whether there is no point and no
  exponent. -/
  | number (negative : Bool) (digits : List Char) (integral : Bool)
  /-- A string with its characters, if its escapes name characters. -/
  | string (content : Option String)
  /-- An array with its elements. -/
  | array (elements : List Value)
  /-- An object with the keys and values of its members. -/
  | object (members : List (Option String × Value))

namespace Value

mutual

/-- The tokens of a value. -/
def tokens : Value → List Token
  | literal => [.literal]
  | number negative digits integral => [.number negative digits integral]
  | string content => [.string content]
  | array vs => .openBracket :: elements vs
  | object ms => .openBrace :: members ms

/-- The tokens of an array after its opening bracket. -/
def elements : List Value → List Token
  | [] => [.closeBracket]
  | v :: vs => v.tokens ++ moreElements vs

/-- The tokens of an array after an element. -/
def moreElements : List Value → List Token
  | [] => [.closeBracket]
  | v :: vs => .comma :: (v.tokens ++ moreElements vs)

/-- The tokens of an object after its opening brace. -/
def members : List (Option String × Value) → List Token
  | [] => [.closeBrace]
  | (key, v) :: ms => .string key :: .colon :: (v.tokens ++ moreMembers ms)

/-- The tokens of an object after a member. -/
def moreMembers : List (Option String × Value) → List Token
  | [] => [.closeBrace]
  | (key, v) :: ms => .comma :: .string key :: .colon :: (v.tokens ++ moreMembers ms)

end

/-- A value takes at least one token. -/
theorem length_lt_of_eq_append {v : Value} {ts left : List Token} (h : ts = v.tokens ++ left) :
    left.length < ts.length := by
  have hpos : 0 < v.tokens.length := by cases v <;> exact Nat.succ_pos _
  rw [h, List.length_append]
  omega

end Value

open Value

namespace Skipping

variable {s s' : Skipping} {opened : List Bracket} {t : Token} {ts rest : List Token}

/-- The tokens that are left when skipping goes on after a value within some brackets. -/
def resume? (opened : List Bracket) (ts : List Token) : Option (List Token) :=
  match afterValue opened with
  | none => some ts
  | some s => s.rest? ts

theorem resume?_cons (b : Bracket) (opened : List Bracket) (ts : List Token) :
    resume? (b :: opened) ts = (⟨.separator, b :: opened⟩ : Skipping).rest? ts :=
  rfl

/-- A token that ends a value. -/
theorem rest?_of_afterValue (h : s.advance? t = some (afterValue opened)) (ts : List Token) :
    s.rest? (t :: ts) = resume? opened ts := by
  rw [rest?, h, resume?]
  cases afterValue opened <;> rfl

/-- A token after which the value goes on. -/
theorem rest?_of_advance (h : s.advance? t = some (some s')) (ts : List Token) :
    s.rest? (t :: ts) = s'.rest? ts := by
  rw [rest?, h]

/-! ### Values are skipped -/

mutual

theorem rest?_tokens (first : Bool) (opened : List Bracket) (ts : List Token) : (v : Value) →
    (⟨.value first, opened⟩ : Skipping).rest? (v.tokens ++ ts) = resume? opened ts
  | .literal => rest?_of_afterValue rfl ts
  | .number .. => rest?_of_afterValue rfl ts
  | .string _ => rest?_of_afterValue rfl ts
  | .array vs => (rest?_of_advance rfl _).trans (rest?_elements opened ts vs)
  | .object ms => (rest?_of_advance rfl _).trans (rest?_members opened ts ms)

theorem rest?_elements (opened : List Bracket) (ts : List Token) : (vs : List Value) →
    (⟨.value true, .array :: opened⟩ : Skipping).rest? (elements vs ++ ts) = resume? opened ts
  | [] => rest?_of_afterValue rfl ts
  | v :: vs => by
    rw [elements, List.append_assoc, rest?_tokens]
    exact resume?_moreElements opened ts vs

theorem resume?_moreElements (opened : List Bracket) (ts : List Token) : (vs : List Value) →
    resume? (.array :: opened) (moreElements vs ++ ts) = resume? opened ts
  | [] => rest?_of_afterValue rfl ts
  | v :: vs => by
    rw [resume?_cons, moreElements, List.cons_append, List.append_assoc]
    refine (rest?_of_advance rfl _).trans ?_
    rw [rest?_tokens]
    exact resume?_moreElements opened ts vs

theorem rest?_members (opened : List Bracket) (ts : List Token) :
    (ms : List (Option String × Value)) →
    (⟨.key true, .object :: opened⟩ : Skipping).rest? (members ms ++ ts) = resume? opened ts
  | [] => rest?_of_afterValue rfl ts
  | (key, v) :: ms => by
    rw [members, List.cons_append, List.cons_append, List.append_assoc]
    refine (rest?_of_advance rfl _).trans ((rest?_of_advance rfl _).trans ?_)
    rw [rest?_tokens]
    exact resume?_moreMembers opened ts ms

theorem resume?_moreMembers (opened : List Bracket) (ts : List Token) :
    (ms : List (Option String × Value)) →
    resume? (.object :: opened) (moreMembers ms ++ ts) = resume? opened ts
  | [] => rest?_of_afterValue rfl ts
  | (key, v) :: ms => by
    rw [resume?_cons, moreMembers, List.cons_append, List.cons_append, List.cons_append,
      List.append_assoc]
    refine (rest?_of_advance rfl _).trans ((rest?_of_advance rfl _).trans
      ((rest?_of_advance rfl _).trans ?_))
    rw [rest?_tokens]
    exact resume?_moreMembers opened ts ms

end

/-! ### What is skipped is a value -/

mutual

/-- If skipping goes through where a value is expected, there is one. -/
theorem exists_tokens {opened : List Bracket} {rest : List Token} : (ts : List Token) →
    (⟨.value false, opened⟩ : Skipping).rest? ts = some rest →
    ∃ (v : Value) (left : List Token), ts = v.tokens ++ left ∧ resume? opened left = some rest
  | .literal :: ts, h => ⟨.literal, ts, rfl, (rest?_of_afterValue rfl ts).symm.trans h⟩
  | .number negative digits integral :: ts, h =>
    ⟨.number negative digits integral, ts, rfl, (rest?_of_afterValue rfl ts).symm.trans h⟩
  | .string content :: ts, h =>
    ⟨.string content, ts, rfl, (rest?_of_afterValue rfl ts).symm.trans h⟩
  | .openBracket :: ts, h =>
    let ⟨vs, left, hts, hleft⟩ := exists_elements ts ((rest?_of_advance rfl ts).symm.trans h)
    ⟨.array vs, left, congrArg _ hts, hleft⟩
  | .openBrace :: ts, h =>
    let ⟨ms, left, hts, hleft⟩ := exists_members ts ((rest?_of_advance rfl ts).symm.trans h)
    ⟨.object ms, left, congrArg _ hts, hleft⟩
termination_by ts => (ts.length, 0)

/-- If skipping goes through after an opening bracket, there are the elements of an array. -/
theorem exists_elements {opened : List Bracket} {rest : List Token} : (ts : List Token) →
    (⟨.value true, .array :: opened⟩ : Skipping).rest? ts = some rest →
    ∃ (vs : List Value) (left : List Token), ts = elements vs ++ left ∧
      resume? opened left = some rest
  | t :: ts, h => by
    by_cases ht : t = .closeBracket
    · subst ht
      exact ⟨[], ts, rfl, (rest?_of_afterValue rfl ts).symm.trans h⟩
    · have hvalue : (⟨.value false, .array :: opened⟩ : Skipping).rest? (t :: ts) = some rest := by
        rw [← h]
        cases t <;> first | rfl | exact absurd rfl ht
      obtain ⟨v, left, hts, hleft⟩ := exists_tokens (t :: ts) hvalue
      have hlength := length_lt_of_eq_append hts
      obtain ⟨vs, left', rfl, hleft'⟩ := exists_moreElements left hleft
      exact ⟨v :: vs, left', by rw [hts, elements, List.append_assoc], hleft'⟩
termination_by ts => (ts.length, 1)
decreasing_by
  · exact Prod.Lex.right _ Nat.zero_lt_one
  · exact Prod.Lex.left _ _ hlength

/-- If skipping goes through after an element, the array goes on from there. -/
theorem exists_moreElements {opened : List Bracket} {rest : List Token} : (ts : List Token) →
    resume? (.array :: opened) ts = some rest →
    ∃ (vs : List Value) (left : List Token), ts = moreElements vs ++ left ∧
      resume? opened left = some rest
  | .closeBracket :: ts, h => ⟨[], ts, rfl, (rest?_of_afterValue rfl ts).symm.trans h⟩
  | .comma :: ts, h => by
    obtain ⟨v, left, hts, hleft⟩ := exists_tokens ts h
    have hlength := length_lt_of_eq_append hts
    obtain ⟨vs, left', rfl, hleft'⟩ := exists_moreElements left hleft
    exact ⟨v :: vs, left', by simp [moreElements, hts], hleft'⟩
termination_by ts => (ts.length, 0)
decreasing_by
  all_goals exact Prod.Lex.left _ _ (by simp only [List.length_cons]; omega)

/-- If skipping goes through after an opening brace, there are the members of an object. -/
theorem exists_members {opened : List Bracket} {rest : List Token} : (ts : List Token) →
    (⟨.key true, .object :: opened⟩ : Skipping).rest? ts = some rest →
    ∃ (ms : List (Option String × Value)) (left : List Token), ts = members ms ++ left ∧
      resume? opened left = some rest
  | .closeBrace :: ts, h => ⟨[], ts, rfl, (rest?_of_afterValue rfl ts).symm.trans h⟩
  | .string key :: .colon :: ts, h => by
    obtain ⟨v, left, hts, hleft⟩ := exists_tokens ts h
    have hlength := length_lt_of_eq_append hts
    obtain ⟨ms, left', rfl, hleft'⟩ := exists_moreMembers left hleft
    exact ⟨(key, v) :: ms, left', by simp [members, hts], hleft'⟩
termination_by ts => (ts.length, 0)
decreasing_by
  all_goals exact Prod.Lex.left _ _ (by simp only [List.length_cons]; omega)

/-- If skipping goes through after a member, the object goes on from there. -/
theorem exists_moreMembers {opened : List Bracket} {rest : List Token} : (ts : List Token) →
    resume? (.object :: opened) ts = some rest →
    ∃ (ms : List (Option String × Value)) (left : List Token), ts = moreMembers ms ++ left ∧
      resume? opened left = some rest
  | .closeBrace :: ts, h => ⟨[], ts, rfl, (rest?_of_afterValue rfl ts).symm.trans h⟩
  | .comma :: .string key :: .colon :: ts, h => by
    obtain ⟨v, left, hts, hleft⟩ := exists_tokens ts h
    have hlength := length_lt_of_eq_append hts
    obtain ⟨ms, left', rfl, hleft'⟩ := exists_moreMembers left hleft
    exact ⟨(key, v) :: ms, left', by simp [moreMembers, hts], hleft'⟩
termination_by ts => (ts.length, 0)
decreasing_by
  all_goals exact Prod.Lex.left _ _ (by simp only [List.length_cons]; omega)

end

end Skipping

/-- The tokens after a value are found exactly if there is one. -/
theorem skipValue?_eq_some_iff {ts rest : List Token} :
    skipValue? ts = some rest ↔ ∃ v : Value, ts = v.tokens ++ rest := by
  constructor
  · intro h
    obtain ⟨v, left, hts, hleft⟩ := Skipping.exists_tokens ts h
    exact ⟨v, Option.some.inj hleft ▸ hts⟩
  · intro ⟨v, hts⟩
    rw [hts]
    exact Skipping.rest?_tokens false [] rest v

end LinearAssignment.Json
