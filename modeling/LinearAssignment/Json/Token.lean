/-!
# Tokens of JSON texts

A JSON text is read in two stages, as tokens and then as a value. The tokens of a text end with
`Token.invalid` where the rest of the text starts with no token, so that a reader that needs only a
first part of a text does not see what is wrong later on.

The escapes of a string name UTF-16 units. They make up characters only if surrogates come in
pairs; where they do not, the string is a token without content.
-/

namespace LinearAssignment.Json

/-- The tokens of JSON. -/
inductive Token
  | openBrace
  | closeBrace
  | openBracket
  | closeBracket
  | colon
  | comma
  /-- One of the words `true`, `false` and `null`. -/
  | literal
  /-- A number: its sign, the digits before the point, and whether there is no point and no
  exponent. -/
  | number (negative : Bool) (digits : List Char) (integral : Bool)
  /-- A string with its characters, if its escapes name characters. -/
  | string (content : Option String)
  /-- The rest of the text does not start with a token. -/
  | invalid
deriving DecidableEq, Repr

/-- Whether a character may stand between tokens. -/
def isSpace (c : Char) : Bool :=
  c == ' ' || c == '\n' || c == '\t' || c == '\r'

/-! ### Numbers -/

/-- What follows an optional fraction, and whether there is one. -/
def afterFraction : List Char → Option (Bool × List Char)
  | '.' :: cs =>
    if (cs.takeWhile Char.isDigit).isEmpty then none else some (true, cs.dropWhile Char.isDigit)
  | cs => some (false, cs)

/-- What follows an optional sign. -/
def afterSign : List Char → List Char
  | '+' :: cs => cs
  | '-' :: cs => cs
  | cs => cs

/-- What follows an optional exponent, and whether there is one. -/
def afterExponent : List Char → Option (Bool × List Char)
  | [] => some (false, [])
  | c :: cs =>
    if c = 'e' ∨ c = 'E' then
      if ((afterSign cs).takeWhile Char.isDigit).isEmpty then none
      else some (true, (afterSign cs).dropWhile Char.isDigit)
    else some (false, c :: cs)

/-- The number that a text starts with after its sign. Only the number zero starts with the digit
zero. -/
def number? (negative : Bool) (cs : List Char) : Option (Token × List Char) :=
  let digits := cs.takeWhile Char.isDigit
  if digits.isEmpty ∨ (digits.head? = some '0' ∧ 1 < digits.length) then none
  else do
    let (fraction, rest) ← afterFraction (cs.dropWhile Char.isDigit)
    let (exponent, rest) ← afterExponent rest
    return (.number negative digits (!fraction && !exponent), rest)

/-! ### Strings -/

/-- A part of a string: a character that stands for itself, or a UTF-16 unit that is named. -/
inductive Piece
  | char (c : Char)
  | unit (u : Nat)
deriving DecidableEq, Repr

/-- The value of a hexadecimal digit. -/
def hexDigit? (c : Char) : Option Nat :=
  if c.isDigit then some (c.toNat - '0'.toNat)
  else if 'a' ≤ c ∧ c ≤ 'f' then some (c.toNat - 'a'.toNat + 10)
  else if 'A' ≤ c ∧ c ≤ 'F' then some (c.toNat - 'A'.toNat + 10)
  else none

/-- The unit that four hexadecimal digits name. -/
def unit? (a b c d : Char) : Option Nat := do
  let a ← hexDigit? a
  let b ← hexDigit? b
  let c ← hexDigit? c
  let d ← hexDigit? d
  return ((a * 16 + b) * 16 + c) * 16 + d

/-- The character that a letter after a backslash stands for. -/
def escaped? : Char → Option Char
  | '"' => some '"'
  | '\\' => some '\\'
  | '/' => some '/'
  | 'b' => some '\x08'
  | 'f' => some '\x0c'
  | 'n' => some '\n'
  | 'r' => some '\r'
  | 't' => some '\t'
  | _ => none

/-- The parts of a string after its opening quote, and what follows its closing quote. -/
def pieces? : List Char → Option (List Piece × List Char)
  | [] => none
  | '"' :: cs => some ([], cs)
  | '\\' :: 'u' :: a :: b :: c :: d :: cs => do
    let u ← unit? a b c d
    let (ps, rest) ← pieces? cs
    return (.unit u :: ps, rest)
  | '\\' :: e :: cs => do
    let c ← escaped? e
    let (ps, rest) ← pieces? cs
    return (.char c :: ps, rest)
  | c :: cs =>
    if c.toNat < 0x20 then none
    else do
      let (ps, rest) ← pieces? cs
      return (.char c :: ps, rest)

/-- Whether a unit is the first of a pair. -/
def isLeading (u : Nat) : Bool :=
  0xD800 ≤ u && u < 0xDC00

/-- Whether a unit is the second of a pair. -/
def isTrailing (u : Nat) : Bool :=
  0xDC00 ≤ u && u < 0xE000

/-- The characters of the parts of a string. -/
def assemble? : List Piece → Option (List Char)
  | [] => some []
  | .char c :: ps => (assemble? ps).map (c :: ·)
  | .unit u :: ps =>
    if isLeading u then
      match ps with
      | .unit v :: ps =>
        if isTrailing v then
          (assemble? ps).map (Char.ofNat (0x10000 + (u - 0xD800) * 0x400 + (v - 0xDC00)) :: ·)
        else none
      | _ => none
    else if isTrailing u then none
    else (assemble? ps).map (Char.ofNat u :: ·)

/-- The string that a text starts with after its opening quote. -/
def string? (cs : List Char) : Option (Token × List Char) := do
  let (ps, rest) ← pieces? cs
  return (.string ((assemble? ps).map String.ofList), rest)

/-! ### The tokens of a text -/

/-- A word after its first letter. -/
def word? (letters cs : List Char) : Option (Token × List Char) :=
  if letters.isPrefixOf cs then some (.literal, cs.drop letters.length) else none

/-- The token that starts with a character, and what follows it. -/
def next? (c : Char) (cs : List Char) : Option (Token × List Char) :=
  match c with
  | '\x7b' => some (.openBrace, cs)
  | '\x7d' => some (.closeBrace, cs)
  | '[' => some (.openBracket, cs)
  | ']' => some (.closeBracket, cs)
  | ':' => some (.colon, cs)
  | ',' => some (.comma, cs)
  | '"' => string? cs
  | 't' => word? ['r', 'u', 'e'] cs
  | 'f' => word? ['a', 'l', 's', 'e'] cs
  | 'n' => word? ['u', 'l', 'l'] cs
  | '-' => number? true cs
  | c => if c.isDigit then number? false (c :: cs) else none

theorem length_dropWhile_le {α : Type} (p : α → Bool) (l : List α) :
    (l.dropWhile p).length ≤ l.length :=
  (List.dropWhile_suffix p).length_le

theorem length_afterFraction_le {cs rest : List Char} {b : Bool}
    (h : afterFraction cs = some (b, rest)) : rest.length ≤ cs.length := by
  unfold afterFraction at h
  split at h
  · split at h
    · simp at h
    · obtain ⟨-, rfl⟩ := Prod.mk.inj (Option.some.inj h)
      exact Nat.le_succ_of_le (length_dropWhile_le _ _)
  · obtain ⟨-, rfl⟩ := Prod.mk.inj (Option.some.inj h)
    exact Nat.le_refl _

theorem length_afterSign_le (cs : List Char) : (afterSign cs).length ≤ cs.length := by
  unfold afterSign
  split <;> simp

theorem length_afterExponent_le {cs rest : List Char} {b : Bool}
    (h : afterExponent cs = some (b, rest)) : rest.length ≤ cs.length := by
  unfold afterExponent at h
  split at h
  · obtain ⟨-, rfl⟩ := Prod.mk.inj (Option.some.inj h)
    exact Nat.le_refl _
  · split at h
    · split at h
      · simp at h
      · obtain ⟨-, rfl⟩ := Prod.mk.inj (Option.some.inj h)
        exact Nat.le_succ_of_le (Nat.le_trans (length_dropWhile_le _ _) (length_afterSign_le _))
    · obtain ⟨-, rfl⟩ := Prod.mk.inj (Option.some.inj h)
      exact Nat.le_refl _

/-- A number leaves no more text than follows its first digits. -/
theorem length_number_le {negative : Bool} {cs rest : List Char} {t : Token}
    (h : number? negative cs = some (t, rest)) :
    rest.length ≤ (cs.dropWhile Char.isDigit).length := by
  simp only [number?] at h
  split at h
  · simp at h
  · simp only [Option.bind_eq_bind, Option.bind_eq_some_iff, Option.pure_def, Option.some.injEq,
      Prod.mk.injEq, Prod.exists] at h
    obtain ⟨f, r, hf, e, r', he, -, rfl⟩ := h
    exact Nat.le_trans (length_afterExponent_le he) (length_afterFraction_le hf)

theorem length_pieces_le {cs rest : List Char} {ps : List Piece}
    (h : pieces? cs = some (ps, rest)) : rest.length ≤ cs.length := by
  fun_induction pieces? cs generalizing ps rest with
  | case1 => simp at h
  | case2 cs =>
    obtain ⟨-, rfl⟩ := Prod.mk.inj (Option.some.inj h)
    simp
  | case3 a b c d cs ih =>
    simp only [Option.bind_eq_bind, Option.bind_eq_some_iff, Option.pure_def, Option.some.injEq,
      Prod.mk.injEq, Prod.exists] at h
    obtain ⟨u, -, qs, r, hr, -, rfl⟩ := h
    have := ih hr
    simp only [List.length_cons]
    omega
  | case4 e cs _ ih =>
    simp only [Option.bind_eq_bind, Option.bind_eq_some_iff, Option.pure_def, Option.some.injEq,
      Prod.mk.injEq, Prod.exists] at h
    obtain ⟨c, -, qs, r, hr, -, rfl⟩ := h
    have := ih hr
    simp only [List.length_cons]
    omega
  | case5 => simp at h
  | case6 c cs _ _ _ _ ih =>
    simp only [Option.bind_eq_bind, Option.bind_eq_some_iff, Option.pure_def, Option.some.injEq,
      Prod.mk.injEq, Prod.exists] at h
    obtain ⟨qs, r, hr, -, rfl⟩ := h
    have := ih hr
    simp only [List.length_cons]
    omega

theorem length_word_le {letters cs rest : List Char} {t : Token}
    (h : word? letters cs = some (t, rest)) : rest.length ≤ cs.length := by
  unfold word? at h
  split at h
  · obtain ⟨-, rfl⟩ := Prod.mk.inj (Option.some.inj h)
    simp
  · simp at h

/-- A token takes at least its first character. -/
theorem length_next_le {c : Char} {cs rest : List Char} {t : Token}
    (h : next? c cs = some (t, rest)) : rest.length ≤ cs.length := by
  unfold next? at h
  split at h
  case h_7 =>
    simp only [string?, Option.bind_eq_bind, Option.bind_eq_some_iff, Option.pure_def,
      Option.some.injEq, Prod.mk.injEq, Prod.exists] at h
    obtain ⟨ps, r, hr, -, rfl⟩ := h
    exact length_pieces_le hr
  case h_11 => exact Nat.le_trans (length_number_le h) (length_dropWhile_le _ _)
  case h_12 =>
    split at h
    · rename_i hd
      have := length_number_le h
      rw [List.dropWhile_cons_of_pos hd] at this
      exact Nat.le_trans this (length_dropWhile_le _ _)
    · simp at h
  case h_8 | h_9 | h_10 => exact length_word_le h
  all_goals
    obtain ⟨-, rfl⟩ := Prod.mk.inj (Option.some.inj h)
    exact Nat.le_refl _

/-- The tokens of a text. -/
def tokens : List Char → List Token
  | [] => []
  | c :: cs =>
    if isSpace c then tokens cs
    else
      match _h : next? c cs with
      | none => [.invalid]
      | some (t, rest) => t :: tokens rest
termination_by cs => cs.length
decreasing_by
  · simp
  · exact Nat.lt_succ_of_le (length_next_le _h)

end LinearAssignment.Json
