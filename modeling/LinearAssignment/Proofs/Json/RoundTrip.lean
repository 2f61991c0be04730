import LinearAssignment.Proofs.Json.Matrices
import LinearAssignment.Proofs.Numerals
import LinearAssignment.Proofs.Reduction

/-!
# The JSON form of a matrix is read back

A matrix is written as an object whose tokens are known: the digits of a number are one token up to
what follows them (`tokens_write`), and integers with commas between them are the elements of an
array (`tokens_intercalate`). So the text of a matrix is that of a value that carries it
(`tokens_toJson`, `carries_jsonValue`).

Any text of a value that carries a size and entries is read as what the builder from a flat list
makes of them (`ofJson_eq_of_carries`), and no other text is read as a matrix
(`exists_carries_of_ofJson`). The first gives the matrix back that has been written, and the error
of the builder where the number of the entries is not that of a square of the size.
-/

namespace LinearAssignment

namespace Json

variable {c d : Char} {cs rest : List Char} {t : Token}

/-! ### Written numbers -/

/-- The number that an integer is written as. -/
def Value.ofInt : Int → Value
  | .ofNat n => .number false (Nat.toDigits 10 n) true
  | .negSucc n => .number true (Nat.toDigits 10 (n + 1)) true

/-- A text starts with a token. -/
theorem tokens_cons (hspace : isSpace c = false) (h : next? c cs = some (t, rest)) :
    tokens (c :: cs) = t :: tokens rest := by
  rw [tokens, hspace]
  simp only [Bool.false_eq_true, if_false]
  split
  · simp_all
  · simp_all

/-- Only the number zero is written with the digit zero in front. -/
theorem eq_zero_of_head?_toDigits {n : Nat} (h : (Nat.toDigits 10 n).head? = some '0') : n = 0 := by
  induction n using Nat.strong_induction_on with
  | _ n ih =>
    rw [Nat.toDigits_eq_if (by decide)] at h
    split at h
    · rename_i hsmall
      interval_cases n <;> first | rfl | cases h
    · rw [List.head?_append_of_ne_nil _ Nat.toDigits_ne_nil] at h
      have := ih (n / 10) (by omega) h
      omega

/-- The characters that follow a number in an array or an object that is written without spaces. -/
def EndsNumber (d : Char) : Prop :=
  d = ',' ∨ d = ']'

/-- The digits of a number are read up to what ends it. -/
theorem number?_toDigits (hd : EndsNumber d) (negative : Bool) (n : Nat) (cs : List Char) :
    number? negative (Nat.toDigits 10 n ++ d :: cs) =
      some (.number negative (Nat.toDigits 10 n) true, d :: cs) := by
  have hdigit : d.isDigit = false := by rcases hd with rfl | rfl <;> decide
  have htake := Numeral.takeWhile_toDigits_append hdigit n cs
  have hdrop : (Nat.toDigits 10 n ++ d :: cs).dropWhile Char.isDigit = d :: cs := by
    rw [List.dropWhile_append_of_pos fun _ ↦ Numeral.isDigit_of_mem_toDigits _,
      List.dropWhile_cons_of_neg (by simp [hdigit])]
  have hfirst : ¬ ((Nat.toDigits 10 n).isEmpty ∨
      (Nat.toDigits 10 n).head? = some '0' ∧ 1 < (Nat.toDigits 10 n).length) := by
    rintro (hempty | ⟨hhead, hlength⟩)
    · exact Nat.toDigits_ne_nil (List.isEmpty_iff.1 hempty)
    · rw [eq_zero_of_head?_toDigits hhead] at hlength
      exact absurd hlength (by decide)
  rw [number?, htake, hdrop, if_neg hfirst]
  rcases hd with rfl | rfl <;> rfl

theorem isSpace_of_isDigit (h : c.isDigit) : isSpace c = false := by
  rw [← Bool.not_eq_true]
  intro hspace
  simp only [isSpace, Bool.or_eq_true, beq_iff_eq] at hspace
  rcases hspace with ((rfl | rfl) | rfl) | rfl <;> exact absurd h (by decide)

/-- A token that starts with a digit is a number. -/
theorem next?_of_isDigit (h : c.isDigit) (cs : List Char) :
    next? c cs = number? false (c :: cs) := by
  rw [next?.eq_def]
  split <;> first | exact absurd h (by decide) | exact if_pos h

/-- A written integer is read as its number. -/
theorem tokens_write (hd : EndsNumber d) (c : Int) (cs : List Char) :
    tokens ((Numeral.write c).toList ++ d :: cs) = (Value.ofInt c).tokens ++ tokens (d :: cs) := by
  cases c with
  | ofNat n =>
    have hnumber := number?_toDigits hd false n cs
    rw [Numeral.write, Numeral.toList_repr]
    obtain ⟨first, digits, hdigits⟩ : ∃ first digits, Nat.toDigits 10 n = first :: digits :=
      List.exists_cons_of_ne_nil Nat.toDigits_ne_nil
    have hfirst : first.isDigit :=
      Numeral.isDigit_of_mem_toDigits first (hdigits ▸ List.mem_cons_self)
    rw [hdigits, List.cons_append] at hnumber ⊢
    rw [← next?_of_isDigit hfirst] at hnumber
    rw [tokens_cons (isSpace_of_isDigit hfirst) hnumber]
    simp [Value.ofInt, Value.tokens, hdigits]
  | negSucc n =>
    rw [Numeral.write, String.toList_append, Numeral.toList_repr]
    exact tokens_cons rfl (number?_toDigits hd true (n + 1) cs)

/-- Integers that are written with commas between them are read as the elements of an array. -/
theorem tokens_intercalate (xs : List Int) (cs : List Char) :
    tokens ((",".intercalate (xs.map Numeral.write)).toList ++ ']' :: cs) =
      Value.elements (xs.map Value.ofInt) ++ tokens cs := by
  have hclose (cs : List Char) : tokens (']' :: cs) = .closeBracket :: tokens cs :=
    tokens_cons rfl rfl
  have hcomma (cs : List Char) : tokens (',' :: cs) = .comma :: tokens cs :=
    tokens_cons rfl rfl
  cases xs with
  | nil => exact hclose cs
  | cons x xs =>
    rw [List.map_cons, List.map_cons, Value.elements, List.append_assoc]
    induction xs generalizing x with
    | nil =>
      rw [List.map_nil, String.intercalate_singleton, tokens_write (.inr rfl), hclose]
      rfl
    | cons y xs ih =>
      have htext : (",".intercalate (Numeral.write x :: (y :: xs).map Numeral.write)).toList ++
          ']' :: cs = (Numeral.write x).toList ++ ',' ::
            ((",".intercalate (Numeral.write y :: xs.map Numeral.write)).toList ++ ']' :: cs) := by
        rw [List.map_cons, String.intercalate_cons_cons]
        simp
      rw [htext, tokens_write (.inl rfl), hcomma, ih]
      simp [Value.moreElements]

end Json

namespace CostMatrix

open Json

variable {W : CostType} {m : CostMatrix Int} {n : Nat} {c : Int} {data : List Int} {text : String}
  {v : Value}

/-- The value that a matrix is written as. -/
def jsonValue (m : CostMatrix Int) : Value :=
  .object [(some "n", .ofInt m.size), (some "data", .array (m.entries.map .ofInt))]

/-- A matrix is written as its value. -/
theorem tokens_toJson (m : CostMatrix Int) : tokens m.toJson.toList = m.jsonValue.tokens := by
  have htext : m.toJson.toList = '\x7b' :: '"' :: 'n' :: '"' :: ':' ::
      ((Numeral.write m.size).toList ++ ',' :: '"' :: 'd' :: 'a' :: 't' :: 'a' :: '"' :: ':' ::
        '[' :: ((",".intercalate (m.entries.map Numeral.write)).toList ++ ']' :: ['\x7d'])) := by
    simp [toJson, entriesText, Numeral.write]
  have hsize (cs : List Char) :
      tokens ('"' :: 'n' :: '"' :: cs) = .string (some "n") :: tokens cs :=
    tokens_cons rfl rfl
  have hdata (cs : List Char) : tokens ('"' :: 'd' :: 'a' :: 't' :: 'a' :: '"' :: cs) =
      .string (some "data") :: tokens cs :=
    tokens_cons rfl rfl
  have hcolon (cs : List Char) : tokens (':' :: cs) = .colon :: tokens cs := tokens_cons rfl rfl
  have hcomma (cs : List Char) : tokens (',' :: cs) = .comma :: tokens cs := tokens_cons rfl rfl
  have hopen (cs : List Char) : tokens ('[' :: cs) = .openBracket :: tokens cs :=
    tokens_cons rfl rfl
  have hend : tokens ['\x7d'] = [.closeBrace] := (tokens_cons rfl rfl).trans (by rw [tokens])
  rw [htext, tokens_cons (t := .openBrace) rfl rfl, hsize, hcolon, tokens_write (.inl rfl), hcomma,
    hdata, hcolon, hopen, tokens_intercalate, hend]
  simp [jsonValue, Value.tokens, Value.members, Value.moreMembers]

/-! ### Reading what is written -/

theorem integer?_ofInt (h : W.Fits c) : (Value.ofInt c).integer? W = some c := by
  have hvalue (n : Nat) : valueOfDigits (Nat.toDigits 10 n) = n := Nat.ofDigitChars_ten_toDigits
  cases c with
  | ofNat n =>
    rw [Value.ofInt, Value.integer?, integer?, hvalue]
    simp_all
  | negSucc n =>
    have hc : (-(n + 1 : Nat) : Int) = Int.negSucc n := rfl
    rw [Value.ofInt, Value.integer?, integer?, hvalue, if_neg fun h ↦ Nat.succ_ne_zero n h.2.1,
      if_pos rfl, hc, if_pos h]

theorem mapM_integer?_ofInt {xs : List Int} (h : ∀ c ∈ xs, W.Fits c) :
    (xs.map Value.ofInt).mapM (Value.integer? W) = some xs := by
  induction xs with
  | nil => rfl
  | cons x xs ih =>
    obtain ⟨hx, hxs⟩ := List.forall_mem_cons.1 h
    rw [List.map_cons, List.mapM_cons, integer?_ofInt hx, ih hxs]
    rfl

/-- The value that a matrix is written as carries its size and its entries. -/
theorem carries_jsonValue (h : m.Over W) : m.jsonValue.Carries W m.size m.entries := by
  have hsize : CostType.word.Fits m.size := by
    have hlt : m.size < 0x8000000000000000 :=
      Nat.lt_of_le_of_lt (Nat.le_mul_self m.size) h.length_lt
    exact ⟨Int.natCast_nonneg _, Int.ofNat_lt.2 (hlt.trans (by decide))⟩
  have hentries : ∀ c ∈ m.entries, W.Fits c := by
    intro c hc
    obtain ⟨i, j, rfl⟩ := m.grid.mem_entries_iff.1 hc
    exact h.fits i j
  refine ⟨by simp, ⟨.ofInt m.size, ?_, integer?_ofInt hsize⟩,
    .array (m.entries.map .ofInt), ?_, mapM_integer?_ofInt hentries⟩
  · simp [Value.valuesOf]
  · simp [Value.valuesOf]

/-- A text that carries a size and entries is read as the matrix that is built from them. -/
theorem ofJson_eq_of_carries (htext : tokens text.toList = v.tokens) (hv : v.Carries W n data) :
    ofJson W text = (ofEntries n data.toArray).adapt .shape := by
  have hread : sizeAndData? W (tokens text.toList) = some (n, data, []) :=
    sizeAndData?_eq_some_iff.2 ⟨v, hv, by rw [htext, List.append_nil]⟩
  rw [ofJson, hread]
  exact bind_pure _

/-- A text that is read as a matrix carries its size and its entries. -/
theorem exists_carries_of_ofJson (h : ofJson W text = pure m) :
    ∃ v : Value, tokens text.toList = v.tokens ∧ v.Carries W m.size m.entries := by
  rw [ofJson] at h
  split at h
  · exact absurd h Reading.throw_ne_pure
  · rename_i n data rest hread
    obtain ⟨m', hm', hend⟩ := Reading.bind_eq_pure_iff.1 h
    obtain ⟨rfl, hdata⟩ := eq_of_ofEntries (Reading.adapt_eq_pure_iff.1 hm')
    obtain ⟨v, hv, htokens⟩ := sizeAndData?_eq_some_iff.1 hread
    cases rest with
    | nil =>
      obtain rfl := Reading.pure_eq_pure_iff.1 hend
      rw [List.append_nil] at htokens
      exact ⟨v, htokens, hdata ▸ hv⟩
    | cons t rest => exact absurd hend Reading.throw_ne_pure

/-- **A matrix is read from exactly the JSON texts that carry it.** The text that it is written as
is one of them, and so is every object with its size and its entries as members in any order and
among others, and every array of the two. A text that carries a size and entries of another number
is refused with the error of the builder from a flat list. -/
theorem ofJson_toJson_and_carries (W : CostType) :
    (∀ m : CostMatrix Int, m.Over W → ofJson W m.toJson = pure m) ∧
    (∀ text m, ofJson W text = pure m → m.entries.length = m.size * m.size ∧
      ∃ v : Value, tokens text.toList = v.tokens ∧ v.Carries W m.size m.entries) ∧
    ∀ text (v : Value) n data, tokens text.toList = v.tokens → v.Carries W n data →
      n * n < Word.bound →
      (data.length = n * n → ∃ m, ofJson W text = pure m ∧ m.size = n ∧ m.entries = data) ∧
      (data.length ≠ n * n → ofJson W text =
        throw (.shape ⟨n, if n = 0 then data.length else data.length / n⟩)) := by
  refine ⟨fun m h ↦ ?_, fun text m h ↦ ?_, fun text v n data htext hv hword ↦ ⟨fun hlength ↦ ?_,
    fun hlength ↦ ?_⟩⟩
  · have hword : m.size * m.size < Word.bound := h.length_lt.trans (by decide)
    have hbuilt : ofEntries m.size m.entries.toArray = pure m :=
      (ofEntries_eq_pure_iff hword).2 ⟨rfl, rfl⟩
    rw [ofJson_eq_of_carries (tokens_toJson m) (carries_jsonValue h), hbuilt]
    rfl
  · exact ⟨m.grid.length_entries, exists_carries_of_ofJson h⟩
  · have hsize : data.toArray.size = n * n := hlength
    obtain ⟨m, hm⟩ := exists_ofEntries hword hsize
    obtain ⟨hn, hdata⟩ := eq_of_ofEntries hm
    refine ⟨m, ?_, hn.symm, hdata.symm⟩
    rw [ofJson_eq_of_carries htext hv, hm]
    rfl
  · rw [ofJson_eq_of_carries htext hv, ofEntries_eq_throw hword hlength]
    rfl

/-- An object with three entries for a size of two, in another order and with one more member. -/
def threeEntries : Value :=
  .object [(some "of", .array [.literal, .object []]),
    (some "data", .array [.ofInt 1, .ofInt (-2), .ofInt 3]), (some "n", .ofInt 2)]

/-- A text of this object. -/
def threeEntriesText : String :=
  "\x7b \"of\": [null, \x7b\x7d],\n\"data\" : [1,-2, 3], \"n\":2\x7d\n"

theorem ofJson_toJson_and_carries_threeEntries :
    ofJson (.signed 7) nearTop.toJson = pure nearTop ∧
      ofJson (.signed 7) threeEntriesText = throw (.shape ⟨2, 1⟩) := by
  obtain ⟨hwritten, -, hcarried⟩ := ofJson_toJson_and_carries (.signed 7)
  have htokens : tokens threeEntriesText.toList = threeEntries.tokens := by decide +kernel
  have hcarries : threeEntries.Carries (.signed 7) 2 [1, -2, 3] :=
    ⟨by decide +kernel, ⟨.ofInt 2, rfl, by decide +kernel⟩, _, rfl, by decide +kernel⟩
  exact ⟨hwritten nearTop over_nearTop,
    (hcarried _ threeEntries 2 [1, -2, 3] htokens hcarries (by decide)).2 (by decide)⟩

end CostMatrix

end LinearAssignment
