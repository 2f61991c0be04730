import LinearAssignment.Proofs.Text.Lines
import LinearAssignment.Spelling
import LinearAssignment.Word
import Mathlib.Tactic.IntervalCases

/-!
# Numerals that are read back

Whatever a numeral is read as is a cost of the type (`fits_of_read`), so a number read as a word is
one. A number that is written is read back as itself if it is a cost of the type
(`read_write`): its digits stand for ever longer parts of it, and these lie between zero and the
number. A numeral is a field of a line (`isField_write`).
-/

namespace LinearAssignment

namespace CostType

variable {W : CostType} {a b c : Int}

/-- What lies between two costs of a type is one. -/
theorem fits_of_between (ha : W.Fits a) (hc : W.Fits c) (hab : a ≤ b) (hbc : b ≤ c) : W.Fits b := by
  cases W with
  | unsigned bits => exact ⟨Int.le_trans ha.1 hab, Int.lt_of_le_of_lt hbc hc.2⟩
  | signed bits => exact ⟨Int.le_trans ha.1 hab, Int.lt_of_le_of_lt hbc hc.2⟩
  | unbounded => trivial

end CostType

namespace Numeral

variable {W : CostType} {negative : Bool} {acc c : Int} {cs : List Char}

/-- The value of one more digit after the value `acc`. -/
def extend (negative : Bool) (acc : Int) (d : Nat) : Int :=
  if negative then 10 * acc - d else 10 * acc + d

theorem accumulate_cons (d : Char) : accumulate W negative acc (d :: cs) =
    match digit? d with
    | none => .error .invalidDigit
    | some k =>
      if W.Fits (extend negative acc k) then accumulate W negative (extend negative acc k) cs
      else .error (if negative then .tooSmall else .tooLarge) :=
  rfl

/-! ### What is read fits -/

theorem fits_of_accumulate (hacc : W.Fits acc) (h : accumulate W negative acc cs = .ok c) :
    W.Fits c := by
  induction cs generalizing acc with
  | nil => exact Except.ok.inj h ▸ hacc
  | cons d cs ih =>
    rw [accumulate_cons] at h
    split at h
    · cases h
    · split at h <;> rename_i hfits
      · exact ih hfits h
      · cases h

/-- A numeral is read as a cost of the type. -/
theorem fits_of_read (h : read W cs = .ok c) : W.Fits c := by
  unfold read at h
  split at h
  · cases h
  · cases h
  · cases h
  · exact fits_of_accumulate (CostType.fits_zero W) h
  · split at h
    · exact fits_of_accumulate (CostType.fits_zero W) h
    · exact fits_of_accumulate (CostType.fits_zero W) h

/-! ### What is written is read back -/

theorem accumulate_append (ds : List Char) : accumulate W negative acc (cs ++ ds) =
    accumulate W negative acc cs >>= fun next ↦ accumulate W negative next ds := by
  induction cs generalizing acc with
  | nil => rfl
  | cons d cs ih =>
    rw [List.cons_append, accumulate_cons, accumulate_cons]
    split
    · rfl
    · split
      · exact ih
      · rfl

theorem digit?_digitChar {d : Nat} (h : d < 10) : digit? d.digitChar = some d := by
  interval_cases d <;> rfl

/-- A natural number with a sign. -/
def signed (negative : Bool) (n : Nat) : Int :=
  if negative then -n else n

/-- With a number, all smaller ones of the same sign are costs of a type. -/
theorem fits_signed_of_le {n k : Nat} (h : W.Fits (signed negative n)) (hk : k ≤ n) :
    W.Fits (signed negative k) := by
  have hzero := CostType.fits_zero W
  cases negative with
  | false => exact CostType.fits_of_between hzero h (by simp [signed]) (by simp [signed, hk])
  | true => exact CostType.fits_of_between h hzero (by simp [signed, hk]) (by simp [signed])

theorem extend_signed (k d : Nat) : extend negative (signed negative k) d =
    signed negative (10 * k + d) := by
  cases negative with
  | false => simp [extend, signed]
  | true => simp only [extend, signed, if_true]; omega

/-- The digits of a number are read as the number. -/
theorem accumulate_toDigits {n : Nat} (h : W.Fits (signed negative n)) :
    accumulate W negative 0 (Nat.toDigits 10 n) = .ok (signed negative n) := by
  have hlast {k d : Nat} (hd : d < 10) (hfits : W.Fits (signed negative (10 * k + d))) :
      accumulate W negative (signed negative k) [d.digitChar] =
        .ok (signed negative (10 * k + d)) := by
    rw [accumulate_cons, digit?_digitChar hd]
    dsimp only
    rw [extend_signed, if_pos hfits]
    rfl
  induction n using Nat.strong_induction_on with
  | _ n ih =>
    rw [Nat.toDigits_eq_if (by decide)]
    split <;> rename_i hsmall
    · have hzero : (0 : Int) = signed negative 0 := by cases negative <;> rfl
      simpa [← hzero] using hlast (k := 0) hsmall (by simpa using h)
    · -- the digits before the last have the value `n / 10`, which is closer to zero
      have hn : 10 * (n / 10) + n % 10 = n := Nat.div_add_mod n 10
      have hprefix := ih (n / 10) (by omega) (fits_signed_of_le h (Nat.div_le_self n 10))
      rw [accumulate_append, hprefix]
      exact (hlast (Nat.mod_lt n (by decide)) (hn.symm ▸ h)).trans (by rw [hn])

/-- A numeral without a sign is read digit by digit. -/
theorem read_of_isDigit (hne : cs ≠ []) (h : ∀ d ∈ cs, d.isDigit) :
    read W cs = accumulate W false 0 cs := by
  unfold read
  split
  · contradiction
  · exact absurd (h '+' (by simp)) (by decide)
  · exact absurd (h '-' (by simp)) (by decide)
  · exact absurd (h '+' (by simp)) (by decide)
  · rw [if_neg]
    rintro ⟨rfl, -⟩
    exact absurd (h '-' (by simp)) (by decide)

/-- A numeral with a minus sign is read downwards. -/
theorem read_minus (hne : cs ≠ []) (h : W.hasNegative = true) :
    read W ('-' :: cs) = accumulate W true 0 cs := by
  obtain ⟨d, ds, rfl⟩ := List.exists_cons_of_ne_nil hne
  exact if_pos ⟨rfl, h⟩

theorem isDigit_of_mem_toDigits {n : Nat} : ∀ d ∈ Nat.toDigits 10 n, d.isDigit :=
  fun _ ↦ Nat.isDigit_of_mem_toDigits (by decide) (by decide)

theorem toList_repr (n : Nat) : n.repr.toList = Nat.toDigits 10 n := by
  rw [Nat.repr_eq_ofList_toDigits, String.toList_ofList]

/-- The digits of a number are found in front of a character that is not one. -/
theorem takeWhile_toDigits_append {d : Char} (hd : d.isDigit = false) (n : Nat) (cs : List Char) :
    (Nat.toDigits 10 n ++ d :: cs).takeWhile Char.isDigit = Nat.toDigits 10 n := by
  rw [List.takeWhile_append_of_pos fun _ ↦ isDigit_of_mem_toDigits _,
    List.takeWhile_cons_of_neg (by simp [hd]), List.append_nil]

/-- A number and what follows it can be told from each other. -/
theorem eq_and_eq_of_toDigits_append {d : Char} (hd : d.isDigit = false) {m n : Nat}
    {cs cs' : List Char} (h : Nat.toDigits 10 m ++ d :: cs = Nat.toDigits 10 n ++ d :: cs') :
    m = n ∧ cs = cs' := by
  have hdigits : Nat.toDigits 10 m = Nat.toDigits 10 n := by
    rw [← takeWhile_toDigits_append hd m cs, h, takeWhile_toDigits_append hd]
  constructor
  · calc m = Nat.ofDigitChars 10 (Nat.toDigits 10 m) 0 := Nat.ofDigitChars_ten_toDigits.symm
      _ = Nat.ofDigitChars 10 (Nat.toDigits 10 n) 0 := by rw [hdigits]
      _ = n := Nat.ofDigitChars_ten_toDigits
  · rw [hdigits] at h
    exact (List.cons.inj (List.append_cancel_left h)).2

/-- Two numbers are found in a text that has them at known places, each in front of a character that
is not a digit. -/
theorem eq_and_eq_of_text {start middle rest : String} {d d' : Char} {cs cs' : List Char}
    (hmiddle : middle.toList = d :: cs) (hrest : rest.toList = d' :: cs')
    (hd : d.isDigit = false) (hd' : d'.isDigit = false) {m n m' n' : Nat}
    (h : start ++ toString m ++ middle ++ toString n ++ rest =
      start ++ toString m' ++ middle ++ toString n' ++ rest) : m = m' ∧ n = n' := by
  have htext := congrArg String.toList h
  simp only [String.toList_append, Nat.toString_eq_repr, toList_repr, hmiddle, hrest,
    List.append_assoc, List.cons_append] at htext
  obtain ⟨hm, hcs⟩ := eq_and_eq_of_toDigits_append hd (List.append_cancel_left htext)
  exact ⟨hm, (eq_and_eq_of_toDigits_append hd' (List.append_cancel_left hcs)).1⟩

/-- A number that is written is read back. -/
theorem read_write (h : W.Fits c) : read W (write c).toList = .ok c := by
  cases c with
  | ofNat n =>
    rw [write, toList_repr, read_of_isDigit Nat.toDigits_ne_nil isDigit_of_mem_toDigits]
    exact accumulate_toDigits h
  | negSucc n =>
    have hsigned : Int.negSucc n = signed true (n + 1) := rfl
    have hnegative := CostType.hasNegative_of_fits h (Int.negSucc_lt_zero n)
    rw [write, String.toList_append, toList_repr]
    exact (read_minus Nat.toDigits_ne_nil hnegative).trans (accumulate_toDigits (hsigned ▸ h))

theorem isBlank_of_isDigit {d : Char} (h : d.isDigit) : Text.isBlank d = false := by
  have hrange : 48 ≤ d.toNat ∧ d.toNat ≤ 57 := by
    simpa [Char.isDigit, UInt32.le_iff_toNat_le] using h
  simp only [Text.isBlank, Text.blankRanges, List.any_cons, List.any_nil, Bool.or_false,
    Bool.or_eq_false_iff, Bool.and_eq_false_iff, decide_eq_false_iff_not]
  omega

/-- A numeral can stand as a field. -/
theorem isField_write (c : Int) : Text.IsField (write c) := by
  cases c with
  | ofNat n =>
    refine ⟨Nat.repr_ne_empty, ?_⟩
    rw [write, toList_repr]
    exact fun d hd ↦ isBlank_of_isDigit (isDigit_of_mem_toDigits d hd)
  | negSucc n =>
    have hlist : (write (.negSucc n)).toList = '-' :: Nat.toDigits 10 (n + 1) := by
      rw [write, String.toList_append, toList_repr]
      rfl
    refine ⟨fun hempty ↦ ?_, ?_⟩
    · rw [hempty] at hlist
      cases hlist
    · rw [hlist]
      exact List.forall_mem_cons.2
        ⟨rfl, fun d hd ↦ isBlank_of_isDigit (isDigit_of_mem_toDigits d hd)⟩

theorem isField_toString (k : Nat) : Text.IsField (toString k) :=
  isField_write k

end Numeral

namespace Spelling

/-- What is read as a word is one. -/
theorem lt_of_read_word {token : String} {k : Nat} (h : word.read token = .ok k) :
    k < Word.bound := by
  cases hread : Numeral.read .word token.toList with
  | error flaw => simp [word, hread, Except.map] at h
  | ok c =>
    obtain rfl : c.toNat = k := by simpa [word, hread, Except.map] using h
    obtain ⟨hnonneg, hlt⟩ := Numeral.fits_of_read hread
    rw [Int.toNat_lt hnonneg]
    exact hlt

/-- A word that is written is read back. -/
theorem read_write_word {k : Nat} (h : k < Word.bound) : word.read (toString k) = .ok k := by
  have hfits : CostType.word.Fits k := ⟨Int.natCast_nonneg k, Int.ofNat_lt.2 h⟩
  have hwrite : Numeral.write k = toString k := rfl
  change (Numeral.read .word (toString k).toList).map Int.toNat = .ok k
  rw [← hwrite, Numeral.read_write hfits]
  rfl

end Spelling

end LinearAssignment
