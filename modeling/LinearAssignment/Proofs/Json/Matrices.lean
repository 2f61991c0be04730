import LinearAssignment.CostMatrix.Json
import LinearAssignment.Proofs.Json.Values
import Mathlib.Data.List.Induction

/-!
# JSON values that carry a matrix

A value carries a size and entries if it is an object with one member for each of the two, in any
order and among any others, or an array of the two (`Value.Carries`). A size and entries are read
from some tokens exactly if these start with a value that carries them
(`sizeAndData?_eq_some_iff`).

The readers of tokens are taken one after the other, and for each it is said which values it reads:
integers and arrays of them (`size?_eq_some_iff`, `integers?_eq_some_iff`), the value of a member
(`member?_eq_some_iff`), and the members of an object (`members?_eq_some_iff`). What members amount
to is then a matter of values alone: each member is read into the state once
(`foldlM_readMember?_eq_some_iff`).
-/

namespace LinearAssignment

open Json

namespace Json.Value

/-- The integer of a cost type that a value stands for. -/
def integer? (W : CostType) : Value → Option Int
  | number negative digits integral => CostMatrix.integer? W (.number negative digits integral)
  | _ => none

/-- The integers that an array of integers holds. -/
def integers? (W : CostType) : Value → Option (List Int)
  | array vs => vs.mapM (integer? W)
  | _ => none

/-- The values of the members with a key, in order. -/
def valuesOf (key : String) (ms : List (Option String × Value)) : List Value :=
  (ms.filter fun member ↦ member.1 = some key).map Prod.snd

/-- The value carries a size and entries: it is an object with one member for each of them, among
others of any kind whose keys are text, or an array of the two. -/
def Carries (W : CostType) (n : Nat) (data : List Int) : Value → Prop
  | object ms => (∀ member ∈ ms, member.1.isSome) ∧
    (∃ v, valuesOf "n" ms = [v] ∧ v.integer? .word = some (n : Int)) ∧
    ∃ v, valuesOf "data" ms = [v] ∧ v.integers? W = some data
  | array vs => ∃ size entries, vs = [size, entries] ∧ size.integer? .word = some (n : Int) ∧
    entries.integers? W = some data
  | _ => False

end Json.Value

namespace CostMatrix

variable {W : CostType} {n : Nat} {c : Int} {data : List Int} {t : Token} {ts rest : List Token}
  {key : String} {v : Value} {ms : List (Option String × Value)} {m m' : Members}

/-! ### Integers -/

theorem fits_of_integer? (h : integer? W t = some c) : W.Fits c := by
  cases t with
  | number negative digits integral =>
    cases integral with
    | false => cases h
    | true =>
      simp only [integer?, Option.ite_none_left_eq_some, Option.ite_none_right_eq_some] at h
      exact Option.some.inj h.2.2 ▸ h.2.1
  | _ => cases h

theorem nonneg_of_integer? (h : v.integer? .word = some c) : 0 ≤ c := by
  cases v with
  | number negative digits integral => exact (fits_of_integer? h).1
  | _ => cases h

/-- A value that stands for an integer is one token. -/
theorem exists_token (h : v.integer? W = some c) :
    ∃ t, integer? W t = some c ∧ v.tokens = [t] := by
  cases v with
  | number negative digits integral => exact ⟨_, h, rfl⟩
  | _ => cases h

/-- Every token that stands for an integer is a value. -/
theorem exists_value (h : integer? W t = some c) :
    ∃ v : Value, v.integer? W = some c ∧ v.tokens = [t] := by
  cases t with
  | number negative digits integral => exact ⟨.number negative digits integral, h, rfl⟩
  | _ => cases h

theorem size?_eq_some_iff : size? ts = some (n, rest) ↔
    ∃ v : Value, v.integer? .word = some (n : Int) ∧ ts = v.tokens ++ rest := by
  constructor
  · intro h
    cases ts with
    | nil => cases h
    | cons t ts =>
      obtain ⟨c, hc, heq⟩ := Option.map_eq_some_iff.1 h
      obtain ⟨rfl, rfl⟩ := Prod.mk.inj heq
      obtain ⟨v, hv, htokens⟩ := exists_value hc
      refine ⟨v, ?_, by rw [htokens, List.singleton_append]⟩
      rw [hv, Int.toNat_of_nonneg (nonneg_of_integer? hv)]
  · intro ⟨v, hv, hts⟩
    obtain ⟨t, ht, htokens⟩ := exists_token hv
    rw [hts, htokens, List.singleton_append, size?, ht]
    rfl

/-- Integers are read from an array after an element, and its end. -/
theorem moreIntegers?_eq_some_iff : moreIntegers? W ts = some (data, rest) ↔
    ∃ vs : List Value, vs.mapM (Value.integer? W) = some data ∧
      ts = Value.moreElements vs ++ rest := by
  constructor
  · intro h
    fun_induction moreIntegers? W ts generalizing data rest with
    | case1 ts =>
      obtain ⟨rfl, rfl⟩ := Prod.mk.inj (Option.some.inj h)
      exact ⟨[], rfl, rfl⟩
    | case2 t ts ih =>
      simp only [Option.bind_eq_bind, Option.bind_eq_some_iff, Option.pure_def, Option.some.injEq,
        Prod.mk.injEq, Prod.exists] at h
      obtain ⟨c, hc, cs, left, hcs, rfl, rfl⟩ := h
      obtain ⟨v, hv, htokens⟩ := exists_value hc
      obtain ⟨vs, hvs, rfl⟩ := ih hcs
      exact ⟨v :: vs, by simp [hv, hvs], by simp [Value.moreElements, htokens]⟩
    | case3 => cases h
  · rintro ⟨vs, hvs, hts⟩
    induction vs generalizing data ts with
    | nil =>
      obtain rfl := Option.some.inj hvs
      rw [hts]
      rfl
    | cons v vs ih =>
      simp only [List.mapM_cons, Option.bind_eq_bind, Option.bind_eq_some_iff, Option.pure_def,
        Option.some.injEq] at hvs
      obtain ⟨c, hc, cs, hcs, rfl⟩ := hvs
      obtain ⟨t, ht, htokens⟩ := exists_token hc
      rw [hts, Value.moreElements, htokens, List.singleton_append, List.cons_append,
        List.cons_append, moreIntegers?, ht, ih hcs rfl]
      rfl

/-- An array of integers is read. -/
theorem integers?_eq_some_iff : integers? W ts = some (data, rest) ↔
    ∃ v : Value, v.integers? W = some data ∧ ts = v.tokens ++ rest := by
  constructor
  · intro h
    rw [integers?.eq_def] at h
    split at h
    · obtain ⟨rfl, rfl⟩ := Prod.mk.inj (Option.some.inj h)
      exact ⟨.array [], rfl, rfl⟩
    · rename_i t ts _
      simp only [Option.bind_eq_bind, Option.bind_eq_some_iff, Option.pure_def, Option.some.injEq,
        Prod.mk.injEq, Prod.exists] at h
      obtain ⟨c, hc, cs, left, hcs, rfl, rfl⟩ := h
      obtain ⟨v, hv, htokens⟩ := exists_value hc
      obtain ⟨vs, hvs, rfl⟩ := moreIntegers?_eq_some_iff.1 hcs
      exact ⟨.array (v :: vs), by simp [Value.integers?, hv, hvs],
        by simp [Value.tokens, Value.elements, htokens]⟩
    · cases h
  · intro ⟨v, hv, hts⟩
    cases v with
    | array vs =>
      cases vs with
      | nil =>
        obtain rfl := Option.some.inj hv
        rw [hts]
        rfl
      | cons v vs =>
        simp only [Value.integers?, List.mapM_cons, Option.bind_eq_bind, Option.bind_eq_some_iff,
          Option.pure_def, Option.some.injEq] at hv
        obtain ⟨c, hc, cs, hcs, rfl⟩ := hv
        obtain ⟨t, ht, htokens⟩ := exists_token hc
        have hmore : moreIntegers? W (Value.moreElements vs ++ rest) = some (cs, rest) :=
          moreIntegers?_eq_some_iff.2 ⟨vs, hcs, rfl⟩
        have hclose : t ≠ .closeBracket := by
          rintro rfl
          cases ht
        rw [hts, Value.tokens, Value.elements, htokens, List.singleton_append, List.cons_append,
          List.cons_append, integers?, ht, hmore]
        · rfl
        · exact fun h ↦ absurd h hclose
    | _ => cases hv

/-! ### Members -/

/-- The members that have been read after one more. -/
def readMember? (W : CostType) (m : Members) : Option String × Value → Option Members
  | (none, _) => none
  | (some key, v) =>
    if key = "n" then
      if m.size.isSome then none
      else (v.integer? .word).map fun n ↦ { m with size := some n.toNat }
    else if key = "data" then
      if m.data.isSome then none
      else (v.integers? W).map fun data ↦ { m with data := some data }
    else some m

/-- The value of a member is read, whatever its key is. -/
theorem member?_eq_some_iff : member? W m key ts = some (m', rest) ↔
    ∃ v : Value, readMember? W m (some key, v) = some m' ∧ ts = v.tokens ++ rest := by
  simp only [member?, readMember?]
  split
  · split
    · simp
    · simp only [Option.map_eq_some_iff, Prod.mk.injEq, Prod.exists, size?_eq_some_iff]
      constructor
      · intro ⟨n, _, ⟨v, hv, hts⟩, hm, hrest⟩
        exact ⟨v, ⟨n, hv, hm⟩, hrest ▸ hts⟩
      · intro ⟨v, ⟨c, hc, hm⟩, hts⟩
        exact ⟨c.toNat, rest,
          ⟨v, by rw [hc, Int.toNat_of_nonneg (nonneg_of_integer? hc)], hts⟩, hm, rfl⟩
  · split
    · split
      · simp
      · simp only [Option.map_eq_some_iff, Prod.mk.injEq, Prod.exists, integers?_eq_some_iff]
        constructor
        · intro ⟨data, _, ⟨v, hv, hts⟩, hm, hrest⟩
          exact ⟨v, ⟨data, hv, hm⟩, hrest ▸ hts⟩
        · intro ⟨v, ⟨data, hdata, hm⟩, hts⟩
          exact ⟨data, rest, ⟨v, hdata, hts⟩, hm, rfl⟩
    · simp only [Option.map_eq_some_iff, Prod.mk.injEq, skipValue?_eq_some_iff, Option.some.injEq]
      constructor
      · intro ⟨_, ⟨v, hts⟩, hm, hrest⟩
        exact ⟨v, hm, hrest ▸ hts⟩
      · intro ⟨v, hm, hts⟩
        exact ⟨rest, ⟨v, hts⟩, hm, rfl⟩

/-- After the last member, an object is closed. -/
theorem members?_of_closeBrace (h : member? W m key ts = some (m', .closeBrace :: rest)) :
    members? W m (.string (some key) :: .colon :: ts) = some (m', rest) := by
  rw [members?]
  split <;> simp_all

/-- After a comma, the next member is read. -/
theorem members?_of_comma (h : member? W m key ts = some (m', .comma :: rest)) :
    members? W m (.string (some key) :: .colon :: ts) = members? W m' rest := by
  rw [members?]
  split <;> simp_all

/-- The members of an object are read one after the other. -/
theorem members?_eq_some_iff : members? W m ts = some (m', rest) ↔
    ∃ ms, ms ≠ [] ∧ ms.foldlM (readMember? W) m = some m' ∧ ts = Value.members ms ++ rest := by
  constructor
  · intro h
    fun_induction members? W m ts generalizing m' rest with
    | case1 m key ts m₁ left hmember =>
      obtain ⟨rfl, rfl⟩ := Prod.mk.inj (Option.some.inj h)
      obtain ⟨v, hv, rfl⟩ := member?_eq_some_iff.1 hmember
      exact ⟨[(some key, v)], List.cons_ne_nil _ _, by simp [hv],
        by simp [Value.members, Value.moreMembers]⟩
    | case2 m key ts m₁ left hmember ih =>
      obtain ⟨v, hv, rfl⟩ := member?_eq_some_iff.1 hmember
      obtain ⟨ms, hne, hms, rfl⟩ := ih h
      obtain ⟨member, ms, rfl⟩ := List.exists_cons_of_ne_nil hne
      exact ⟨(some key, v) :: member :: ms, List.cons_ne_nil _ _,
        by rw [List.foldlM_cons, hv]; exact hms, by simp [Value.members, Value.moreMembers]⟩
    | case3 => cases h
    | case4 => cases h
  · intro ⟨ms, hne, hms, hts⟩
    induction ms generalizing m ts with
    | nil => contradiction
    | cons member ms ih =>
      obtain ⟨key, v⟩ := member
      rw [List.foldlM_cons] at hms
      obtain ⟨m₁, hv, hleft⟩ := Option.bind_eq_some_iff.1 hms
      cases key with
      | none => cases hv
      | some key =>
        have hmember : member? W m key (v.tokens ++ (Value.moreMembers ms ++ rest)) =
            some (m₁, Value.moreMembers ms ++ rest) :=
          member?_eq_some_iff.2 ⟨v, hv, rfl⟩
        rw [hts, Value.members, List.cons_append, List.cons_append, List.append_assoc]
        cases ms with
        | nil =>
          obtain rfl := Option.some.inj hleft
          exact members?_of_closeBrace hmember
        | cons member ms =>
          exact (members?_of_comma hmember).trans (ih (List.cons_ne_nil _ _) hleft rfl)

/-! ### Objects -/

/-- The values of the members with one key are read: there is none, or there is one that is read as
the value that is kept. -/
def ReadAs {β : Type} (read : Value → Option β) (vs : List Value) : Option β → Prop
  | none => vs = []
  | some b => ∃ v, vs = [v] ∧ read v = some b

/-- A value is read if it is the first one for its key. -/
theorem readAs_append_singleton {β : Type} {read : Value → Option β} {vs : List Value}
    {o : Option β} : ReadAs read (vs ++ [v]) o ↔ vs = [] ∧ ∃ b, read v = some b ∧ o = some b := by
  cases o with
  | none => simp [ReadAs]
  | some b =>
    rw [ReadAs]
    constructor
    · intro ⟨v', hvs, hread⟩
      obtain ⟨rfl, hv⟩ : vs = [] ∧ v = v' := by simpa [List.append_eq_singleton_iff] using hvs
      exact ⟨rfl, b, hv ▸ hread, rfl⟩
    · intro ⟨hvs, b', hread, hb⟩
      exact ⟨v, by rw [hvs, List.nil_append], hb ▸ hread⟩

theorem valuesOf_append_singleton (ms : List (Option String × Value)) (key' : Option String) :
    Value.valuesOf key (ms ++ [(key', v)]) =
      Value.valuesOf key ms ++ if key' = some key then [v] else [] := by
  rw [Value.valuesOf, List.filter_append, List.map_append, ← Value.valuesOf]
  split <;> simp [*]

theorem readMember?_size_eq_some_iff : readMember? W m (some "n", v) = some m' ↔
    m.size = none ∧ ∃ n, (v.integer? .word).map Int.toNat = some n ∧
      m' = { m with size := some n } := by
  simp [readMember?, Option.map_eq_some_iff, @eq_comm _ m']

theorem readMember?_data_eq_some_iff : readMember? W m (some "data", v) = some m' ↔
    m.data = none ∧ ∃ data, v.integers? W = some data ∧ m' = { m with data := some data } := by
  simp [readMember?, Option.map_eq_some_iff, @eq_comm _ m']

theorem readMember?_other (hsize : key ≠ "n") (hdata : key ≠ "data") :
    readMember? W m (some key, v) = some m := by
  simp [readMember?, hsize, hdata]

/-- Members are read exactly if their keys are text, and no more than one size and one list of
entries is among them. -/
theorem foldlM_readMember?_eq_some_iff : ms.foldlM (readMember? W) ⟨none, none⟩ = some m ↔
    (∀ member ∈ ms, member.1.isSome) ∧
      ReadAs (fun v ↦ (v.integer? .word).map Int.toNat) (Value.valuesOf "n" ms) m.size ∧
      ReadAs (Value.integers? W) (Value.valuesOf "data" ms) m.data := by
  induction ms using List.reverseRecOn generalizing m with
  | nil =>
    obtain ⟨size, data⟩ := m
    cases size <;> cases data <;> simp [ReadAs, Value.valuesOf]
  | append_singleton ms member ih =>
    obtain ⟨key, v⟩ := member
    simp only [List.foldlM_append, List.foldlM_cons, List.foldlM_nil, bind_pure,
      Option.bind_eq_bind, Option.bind_eq_some_iff, ih, List.forall_mem_append,
      List.forall_mem_singleton, valuesOf_append_singleton]
    cases key with
    | none => simp [readMember?]
    | some key =>
      simp only [Option.isSome_some, and_true, Option.some.injEq]
      by_cases hsize : key = "n"
      · subst hsize
        simp only [readMember?_size_eq_some_iff, if_true, readAs_append_singleton, String.reduceEq,
          if_false, List.append_nil]
        constructor
        · intro ⟨m₁, ⟨hkeys, hnone, hdata⟩, hfirst, n, hn, hm⟩
          rw [hfirst] at hnone
          exact ⟨hkeys, ⟨hnone, n, hn, hm ▸ rfl⟩, hm ▸ hdata⟩
        · intro ⟨hkeys, ⟨hnone, n, hn, hm⟩, hdata⟩
          exact ⟨⟨none, m.data⟩, ⟨hkeys, hnone, hdata⟩, rfl, n, hn, hm ▸ rfl⟩
      · by_cases hdata : key = "data"
        · subst hdata
          simp only [readMember?_data_eq_some_iff, if_true, readAs_append_singleton,
            String.reduceEq, if_false, List.append_nil]
          constructor
          · intro ⟨m₁, ⟨hkeys, hsize, hnone⟩, hfirst, data, hread, hm⟩
            rw [hfirst] at hnone
            exact ⟨hkeys, hm ▸ hsize, hnone, data, hread, hm ▸ rfl⟩
          · intro ⟨hkeys, hsize, hnone, data, hread, hm⟩
            exact ⟨⟨m.size, none⟩, ⟨hkeys, hsize, hnone⟩, rfl, data, hread, hm ▸ rfl⟩
        · simp only [readMember?_other hsize hdata, hsize, hdata, if_false, List.append_nil,
            Option.some.injEq, exists_eq_right]

/-! ### Matrices -/

/-- The size of an object is read exactly if it is the value of a single member. -/
theorem readAs_size_iff {vs : List Value} :
    ReadAs (fun v ↦ (v.integer? .word).map Int.toNat) vs (some n) ↔
      ∃ v, vs = [v] ∧ v.integer? .word = some (n : Int) := by
  refine exists_congr fun v ↦ and_congr_right fun _ ↦ ?_
  rw [Option.map_eq_some_iff]
  constructor
  · intro ⟨c, hc, hn⟩
    rw [hc, ← hn, Int.toNat_of_nonneg (nonneg_of_integer? hc)]
  · exact fun h ↦ ⟨n, h, rfl⟩

/-- A size and entries are read only where a value carries them. -/
theorem exists_carries_of_sizeAndData? (h : sizeAndData? W ts = some (n, data, rest)) :
    ∃ v : Value, v.Carries W n data ∧ ts = v.tokens ++ rest := by
  rw [sizeAndData?.eq_def] at h
  split at h
  · simp only [Option.bind_eq_bind, Option.bind_eq_some_iff, Option.pure_def, Option.some.injEq,
      Prod.mk.injEq, Prod.exists] at h
    obtain ⟨⟨_, _⟩, left, hm, _, rfl, _, rfl, rfl, rfl, rfl⟩ := h
    obtain ⟨ms, -, hms, rfl⟩ := members?_eq_some_iff.1 hm
    obtain ⟨hkeys, hsize, hdata⟩ := foldlM_readMember?_eq_some_iff.1 hms
    exact ⟨.object ms, ⟨hkeys, readAs_size_iff.1 hsize, hdata⟩, rfl⟩
  · simp only [Option.bind_eq_bind, Option.bind_eq_some_iff, Prod.exists] at h
    obtain ⟨n', left, hsize, h⟩ := h
    split at h
    · simp only [Option.bind_eq_some_iff, Prod.exists] at h
      obtain ⟨data', left', hdata, h⟩ := h
      split at h
      · obtain ⟨rfl, heq⟩ := Prod.mk.inj (Option.some.inj h)
        obtain ⟨rfl, rfl⟩ := Prod.mk.inj heq
        obtain ⟨size, hn, rfl⟩ := size?_eq_some_iff.1 hsize
        obtain ⟨entries, hentries, rfl⟩ := integers?_eq_some_iff.1 hdata
        exact ⟨.array [size, entries], ⟨size, entries, rfl, hn, hentries⟩,
          by simp [Value.tokens, Value.elements, Value.moreElements]⟩
      · cases h
    · cases h
  · cases h

/-- The members of an object that carries a size and entries are read. -/
theorem sizeAndData?_object (h : (Value.object ms).Carries W n data) (rest : List Token) :
    sizeAndData? W ((Value.object ms).tokens ++ rest) = some (n, data, rest) := by
  obtain ⟨hkeys, hsize, hdata⟩ := h
  have hne : ms ≠ [] := by
    rintro rfl
    obtain ⟨_, hnone, -⟩ := hsize
    cases hnone
  have hread : ms.foldlM (readMember? W) ⟨none, none⟩ = some ⟨some n, some data⟩ :=
    foldlM_readMember?_eq_some_iff.2 ⟨hkeys, readAs_size_iff.2 hsize, hdata⟩
  have hm : members? W ⟨none, none⟩ (Value.members ms ++ rest) =
      some (⟨some n, some data⟩, rest) := members?_eq_some_iff.2 ⟨ms, hne, hread, rfl⟩
  rw [Value.tokens, List.cons_append, sizeAndData?, hm]
  rfl

/-- The elements of an array that carries a size and entries are read. -/
theorem sizeAndData?_array {vs : List Value} (h : (Value.array vs).Carries W n data)
    (rest : List Token) :
    sizeAndData? W ((Value.array vs).tokens ++ rest) = some (n, data, rest) := by
  obtain ⟨size, entries, rfl, hn, hentries⟩ := h
  have hsize (left : List Token) : size? (size.tokens ++ left) = some (n, left) :=
    size?_eq_some_iff.2 ⟨size, hn, rfl⟩
  have hdata (left : List Token) : integers? W (entries.tokens ++ left) = some (data, left) :=
    integers?_eq_some_iff.2 ⟨entries, hentries, rfl⟩
  have htokens : (Value.array [size, entries]).tokens ++ rest =
      .openBracket :: (size.tokens ++ .comma :: (entries.tokens ++ .closeBracket :: rest)) := by
    simp [Value.tokens, Value.elements, Value.moreElements]
  rw [htokens, sizeAndData?, hsize]
  dsimp only [Option.bind_eq_bind, Option.bind_some]
  rw [hdata]
  rfl

/-- A size and entries are read exactly from the tokens of a value that carries them. -/
theorem sizeAndData?_eq_some_iff : sizeAndData? W ts = some (n, data, rest) ↔
    ∃ v : Value, v.Carries W n data ∧ ts = v.tokens ++ rest := by
  constructor
  · exact exists_carries_of_sizeAndData?
  · rintro ⟨v, hv, rfl⟩
    cases v with
    | object ms => exact sizeAndData?_object hv rest
    | array vs => exact sizeAndData?_array hv rest
    | _ => exact hv.elim

end CostMatrix

end LinearAssignment
