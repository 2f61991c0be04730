import LinearAssignment.Fault
import Mathlib.Data.List.Induction

/-!
# Readings

A reading ends with a value, with an error of the data, or with a fault. It gives a value only if
each of its parts does (`bind_eq_pure_iff`). It has an answer if it does not end with a fault
(`Answers`): the lemma for a bind hands the value of its first part to the second, and the one for a
loop hands the state after the earlier rounds to a round (`Answers.bind`, `answers_foldlM`). Errors
alone are followed through the same parts (`ThrowsOnly`), and where a caller changes them, this is
done in each part (`adapt_bind`, `foldlM_renumber`).
-/

namespace LinearAssignment.Reading

variable {ε ε' α β σ : Type} {P : ε → Prop}

/-! ### Values -/

theorem bind_eq_pure_iff {x : ExceptT ε Checked α} {f : α → ExceptT ε Checked β} {b : β} :
    x >>= f = pure b ↔ ∃ a, x = pure a ∧ f a = pure b := by
  constructor
  · intro h
    rcases x with e | e | a
    · cases h
    · cases h
    · exact ⟨a, rfl, h⟩
  · rintro ⟨a, rfl, h⟩
    exact h

theorem pure_eq_pure_iff {a b : α} : (pure a : ExceptT ε Checked α) = pure b ↔ a = b :=
  ⟨fun h ↦ Except.ok.inj (Except.ok.inj h), congrArg pure⟩

theorem throw_ne_pure {e : ε} {a : α} : (throw e : ExceptT ε Checked α) ≠ pure a :=
  nofun

theorem liftM_eq_pure_iff {x : Checked α} {a : α} :
    (liftM x : ExceptT ε Checked α) = pure a ↔ x = .ok a := by
  rcases x with e | b
  · exact iff_of_false nofun nofun
  · exact ⟨fun h ↦ congrArg _ (Except.ok.inj (Except.ok.inj h)), fun h ↦ h ▸ rfl⟩

@[simp]
theorem liftM_ok_bind (a : α) (f : α → ExceptT ε Checked β) :
    ((liftM (Except.ok a : Checked α) : ExceptT ε Checked α) >>= f) = f a :=
  rfl

@[simp]
theorem throw_bind (e : ε) (f : α → ExceptT ε Checked β) :
    ((throw e : ExceptT ε Checked α) >>= f) = throw e :=
  rfl

/-- Changing the error does not matter to a value. -/
theorem adapt_eq_pure_iff {x : ExceptT ε Checked α} {f : ε → ε'} {a : α} :
    x.adapt f = (pure a : ExceptT ε' Checked α) ↔ x = pure a := by
  rcases x with e | e | b
  · exact iff_of_false nofun nofun
  · exact iff_of_false nofun nofun
  · exact pure_eq_pure_iff.trans pure_eq_pure_iff.symm

/-! ### Answers -/

/-- A reading ends with a value, or with an error that has a property. -/
def Answers (P : ε → Prop) (x : ExceptT ε Checked α) : Prop :=
  (∃ a, x = pure a) ∨ ∃ e, x = throw e ∧ P e

theorem answers_pure (a : α) : Answers P (pure a) :=
  .inl ⟨a, rfl⟩

theorem answers_throw {e : ε} (h : P e) : Answers P (throw e : ExceptT ε Checked α) :=
  .inr ⟨e, rfl, h⟩

theorem answers_ite {c : Prop} [Decidable c] {x y : ExceptT ε Checked α} (hx : c → Answers P x)
    (hy : ¬ c → Answers P y) : Answers P (if c then x else y) := by
  split
  · exact hx ‹_›
  · exact hy ‹_›

theorem Answers.mono {Q : ε → Prop} {x : ExceptT ε Checked α} (h : Answers P x)
    (hPQ : ∀ e, P e → Q e) : Answers Q x :=
  h.imp_right fun ⟨e, hx, he⟩ ↦ ⟨e, hx, hPQ e he⟩

theorem Answers.bind {x : ExceptT ε Checked α} {f : α → ExceptT ε Checked β} (hx : Answers P x)
    (hf : ∀ a, x = pure a → Answers P (f a)) : Answers P (x >>= f) := by
  rcases hx with ⟨a, rfl⟩ | ⟨e, rfl, he⟩
  · exact hf a rfl
  · exact answers_throw he

theorem Answers.adapt {x : ExceptT ε Checked α} {Q : ε' → Prop} {g : ε → ε'} (hx : Answers P x)
    (hg : ∀ e, P e → Q (g e)) : Answers Q (x.adapt g) := by
  rcases hx with ⟨a, rfl⟩ | ⟨e, rfl, he⟩
  · exact answers_pure a
  · exact answers_throw (hg e he)

/-- A loop has an answer if each round has one in the state after the rounds before. -/
theorem answers_foldlM {xs : List α} {f : β → α → ExceptT ε Checked β} {b : β}
    (h : ∀ before x after, xs = before ++ x :: after → ∀ b', before.foldlM f b = pure b' →
      Answers P (f b' x)) : Answers P (xs.foldlM f b) := by
  induction xs using List.reverseRecOn with
  | nil => exact answers_pure b
  | append_singleton xs x ih =>
    have hprev : Answers P (xs.foldlM f b) := ih fun before y after hxs ↦
      h before y (after ++ [x]) (by rw [hxs, List.append_assoc, List.cons_append])
    rw [List.foldlM_append]
    refine hprev.bind fun b' hb' ↦ ?_
    rw [List.foldlM_cons]
    exact (h xs x [] rfl b' hb').bind fun a _ ↦ answers_pure a

/-- An answer is what running the reading gives. -/
theorem Answers.exists_run {x : ExceptT ε Checked α} (h : Answers P x) :
    ∃ r, x.run = .ok r ∧ ∀ e, r = .error e → P e := by
  rcases h with ⟨a, rfl⟩ | ⟨e, rfl, he⟩
  · exact ⟨.ok a, rfl, nofun⟩
  · exact ⟨.error e, rfl, fun _ heq ↦ Except.error.inj heq ▸ he⟩

/-! ### Errors -/

/-- Every error that a reading ends with has a property. -/
def ThrowsOnly (P : ε → Prop) (x : ExceptT ε Checked α) : Prop :=
  ∀ e, x = throw e → P e

theorem throw_eq_throw_iff {e e' : ε} :
    (throw e : ExceptT ε Checked α) = throw e' ↔ e = e' :=
  ⟨fun h ↦ Except.error.inj (Except.ok.inj h), congrArg throw⟩

theorem throwsOnly_pure (a : α) : ThrowsOnly P (pure a) :=
  nofun

theorem throwsOnly_throw {e : ε} (h : P e) : ThrowsOnly P (throw e : ExceptT ε Checked α) :=
  fun _ he ↦ throw_eq_throw_iff.1 he ▸ h

theorem throwsOnly_liftM (x : Checked α) : ThrowsOnly P (liftM x : ExceptT ε Checked α) := by
  intro e he
  cases x <;> cases he

theorem ThrowsOnly.bind {x : ExceptT ε Checked α} {f : α → ExceptT ε Checked β}
    (hx : ThrowsOnly P x) (hf : ∀ a, ThrowsOnly P (f a)) : ThrowsOnly P (x >>= f) := by
  intro e he
  rcases x with fault | e' | a
  · cases he
  · have heq : (throw e' : ExceptT ε Checked β) = throw e := he
    exact hx e (throw_eq_throw_iff.1 heq ▸ rfl)
  · exact hf a e he

theorem throwsOnly_ite {c : Prop} [Decidable c] {x y : ExceptT ε Checked α} (hx : ThrowsOnly P x)
    (hy : ThrowsOnly P y) : ThrowsOnly P (if c then x else y) := by
  split
  · exact hx
  · exact hy

theorem throwsOnly_foldlM {f : β → α → ExceptT ε Checked β} (h : ∀ b a, ThrowsOnly P (f b a))
    (xs : List α) (b : β) : ThrowsOnly P (xs.foldlM f b) := by
  induction xs generalizing b with
  | nil => exact throwsOnly_pure b
  | cons x xs ih =>
    rw [List.foldlM_cons]
    exact (h b x).bind ih

theorem throwsOnly_adapt {x : ExceptT ε' Checked α} {g : ε' → ε} (h : ∀ e, P (g e)) :
    ThrowsOnly P (x.adapt g) := by
  intro e he
  rcases x with fault | e' | a
  · cases he
  · exact throw_eq_throw_iff.1 he ▸ h e'
  · cases he

theorem Answers.throwsOnly {x : ExceptT ε Checked α} (h : Answers P x) : ThrowsOnly P x := by
  rcases h with ⟨a, rfl⟩ | ⟨e, rfl, he⟩
  · exact throwsOnly_pure a
  · exact throwsOnly_throw he

/-! ### Changing errors -/

variable {g : ε → ε'}

theorem adapt_eq_throw_iff {x : ExceptT ε Checked α} {e' : ε'} :
    x.adapt g = (throw e' : ExceptT ε' Checked α) ↔ ∃ e, x = throw e ∧ g e = e' := by
  rcases x with fault | e | a
  · exact iff_of_false nofun nofun
  · constructor
    · intro h
      exact ⟨e, rfl, throw_eq_throw_iff.1 h⟩
    · rintro ⟨e', he, rfl⟩
      rw [he]
      rfl
  · exact iff_of_false nofun nofun

/-- Changing the error does not matter to a fault. -/
theorem run_adapt_eq_error_iff {x : ExceptT ε Checked α} {fault : Fault} :
    (x.adapt g).run = .error fault ↔ x.run = .error fault := by
  rcases x with fault' | e | a
  · exact ⟨fun h ↦ congrArg Except.error (Except.error.inj h),
      fun h ↦ congrArg Except.error (Except.error.inj h)⟩
  · exact iff_of_false nofun nofun
  · exact iff_of_false nofun nofun

@[simp]
theorem adapt_pure (a : α) : (pure a : ExceptT ε Checked α).adapt g = pure a :=
  rfl

@[simp]
theorem adapt_throw (e : ε) : (throw e : ExceptT ε Checked α).adapt g = throw (g e) :=
  rfl

@[simp]
theorem adapt_liftM (x : Checked α) :
    (liftM x : ExceptT ε Checked α).adapt g = (liftM x : ExceptT ε' Checked α) := by
  cases x <;> rfl

@[simp]
theorem adapt_bind (x : ExceptT ε Checked α) (f : α → ExceptT ε Checked β) :
    (x >>= f).adapt g = x.adapt g >>= fun a ↦ (f a).adapt g := by
  rcases x with fault | e | a <;> rfl

@[simp]
theorem adapt_map (x : ExceptT ε Checked α) (f : α → β) :
    (f <$> x).adapt g = f <$> x.adapt g := by
  rcases x with fault | e | a <;> rfl

/-- Two loops whose rounds correspond end in corresponding ways. -/
theorem foldlM_renumber {τ : Type} {f : σ → α → ExceptT ε Checked σ}
    {f' : τ → β → ExceptT ε' Checked τ} {states : σ → τ} {rows : α → β}
    (h : ∀ s x, f' (states s) (rows x) = (states <$> f s x).adapt g) (xs : List α) (s : σ) :
    (xs.map rows).foldlM f' (states s) = (states <$> xs.foldlM f s).adapt g := by
  induction xs generalizing s with
  | nil => rfl
  | cons x xs ih =>
    rw [List.map_cons, List.foldlM_cons, List.foldlM_cons, h, map_bind, adapt_bind, adapt_map]
    simp only [bind_map_left, ih]

/-- Two loops on the same states, whose rounds differ in their errors only. -/
theorem foldlM_map_adapt {f : σ → α → ExceptT ε Checked σ} {f' : σ → β → ExceptT ε' Checked σ}
    {rows : α → β} (h : ∀ s x, f' s (rows x) = (f s x).adapt g) (xs : List α) (s : σ) :
    (xs.map rows).foldlM f' s = (xs.foldlM f s).adapt g := by
  have hround (s : σ) (x : α) : f' (id s) (rows x) = (id <$> f s x).adapt g := by
    rw [id_map]
    exact h s x
  have hloop := foldlM_renumber hround xs s
  rwa [id_map] at hloop

end LinearAssignment.Reading
