import PerpexEngine.Lib.Program

/-! Postconditions that also tell what a program throws. -/
namespace PerpexEngine.Program
variable {ε σ τ α β : Type} {m : Program ε σ α} {f : α → Program ε σ β} {s : σ}

/-- Started in `s` the program returns into `Q`, or throws an error and into a state as `T` has
them. -/
def Ends (m : Program ε σ α) (s : σ) (Q : α → σ → Prop) (T : ε → σ → Prop) : Prop :=
  match m.run.run s with
  | (.ok a, s') => Q a s'
  | (.error e, s') => T e s'

variable {Q Q' : α → σ → Prop} {R : β → σ → Prop} {E : σ → Prop} {T T' : ε → σ → Prop}

@[simp] theorem ends_pure {a : α} : Ends (pure a : Program ε σ α) s Q T ↔ Q a s := Iff.rfl

@[simp] theorem ends_throw {e : ε} : Ends (throw e : Program ε σ α) s Q T ↔ T e s := Iff.rfl

@[simp] theorem ends_bind : Ends (m >>= f) s R T ↔ Ends m s (fun a t => Ends (f a) t R T) T := by
  unfold Ends
  simp only [ExceptT.run_bind, StateT.run_bind]
  rcases h : m.run.run s with ⟨_ | _, _⟩ <;> rfl

@[simp] theorem ends_map {g : α → β} : Ends (g <$> m) s R T ↔ Ends m s (fun a => R (g a)) T := by
  rw [map_eq_pure_bind, ends_bind]
  rfl

@[simp] theorem ends_get {Q : σ → σ → Prop} : Ends (get : Program ε σ σ) s Q T ↔ Q s s := Iff.rfl

@[simp] theorem ends_zoom {get : τ → σ} {put : τ → σ → τ} {t : τ} {Q : α → τ → Prop}
    {T : ε → τ → Prop} : Ends (zoom get put m) t Q T ↔
      Ends m (get t) (fun a s => Q a (put t s)) fun e s => T e (put t s) := by
  have hrun : (zoom get put m).run.run t =
      ((m.run.run (get t)).1, put t (m.run.run (get t)).2) := rfl
  unfold Ends
  rw [hrun]
  rcases m.run.run (get t) with ⟨_ | _, _⟩ <;> rfl

theorem ends_ite {c : Prop} [Decidable c] {n : Program ε σ α} :
    Ends (if c then m else n) s Q T ↔ (c → Ends m s Q T) ∧ (¬c → Ends n s Q T) := by
  split_ifs with h <;> simp [h]

theorem Ends.mono (h : Ends m s Q T) (hQ : ∀ a t, Q a t → Q' a t)
    (hT : ∀ e t, T e t → T' e t) : Ends m s Q' T' := by
  unfold Ends at h ⊢
  rcases hm : m.run.run s with ⟨_ | a, t⟩ <;> rw [hm] at h
  · exact hT _ _ h
  · exact hQ _ _ h

/-- What is ensured whatever the error is. -/
theorem Ensures.ends (h : Ensures m s Q E) : Ends m s Q fun _ => E := by
  unfold Ensures at h
  unfold Ends
  rcases hm : m.run.run s with ⟨_ | a, t⟩ <;> rw [hm] at h <;> exact h

/-- A program that does not throw has nothing to tell of its errors. -/
theorem Ensures.noThrow (h : Ensures m s Q fun _ => False) : Ends m s Q T :=
  h.ends.mono (fun _ _ h => h) fun _ _ h => h.elim

/-- A program that goes through returns into its postcondition. -/
theorem Ensures.exists_returned (h : Ensures m s Q E) (hok : (m.run.run s).1.isOk = true) :
    ∃ a t, m.run.run s = (.ok a, t) ∧ Q a t := by
  rcases hm : m.run.run s with ⟨_ | a, t⟩
  · rw [hm] at hok
    cases hok
  · exact ⟨a, t, rfl, h.returned hm⟩

theorem Ensures.and_ends (h : Ensures m s Q E) (h' : Ends m s Q' T) :
    Ends m s (fun a t => Q a t ∧ Q' a t) fun e t => E t ∧ T e t := by
  unfold Ensures at h
  unfold Ends at h' ⊢
  rcases hm : m.run.run s with ⟨_ | a, t⟩ <;> rw [hm] at h h' <;> exact ⟨h, h'⟩

theorem Ends.returned (h : Ends m s Q T) {a : α} {t : σ} (hm : m.run.run s = (.ok a, t)) :
    Q a t := by
  unfold Ends at h
  rw [hm] at h
  exact h

theorem Ends.threw (h : Ends m s Q T) {e : ε} {t : σ} (hm : m.run.run s = (.error e, t)) :
    T e t := by
  unfold Ends at h
  rw [hm] at h
  exact h

/-- A program with one outcome returns it. -/
theorem Ends.run_ok {a : α} {t : σ} (h : Ends m s (fun r u => r = a ∧ u = t) fun _ _ => False) :
    m.run.run s = (.ok a, t) := by
  rcases hm : m.run.run s with ⟨_ | r, u⟩
  · exact (h.threw hm).elim
  · obtain ⟨rfl, rfl⟩ := h.returned hm
    rfl

/-- A program with one error throws it. -/
theorem Ends.run_error {e : ε} {t : σ} (h : Ends m s (fun _ _ => False) fun x u => x = e ∧ u = t) :
    m.run.run s = (.error e, t) := by
  rcases hm : m.run.run s with ⟨_ | r, u⟩
  · obtain ⟨rfl, rfl⟩ := h.threw hm
    rfl
  · exact (h.returned hm).elim

end PerpexEngine.Program
