import Mathlib.Control.Monad.Basic
import Mathlib.Data.List.Basic

/-! Programs that may throw and keep the state they reached when they do, with the rules of their
postconditions. -/
namespace PerpexEngine

abbrev Program (ε σ : Type) := ExceptT ε (StateM σ)

theorem bind_eq_ok {ε α β : Type} {x : Except ε α} {f : α → Except ε β} {b : β} :
    x >>= f = .ok b ↔ ∃ a, x = .ok a ∧ f a = .ok b := by
  cases x with
  | error e => exact ⟨fun h => (nomatch h), fun ⟨_, h, _⟩ => (nomatch h)⟩
  | ok a => exact ⟨fun h => ⟨a, rfl, h⟩, fun ⟨_, h, hf⟩ => by cases h; exact hf⟩

theorem pure_eq_ok {ε α : Type} {a b : α} : (pure a : Except ε α) = .ok b ↔ b = a :=
  ⟨fun h => (Except.ok.inj h).symm, fun h => h ▸ rfl⟩

theorem throw_ite_eq_ok {ε α : Type} {c : Prop} [Decidable c] {e : ε} {x : Except ε α} {a : α} :
    (if c then throw e else x) = .ok a ↔ ¬c ∧ x = .ok a := by
  split_ifs with h
  · exact ⟨fun hx => (nomatch hx), fun hx => absurd h hx.1⟩
  · simp [h]

namespace Program
variable {ε σ τ α β : Type} {m : Program ε σ α} {f : α → Program ε σ β} {s : σ}

/-- Started in `s` the program returns into `Q`, or throws into `E`. -/
def Ensures (m : Program ε σ α) (s : σ) (Q : α → σ → Prop) (E : σ → Prop) : Prop :=
  match m.run.run s with
  | (.ok a, s') => Q a s'
  | (.error _, s') => E s'

section Rules
variable {Q Q' : α → σ → Prop} {R : β → σ → Prop} {E E' : σ → Prop}

@[simp] theorem ensures_pure {a : α} : Ensures (pure a : Program ε σ α) s Q E ↔ Q a s := Iff.rfl

@[simp] theorem ensures_throw {e : ε} : Ensures (throw e : Program ε σ α) s Q E ↔ E s := Iff.rfl

@[simp] theorem ensures_bind :
    Ensures (m >>= f) s R E ↔ Ensures m s (fun a s' => Ensures (f a) s' R E) E := by
  unfold Ensures
  simp only [ExceptT.run_bind, StateT.run_bind]
  rcases h : m.run.run s with ⟨_ | _, _⟩ <;> rfl

@[simp] theorem ensures_map {g : α → β} :
    Ensures (g <$> m) s R E ↔ Ensures m s (fun a => R (g a)) E := by
  rw [map_eq_pure_bind, ensures_bind]
  rfl

@[simp] theorem ensures_get {Q : σ → σ → Prop} :
    Ensures (get : Program ε σ σ) s Q E ↔ Q s s := Iff.rfl

@[simp] theorem ensures_set {t : σ} {Q : PUnit → σ → Prop} :
    Ensures (set t : Program ε σ PUnit) s Q E ↔ Q ⟨⟩ t := Iff.rfl

@[simp] theorem ensures_modify {g : σ → σ} {Q : PUnit → σ → Prop} :
    Ensures (modify g : Program ε σ PUnit) s Q E ↔ Q ⟨⟩ (g s) := Iff.rfl

theorem Ensures.mono (h : Ensures m s Q E) (hQ : ∀ a t, Q a t → Q' a t)
    (hE : ∀ t, E t → E' t) : Ensures m s Q' E' := by
  unfold Ensures at h ⊢
  rcases hm : m.run.run s with ⟨_ | a, t⟩ <;> rw [hm] at h
  · exact hE _ h
  · exact hQ _ _ h

theorem Ensures.and (h : Ensures m s Q E) (h' : Ensures m s Q' E') :
    Ensures m s (fun a t => Q a t ∧ Q' a t) fun t => E t ∧ E' t := by
  unfold Ensures at h h' ⊢
  rcases hm : m.run.run s with ⟨_ | a, t⟩ <;> rw [hm] at h h' <;> exact ⟨h, h'⟩

/-- What a program that returned has ensured. -/
theorem Ensures.returned (h : Ensures m s Q E) {a : α} {t : σ} (hm : m.run.run s = (.ok a, t)) :
    Q a t := by
  unfold Ensures at h
  rw [hm] at h
  exact h

/-- What a program that threw has ensured. -/
theorem Ensures.threw (h : Ensures m s Q E) {e : ε} {t : σ} (hm : m.run.run s = (.error e, t)) :
    E t := by
  unfold Ensures at h
  rw [hm] at h
  exact h

/-- What a program ensures of its last state however it ends. -/
theorem Ensures.whatever (h : Ensures m s (fun _ => E) E) : E (m.run.run s).2 := by
  unfold Ensures at h
  rcases hm : m.run.run s with ⟨_ | _, _⟩ <;> rw [hm] at h <;> exact h

theorem Ensures.run_eq {a : α} {t : σ}
    (h : Ensures m s (fun b u => b = a ∧ u = t) fun _ => False) : m.run.run s = (.ok a, t) := by
  unfold Ensures at h
  rcases hm : m.run.run s with ⟨_ | b, u⟩ <;> rw [hm] at h
  · exact h.elim
  · rw [h.1, h.2]

theorem Ensures.always (h : ∀ a t, Q a t) : Ensures m s Q fun _ => True := by
  unfold Ensures
  rcases m.run.run s with ⟨_ | a, t⟩
  · trivial
  · exact h a t

/-- A sequence, through what its first program is known to return. -/
theorem Ensures.andThen {P : α → Prop} (h : Ensures m s (fun a _ => P a) fun _ => True)
    (hf : ∀ a t, P a → Ensures (f a) t R fun _ => True) :
    Ensures (m >>= f) s R fun _ => True :=
  ensures_bind.2 (h.mono (fun a t ha => hf a t ha) fun _ _ => trivial)

/-- A sequence ends as its last program does, wherever that starts. -/
theorem ensures_bind_of_forall (h : ∀ a t, Ensures (f a) t R fun _ => True) :
    Ensures (m >>= f) s R fun _ => True := by
  rw [ensures_bind]
  unfold Ensures
  rcases m.run.run s with ⟨_ | a, t⟩
  · trivial
  · exact h a t

theorem ensures_ite {c : Prop} [Decidable c] {n : Program ε σ α} :
    Ensures (if c then m else n) s Q E ↔
      (c → Ensures m s Q E) ∧ (¬c → Ensures n s Q E) := by
  split_ifs with h <;> simp [h]

end Rules

/-- The program keeps `I` in any case, and what it returns satisfies `P`. -/
def Yields (I : σ → Prop) (P : α → Prop) (m : Program ε σ α) : Prop :=
  ∀ s, I s → Ensures m s (fun a t => P a ∧ I t) I

section Yields
variable {I : σ → Prop} {P P' : α → Prop} {Q : β → Prop}

theorem Yields.pure {a : α} (h : P a) : Yields I P (pure a : Program ε σ α) := fun _ hs => ⟨h, hs⟩

theorem Yields.throw (e : ε) : Yields I P (throw e : Program ε σ α) := fun _ hs => hs

theorem Yields.mono (hm : Yields I P m) (h : ∀ a, P a → P' a) : Yields I P' m :=
  fun s hs => (hm s hs).mono (fun a _ ha => ⟨h a ha.1, ha.2⟩) fun _ ht => ht

theorem Yields.bind (hm : Yields I P m) (hf : ∀ a, P a → Yields I Q (f a)) :
    Yields I Q (m >>= f) := fun s hs =>
  ensures_bind.2 ((hm s hs).mono (fun a t ha => hf a ha.1 t ha.2) fun _ ht => ht)

theorem Yields.map (hm : Yields I P m) {g : α → β} (h : ∀ a, P a → Q (g a)) :
    Yields I Q (g <$> m) := fun s hs =>
  ensures_map.2 ((hm s hs).mono (fun a _ ha => ⟨h a ha.1, ha.2⟩) fun _ ht => ht)

/-- A program that starts by reading its state. -/
theorem Yields.get {f : σ → Program ε σ β}
    (hf : ∀ s, I s → Ensures (f s) s (fun b t => Q b ∧ I t) I) :
    Yields I Q (get >>= f : Program ε σ β) := fun s hs => by
  rw [ensures_bind, ensures_get]
  exact hf s hs

theorem Yields.ite {c : Prop} [Decidable c] {n : Program ε σ α} (hm : c → Yields I P m)
    (hn : ¬c → Yields I P n) : Yields I P (if c then m else n) := by
  split_ifs with h
  · exact hm h
  · exact hn h

end Yields

/-- A program on a part of a larger state. -/
def zoom (get : τ → σ) (put : τ → σ → τ) (m : Program ε σ α) : Program ε τ α :=
  ExceptT.mk fun t =>
    let (r, s) := m.run.run (get t)
    (r, put t s)

@[simp] theorem ensures_zoom {get : τ → σ} {put : τ → σ → τ} {t : τ} {Q : α → τ → Prop}
    {E : τ → Prop} : Ensures (zoom get put m) t Q E ↔
      Ensures m (get t) (fun a s => Q a (put t s)) fun s => E (put t s) := by
  have hrun : (zoom get put m).run.run t =
      ((m.run.run (get t)).1, put t (m.run.run (get t)).2) := rfl
  unfold Ensures
  rw [hrun]
  rcases m.run.run (get t) with ⟨_ | _, _⟩ <;> rfl

theorem Yields.zoom {get : τ → σ} {put : τ → σ → τ} {I : σ → Prop} {J : τ → Prop} {P : α → Prop}
    (hm : Yields I P m) (hget : ∀ t, J t → I (get t)) (hput : ∀ t s, J t → I s → J (put t s)) :
    Yields J P (zoom get put m) := fun t ht => by
  rw [ensures_zoom]
  exact (hm _ (hget t ht)).mono (fun _ s hs => ⟨hs.1, hput t s ht hs.2⟩) fun s hs => hput t s ht hs

end Program
end PerpexEngine
