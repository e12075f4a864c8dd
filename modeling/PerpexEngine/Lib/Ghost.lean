import PerpexEngine.Lib.Program

/-! Programs with a ghost part in their state: what they note there leaves no trace. -/
namespace PerpexEngine.Program
variable {ε σ τ α β : Type} {view : τ → σ} {m : Program ε σ α} {n : Program ε τ α}

/-- On the part of its state that counts, `n` does what `m` does. -/
def Erases (view : τ → σ) (n : Program ε τ α) (m : Program ε σ α) : Prop :=
  ∀ t, ((n.run.run t).1, view (n.run.run t).2) = m.run.run (view t)

namespace Erases

theorem pure (a : α) : Erases view (Pure.pure a : Program ε τ α) (Pure.pure a) := fun _ => rfl

theorem zoom {put : τ → σ → τ} (hput : ∀ t s, view (put t s) = s) :
    Erases view (Program.zoom view put m) m := by
  intro t
  unfold Program.zoom
  simp only [ExceptT.run_mk]
  change (((m.run.run (view t)).1, view (put t (m.run.run (view t)).2)) :
    Except ε α × σ) = m.run.run (view t)
  rw [hput]
  rfl

theorem bind {f : α → Program ε σ β} {g : α → Program ε τ β} (h : Erases view n m)
    (hf : ∀ a, Erases view (g a) (f a)) : Erases view (n >>= g) (m >>= f) := by
  intro t
  have ht := h t
  simp only [ExceptT.run_bind, StateT.run_bind]
  rw [← ht]
  rcases n.run.run t with ⟨_ | a, t'⟩
  · rfl
  · exact hf a t'

/-- A note in the ghost part. -/
theorem note {f : τ → τ} (hf : ∀ t, view (f t) = view t) (h : Erases view n m) :
    Erases view (modify f >>= fun _ => n) m := by
  intro t
  rw [← hf t]
  exact h (f t)

theorem ite {c : Prop} [Decidable c] {m' : Program ε σ α} {n' : Program ε τ α}
    (h : Erases view n m) (h' : Erases view n' m') :
    Erases view (if c then n else n') (if c then m else m') := by
  split_ifs
  · exact h
  · exact h'

end Erases
end PerpexEngine.Program
