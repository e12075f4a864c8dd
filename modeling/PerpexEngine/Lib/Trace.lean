import PerpexEngine.Lib.Program

/-! Programs whose outcome carries a list of what they emitted, and relations between a state, what
is emitted from it and the state after. -/
namespace PerpexEngine.Program
variable {ε σ τ α β V E : Type} {R S : V → List E → V → Prop} {view : σ → V} {out : α → List E}
  {m : Program ε σ α} {f : α → Program ε σ β} {s : σ}

/-- A relation that holds of emitting nothing and follows one emission after the other. -/
structure TraceRule (R : V → List E → V → Prop) : Prop where
  nothing : ∀ v, R v [] v
  append : ∀ {u v w xs ys}, R u xs v → R v ys w → R u (xs ++ ys) w

/-- Every outcome from a state is related; what a throwing program had emitted is lost. -/
def EmitsFrom (view : σ → V) (out : α → List E) (R : V → List E → V → Prop) (m : Program ε σ α)
    (s : σ) : Prop :=
  Ensures m s (fun a t => R (view s) (out a) (view t)) fun t => ∃ xs, R (view s) xs (view t)

def Emits (view : σ → V) (out : α → List E) (R : V → List E → V → Prop) (m : Program ε σ α) :
    Prop := ∀ s, EmitsFrom view out R m s

section Sequence
variable {Q : β → σ → Prop}

/-- The first program of a sequence. -/
theorem EmitsFrom.first (hm : EmitsFrom view out R m s)
    (hf : ∀ a t, R (view s) (out a) (view t) →
      Ensures (f a) t Q fun u => ∃ xs, R (view s) xs (view u)) :
    Ensures (m >>= f) s Q fun u => ∃ xs, R (view s) xs (view u) :=
  ensures_bind.2 (hm.mono hf fun _ h => h)

/-- A later program of a sequence, after what was emitted before. -/
theorem TraceRule.next (rule : TraceRule R) {v : V} {before : List E}
    (hs : R v before (view s)) (hm : EmitsFrom view out R m s)
    (hf : ∀ a t, R v (before ++ out a) (view t) →
      Ensures (f a) t Q fun u => ∃ xs, R v xs (view u)) :
    Ensures (m >>= f) s Q fun u => ∃ xs, R v xs (view u) := by
  apply ensures_bind.2
  apply hm.mono
  · exact fun a t h => hf a t (rule.append hs h)
  · exact fun _ ⟨xs, h⟩ => ⟨before ++ xs, rule.append hs h⟩

end Sequence

theorem TraceRule.pure (rule : TraceRule R) {a : α} (h : out a = []) :
    Emits view out R (Pure.pure a : Program ε σ α) := by
  intro s
  unfold EmitsFrom
  rw [ensures_pure, h]
  exact rule.nothing _

theorem TraceRule.throw (rule : TraceRule R) (e : ε) :
    Emits view out R (MonadExcept.throw e : Program ε σ α) :=
  fun s => ⟨[], rule.nothing (view s)⟩

theorem EmitsFrom.map {g : α → β} {out' : β → List E} (hm : EmitsFrom view out R m s)
    (h : ∀ a, out' (g a) = out a) : EmitsFrom view out' R (g <$> m) s := by
  unfold EmitsFrom
  rw [ensures_map]
  simp only [h]
  exact hm

theorem EmitsFrom.ite {c : Prop} [Decidable c] {n : Program ε σ α}
    (hm : EmitsFrom view out R m s) (hn : EmitsFrom view out R n s) :
    EmitsFrom view out R (if c then m else n) s := by
  split_ifs
  · exact hm
  · exact hn

theorem EmitsFrom.zoom {get : τ → σ} {put : τ → σ → τ} {view' : τ → V} {t : τ}
    (hm : EmitsFrom view out R m (get t)) (hget : view (get t) = view' t)
    (hput : ∀ s, view' (put t s) = view s) :
    EmitsFrom view' out R (Program.zoom get put m) t := by
  unfold EmitsFrom
  rw [ensures_zoom, ← hget]
  simp only [hput]
  exact hm

end PerpexEngine.Program
