import PerpexEngine.Lib.Program

/-! Texts as lines, and programs that read them line after line. -/
namespace PerpexEngine

section Lines
variable {α : Type} [DecidableEq α] {newline : α} {line : List α} {lines : List (List α)}

/-- The lines of a text; the last one may lack its newline. -/
def linesOf (newline : α) : List α → List (List α)
  | [] => []
  | b :: rest =>
    if b = newline then [] :: linesOf newline rest
    else
      match linesOf newline rest with
      | [] => [[b]]
      | line :: lines => (b :: line) :: lines

/-- The text of the lines, each with its newline. -/
def joinLines (newline : α) (lines : List (List α)) : List α :=
  lines.flatMap fun line => line ++ [newline]

theorem linesOf_append_newline (h : newline ∉ line) (rest : List α) :
    linesOf newline (line ++ newline :: rest) = line :: linesOf newline rest := by
  induction line with
  | nil => simp [linesOf]
  | cons b line ih =>
    rw [List.mem_cons, not_or] at h
    rw [List.cons_append, linesOf, if_neg (Ne.symm h.1), ih h.2]

theorem linesOf_unended (h : newline ∉ line) (hne : line ≠ []) : linesOf newline line = [line] := by
  induction line with
  | nil => exact absurd rfl hne
  | cons b line ih =>
    rw [List.mem_cons, not_or] at h
    rw [linesOf, if_neg (Ne.symm h.1)]
    cases line with
    | nil => rfl
    | cons c line => rw [ih h.2 (List.cons_ne_nil c line)]

theorem linesOf_joinLines (h : ∀ line ∈ lines, newline ∉ line) :
    linesOf newline (joinLines newline lines) = lines := by
  induction lines with
  | nil => rfl
  | cons line lines ih =>
    rw [joinLines, List.flatMap_cons, List.append_assoc, List.singleton_append,
      linesOf_append_newline (h line List.mem_cons_self)]
    exact congrArg _ (ih fun l hl => h l (List.mem_cons_of_mem _ hl))

/-- A text cut off has some of the lines, and then perhaps a part of the next one. -/
theorem linesOf_cut (h : ∀ line ∈ lines, newline ∉ line) {p : List α}
    (hp : p <+: joinLines newline lines) : ∃ whole cut, linesOf newline p = whole ++ cut ∧
      ((cut = [] ∧ whole <+: lines) ∨
        ∃ q line rest, cut = [q] ∧ lines = whole ++ line :: rest ∧ q <+: line) := by
  induction lines generalizing p with
  | nil =>
    obtain rfl := List.prefix_nil.1 hp
    exact ⟨[], [], rfl, Or.inl ⟨rfl, List.nil_prefix⟩⟩
  | cons line lines ih =>
    rw [joinLines, List.flatMap_cons, List.append_assoc, List.singleton_append] at hp
    have hpart (hq : p <+: line) : ∃ whole cut, linesOf newline p = whole ++ cut ∧
        ((cut = [] ∧ whole <+: line :: lines) ∨ ∃ q line' rest, cut = [q] ∧
          line :: lines = whole ++ line' :: rest ∧ q <+: line') := by
      by_cases hempty : p = []
      · rw [hempty]
        exact ⟨[], [], rfl, Or.inl ⟨rfl, List.nil_prefix⟩⟩
      · have hend : newline ∉ p := fun hmem => h line List.mem_cons_self (hq.subset hmem)
        exact ⟨[], [p], linesOf_unended hend hempty, Or.inr ⟨p, line, lines, rfl, rfl, hq⟩⟩
    obtain ⟨t, ht⟩ := hp
    rcases List.append_eq_append_iff.1 ht with ⟨rest, hline, -⟩ | ⟨after, hp, hafter⟩
    · exact hpart ⟨rest, hline.symm⟩
    cases after with
    | nil =>
      rw [List.append_nil] at hp
      exact hpart (hp ▸ List.prefix_rfl)
    | cons b after =>
      obtain ⟨rfl, hlines⟩ := List.cons.inj hafter
      obtain ⟨whole, cut, hwhole, hcut⟩ :=
        ih (fun l hl => h l (List.mem_cons_of_mem _ hl)) ⟨t, hlines.symm⟩
      refine ⟨line :: whole, cut, ?_, ?_⟩
      · rw [hp, linesOf_append_newline (h line List.mem_cons_self), hwhole, List.cons_append]
      · rcases hcut with ⟨hnil, hprefix⟩ | ⟨q, line', rest, hq, hlines, hprefix⟩
        · exact Or.inl ⟨hnil, List.cons_prefix_cons.2 ⟨rfl, hprefix⟩⟩
        · exact Or.inr ⟨q, line', rest, hq, by rw [hlines, List.cons_append], hprefix⟩

end Lines

namespace Program
variable {ε L α β : Type} {m : Program ε (List L) α} {f : α → Program ε (List L) β}

/-- The program reads exactly these lines, whatever follows them, and returns this. -/
def Takes (m : Program ε (List L) α) (lines : List L) (a : α) : Prop :=
  ∀ rest, m.run.run (lines ++ rest) = (.ok a, rest)

/-- Where the program returns, it has read some lines and looked at no other. -/
def Consumes (m : Program ε (List L) α) : Prop :=
  ∀ lines a rest, m.run.run lines = (.ok a, rest) → ∃ used, lines = used ++ rest ∧ m.Takes used a

/-- Where the program returns, the last line it has read is one of these. -/
def EndsOn (m : Program ε (List L) α) (P : L → Prop) : Prop :=
  ∀ lines a rest, m.run.run lines = (.ok a, rest) →
    ∃ used last, lines = used ++ last :: rest ∧ P last ∧ m.Takes (used ++ [last]) a

section Takes
variable {xs ys : List L} {a : α} {b : β}

theorem Takes.pure (a : α) : Takes (pure a : Program ε (List L) α) [] a := fun _ => rfl

theorem Takes.bind (hm : m.Takes xs a) (hf : (f a).Takes ys b) : (m >>= f).Takes (xs ++ ys) b := by
  intro rest
  rw [ExceptT.run_bind, StateT.run_bind, List.append_assoc, hm]
  exact hf rest

/-- One of the two programs reads nothing. -/
theorem Takes.andThen (hm : m.Takes [] a) (hf : (f a).Takes xs b) : (m >>= f).Takes xs b :=
  hm.bind hf

theorem Takes.thenDone (hm : m.Takes xs a) (hf : (f a).Takes [] b) : (m >>= f).Takes xs b := by
  have hall := hm.bind hf
  rw [List.append_nil] at hall
  exact hall

theorem Takes.map (hm : m.Takes xs a) (g : α → β) : (g <$> m).Takes xs (g a) := by
  intro rest
  rw [ExceptT.run_map, StateT.run_map, hm]
  rfl

end Takes

section Consumes

theorem Consumes.pure (a : α) : Consumes (pure a : Program ε (List L) α) := by
  rintro lines _ _ h
  obtain ⟨h, rfl⟩ := Prod.mk.inj h
  cases h
  exact ⟨[], rfl, Takes.pure a⟩

theorem Consumes.throw (e : ε) : Consumes (throw e : Program ε (List L) α) :=
  fun _ _ _ h => nomatch (Prod.mk.inj h).1

theorem run_bind_eq_ok {lines rest : List L} {b : β} (h : (m >>= f).run.run lines = (.ok b, rest)) :
    ∃ a between, m.run.run lines = (.ok a, between) ∧
      (f a).run.run between = (.ok b, rest) := by
  rw [ExceptT.run_bind, StateT.run_bind] at h
  rcases hm : m.run.run lines with ⟨_ | a, between⟩ <;> rw [hm] at h
  · exact nomatch (Prod.mk.inj h).1
  · exact ⟨a, between, rfl, h⟩

theorem Consumes.bind (hm : m.Consumes) (hf : ∀ a, (f a).Consumes) : (m >>= f).Consumes := by
  intro lines b rest h
  obtain ⟨a, between, hrun, hrest⟩ := run_bind_eq_ok h
  obtain ⟨used, rfl, htakes⟩ := hm lines a between hrun
  obtain ⟨used', rfl, htakes'⟩ := hf a between b rest hrest
  exact ⟨used ++ used', (List.append_assoc _ _ _).symm, htakes.bind htakes'⟩

theorem Consumes.ite {c : Prop} [Decidable c] {n : Program ε (List L) α} (hm : m.Consumes)
    (hn : n.Consumes) : Consumes (if c then m else n) := by
  split_ifs
  · exact hm
  · exact hn

theorem EndsOn.bind {P : L → Prop} (hm : m.Consumes) (hf : ∀ a, (f a).EndsOn P) :
    (m >>= f).EndsOn P := by
  intro lines b rest h
  obtain ⟨a, between, hrun, hrest⟩ := run_bind_eq_ok h
  obtain ⟨used, rfl, htakes⟩ := hm lines a between hrun
  obtain ⟨used', last, rfl, hlast, htakes'⟩ := hf a between b rest hrest
  refine ⟨used ++ used', last, (List.append_assoc _ _ _).symm, hlast, ?_⟩
  rw [List.append_assoc]
  exact htakes.bind htakes'

end Consumes

end Program
end PerpexEngine
