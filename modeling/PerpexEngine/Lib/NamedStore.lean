import Mathlib.Data.List.Find
import Mathlib.Data.List.Induction
import Mathlib.Data.List.Pairwise
import Mathlib.Data.List.Sort

/-! A store of named entries, in which a save replaces what has the name of the new entry, and the
entry whose name is the last. -/
namespace PerpexEngine

section LastSaved
variable {ι β : Type} [DecidableEq β] {name : ι → β} {saves : List ι}

/-- The last of the saves under a name. -/
def lastSaved (name : ι → β) (saves : List ι) (key : β) : Option ι :=
  saves.reverse.find? fun c => name c = key

theorem lastSaved_snoc (saves : List ι) (c : ι) (key : β) :
    lastSaved name (saves ++ [c]) key =
      if name c = key then some c else lastSaved name saves key := by
  rw [lastSaved, List.reverse_append, List.reverse_singleton, List.singleton_append,
    List.find?_cons]
  split <;> simp_all [lastSaved]

theorem mem_of_lastSaved {key : β} {c : ι} (h : lastSaved name saves key = some c) :
    c ∈ saves ∧ name c = key :=
  ⟨List.mem_reverse.1 (List.mem_of_find?_eq_some h), by simpa using List.find?_some h⟩

theorem exists_lastSaved {c : ι} (h : c ∈ saves) : ∃ d, lastSaved name saves (name c) = some d := by
  cases hd : lastSaved name saves (name c) with
  | some d => exact ⟨d, rfl⟩
  | none =>
    have hnone := List.find?_eq_none.1 hd c (List.mem_reverse.2 h)
    exact absurd (decide_eq_true rfl) hnone

/-- Names that tell the same saves apart have the same last save. -/
theorem lastSaved_congr {γ : Type} [DecidableEq γ] {other : ι → γ} {key : β} {key' : γ}
    (h : ∀ c ∈ saves, name c = key ↔ other c = key') :
    lastSaved name saves key = lastSaved other saves key' :=
  List.find?_congr fun c hc => decide_eq_decide.2 (h c (List.mem_reverse.1 hc))

end LastSaved

section Keyed
variable {ι κ β σ : Type} [DecidableEq κ] {put : κ → β → σ → σ} {get : κ → σ → Option β}

/-- A get answers the last put under its key. -/
def GetsPuts (put : κ → β → σ → σ) (get : κ → σ → Option β) : Prop :=
  ∀ k b k' s, get k' (put k b s) = if k' = k then some b else get k' s

theorem GetsPuts.get_foldl (h : GetsPuts put get) (key : ι → κ) (body : ι → β) (saves : List ι)
    (s : σ) (k : κ) :
    get k (saves.foldl (fun s c => put (key c) (body c) s) s) =
      ((lastSaved key saves k).map body).or (get k s) := by
  induction saves using List.reverseRecOn with
  | nil => rfl
  | append_singleton saves c ih =>
    rw [List.foldl_append, List.foldl_cons, List.foldl_nil, h, ih, lastSaved_snoc]
    by_cases hkey : k = key c
    · rw [if_pos hkey, if_pos hkey.symm]
      rfl
    · rw [if_neg hkey, if_neg (Ne.symm hkey)]

end Keyed

section Overwriting
variable {ι α β : Type} [DecidableEq β] {name : α → β} {entry : ι → α} {listed : α → Prop}
  {save : List α → ι → List α} {store : List α} {saves : List ι}

/-- Among the listed entries a save touches the name of its own entry alone. -/
def Overwrites (name : α → β) (entry : ι → α) (listed : α → Prop)
    (save : List α → ι → List α) : Prop :=
  ∀ store c x, listed x → (x ∈ save store c ↔ x = entry c ∨ x ∈ store ∧ name x ≠ name (entry c))

/-- A store without listed entries holds, after the saves, the last one of each name. -/
theorem Overwrites.mem_iff (h : Overwrites name entry listed save)
    (hstore : ∀ x ∈ store, ¬listed x) {x : α} (hx : listed x) :
    x ∈ saves.foldl save store ↔
      (lastSaved (name ∘ entry) saves (name x)).map entry = some x := by
  induction saves using List.reverseRecOn with
  | nil => exact ⟨fun hmem => absurd hx (hstore x hmem), nofun⟩
  | append_singleton saves c ih =>
    rw [List.foldl_append, List.foldl_cons, List.foldl_nil, h _ _ _ hx, ih, lastSaved_snoc]
    by_cases hname : name (entry c) = name x
    · simp [hname, eq_comm]
    · simp only [Function.comp_apply, if_neg hname, ne_comm.1 hname, ne_eq, not_false_eq_true,
        and_true]
      exact or_iff_right fun heq => hname (congrArg name heq).symm

/-- Where the order of the entries is that of a rank of the saves, no listed entry is above that of
the last save with the greatest rank. -/
theorem Overwrites.greatest {γ : Type} [LinearOrder γ] {rank : ι → γ} {r : α → α → Prop}
    (h : Overwrites name entry listed save) (hstore : ∀ x ∈ store, ¬listed x)
    (hlisted : ∀ c ∈ saves, listed (entry c))
    (hname : ∀ c ∈ saves, ∀ d ∈ saves, rank c = rank d → name (entry c) = name (entry d))
    (hr : ∀ c ∈ saves, ∀ d ∈ saves, r (entry c) (entry d) → rank c ≤ rank d)
    {top : ι} (hmax : ∀ c ∈ saves, rank c ≤ rank top)
    (htop : lastSaved (name ∘ entry) saves (name (entry top)) = some top) :
    entry top ∈ saves.foldl save store ∧
      ∀ x ∈ saves.foldl save store, listed x → r (entry top) x → x = entry top := by
  have hmem := (mem_of_lastSaved htop).1
  constructor
  · rw [h.mem_iff hstore (hlisted top hmem), htop]
    rfl
  · intro x hx hxlisted hle
    rw [h.mem_iff hstore hxlisted] at hx
    obtain ⟨c, hc, rfl⟩ := Option.map_eq_some_iff.1 hx
    have hcmem := (mem_of_lastSaved hc).1
    have hrank := le_antisymm (hmax c hcmem) (hr top hmem c hcmem hle)
    rw [hname c hcmem top hmem hrank, htop] at hc
    rw [Option.some.inj hc]

end Overwriting

section Attempts
variable {ι α β : Type} {name : α → β} {entry : ι → α} {listed : α → Prop}
  {attempted acknowledged : List ι} {store store' : List α} {c : ι}

/-- Every listed entry is that of an attempt, and each acknowledged name has one. -/
structure Retains (name : α → β) (entry : ι → α) (listed : α → Prop)
    (attempted acknowledged : List ι) (store : List α) : Prop where
  whole : ∀ x ∈ store, listed x → ∃ c ∈ attempted, x = entry c
  present : ∀ c ∈ acknowledged, ∃ x ∈ store, listed x ∧ name x = name (entry c)

theorem Retains.nil (h : ∀ x ∈ store, ¬listed x) : Retains name entry listed [] [] store :=
  ⟨fun x hx hlisted => absurd hlisted (h x hx), fun _ hc => absurd hc List.not_mem_nil⟩

theorem Retains.kept (h : Retains name entry listed attempted acknowledged store)
    (hkept : ∀ x, listed x → (x ∈ store' ↔ x ∈ store)) :
    Retains name entry listed (c :: attempted) acknowledged store' where
  whole x hx hlisted := by
    obtain ⟨d, hd, heq⟩ := h.whole x ((hkept x hlisted).1 hx) hlisted
    exact ⟨d, List.mem_cons_of_mem _ hd, heq⟩
  present d hd := by
    obtain ⟨x, hx, hlisted, hname⟩ := h.present d hd
    exact ⟨x, (hkept x hlisted).2 hx, hlisted, hname⟩

theorem Retains.saved (h : Retains name entry listed attempted acknowledged store)
    (hentry : listed (entry c)) (hsaved : ∀ x, listed x →
      (x ∈ store' ↔ x = entry c ∨ x ∈ store ∧ name x ≠ name (entry c))) :
    Retains name entry listed (c :: attempted) (c :: acknowledged) store' where
  whole x hx hlisted := by
    rcases (hsaved x hlisted).1 hx with rfl | ⟨hx, -⟩
    · exact ⟨c, List.mem_cons_self, rfl⟩
    · obtain ⟨d, hd, heq⟩ := h.whole x hx hlisted
      exact ⟨d, List.mem_cons_of_mem _ hd, heq⟩
  present d hd := by
    have hnew : entry c ∈ store' := (hsaved _ hentry).2 (.inl rfl)
    rcases List.mem_cons.1 hd with rfl | hd
    · exact ⟨entry d, hnew, hentry, rfl⟩
    · obtain ⟨x, hx, hlisted, hname⟩ := h.present d hd
      by_cases hsame : name x = name (entry c)
      · exact ⟨entry c, hnew, hentry, hsame.symm.trans hname⟩
      · exact ⟨x, (hsaved x hlisted).2 (.inr ⟨hx, hsame⟩), hlisted, hname⟩

/-- A loss does no harm where the name was not acknowledged. -/
theorem Retains.lost (h : Retains name entry listed attempted acknowledged store)
    (hfresh : ∀ d ∈ acknowledged, name (entry d) ≠ name (entry c))
    (hlost : ∀ x, listed x → (x ∈ store' ↔ x ∈ store ∧ name x ≠ name (entry c))) :
    Retains name entry listed (c :: attempted) acknowledged store' where
  whole x hx hlisted := by
    obtain ⟨d, hd, heq⟩ := h.whole x ((hlost x hlisted).1 hx).1 hlisted
    exact ⟨d, List.mem_cons_of_mem _ hd, heq⟩
  present d hd := by
    obtain ⟨x, hx, hlisted, hname⟩ := h.present d hd
    refine ⟨x, (hlost x hlisted).2 ⟨hx, ?_⟩, hlisted, hname⟩
    rw [hname]
    exact hfresh d hd

end Attempts

section Sorted
variable {α : Type} {r : α → α → Prop} [DecidableRel r] [Std.Total r] [IsTrans α r]

/-- The last one of a sorted list is the one that no other one is above. -/
theorem getLast?_insertionSort {xs : List α} {m : α} (hm : m ∈ xs)
    (hmax : ∀ x ∈ xs, r m x → x = m) : (xs.insertionSort r).getLast? = some m := by
  have hsorted := List.pairwise_insertionSort r xs
  have hmem : m ∈ xs.insertionSort r := (List.mem_insertionSort r).2 hm
  have hne : xs.insertionSort r ≠ [] := List.ne_nil_of_mem hmem
  have hlast : r m ((xs.insertionSort r).getLast hne) := hsorted.rel_getLast hmem
  rw [List.getLast?_eq_some_getLast hne,
    hmax _ ((List.mem_insertionSort r).1 (List.getLast_mem hne)) hlast]

/-- The last one of a sorted list is above all of them. -/
theorem rel_of_getLast?_insertionSort {xs : List α} {m : α}
    (h : (xs.insertionSort r).getLast? = some m) : m ∈ xs ∧ ∀ x ∈ xs, r x m := by
  have hne : xs.insertionSort r ≠ [] := by
    intro hnil
    rw [hnil] at h
    cases h
  rw [List.getLast?_eq_some_getLast hne, Option.some.injEq] at h
  rw [← h]
  refine ⟨(List.mem_insertionSort r).1 (List.getLast_mem hne), fun x hx => ?_⟩
  exact (List.pairwise_insertionSort r xs).rel_getLast ((List.mem_insertionSort r).2 hx)

end Sorted
end PerpexEngine
