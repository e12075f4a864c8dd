import Std.Data.ExtTreeMap
import Std.Data.ExtTreeSet
import Mathlib.Data.List.Nodup

/-! Ordered tables and sets that are put together from the list of their entries. -/
namespace PerpexEngine

variable {κ α : Type} [Ord κ] [Std.TransOrd κ] [Std.LawfulEqOrd κ]

section Maps
variable {entries rest : List (κ × α)} {entry : κ × α}

omit [Std.LawfulEqOrd κ] in
theorem mapOfList_snoc (entries : List (κ × α)) (entry : κ × α) :
    Std.ExtTreeMap.ofList (entries ++ [entry]) =
      (Std.ExtTreeMap.ofList entries).insert entry.1 entry.2 := by
  rw [Std.ExtTreeMap.ofList_eq_foldl, Std.ExtTreeMap.ofList_eq_foldl, List.foldl_append]
  rfl

theorem nodup_keys (t : Std.ExtTreeMap κ α) : (t.toList.map (·.1)).Nodup :=
  List.pairwise_map.2 (Std.ExtTreeMap.distinct_keys_toList.imp fun hne heq =>
    hne (by rw [heq]; exact Std.ReflCmp.compare_self))

/-- A key that comes once is new where it comes. -/
theorem contains_mapOfList (h : ((entries ++ entry :: rest).map (·.1)).Nodup) :
    (Std.ExtTreeMap.ofList entries).contains entry.1 = false := by
  classical
  rw [List.map_append, List.map_cons, List.nodup_append] at h
  rw [Std.ExtTreeMap.contains_ofList, ← Bool.not_eq_true, List.contains_iff_mem]
  exact fun hmem => h.2.2 entry.1 hmem entry.1 List.mem_cons_self rfl

/-- Entries whose keys differ are what the table holds. -/
theorem getElem?_mapOfList (h : (entries.map (·.1)).Nodup) {k : κ} {v : α} :
    (Std.ExtTreeMap.ofList entries)[k]? = some v ↔ (k, v) ∈ entries := by
  classical
  have hdistinct : entries.Pairwise fun a b => ¬compare a.1 b.1 = .eq :=
    (List.pairwise_map.1 h).imp fun hne heq => hne (Std.LawfulEqCmp.compare_eq_iff_eq.1 heq)
  have hmem : ∀ {v : α}, (k, v) ∈ entries → (Std.ExtTreeMap.ofList entries)[k]? = some v :=
    Std.ExtTreeMap.getElem?_ofList_of_mem Std.ReflCmp.compare_self hdistinct
  refine ⟨fun hv => ?_, hmem⟩
  by_cases hk : (entries.map Prod.fst).contains k
  · obtain ⟨⟨k', v'⟩, hmem', rfl⟩ := List.mem_map.1 (List.contains_iff_mem.1 hk)
    rw [hmem hmem', Option.some_inj] at hv
    rwa [← hv]
  · rw [Std.ExtTreeMap.getElem?_ofList_of_contains_eq_false (Bool.not_eq_true _ ▸ hk)] at hv
    exact nomatch hv

theorem mapOfList_toList (t : Std.ExtTreeMap κ α) : Std.ExtTreeMap.ofList t.toList = t := by
  apply Std.ExtTreeMap.ext_getElem?
  intro k
  apply Option.ext
  intro v
  rw [getElem?_mapOfList (nodup_keys t), Std.ExtTreeMap.mem_toList_iff_getElem?_eq_some]

/-- Every entry is filed under the key that it names itself. -/
def FiledBy (key : α → κ) (t : Std.ExtTreeMap κ α) : Prop :=
  ∀ (k : κ) (v : α), t[k]? = some v → key v = k

namespace FiledBy
variable {key : α → κ} {t : Std.ExtTreeMap κ α}

omit [Std.LawfulEqOrd κ] in
theorem empty : FiledBy key (∅ : Std.ExtTreeMap κ α) := by
  intro k v h
  simp at h

theorem insert (h : FiledBy key t) (v : α) : FiledBy key (t.insert (key v) v) := by
  intro k v' hv
  rw [Std.ExtTreeMap.getElem?_insert] at hv
  split_ifs at hv with hk
  · cases hv
    exact Std.LawfulEqCmp.compare_eq_iff_eq.1 hk
  · exact h k v' hv

theorem of_mem (h : FiledBy key t) : ∀ entry ∈ t.toList, key entry.2 = entry.1 :=
  fun entry he => h entry.1 entry.2 (Std.ExtTreeMap.mem_toList_iff_getElem?_eq_some.1 he)

end FiledBy
end Maps

section Sets
variable {keys rest : List κ} {key : κ}

omit [Std.LawfulEqOrd κ] in
theorem setOfList_snoc (keys : List κ) (key : κ) :
    Std.ExtTreeSet.ofList (keys ++ [key]) = (Std.ExtTreeSet.ofList keys).insert key := by
  rw [Std.ExtTreeSet.ofList_eq_foldl, Std.ExtTreeSet.ofList_eq_foldl, List.foldl_append]
  rfl

theorem nodup_toList (s : Std.ExtTreeSet κ) : s.toList.Nodup :=
  Std.ExtTreeSet.distinct_toList.imp fun hne heq =>
    hne (by rw [heq]; exact Std.ReflCmp.compare_self)

theorem contains_setOfList (h : (keys ++ key :: rest).Nodup) :
    (Std.ExtTreeSet.ofList keys).contains key = false := by
  classical
  rw [List.nodup_append] at h
  rw [Std.ExtTreeSet.contains_ofList, ← Bool.not_eq_true, List.contains_iff_mem]
  exact fun hmem => h.2.2 key hmem key List.mem_cons_self rfl

theorem setOfList_toList (s : Std.ExtTreeSet κ) : Std.ExtTreeSet.ofList s.toList = s := by
  classical
  apply Std.ExtTreeSet.ext_mem
  intro k
  rw [Std.ExtTreeSet.mem_ofList, List.contains_iff_mem, Std.ExtTreeSet.mem_toList]

theorem nodup_eraseDups {α : Type} [DecidableEq α] (values : List α) :
    values.eraseDups.Nodup := by
  induction hn : values.length using Nat.strongRecOn generalizing values with
  | ind n ih =>
    cases values with
    | nil => simp
    | cons a values =>
      have hless : (values.filter fun b => !b == a).length < n := by
        have hfilter := List.length_filter_le (fun b => !b == a) values
        rw [List.length_cons] at hn
        omega
      rw [List.eraseDups_cons, List.nodup_cons, List.mem_eraseDups]
      exact ⟨by simp, ih _ hless _ rfl⟩

end Sets
end PerpexEngine
