import Mathlib.Data.List.Sort
import Mathlib.Tactic.ByContra

/-! Lists in strictly increasing order of a rank: they are determined by their members. -/
namespace PerpexEngine
variable {α β : Type*} [LinearOrder β] {rank : α → β} {xs ys : List α}

def Ranked (rank : α → β) (xs : List α) : Prop := xs.Pairwise fun x y => rank x < rank y

namespace Ranked

theorem nil (rank : α → β) : Ranked rank [] := List.Pairwise.nil

theorem tail {x : α} (h : Ranked rank (x :: xs)) : Ranked rank xs := (List.pairwise_cons.1 h).2

theorem head_lt {x y : α} (h : Ranked rank (x :: xs)) (hy : y ∈ xs) : rank x < rank y :=
  (List.pairwise_cons.1 h).1 y hy

theorem eq_of_rank (h : Ranked rank xs) {x y : α} (hx : x ∈ xs) (hy : y ∈ xs)
    (hxy : rank x = rank y) : x = y := by
  induction xs with
  | nil => cases hx
  | cons z zs ih =>
    rcases List.mem_cons.1 hx with rfl | hx' <;> rcases List.mem_cons.1 hy with rfl | hy'
    · rfl
    · exact absurd hxy (h.head_lt hy').ne
    · exact absurd hxy (h.head_lt hx').ne'
    · exact ih h.tail hx' hy'

theorem head_le {x y : α} (h : Ranked rank xs) (hx : xs.head? = some x) (hy : y ∈ xs) :
    rank x ≤ rank y := by
  cases xs with
  | nil => cases hx
  | cons z zs =>
    cases hx
    rcases List.mem_cons.1 hy with rfl | hy
    · exact le_rfl
    · exact (h.head_lt hy).le

theorem nodup (h : Ranked rank xs) : xs.Nodup := List.Pairwise.imp (fun hab heq => by
  rw [heq] at hab
  exact lt_irrefl _ hab) h

/-- Two ranked lists with the same members are the same list. -/
theorem ext (hx : Ranked rank xs) (hy : Ranked rank ys) (h : ∀ a, a ∈ xs ↔ a ∈ ys) : xs = ys := by
  apply ((List.perm_ext_iff_of_nodup hx.nodup hy.nodup).2 h).eq_of_pairwise _ hx hy
  intro a b _ _ hab hba
  exact absurd hba hab.not_gt

/-- A rank that no member has splits the list. -/
theorem split (h : Ranked rank xs) (r : β) (hr : ∀ x ∈ xs, rank x ≠ r) :
    ∃ before after, xs = before ++ after ∧ (∀ x ∈ before, rank x < r) ∧
      ∀ x ∈ after, r < rank x := by
  induction xs with
  | nil => exact ⟨[], [], rfl, by simp, by simp⟩
  | cons z zs ih =>
    rcases lt_or_gt_of_ne (hr z List.mem_cons_self) with hlt | hgt
    · obtain ⟨before, after, rfl, hb, ha⟩ := ih h.tail fun x hx => hr x (List.mem_cons_of_mem _ hx)
      refine ⟨z :: before, after, rfl, fun x hx => ?_, ha⟩
      rcases List.mem_cons.1 hx with rfl | hx
      · exact hlt
      · exact hb x hx
    · refine ⟨[], z :: zs, rfl, by simp, fun x hx => ?_⟩
      rcases List.mem_cons.1 hx with rfl | hx
      · exact hgt
      · exact hgt.trans (h.head_lt hx)

theorem middle {before after : List α} {x : α} :
    Ranked rank (before ++ x :: after) ↔ Ranked rank (before ++ after) ∧
      (∀ y ∈ before, rank y < rank x) ∧ ∀ y ∈ after, rank x < rank y := by
  rw [Ranked, Ranked, List.pairwise_append, List.pairwise_append, List.pairwise_cons]
  constructor
  · rintro ⟨hb, ⟨hx, ha⟩, hba⟩
    exact ⟨⟨hb, ha, fun y hy z hz => hba y hy z (List.mem_cons_of_mem _ hz)⟩,
      fun y hy => hba y hy x List.mem_cons_self, hx⟩
  · rintro ⟨⟨hb, ha, hba⟩, hbx, hxa⟩
    refine ⟨hb, ⟨hxa, ha⟩, fun y hy z hz => ?_⟩
    rcases List.mem_cons.1 hz with rfl | hz
    · exact hbx y hy
    · exact hba y hy z hz

/-- Sorting by rank ranks a list without ties. -/
theorem insertionSort (h : xs.Pairwise fun x y => rank x ≠ rank y) :
    Ranked rank (xs.insertionSort fun x y => rank x ≤ rank y) := by
  have hle := List.pairwise_insertionSort (fun x y : α => rank x ≤ rank y) xs
  have hne : (xs.insertionSort fun x y => rank x ≤ rank y).Pairwise fun x y => rank x ≠ rank y :=
    ((List.perm_insertionSort _ xs).pairwise_iff fun hxy => hxy.symm).2 h
  exact List.Pairwise.imp₂ (fun _ _ hxy hxy' => lt_of_le_of_ne hxy hxy') hle hne

theorem orderedInsert {r : α → α → Prop} [DecidableRel r] (hr : ∀ a b, r a b ↔ rank a < rank b)
    {x : α} (h : Ranked rank xs) (hx : ∀ y ∈ xs, rank x ≠ rank y) :
    Ranked rank (xs.orderedInsert r x) := by
  induction xs with
  | nil => exact List.pairwise_singleton _ _
  | cons z zs ih =>
    rw [List.orderedInsert_cons]
    split_ifs with hxz
    · have hlt := (hr x z).1 hxz
      refine List.pairwise_cons.2 ⟨fun y hy => ?_, h⟩
      rcases List.mem_cons.1 hy with rfl | hy
      · exact hlt
      · exact hlt.trans (h.head_lt hy)
    · have hzx : rank z < rank x := lt_of_le_of_ne (not_lt.1 (mt (hr x z).2 hxz))
        (hx z List.mem_cons_self).symm
      refine List.pairwise_cons.2 ⟨fun y hy => ?_, ih h.tail fun y hy =>
        hx y (List.mem_cons_of_mem _ hy)⟩
      rcases (List.mem_orderedInsert r).1 hy with rfl | hy
      · exact hzx
      · exact h.head_lt hy

/-- So does sorting by the strict order of the rank. -/
theorem insertionSort_lt {r : α → α → Prop} [DecidableRel r]
    (hr : ∀ a b, r a b ↔ rank a < rank b) (h : xs.Pairwise fun x y => rank x ≠ rank y) :
    Ranked rank (xs.insertionSort r) := by
  induction xs with
  | nil => exact Ranked.nil rank
  | cons x xs ih =>
    obtain ⟨hx, hxs⟩ := List.pairwise_cons.1 h
    rw [List.insertionSort_cons]
    exact orderedInsert hr (ih hxs) fun y hy => hx y ((List.mem_insertionSort r).1 hy)

end Ranked
end PerpexEngine
