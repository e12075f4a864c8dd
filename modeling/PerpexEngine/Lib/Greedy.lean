import Mathlib.Algebra.Order.BigOperators.Group.List
import Mathlib.Algebra.Order.Group.Int
import Mathlib.Algebra.Ring.Int.Defs
import PerpexEngine.Lib.Ranked

/-! Serving the members of a list one after the other, each as much as is left and as it can take. -/
namespace PerpexEngine
variable {α : Type} {capacity : α → ℤ} {left : ℤ} {xs : List α} {served : α × ℤ}

def greedy (capacity : α → ℤ) : ℤ → List α → List (α × ℤ)
  | _, [] => []
  | left, x :: xs =>
    if left ≤ 0 then []
    else (x, min left (capacity x)) :: greedy capacity (left - min left (capacity x)) xs

theorem greedy_of_nonpos (h : left ≤ 0) (xs : List α) : greedy capacity left xs = [] := by
  cases xs with
  | nil => rfl
  | cons x xs => exact if_pos h

theorem greedy_cons (h : 0 < left) (x : α) (xs : List α) : greedy capacity left (x :: xs) =
    (x, min left (capacity x)) :: greedy capacity (left - min left (capacity x)) xs :=
  if_neg (not_le.2 h)

/-- The first members are served. -/
theorem greedy_starts (left : ℤ) (xs : List α) : (greedy capacity left xs).map (·.1) <+: xs := by
  induction xs generalizing left with
  | nil => exact List.prefix_rfl
  | cons x xs ih =>
    unfold greedy
    split_ifs
    · exact List.nil_prefix
    · exact List.prefix_cons_inj x |>.2 (ih _)

theorem mem_of_mem_greedy (h : served ∈ greedy capacity left xs) : served.1 ∈ xs :=
  (greedy_starts left xs).subset (List.mem_map_of_mem h)

/-- Nobody is served nothing, or more than they can take. -/
theorem greedy_amount (hcapacity : ∀ x ∈ xs, 0 < capacity x)
    (h : served ∈ greedy capacity left xs) : 0 < served.2 ∧ served.2 ≤ capacity served.1 := by
  induction xs generalizing left with
  | nil => cases h
  | cons x xs ih =>
    unfold greedy at h
    split_ifs at h with hleft
    · cases h
    · rcases List.mem_cons.1 h with rfl | h
      · exact ⟨lt_min (not_le.1 hleft) (hcapacity x List.mem_cons_self), min_le_right _ _⟩
      · exact ih (fun y hy => hcapacity y (List.mem_cons_of_mem _ hy)) h

/-- All but the last are served what they can take. -/
theorem greedy_full (h : served ∈ (greedy capacity left xs).dropLast) :
    served.2 = capacity served.1 := by
  induction xs generalizing left with
  | nil => cases h
  | cons x xs ih =>
    unfold greedy at h
    split_ifs at h with hleft
    · cases h
    · by_cases hfits : left ≤ capacity x
      · rw [min_eq_left hfits, sub_self, greedy_of_nonpos le_rfl] at h
        cases h
      · rw [min_eq_right (not_le.1 hfits).le] at h
        cases hrest : greedy capacity (left - capacity x) xs with
        | nil =>
          rw [hrest] at h
          cases h
        | cons y ys =>
          rw [hrest, List.dropLast_cons_cons, ← hrest] at h
          rcases List.mem_cons.1 h with rfl | h
          · rfl
          · exact ih h

/-- What is there is given out, as far as it can be taken. -/
theorem greedy_total (hcapacity : ∀ x ∈ xs, 0 < capacity x) (hleft : 0 ≤ left) :
    ((greedy capacity left xs).map (·.2)).sum = min left (xs.map capacity).sum := by
  induction xs generalizing left with
  | nil => exact (min_eq_right hleft).symm
  | cons x xs ih =>
    have hx := hcapacity x List.mem_cons_self
    have hxs : ∀ y ∈ xs, 0 < capacity y := fun y hy => hcapacity y (List.mem_cons_of_mem _ hy)
    have hsum : 0 ≤ (xs.map capacity).sum := by
      apply List.sum_nonneg
      intro c hc
      obtain ⟨y, hy, rfl⟩ := List.mem_map.1 hc
      exact (hxs y hy).le
    rw [List.map_cons, List.sum_cons]
    by_cases hpositive : 0 < left
    · have hrest := ih hxs (Int.sub_nonneg_of_le (min_le_left left (capacity x)))
      rw [greedy_cons hpositive, List.map_cons, List.sum_cons, hrest]
      omega
    · rw [greedy_of_nonpos (not_lt.1 hpositive)]
      simp only [List.map_nil, List.sum_nil]
      omega

section Ranks
variable {β : Type} [LinearOrder β] {rank : α → β}

theorem ranked_greedy (h : Ranked rank xs) (left : ℤ) :
    Ranked rank ((greedy capacity left xs).map (·.1)) :=
  List.Pairwise.sublist (greedy_starts left xs).sublist h

/-- A member in front of one that is served can take no more. -/
theorem greedy_first (h : Ranked rank xs) {x : α} (hx : x ∈ xs)
    (hserved : served ∈ greedy capacity left xs) (hlt : rank x < rank served.1) :
    (x, capacity x) ∈ greedy capacity left xs := by
  induction xs generalizing left with
  | nil => cases hx
  | cons y ys ih =>
    unfold greedy at hserved ⊢
    split_ifs at hserved ⊢ with hleft
    · cases hserved
    · rcases List.mem_cons.1 hserved with rfl | hserved
      · rcases List.mem_cons.1 hx with rfl | hx
        · exact absurd hlt (lt_irrefl _)
        · exact absurd hlt (h.head_lt hx).not_gt
      · rcases List.mem_cons.1 hx with rfl | hx
        · have hmore : capacity x < left := by
            by_contra hfits
            rw [min_eq_left (not_lt.1 hfits), sub_self, greedy_of_nonpos le_rfl] at hserved
            cases hserved
          rw [min_eq_right hmore.le]
          exact List.mem_cons_self
        · exact List.mem_cons_of_mem _ (ih h.tail hx hserved)

end Ranks
end PerpexEngine
