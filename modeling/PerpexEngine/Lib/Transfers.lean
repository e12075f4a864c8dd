import Mathlib.Algebra.BigOperators.Group.Finset.Piecewise
import Mathlib.Algebra.Order.BigOperators.Group.List
import Mathlib.Algebra.Order.Group.Int
import Mathlib.Algebra.Ring.Int.Defs

/-! Transfers between accounts: they keep every total, and transfers out of one account drain it. -/
namespace PerpexEngine

structure Transfer (κ : Type) where
  source : κ
  target : κ
  amount : ℤ

/-- `y` lies between zero and `x`, both included. -/
def TowardZero (x y : ℤ) : Prop := 0 ≤ y ∧ y ≤ x ∨ x ≤ y ∧ y ≤ 0

namespace TowardZero
variable {x y z : ℤ}

theorem refl (x : ℤ) : TowardZero x x := by
  unfold TowardZero
  omega

theorem trans (h : TowardZero x y) (h' : TowardZero y z) : TowardZero x z := by
  unfold TowardZero at *
  omega

theorem neg_iff : TowardZero (-x) (-y) ↔ TowardZero x y := by
  unfold TowardZero
  omega

end TowardZero

namespace Transfer
variable {κ : Type} {ts : List (Transfer κ)} {a : κ}

def total (ts : List (Transfer κ)) : ℤ := (ts.map (·.amount)).sum

@[simp] theorem total_nil : total ([] : List (Transfer κ)) = 0 := rfl

@[simp] theorem total_cons (t : Transfer κ) : total (t :: ts) = t.amount + total ts :=
  List.sum_cons

@[simp] theorem total_append (xs ys : List (Transfer κ)) :
    total (xs ++ ys) = total xs + total ys := by
  simp [total]

/-- The transfer the other way. -/
def swap (t : Transfer κ) : Transfer κ := ⟨t.target, t.source, t.amount⟩

@[simp] theorem total_swap (ts : List (Transfer κ)) : total (ts.map swap) = total ts := by
  simp [total, swap, Function.comp_def]

/-- Transfers out of one account, of nothing negative. -/
def From (a : κ) (ts : List (Transfer κ)) : Prop := ∀ t ∈ ts, t.source = a ∧ 0 ≤ t.amount

/-- The same into one account. -/
def Into (a : κ) (ts : List (Transfer κ)) : Prop := ∀ t ∈ ts, t.target = a ∧ 0 ≤ t.amount

theorem Into.swap (h : Into a ts) : From a (ts.map swap) := by
  intro t ht
  obtain ⟨u, hu, rfl⟩ := List.mem_map.1 ht
  exact h u hu

theorem From.tail {t : Transfer κ} (h : From a (t :: ts)) : From a ts :=
  fun u hu => h u (List.mem_cons_of_mem _ hu)

theorem From.head {t : Transfer κ} (h : From a (t :: ts)) : From a [t] :=
  fun _ hu => List.mem_singleton.1 hu ▸ h t List.mem_cons_self

theorem From.total_nonneg (h : From a ts) : 0 ≤ total ts := by
  apply List.sum_nonneg
  intro x hx
  obtain ⟨t, ht, rfl⟩ := List.mem_map.1 hx
  exact (h t ht).2

variable [DecidableEq κ] {balance : κ → ℤ}

def apply (t : Transfer κ) (balance : κ → ℤ) : κ → ℤ := fun k =>
  balance k + (if k = t.target then t.amount else 0) - if k = t.source then t.amount else 0

/-- The source gives first, then the target takes. -/
theorem update_source_target (t : Transfer κ) (balance : κ → ℤ) :
    Function.update (Function.update balance t.source (balance t.source - t.amount)) t.target
      (Function.update balance t.source (balance t.source - t.amount) t.target + t.amount) =
        t.apply balance := by
  funext k
  simp only [apply, Function.update_apply]
  grind

/-- The target takes first, then the source gives. -/
theorem update_target_source (t : Transfer κ) (balance : κ → ℤ) :
    Function.update (Function.update balance t.target (balance t.target + t.amount)) t.source
      (Function.update balance t.target (balance t.target + t.amount) t.source - t.amount) =
        t.apply balance := by
  funext k
  simp only [apply, Function.update_apply]
  grind

/-- The balances after transfers one by one. -/
def settle (balance : κ → ℤ) (ts : List (Transfer κ)) : κ → ℤ :=
  ts.foldl (fun balance t => t.apply balance) balance

@[simp] theorem settle_nil : settle balance [] = balance := rfl

@[simp] theorem settle_cons (t : Transfer κ) :
    settle balance (t :: ts) = settle (t.apply balance) ts := rfl

theorem settle_append (xs ys : List (Transfer κ)) :
    settle balance (xs ++ ys) = settle (settle balance xs) ys := List.foldl_append

/-- An account that no transfer names keeps its balance. -/
theorem settle_untouched {k : κ} (h : ∀ t ∈ ts, t.source ≠ k ∧ t.target ≠ k) :
    settle balance ts k = balance k := by
  induction ts generalizing balance with
  | nil => rfl
  | cons t ts ih =>
    obtain ⟨hsource, htarget⟩ := h t List.mem_cons_self
    rw [settle_cons, ih fun u hu => h u (List.mem_cons_of_mem _ hu)]
    unfold apply
    rw [if_neg htarget.symm, if_neg hsource.symm]
    omega

/-- Transfers of nothing. -/
theorem settle_of_zero (h : ∀ t ∈ ts, t.amount = 0) : settle balance ts = balance := by
  induction ts generalizing balance with
  | nil => rfl
  | cons t ts ih =>
    have happly : t.apply balance = balance := by
      funext k
      unfold apply
      rw [h t List.mem_cons_self]
      simp
    rw [settle_cons, happly, ih fun u hu => h u (List.mem_cons_of_mem _ hu)]

section Conservation
variable {accounts : Finset κ}

theorem sum_apply {t : Transfer κ} (hsource : t.source ∈ accounts) (htarget : t.target ∈ accounts) :
    ∑ k ∈ accounts, t.apply balance k = ∑ k ∈ accounts, balance k := by
  unfold apply
  rw [Finset.sum_sub_distrib, Finset.sum_add_distrib, Finset.sum_ite_eq', Finset.sum_ite_eq',
    if_pos htarget, if_pos hsource, add_sub_cancel_right]

/-- Transfers within a set of accounts keep its total. -/
theorem sum_settle (h : ∀ t ∈ ts, t.source ∈ accounts ∧ t.target ∈ accounts) :
    ∑ k ∈ accounts, settle balance ts k = ∑ k ∈ accounts, balance k := by
  induction ts generalizing balance with
  | nil => rfl
  | cons t ts ih =>
    obtain ⟨hsource, htarget⟩ := h t List.mem_cons_self
    rw [settle_cons, ih fun u hu => h u (List.mem_cons_of_mem _ hu), sum_apply hsource htarget]

end Conservation

section Mirror

theorem apply_swap (t : Transfer κ) (balance : κ → ℤ) :
    t.swap.apply (fun k => -balance k) = fun k => -t.apply balance k := by
  funext k
  dsimp only [apply, swap]
  split_ifs <;> omega

/-- Turning all transfers around mirrors the balances. -/
theorem settle_swap (ts : List (Transfer κ)) (balance : κ → ℤ) :
    settle (fun k => -balance k) (ts.map swap) = fun k => -settle balance ts k := by
  induction ts generalizing balance with
  | nil => rfl
  | cons t ts ih => rw [List.map_cons, settle_cons, settle_cons, apply_swap, ih]

end Mirror

section Drain

theorem From.apply_source {t : Transfer κ} (h : From a (t :: ts)) (balance : κ → ℤ) :
    balance a - t.amount ≤ t.apply balance a ∧ t.apply balance a ≤ balance a := by
  obtain ⟨hsource, hamount⟩ := h t List.mem_cons_self
  unfold apply
  rw [if_pos hsource.symm]
  split_ifs <;> omega

/-- The account falls by at most the total. -/
theorem From.settle_source (h : From a ts) (balance : κ → ℤ) :
    balance a - total ts ≤ settle balance ts a ∧ settle balance ts a ≤ balance a := by
  induction ts generalizing balance with
  | nil => simp
  | cons t ts ih =>
    have hfirst := h.apply_source balance
    have hrest := ih h.tail (t.apply balance)
    rw [settle_cons, total_cons]
    omega

/-- Every other account rises. -/
theorem From.settle_other (h : From a ts) (balance : κ → ℤ) {k : κ} (hk : k ≠ a) :
    balance k ≤ settle balance ts k := by
  induction ts generalizing balance with
  | nil => exact le_refl _
  | cons t ts ih =>
    obtain ⟨hsource, hamount⟩ := h t List.mem_cons_self
    refine le_trans ?_ (ih h.tail (t.apply balance))
    unfold apply
    rw [hsource, if_neg hk]
    split_ifs <;> omega

end Drain

section Along

/-- Every single transfer takes the account toward zero, or leaves it. -/
def Along (k : κ) (balance : κ → ℤ) : List (Transfer κ) → Prop
  | [] => True
  | t :: ts => TowardZero (balance k) (t.apply balance k) ∧ Along k (t.apply balance) ts

theorem Along.towardZero {k : κ} (h : Along k balance ts) :
    TowardZero (balance k) (settle balance ts k) := by
  induction ts generalizing balance with
  | nil => exact .refl _
  | cons t ts ih => exact h.1.trans (ih h.2)

/-- What the first transfer has moved the others do not bring back. -/
theorem Along.moves {k : κ} {t : Transfer κ} (h : Along k balance (t :: ts))
    (hfirst : t.apply balance k ≠ balance k) : settle balance (t :: ts) k ≠ balance k := by
  have hrest := h.2.towardZero
  have hhead := h.1
  rw [settle_cons]
  unfold TowardZero at hhead hrest
  omega

/-- An account that ends with something was on the way down all along. -/
theorem From.along_source (h : From a ts) (hend : 0 ≤ settle balance ts a) :
    Along a balance ts := by
  induction ts generalizing balance with
  | nil => trivial
  | cons t ts ih =>
    have hfirst := h.apply_source balance
    have hrest := h.tail.settle_source (t.apply balance)
    refine ⟨?_, ih h.tail hend⟩
    rw [settle_cons] at hend
    have hamount := (h t List.mem_cons_self).2
    unfold TowardZero
    omega

/-- An account that still owes at the end was on the way up all along. -/
theorem From.along_other (h : From a ts) {k : κ} (hk : k ≠ a) (hend : settle balance ts k ≤ 0) :
    Along k balance ts := by
  induction ts generalizing balance with
  | nil => trivial
  | cons t ts ih =>
    have hfirst : balance k ≤ t.apply balance k :=
      h.head.settle_other balance hk
    have hrest := h.tail.settle_other (t.apply balance) hk
    refine ⟨?_, ih h.tail hend⟩
    rw [settle_cons] at hend
    unfold TowardZero
    omega

theorem along_swap {k : κ} :
    Along k (fun k => -balance k) (ts.map swap) ↔ Along k balance ts := by
  induction ts generalizing balance with
  | nil => rfl
  | cons t ts ih =>
    unfold Along
    rw [List.map_cons]
    dsimp only
    rw [apply_swap, ih, TowardZero.neg_iff]

theorem Into.along_target (h : Into a ts) (hend : settle balance ts a ≤ 0) :
    Along a balance ts := by
  apply along_swap.1
  apply h.swap.along_source
  rw [settle_swap]
  dsimp only
  omega

theorem Into.along_other (h : Into a ts) {k : κ} (hk : k ≠ a) (hend : 0 ≤ settle balance ts k) :
    Along k balance ts := by
  apply along_swap.1
  apply h.swap.along_other hk
  rw [settle_swap]
  dsimp only
  omega

end Along
end Transfer
end PerpexEngine
