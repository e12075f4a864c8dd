import Mathlib.Algebra.BigOperators.Group.List.Basic
import Mathlib.Algebra.Order.Group.Int
import Mathlib.Algebra.Ring.Int.Defs

/-! Amounts posted to accounts, and what each account comes to. -/
namespace PerpexEngine

structure Posting (κ : Type) where
  account : κ
  amount : ℤ
deriving DecidableEq, Repr

namespace Posting
variable {κ : Type}

def total (ps : List (Posting κ)) : ℤ := (ps.map (·.amount)).sum

@[simp] theorem total_nil : total ([] : List (Posting κ)) = 0 := rfl

@[simp] theorem total_cons (p : Posting κ) (ps : List (Posting κ)) :
    total (p :: ps) = p.amount + total ps := List.sum_cons

@[simp] theorem total_append (ps qs : List (Posting κ)) :
    total (ps ++ qs) = total ps + total qs := by
  simp [total]

variable [DecidableEq κ]

/-- What the postings to one account come to. -/
def balance (ps : List (Posting κ)) (a : κ) : ℤ := total (ps.filter (·.account = a))

@[simp] theorem balance_nil (a : κ) : balance [] a = 0 := rfl

@[simp] theorem balance_append (ps qs : List (Posting κ)) (a : κ) :
    balance (ps ++ qs) a = balance ps a + balance qs a := by
  simp [balance]

@[simp] theorem balance_cons (p : Posting κ) (ps : List (Posting κ)) (a : κ) :
    balance (p :: ps) a = (if p.account = a then p.amount else 0) + balance ps a := by
  unfold balance
  by_cases h : p.account = a <;> simp [h]

end Posting
end PerpexEngine
