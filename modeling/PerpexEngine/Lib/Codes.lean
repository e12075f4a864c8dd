import Mathlib.Data.List.Infix
import PerpexEngine.Lib.Decimal

/-! Codes with variable word length, and texts of one length compared as numbers are. -/
namespace PerpexEngine

section PrefixFree
variable {α β : Type} {code : α → List β}

/-- No code word is empty or begins another one. -/
structure PrefixFree (code : α → List β) : Prop where
  nonempty : ∀ a, code a ≠ []
  ends : ∀ a b, code a <+: code b → a = b

/-- A text is known by the concatenation of its code words. -/
theorem PrefixFree.flatMap_injective (h : PrefixFree code) :
    Function.Injective fun as : List α => as.flatMap code := by
  intro as bs heq
  dsimp only at heq
  induction as generalizing bs with
  | nil =>
    cases bs with
    | nil => rfl
    | cons b bs =>
      rw [List.flatMap_nil, List.flatMap_cons] at heq
      exact absurd (List.append_eq_nil_iff.1 heq.symm).1 (h.nonempty b)
  | cons a as ih =>
    cases bs with
    | nil =>
      rw [List.flatMap_nil, List.flatMap_cons] at heq
      exact absurd (List.append_eq_nil_iff.1 heq).1 (h.nonempty a)
    | cons b bs =>
      rw [List.flatMap_cons, List.flatMap_cons] at heq
      have hword : a = b := by
        rcases List.append_eq_append_iff.1 heq with ⟨rest, hrest, -⟩ | ⟨rest, hrest, -⟩
        · exact h.ends a b ⟨rest, hrest.symm⟩
        · exact (h.ends b a ⟨rest, hrest.symm⟩).symm
      subst hword
      rw [ih (List.append_cancel_left heq)]

end PrefixFree

section Order
variable {α : Type} [Ord α]

theorem compare_cons_cons (x y : α) (xs ys : List α) :
    compare (x :: xs) (y :: ys) = (compare x y).then (compare xs ys) := List.compareLex_cons_cons

variable [Std.LawfulEqOrd α]

theorem compare_append_left (pre xs ys : List α) :
    compare (pre ++ xs) (pre ++ ys) = compare xs ys := by
  induction pre with
  | nil => rfl
  | cons x pre ih =>
    rw [List.cons_append, List.cons_append, compare_cons_cons, Std.compare_self, ih]
    rfl

theorem compare_append_right {xs ys : List α} (h : xs.length = ys.length) (post : List α) :
    compare (xs ++ post) (ys ++ post) = compare xs ys := by
  induction xs generalizing ys with
  | nil =>
    rw [List.eq_nil_of_length_eq_zero h.symm]
    exact Std.compare_self.trans Std.compare_self.symm
  | cons x xs ih =>
    cases ys with
    | nil => cases h
    | cons y ys =>
      rw [List.cons_append, List.cons_append, compare_cons_cons, compare_cons_cons,
        ih (Nat.succ.inj h)]

theorem compare_byte (x y : UInt8) : compare x y = compare x.toNat y.toNat := by
  show compareOfLessAndEq x y = compareOfLessAndEq x.toNat y.toNat
  simp only [compareOfLessAndEq, UInt8.lt_iff_toNat_lt, ← UInt8.toNat_inj]

/-- Strings of equally many digits are in the order of their numbers. -/
theorem compare_digits {xs ys : Text} (h : xs.length = ys.length) (hxs : ∀ b ∈ xs, IsDigit b)
    (hys : ∀ b ∈ ys, IsDigit b) : compare xs ys = compare (numeral xs) (numeral ys) := by
  induction xs generalizing ys with
  | nil =>
    rw [List.eq_nil_of_length_eq_zero h.symm]
    rfl
  | cons x xs ih =>
    cases ys with
    | nil => cases h
    | cons y ys =>
      have hlength : xs.length = ys.length := Nat.succ.inj h
      have hxrest := fun b hb => hxs b (List.mem_cons_of_mem _ hb)
      have hyrest := fun b hb => hys b (List.mem_cons_of_mem _ hb)
      obtain ⟨hx, -⟩ := hxs x List.mem_cons_self
      obtain ⟨hy, -⟩ := hys y List.mem_cons_self
      have hxlt := numeral_lt hxrest
      have hylt := numeral_lt hyrest
      rw [compare_cons_cons, compare_byte, ih hlength hxrest hyrest, numeral_cons, numeral_cons,
        hlength]
      rw [hlength] at hxlt
      -- the first digit decides unless it is the same
      have hfirst : ∀ {m n a b : ℕ}, m < n → a < 10 ^ ys.length →
          m * 10 ^ ys.length + a < n * 10 ^ ys.length + b := by
        intro m n a b hmn ha
        have := Nat.mul_le_mul_right (10 ^ ys.length) (Nat.succ_le_of_lt hmn)
        rw [Nat.succ_mul] at this
        omega
      rcases lt_trichotomy x.toNat y.toNat with hlt | heq | hgt
      · rw [compare_lt_iff_lt.2 hlt, compare_lt_iff_lt.2 (hfirst (by omega) hxlt)]
        rfl
      · rw [heq, Std.compare_self, Ordering.eq_then]
        rcases lt_trichotomy (numeral xs) (numeral ys) with hlt | heq | hgt
        · rw [compare_lt_iff_lt.2 hlt, compare_lt_iff_lt.2 (by omega)]
        · rw [heq, Std.compare_self, Std.compare_self]
        · rw [compare_gt_iff_gt.2 hgt, compare_gt_iff_gt.2 (by omega)]
      · rw [compare_gt_iff_gt.2 hgt, compare_gt_iff_gt.2 (hfirst (by omega) hylt)]
        rfl

end Order

end PerpexEngine
