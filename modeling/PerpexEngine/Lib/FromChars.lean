import Mathlib.Algebra.Ring.Int.Defs
import Mathlib.Tactic.Positivity
import Mathlib.Tactic.SplitIfs
import PerpexEngine.Lib.Decimal

/-! `std::from_chars` of a whole text into an integer type. -/
namespace PerpexEngine
variable {bits : ℕ} {t : Text} {z : ℤ}

def allDigits (t : Text) : Bool := t.all fun b => decide (IsDigit b)

/-- Into a signed type: a minus sign may stand before the digits, a plus sign may not. -/
def fromCharsSigned (bits : ℕ) (t : Text) : Option ℤ :=
  if t.head? = some 45 then
    if t.tail ≠ [] ∧ allDigits t.tail ∧ numeral t.tail ≤ 2 ^ (bits - 1) then
      some (-(numeral t.tail : ℤ))
    else none
  else if t ≠ [] ∧ allDigits t ∧ numeral t < 2 ^ (bits - 1) then some (numeral t) else none

/-- Digits, after a minus sign or not, and the integer that they denote. -/
inductive DenotesInteger : Text → ℤ → Prop
  | plain {digits : Text} (hne : digits ≠ []) (h : ∀ b ∈ digits, IsDigit b) :
      DenotesInteger digits (numeral digits)
  | minus {digits : Text} (hne : digits ≠ []) (h : ∀ b ∈ digits, IsDigit b) :
      DenotesInteger (45 :: digits) (-(numeral digits : ℤ))

theorem allDigits_iff : allDigits t = true ↔ ∀ b ∈ t, IsDigit b := by
  simp [allDigits]

theorem fromCharsSigned_eq_some :
    fromCharsSigned bits t = some z ↔
      DenotesInteger t z ∧ -2 ^ (bits - 1) ≤ z ∧ z < 2 ^ (bits - 1) := by
  have hpos : (0 : ℤ) < 2 ^ (bits - 1) := by positivity
  unfold fromCharsSigned
  constructor
  · intro h
    split_ifs at h with hhead hvalid hvalid
    · cases h
      obtain ⟨hne, hdigits, hle⟩ := hvalid
      obtain ⟨digits, rfl⟩ := List.head?_eq_some_iff.1 hhead
      have hbound : (numeral digits : ℤ) ≤ 2 ^ (bits - 1) := by exact_mod_cast hle
      refine ⟨.minus hne (allDigits_iff.1 hdigits), ?_⟩
      simp only [List.tail_cons]
      omega
    · cases h
      obtain ⟨hne, hdigits, hlt⟩ := hvalid
      have hbound : (numeral t : ℤ) < 2 ^ (bits - 1) := by exact_mod_cast hlt
      exact ⟨.plain hne (allDigits_iff.1 hdigits), by omega, hbound⟩
  · rintro ⟨h, hmin, hmax⟩
    cases h with
    | plain hne hall =>
      have hhead : ¬t.head? = some 45 := by
        intro hhead
        obtain ⟨rest, rfl⟩ := List.head?_eq_some_iff.1 hhead
        exact absurd (hall 45 List.mem_cons_self) (by decide)
      have hlt : numeral t < 2 ^ (bits - 1) := by exact_mod_cast hmax
      rw [if_neg hhead, if_pos ⟨hne, allDigits_iff.2 hall, hlt⟩]
    | @minus digits hne hall =>
      have hle : (numeral digits : ℤ) ≤ 2 ^ (bits - 1) := by omega
      have hle : numeral digits ≤ 2 ^ (bits - 1) := by exact_mod_cast hle
      rw [if_pos List.head?_cons, List.tail_cons, if_pos ⟨hne, allDigits_iff.2 hall, hle⟩]

theorem denotesInteger_text (z : ℤ) : DenotesInteger (text z) z := by
  cases z with
  | ofNat n =>
    have h := DenotesInteger.plain (decimal_ne_nil n) fun _ hb => isDigit_of_mem_decimal hb
    rwa [numeral_decimal] at h
  | negSucc n =>
    have h := DenotesInteger.minus (decimal_ne_nil (n + 1)) fun _ hb => isDigit_of_mem_decimal hb
    rw [numeral_decimal] at h
    exact h

end PerpexEngine
