import Mathlib.Data.List.Basic
import Mathlib.Data.Nat.Notation
import Mathlib.Data.Int.Notation
import Mathlib.Tactic.Ring

/-! Byte strings and the decimal numerals in them. -/
namespace PerpexEngine

/-- The bytes of a string, no encoding implied. -/
abbrev Text := List UInt8

def ascii (s : String) : Text := s.toUTF8.data.toList

def decimal (n : ℕ) : Text := (Nat.toDigits 10 n).map fun c => c.toNat.toUInt8

/-- `std::to_string` of an integer. -/
def text : ℤ → Text
  | .ofNat n => decimal n
  | .negSucc n => ascii "-" ++ decimal (n + 1)

def IsDigit (b : UInt8) : Prop := 48 ≤ b.toNat ∧ b.toNat ≤ 57

instance (b : UInt8) : Decidable (IsDigit b) := inferInstanceAs (Decidable (_ ∧ _))

theorem digit_toNat {c : Char} (h : c.isDigit = true) : 48 ≤ c.toNat ∧ c.toNat ≤ 57 := by
  simp only [Char.isDigit, Bool.and_eq_true, decide_eq_true_eq] at h
  exact ⟨h.1, h.2⟩

theorem isDigit_of_mem_decimal {n : ℕ} {b : UInt8} (h : b ∈ decimal n) : IsDigit b := by
  obtain ⟨c, hc, rfl⟩ := List.mem_map.1 h
  have hdigit := digit_toNat (Nat.isDigit_of_mem_toDigits (by decide) (by decide) hc)
  have hlt : c.toNat < 256 := by omega
  unfold IsDigit
  rw [UInt8.toNat_ofNat_of_lt' hlt]
  exact hdigit

theorem decimal_injective : Function.Injective decimal := by
  intro m n h
  have hchars : Nat.toDigits 10 m = Nat.toDigits 10 n := by
    have hinj : ∀ c ∈ Nat.toDigits 10 m, ∀ d ∈ Nat.toDigits 10 n,
        c.toNat.toUInt8 = d.toNat.toUInt8 → c = d := by
      intro c hc d hd heq
      have h₁ := digit_toNat (Nat.isDigit_of_mem_toDigits (by decide) (by decide) hc)
      have h₂ := digit_toNat (Nat.isDigit_of_mem_toDigits (by decide) (by decide) hd)
      have hnat := congrArg UInt8.toNat heq
      rw [UInt8.toNat_ofNat_of_lt' (by omega : c.toNat < 256),
        UInt8.toNat_ofNat_of_lt' (by omega : d.toNat < 256)] at hnat
      exact Char.toNat_inj.1 hnat
    unfold decimal at h
    generalize Nat.toDigits 10 m = xs at *
    generalize Nat.toDigits 10 n = ys at *
    induction xs generalizing ys with
    | nil => cases ys with
      | nil => rfl
      | cons y ys => cases h
    | cons x xs ih => cases ys with
      | nil => cases h
      | cons y ys =>
        rw [List.map_cons, List.map_cons, List.cons.injEq] at h
        rw [hinj x List.mem_cons_self y List.mem_cons_self h.1,
          ih ys h.2 fun c hc d hd => hinj c (List.mem_cons_of_mem _ hc) d (List.mem_cons_of_mem _ hd)]
  rw [← Nat.ofDigitChars_ten_toDigits (n := m), hchars, Nat.ofDigitChars_ten_toDigits]

/-- The number that a string of digits stands for. -/
def numeral (digits : Text) : ℕ := digits.foldl (fun n b => 10 * n + (b.toNat - 48)) 0

theorem foldl_numeral (n : ℕ) (digits : Text) :
    digits.foldl (fun n b => 10 * n + (b.toNat - 48)) n =
      n * 10 ^ digits.length + numeral digits := by
  induction digits generalizing n with
  | nil => simp [numeral]
  | cons b digits ih =>
    rw [numeral, List.foldl_cons, List.foldl_cons, ih, ih (10 * 0 + _), List.length_cons]
    ring

theorem numeral_append (s t : Text) : numeral (s ++ t) = numeral s * 10 ^ t.length + numeral t := by
  rw [numeral, List.foldl_append, foldl_numeral]
  rfl

theorem numeral_cons (b : UInt8) (s : Text) :
    numeral (b :: s) = (b.toNat - 48) * 10 ^ s.length + numeral s := by
  rw [numeral, List.foldl_cons, foldl_numeral, Nat.mul_zero, Nat.zero_add]

theorem numeral_zeros (k : ℕ) : numeral (List.replicate k 48) = 0 := by
  induction k with
  | zero => rfl
  | succ k ih => rw [List.replicate_succ, numeral_cons, ih]; simp

theorem numeral_lt {s : Text} (h : ∀ b ∈ s, IsDigit b) : numeral s < 10 ^ s.length := by
  induction s with
  | nil => simp [numeral]
  | cons b s ih =>
    obtain ⟨-, hb⟩ := h b List.mem_cons_self
    have hs := ih fun c hc => h c (List.mem_cons_of_mem _ hc)
    have hdigit : (b.toNat - 48) * 10 ^ s.length ≤ 9 * 10 ^ s.length :=
      Nat.mul_le_mul_right _ (by omega)
    rw [numeral_cons, List.length_cons, pow_succ]
    omega

theorem numeral_decimal (n : ℕ) : numeral (decimal n) = n := by
  have hbytes : ∀ cs : List Char, (∀ c ∈ cs, c.isDigit = true) → ∀ m,
      (cs.map fun c => c.toNat.toUInt8).foldl (fun n b => 10 * n + (b.toNat - 48)) m =
        Nat.ofDigitChars 10 cs m := by
    intro cs
    induction cs with
    | nil => exact fun _ m => rfl
    | cons c cs ih =>
      intro hcs m
      have hc := digit_toNat (hcs c List.mem_cons_self)
      rw [List.map_cons, List.foldl_cons, Nat.ofDigitChars_cons,
        UInt8.toNat_ofNat_of_lt' (by omega : c.toNat < 256),
        ih fun d hd => hcs d (List.mem_cons_of_mem _ hd)]
      rfl
  have hdigits := hbytes (Nat.toDigits 10 n) fun c hc =>
    Nat.isDigit_of_mem_toDigits (by decide) (by decide) hc
  exact (hdigits 0).trans Nat.ofDigitChars_ten_toDigits

theorem length_decimal_le {n k : ℕ} (hk : 0 < k) : (decimal n).length ≤ k ↔ n < 10 ^ k := by
  rw [decimal, List.length_map, Nat.length_toDigits_le_iff (by decide) hk]

theorem decimal_ne_nil (n : ℕ) : decimal n ≠ [] := by
  have hpos : 0 < (Nat.toDigits 10 n).length := Nat.length_toDigits_pos
  exact fun h => Nat.ne_of_gt hpos (List.map_eq_nil_iff.1 h ▸ rfl)

theorem text_natCast (n : ℕ) : text n = decimal n := rfl

/-- A numeral has digits and a minus sign only. -/
theorem not_mem_text {b : UInt8} (hb : ¬IsDigit b) (hminus : b ≠ 45) (z : ℤ) : b ∉ text z := by
  cases z with
  | ofNat n => exact fun h => hb (isDigit_of_mem_decimal h)
  | negSucc n =>
    intro h
    rcases List.mem_append.1 h with h | h
    · exact hminus (List.mem_singleton.1 h)
    · exact hb (isDigit_of_mem_decimal h)

theorem text_injective : Function.Injective text := by
  have hsign : ∀ m n : ℕ, decimal m ≠ ascii "-" ++ decimal n := by
    intro m n h
    have hmem : (45 : UInt8) ∈ decimal m := h ▸ List.mem_cons_self
    exact absurd (isDigit_of_mem_decimal hmem) (by decide)
  intro m n h
  cases m with
  | ofNat m =>
    cases n with
    | ofNat n => rw [decimal_injective h]
    | negSucc n => exact absurd h (hsign _ _)
  | negSucc m =>
    cases n with
    | ofNat n => exact absurd h.symm (hsign _ _)
    | negSucc n =>
      have hsucc := decimal_injective (List.append_cancel_left h)
      rw [Nat.succ.inj hsucc]

/-- Two texts that are cut at their first separator. -/
theorem cut_inj {α : Type} {sep : α} {xs xs' ys ys' : List α} (hx : sep ∉ xs) (hx' : sep ∉ xs')
    (h : xs ++ sep :: ys = xs' ++ sep :: ys') : xs = xs' ∧ ys = ys' := by
  induction xs generalizing xs' with
  | nil =>
    cases xs' with
    | nil => exact ⟨rfl, (List.cons.inj h).2⟩
    | cons x' xs' => exact absurd (List.cons.inj h).1 fun heq => hx' (heq ▸ List.mem_cons_self)
  | cons x xs ih =>
    cases xs' with
    | nil => exact absurd (List.cons.inj h).1.symm fun heq => hx (heq ▸ List.mem_cons_self)
    | cons x' xs' =>
      obtain ⟨hhead, htail⟩ := List.cons.inj h
      obtain ⟨hxs, hys⟩ := ih (fun hm => hx (List.mem_cons_of_mem _ hm))
        (fun hm => hx' (List.mem_cons_of_mem _ hm)) htail
      exact ⟨by rw [hhead, hxs], hys⟩

end PerpexEngine
