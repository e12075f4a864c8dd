import Mathlib.Data.Rat.Cast.Order
import Mathlib.Tactic.FieldSimp
import Mathlib.Tactic.Linarith
import PerpexEngine.Lib.Decimal
import PerpexEngine.Lib.Program

/-! Decimal prices to ticks: the exact value of a numeral against the 128 bits that add it up. -/
namespace PerpexEngine

section Parser

def isAsciiSpace (b : UInt8) : Bool := b = 32 || b = 9 || b = 10 || b = 13

def trimAsciiSpace (value : Text) : Text :=
  ((value.dropWhile isAsciiSpace).reverse.dropWhile isAsciiSpace).reverse

/-- `append_digit`, on an `unsigned __int128`. -/
def appendDigit (value digit : ℕ) : ℕ := (value * 10 + digit) % 2 ^ 128

structure MagnitudeScan where
  result : ℕ
  seenDigit : Bool
  seenDecimalPoint : Bool
  fractionalDigits : ℤ
deriving DecidableEq, Repr

/-- The body of the loop of `parse_scaled_magnitude`. -/
def scanCharacter (scale : ℤ) (scan : MagnitudeScan) (ch : UInt8) : Except Text MagnitudeScan :=
  if ch = 46 then
    if scan.seenDecimalPoint then throw (ascii "fixed-point value has multiple decimal points")
    else pure { scan with seenDecimalPoint := true }
  else if ¬IsDigit ch then throw (ascii "fixed-point value contains a non-digit")
  else
    let digit := ch.toNat - 48
    if scan.seenDecimalPoint then
      if scale ≤ scan.fractionalDigits then
        if digit ≠ 0 then throw (ascii "fixed-point value has too much precision")
        else pure { scan with seenDigit := true }
      else
        pure { scan with
          result := appendDigit scan.result digit
          seenDigit := true
          fractionalDigits := scan.fractionalDigits + 1 }
    else pure { scan with result := appendDigit scan.result digit, seenDigit := true }

/-- `parse_scaled_magnitude`: the magnitude and whether the value is negative. -/
def parseScaledMagnitude (input : Text) (scale : ℤ) (allowNegative : Bool) :
    Except Text (ℕ × Bool) :=
  if scale < 0 then throw (ascii "fixed-point scale must be non-negative")
  else
    let value := trimAsciiSpace input
    if value = [] then throw (ascii "fixed-point value is empty")
    else
      let negative := decide (value.head? = some 45)
      let value := if value.head? = some 43 || value.head? = some 45 then value.tail else value
      if negative && !allowNegative then throw (ascii "negative quantity is not allowed")
      else if value = [] then throw (ascii "fixed-point value has no digits")
      else do
        let scan ← value.foldlM (scanCharacter scale) ⟨0, false, false, 0⟩
        if scan.seenDigit = false then throw (ascii "fixed-point value has no digits")
        else
          let padding := (scale - scan.fractionalDigits).toNat
          pure ((appendDigit · 0)^[padding] scan.result, negative)

/-- `price`, in ticks. -/
def price (value : Text) (scale : ℤ) : Except Text ℤ := do
  let (magnitude, negative) ← parseScaledMagnitude value scale true
  if 2 ^ 63 - 1 < magnitude then throw (ascii "price is outside int64 range")
  else pure (if negative then -(magnitude : ℤ) else magnitude)

example : price (ascii " -12.50 ") 1 = .ok (-125) := by decide

end Parser

section Numerals

/-- An optionally signed decimal numeral: digits, at least one, with at most one point. -/
structure IsNumeral (value : Text) (negative : Bool) (whole fraction : Text) : Prop where
  parts : ∃ sign rest, value = sign ++ (whole ++ rest) ∧
    (if negative then sign = ascii "-" else sign = [] ∨ sign = ascii "+") ∧
    (rest = 46 :: fraction ∨ rest = [] ∧ fraction = [])
  digits : ∀ b ∈ whole ++ fraction, IsDigit b
  nonempty : whole ++ fraction ≠ []

/-- The trimmed value is a numeral whose exact value times a power of ten is this integer. -/
def DenotesTicks (value : Text) (scale : ℕ) (t : ℤ) : Prop :=
  ∃ negative whole fraction, IsNumeral (trimAsciiSpace value) negative whole fraction ∧
    (t : ℚ) = (if negative then -1 else 1) *
      ((numeral (whole ++ fraction) : ℚ) / 10 ^ fraction.length) * 10 ^ scale

/-- The integer that a numeral stands for at a scale, where the digits beyond it are zeros. -/
def scaled (whole fraction : Text) (scale : ℕ) : ℕ :=
  numeral (whole ++ fraction.take scale) * 10 ^ (scale - fraction.length)

theorem numeral_eq_zero {s : Text} (hs : ∀ b ∈ s, IsDigit b) :
    numeral s = 0 ↔ ∀ b ∈ s, b = 48 := by
  induction s with
  | nil => simp [numeral]
  | cons b s ih =>
    obtain ⟨hb, -⟩ := hs b List.mem_cons_self
    have hpow : 0 < 10 ^ s.length := Nat.pow_pos (by decide)
    have hfirst : (b.toNat - 48) * 10 ^ s.length = 0 ↔ b = 48 := by
      rw [Nat.mul_eq_zero, or_iff_left hpow.ne', ← UInt8.toNat_inj]
      exact ⟨fun h => show b.toNat = 48 by omega, fun h => by rw [h]; rfl⟩
    rw [numeral_cons, Nat.add_eq_zero_iff, hfirst, ih fun c hc => hs c (List.mem_cons_of_mem _ hc),
      List.forall_mem_cons]

/-- The exact value of a numeral is an integer at a scale if and only if only zeros stand beyond. -/
theorem exact_iff {whole fraction : Text} (hdigits : ∀ b ∈ fraction, IsDigit b) (scale n : ℕ) :
    n * 10 ^ fraction.length = numeral (whole ++ fraction) * 10 ^ scale ↔
      (∀ b ∈ fraction.drop scale, b = 48) ∧ n = scaled whole fraction scale := by
  have hpos (k : ℕ) : 0 < 10 ^ k := Nat.pow_pos (by decide)
  unfold scaled
  rcases Nat.le_total fraction.length scale with hle | hle
  · obtain ⟨k, rfl⟩ := Nat.exists_eq_add_of_le hle
    rw [List.drop_eq_nil_of_le hle, List.take_of_length_le hle, Nat.add_sub_cancel_left, pow_add,
      Nat.mul_comm (10 ^ fraction.length), ← Nat.mul_assoc,
      Nat.mul_right_cancel_iff (hpos fraction.length)]
    simp
  · obtain ⟨k, hk⟩ := Nat.exists_eq_add_of_le hle
    have hsplit : numeral (whole ++ fraction) =
        numeral (whole ++ fraction.take scale) * 10 ^ k + numeral (fraction.drop scale) := by
      have hdrop : (fraction.drop scale).length = k := by rw [List.length_drop]; omega
      rw [← hdrop, ← numeral_append, List.append_assoc, List.take_append_drop]
    have hrest : ∀ b ∈ fraction.drop scale, IsDigit b := fun b hb =>
      hdigits b (List.mem_of_mem_drop hb)
    have hlt : numeral (fraction.drop scale) < 10 ^ k := by
      have := numeral_lt hrest
      rwa [List.length_drop, hk, Nat.add_sub_cancel_left] at this
    rw [hk, Nat.add_comm scale k, pow_add, ← Nat.mul_assoc, Nat.mul_right_cancel_iff (hpos scale),
      hsplit, ← numeral_eq_zero hrest, Nat.sub_eq_zero_of_le (by omega), pow_zero, Nat.mul_one]
    constructor
    · intro heq
      have hzero : numeral (fraction.drop scale) = 0 := by
        have hmod := congrArg (· % 10 ^ k) heq
        rw [Nat.mul_mod_left, Nat.mul_add_mod_self_right, Nat.mod_eq_of_lt hlt] at hmod
        exact hmod.symm
      rw [hzero, Nat.add_zero] at heq
      exact ⟨hzero, Nat.eq_of_mul_eq_mul_right (hpos k) heq⟩
    · rintro ⟨hzero, rfl⟩
      rw [hzero, Nat.add_zero]

theorem head_ne_of_digits {s : Text} (h : ∀ b ∈ s, IsDigit b ∨ b = 46) {sign : UInt8}
    (hsign : ¬IsDigit sign) (hdot : sign ≠ 46) : s.head? ≠ some sign := by
  intro hs
  rcases h sign (List.mem_of_mem_head? hs) with h | h
  · exact hsign h
  · exact hdot h

theorem IsNumeral.negative_iff {value : Text} {negative : Bool} {whole fraction : Text}
    (h : IsNumeral value negative whole fraction) :
    (negative = true ↔ value.head? = some 45) ∧
      ∃ rest, (if value.head? = some 43 || value.head? = some 45 then value.tail else value) =
          whole ++ rest ∧ (rest = 46 :: fraction ∨ rest = [] ∧ fraction = []) := by
  obtain ⟨sign, rest, rfl, hsign, hrest⟩ := h.parts
  have hbody : ∀ b ∈ whole ++ rest, IsDigit b ∨ b = 46 := by
    intro b hb
    rcases List.mem_append.1 hb with hb | hb
    · exact .inl (h.digits b (List.mem_append_left _ hb))
    · rcases hrest with rfl | ⟨rfl, -⟩
      · rcases List.mem_cons.1 hb with rfl | hb
        · exact .inr rfl
        · exact .inl (h.digits b (List.mem_append_right _ hb))
      · cases hb
  have hplus : (whole ++ rest).head? ≠ some 43 := head_ne_of_digits hbody (by decide) (by decide)
  have hminus : (whole ++ rest).head? ≠ some 45 := head_ne_of_digits hbody (by decide) (by decide)
  cases negative with
  | true =>
    rw [if_pos rfl] at hsign
    subst hsign
    exact ⟨⟨fun _ => rfl, fun _ => rfl⟩, rest, rfl, hrest⟩
  | false =>
    rw [if_neg Bool.false_ne_true] at hsign
    rcases hsign with rfl | rfl
    · rw [List.nil_append, decide_eq_false hplus, decide_eq_false hminus]
      exact ⟨⟨nofun, fun h => absurd h hminus⟩, rest, rfl, hrest⟩
    · exact ⟨⟨nofun, fun h => absurd h (by decide : ¬some (43 : UInt8) = some 45)⟩, rest, rfl, hrest⟩

theorem point_unique {whole whole' fraction fraction' rest rest' : Text}
    (hw : 46 ∉ whole) (hw' : 46 ∉ whole') (h : whole ++ rest = whole' ++ rest')
    (hrest : rest = 46 :: fraction ∨ rest = [] ∧ fraction = [])
    (hrest' : rest' = 46 :: fraction' ∨ rest' = [] ∧ fraction' = []) :
    whole = whole' ∧ fraction = fraction' := by
  rcases hrest with rfl | ⟨rfl, rfl⟩ <;> rcases hrest' with rfl | ⟨rfl, rfl⟩
  · exact cut_inj hw hw' h
  · rw [List.append_nil] at h
    exact absurd (h ▸ List.mem_append_right _ List.mem_cons_self) hw'
  · rw [List.append_nil] at h
    exact absurd (h ▸ List.mem_append_right _ List.mem_cons_self) hw
  · rw [List.append_nil, List.append_nil] at h
    exact ⟨h, rfl⟩

theorem not_mem_of_digits {s : Text} (h : ∀ b ∈ s, IsDigit b) : 46 ∉ s := fun hs =>
  absurd (h 46 hs) (by decide)

/-- The numeral of a value determines its parts. -/
theorem IsNumeral.unique {value : Text} {negative negative' : Bool}
    {whole whole' fraction fraction' : Text} (h : IsNumeral value negative whole fraction)
    (h' : IsNumeral value negative' whole' fraction') :
    negative = negative' ∧ whole = whole' ∧ fraction = fraction' := by
  obtain ⟨hsign, rest, hbody, hrest⟩ := h.negative_iff
  obtain ⟨hsign', rest', hbody', hrest'⟩ := h'.negative_iff
  refine ⟨Bool.eq_iff_iff.2 (hsign.trans hsign'.symm), ?_⟩
  exact point_unique (not_mem_of_digits fun b hb => h.digits b (List.mem_append_left _ hb))
    (not_mem_of_digits fun b hb => h'.digits b (List.mem_append_left _ hb))
    (hbody.symm.trans hbody') hrest hrest'

theorem eq_exact_value_iff {whole fraction : Text} (hdigits : ∀ b ∈ fraction, IsDigit b)
    {scale : ℕ} {u : ℤ} :
    (u : ℚ) = (numeral (whole ++ fraction) : ℚ) / 10 ^ fraction.length * 10 ^ scale ↔
      (∀ b ∈ fraction.drop scale, b = 48) ∧ u = scaled whole fraction scale := by
  have hpos : (0 : ℚ) < 10 ^ fraction.length := by positivity
  constructor
  · intro h
    have hnonneg : 0 ≤ u := by
      have hcast : (0 : ℚ) ≤ u := by
        rw [h]
        exact mul_nonneg (div_nonneg (Nat.cast_nonneg _) hpos.le) (by positivity)
      exact_mod_cast hcast
    obtain ⟨n, rfl⟩ := Int.eq_ofNat_of_zero_le hnonneg
    have hexact : n * 10 ^ fraction.length = numeral (whole ++ fraction) * 10 ^ scale := by
      rw [div_mul_eq_mul_div, eq_div_iff hpos.ne'] at h
      exact_mod_cast h
    obtain ⟨hzeros, rfl⟩ := (exact_iff hdigits scale n).1 hexact
    exact ⟨hzeros, rfl⟩
  · rintro ⟨hzeros, rfl⟩
    have hexact := (exact_iff hdigits scale (scaled whole fraction scale)).2 ⟨hzeros, rfl⟩
    rw [div_mul_eq_mul_div, eq_div_iff hpos.ne']
    exact_mod_cast hexact

theorem denotesTicks_iff {value : Text} {scale : ℕ} {t : ℤ} : DenotesTicks value scale t ↔
    ∃ negative whole fraction, IsNumeral (trimAsciiSpace value) negative whole fraction ∧
      (∀ b ∈ fraction.drop scale, b = 48) ∧
      t = if negative then -(scaled whole fraction scale : ℤ) else scaled whole fraction scale := by
  refine exists_congr fun negative => exists_congr fun whole => exists_congr fun fraction =>
    and_congr_right fun h => ?_
  have hvalue (u : ℤ) := @eq_exact_value_iff whole fraction
    (fun b hb => h.digits b (List.mem_append_right _ hb)) scale u
  cases negative with
  | false => simpa using hvalue t
  | true =>
    have hneg := hvalue (-t)
    rw [Int.cast_neg, neg_eq_iff_eq_neg, neg_eq_iff_eq_neg] at hneg
    simpa [neg_mul] using hneg

end Numerals

section Scan
variable {scale : ℕ} {s' : MagnitudeScan} {r : ℕ} {seen : Bool}

theorem appendDigit_mod (r digit : ℕ) :
    appendDigit (r % 2 ^ 128) digit = (r * 10 + digit) % 2 ^ 128 := by
  rw [appendDigit, Nat.add_mod, Nat.mul_mod, Nat.mod_mod, ← Nat.mul_mod, ← Nat.add_mod]

theorem iterate_appendDigit (n r : ℕ) :
    (appendDigit · 0)^[n] (r % 2 ^ 128) = r * 10 ^ n % 2 ^ 128 := by
  induction n generalizing r with
  | zero => rw [pow_zero, Nat.mul_one]; rfl
  | succ n ih =>
    have hpow : r * 10 * 10 ^ n = r * 10 ^ (n + 1) := by ring
    rw [Function.iterate_succ_apply, appendDigit_mod, Nat.add_zero, ih, hpow]

/-- Before the point every digit is added up. -/
theorem scan_whole_iff {w : Text} (hw : 46 ∉ w) :
    w.foldlM (scanCharacter scale) ⟨r % 2 ^ 128, seen, false, 0⟩ = .ok s' ↔
      (∀ b ∈ w, IsDigit b) ∧
        s' = ⟨(r * 10 ^ w.length + numeral w) % 2 ^ 128, seen || !w.isEmpty, false, 0⟩ := by
  induction w generalizing r seen with
  | nil => simp [numeral, eq_comm, pure, Except.pure]
  | cons b w ih =>
    have hdot : b ≠ 46 := fun h => hw (h ▸ List.mem_cons_self)
    rw [List.foldlM_cons, scanCharacter, if_neg hdot]
    by_cases hb : IsDigit b
    · rw [if_neg (not_not.2 hb)]
      have hrest := @ih (r * 10 + (b.toNat - 48)) true fun h => hw (List.mem_cons_of_mem _ h)
      simp only [Bool.false_eq_true, if_false, appendDigit_mod, pure_bind]
      rw [hrest, List.forall_mem_cons, numeral_cons, List.length_cons]
      have hsum : (r * 10 + (b.toNat - 48)) * 10 ^ w.length + numeral w =
          r * 10 ^ (w.length + 1) + ((b.toNat - 48) * 10 ^ w.length + numeral w) := by ring
      rw [hsum]
      simp [hb]
    · rw [if_pos hb]
      exact iff_of_false (fun h => by cases h) fun h => hb (h.1 b List.mem_cons_self)

/-- After the point the digits within the scale are added up, and only zeros may follow. -/
theorem scan_fraction_iff {f : Text} {k : ℕ} :
    f.foldlM (scanCharacter (k + scale : ℕ)) ⟨r % 2 ^ 128, seen, true, k⟩ = .ok s' ↔
      (∀ b ∈ f, IsDigit b) ∧ (∀ b ∈ f.drop scale, b = 48) ∧
        s' = ⟨(r * 10 ^ (f.take scale).length + numeral (f.take scale)) % 2 ^ 128,
          seen || !f.isEmpty, true, k + (f.take scale).length⟩ := by
  induction f generalizing r seen k scale with
  | nil => simp [numeral, eq_comm, pure, Except.pure]
  | cons b f ih =>
    rw [List.foldlM_cons, scanCharacter, List.forall_mem_cons]
    by_cases hdot : b = 46
    · rw [if_pos hdot, if_pos rfl, hdot]
      exact iff_of_false (fun h => by cases h) fun h => absurd h.1.1 (by decide)
    rw [if_neg hdot]
    by_cases hb : IsDigit b
    · rw [if_neg (not_not.2 hb)]
      have hzero : b.toNat - 48 = 0 ↔ b = 48 := by
        have hlow := hb.1
        rw [← UInt8.toNat_inj]
        exact ⟨fun h => show b.toNat = 48 by omega, fun h => by rw [h]; rfl⟩
      cases scale with
      | zero =>
        -- the scale is used up
        have hrest := @ih 0 r true k
        rw [List.take_zero, List.drop_zero] at hrest ⊢
        simp only [Nat.add_zero, if_true, le_refl, ne_eq, hzero] at hrest ⊢
        by_cases h48 : b = 48
        · rw [if_neg (not_not.2 h48), pure_bind, hrest]
          subst h48
          simp [hb]
        · rw [if_pos h48]
          exact iff_of_false (fun h => by cases h) fun h => h48 (h.2.1 b List.mem_cons_self)
      | succ scale =>
        have hrest := @ih scale (r * 10 + (b.toNat - 48)) true (k + 1)
        have hscale : ¬((k + (scale + 1) : ℕ) : ℤ) ≤ k := by omega
        have hsum : (r * 10 + (b.toNat - 48)) * 10 ^ (f.take scale).length +
            numeral (f.take scale) = r * 10 ^ ((f.take scale).length + 1) +
              ((b.toNat - 48) * 10 ^ (f.take scale).length + numeral (f.take scale)) := by ring
        rw [show k + 1 + scale = k + (scale + 1) by omega, hsum, Nat.cast_succ] at hrest
        simp only [if_true, if_neg hscale, appendDigit_mod, pure_bind]
        rw [hrest, List.take_succ_cons, List.drop_succ_cons, List.length_cons, numeral_cons]
        simp [hb, Int.add_assoc, Int.add_comm 1]
    · rw [if_pos hb]
      exact iff_of_false (fun h => by cases h) fun h => hb h.1.1

/-- A text with one point. -/
theorem scan_point_iff {whole fraction : Text} (hw : 46 ∉ whole) :
    (whole ++ 46 :: fraction).foldlM (scanCharacter scale) ⟨0, false, false, 0⟩ = .ok s' ↔
      (∀ b ∈ whole ++ fraction, IsDigit b) ∧ (∀ b ∈ fraction.drop scale, b = 48) ∧
        s' = ⟨numeral (whole ++ fraction.take scale) % 2 ^ 128, !(whole ++ fraction).isEmpty, true,
          (fraction.take scale).length⟩ := by
  have hfraction := @scan_fraction_iff scale s' (numeral whole) (!whole.isEmpty) fraction 0
  simp only [Nat.cast_zero, Nat.zero_add, Int.zero_add] at hfraction
  have hempty : (whole ++ fraction).isEmpty = (whole.isEmpty && fraction.isEmpty) := by
    cases whole <;> rfl
  rw [List.foldlM_append, bind_eq_ok, List.forall_mem_append, numeral_append, hempty, Bool.not_and]
  constructor
  · rintro ⟨s, hs, h⟩
    obtain ⟨hdigits, rfl⟩ := (@scan_whole_iff scale s 0 false whole hw).1 hs
    rw [List.foldlM_cons] at h
    simp only [scanCharacter, if_true, Bool.false_eq_true, if_false, pure_bind, Nat.zero_mul,
      Nat.zero_add, Bool.false_or] at h
    obtain ⟨hf, hzeros, rfl⟩ := hfraction.1 h
    exact ⟨⟨hdigits, hf⟩, hzeros, rfl⟩
  · rintro ⟨⟨hdigits, hf⟩, hzeros, rfl⟩
    refine ⟨_, (@scan_whole_iff scale _ 0 false whole hw).2 ⟨hdigits, rfl⟩, ?_⟩
    rw [List.foldlM_cons]
    simp only [scanCharacter, if_true, Bool.false_eq_true, if_false, pure_bind, Nat.zero_mul,
      Nat.zero_add, Bool.false_or]
    exact hfraction.2 ⟨hf, hzeros, rfl⟩

/-- The loop takes a text if and only if it is digits with at most one point, with zeros beyond the
scale; the digits within it are added up. -/
theorem scan_iff {body : Text} :
    body.foldlM (scanCharacter scale) ⟨0, false, false, 0⟩ = .ok s' ↔
      ∃ whole fraction rest, body = whole ++ rest ∧
        (rest = 46 :: fraction ∨ rest = [] ∧ fraction = []) ∧
        (∀ b ∈ whole ++ fraction, IsDigit b) ∧ (∀ b ∈ fraction.drop scale, b = 48) ∧
        s' = ⟨numeral (whole ++ fraction.take scale) % 2 ^ 128, !(whole ++ fraction).isEmpty,
          !rest.isEmpty, (fraction.take scale).length⟩ := by
  have hwhole {w : Text} (hw : 46 ∉ w) := @scan_whole_iff scale s' 0 false w hw
  simp only [Nat.zero_mod, Nat.zero_mul, Nat.zero_add, Bool.false_or] at hwhole
  constructor
  · intro h
    by_cases hpoint : 46 ∈ body
    · obtain ⟨whole, fraction, rfl, hw⟩ := List.eq_append_cons_of_mem hpoint
      obtain ⟨hdigits, hzeros, rfl⟩ := (scan_point_iff hw).1 h
      exact ⟨whole, fraction, _, rfl, .inl rfl, hdigits, hzeros, rfl⟩
    · obtain ⟨hdigits, rfl⟩ := (hwhole hpoint).1 h
      exact ⟨body, [], [], by simp, .inr ⟨rfl, rfl⟩, by simpa using hdigits, by simp, by simp⟩
  · rintro ⟨whole, fraction, rest, rfl, rfl | ⟨rfl, rfl⟩, hdigits, hzeros, rfl⟩
    · have hw := not_mem_of_digits fun b hb => hdigits b (List.mem_append_left fraction hb)
      exact (scan_point_iff hw).2 ⟨hdigits, hzeros, rfl⟩
    · rw [List.append_nil] at hdigits
      have hscan := (hwhole (not_mem_of_digits hdigits)).2 ⟨hdigits, by simp⟩
      simpa using hscan

end Scan

section Price
variable {value : Text} {scale : ℕ}

theorem isNumeral_iff {v : Text} {negative : Bool} {whole fraction : Text} :
    IsNumeral v negative whole fraction ↔
      (negative = true ↔ v.head? = some 45) ∧
      (∃ rest, (if v.head? = some 43 || v.head? = some 45 then v.tail else v) = whole ++ rest ∧
        (rest = 46 :: fraction ∨ rest = [] ∧ fraction = [])) ∧
      (∀ b ∈ whole ++ fraction, IsDigit b) ∧ whole ++ fraction ≠ [] := by
  constructor
  · intro h
    exact ⟨h.negative_iff.1, h.negative_iff.2, h.digits, h.nonempty⟩
  · rintro ⟨hnegative, ⟨rest, hbody, hrest⟩, hdigits, hne⟩
    refine ⟨?_, hdigits, hne⟩
    cases v with
    | nil => exact ⟨[], rest, hbody, by simp at hnegative; simp [hnegative], hrest⟩
    | cons c v =>
      by_cases hminus : c = 45
      · subst hminus
        exact ⟨ascii "-", rest, congrArg (45 :: ·) hbody, by simp [hnegative.2 rfl], hrest⟩
      · have hfalse : negative = false := by
          rw [← Bool.not_eq_true, hnegative]
          simpa using hminus
        subst hfalse
        by_cases hplus : c = 43
        · subst hplus
          exact ⟨ascii "+", rest, congrArg (43 :: ·) hbody, .inr rfl, hrest⟩
        · refine ⟨[], rest, ?_, .inl rfl, hrest⟩
          simpa [hminus, hplus] using hbody

/-- The parser takes the numerals with zeros beyond the scale, and gives what 128 bits hold of the
integer they stand for. -/
theorem parseScaledMagnitude_iff {magnitude : ℕ} {negative : Bool} :
    parseScaledMagnitude value scale true = .ok (magnitude, negative) ↔
      ∃ whole fraction, IsNumeral (trimAsciiSpace value) negative whole fraction ∧
        (∀ b ∈ fraction.drop scale, b = 48) ∧
        magnitude = scaled whole fraction scale % 2 ^ 128 := by
  generalize hv : trimAsciiSpace value = v
  simp only [parseScaledMagnitude, hv, Bool.not_true, Bool.and_false, Bool.false_eq_true, if_false]
  rw [throw_ite_eq_ok, throw_ite_eq_ok, throw_ite_eq_ok, bind_eq_ok]
  simp only [throw_ite_eq_ok, pure_eq_ok, Prod.mk.injEq, scan_iff, isNumeral_iff]
  have hpadding (whole fraction : Text) :
      (fun x => appendDigit x 0)^[(scale - (fraction.take scale).length : ℤ).toNat]
        (numeral (whole ++ fraction.take scale) % 2 ^ 128) =
          scaled whole fraction scale % 2 ^ 128 := by
    have hlength : (scale - (fraction.take scale).length : ℤ).toNat = scale - fraction.length := by
      rw [List.length_take]
      omega
    rw [hlength, iterate_appendDigit, scaled]
  constructor
  · rintro ⟨-, -, -, scan, ⟨whole, fraction, rest, hbody, hrest, hdigits, hzeros, rfl⟩, hseen,
      rfl, rfl⟩
    refine ⟨whole, fraction, ⟨by simp, ⟨rest, hbody, hrest⟩, hdigits, ?_⟩, hzeros, hpadding _ _⟩
    simpa using hseen
  · rintro ⟨whole, fraction, ⟨hnegative, ⟨rest, hbody, hrest⟩, hdigits, hne⟩, hzeros, rfl⟩
    have hrestne : whole ++ rest ≠ [] := by
      rcases hrest with rfl | ⟨rfl, rfl⟩
      · simp
      · exact hne
    refine ⟨by omega, ?_, hbody ▸ hrestne, _, ⟨whole, fraction, rest, hbody, hrest, hdigits, hzeros,
      rfl⟩, by simpa using hne, (hpadding _ _).symm, ?_⟩
    · rintro rfl
      exact hrestne hbody.symm
    · rw [Bool.eq_iff_iff, hnegative, decide_eq_true_iff]

/-- `price` returns nothing but the exact value of a numeral, and that within an `int64_t`. -/
def PriceSound (value : Text) (scale : ℕ) : Prop :=
  ∀ t, price value scale = .ok t → DenotesTicks value scale t ∧ |t| < 2 ^ 63

/-- A numeral whose magnitude does not fit the 128 bits, while what they hold of it fits 63. -/
def WrapsAround (value : Text) (scale : ℕ) : Prop :=
  ∃ t, DenotesTicks value scale t ∧ 2 ^ 128 ≤ |t| ∧ |t| % 2 ^ 128 < 2 ^ 63

theorem price_eq_ok {t : ℤ} : price value scale = .ok t ↔
    ∃ negative whole fraction, IsNumeral (trimAsciiSpace value) negative whole fraction ∧
      (∀ b ∈ fraction.drop scale, b = 48) ∧ scaled whole fraction scale % 2 ^ 128 < 2 ^ 63 ∧
      t = if negative then -((scaled whole fraction scale % 2 ^ 128 : ℕ) : ℤ)
        else (scaled whole fraction scale % 2 ^ 128 : ℕ) := by
  rw [price, bind_eq_ok]
  constructor
  · rintro ⟨⟨magnitude, negative⟩, hparse, h⟩
    obtain ⟨whole, fraction, hnumeral, hzeros, rfl⟩ := parseScaledMagnitude_iff.1 hparse
    rw [throw_ite_eq_ok, pure_eq_ok] at h
    exact ⟨negative, whole, fraction, hnumeral, hzeros, by omega, h.2⟩
  · rintro ⟨negative, whole, fraction, hnumeral, hzeros, hlt, rfl⟩
    refine ⟨_, parseScaledMagnitude_iff.2 ⟨whole, fraction, hnumeral, hzeros, rfl⟩, ?_⟩
    rw [throw_ite_eq_ok, pure_eq_ok]
    exact ⟨by omega, rfl⟩

theorem abs_signed (negative : Bool) (n : ℕ) :
    |if negative then -(n : ℤ) else n| = n := by
  cases negative <;> simp

/-- For every text and scale, `price` is right if and only if the exact magnitude does not wrap
around into the range of an `int64_t`; every numeral within the range gets its exact value. -/
theorem price_exact_iff (value : Text) (scale : ℕ) :
    (PriceSound value scale ↔ ¬WrapsAround value scale) ∧
      ∀ t, DenotesTicks value scale t → |t| < 2 ^ 63 → price value scale = .ok t := by
  refine ⟨⟨fun hsound hwraps => ?_, fun hwraps t hprice => ?_⟩, fun t hdenotes hlt => ?_⟩
  · obtain ⟨t, hdenotes, hlarge, hfits⟩ := hwraps
    obtain ⟨negative, whole, fraction, hnumeral, hzeros, rfl⟩ := denotesTicks_iff.1 hdenotes
    rw [abs_signed] at hlarge hfits
    obtain ⟨hdenotes', -⟩ := hsound _ (price_eq_ok.2 ⟨negative, whole, fraction, hnumeral, hzeros,
      by omega, rfl⟩)
    obtain ⟨negative', whole', fraction', hnumeral', -, heq⟩ := denotesTicks_iff.1 hdenotes'
    obtain ⟨rfl, rfl, rfl⟩ := hnumeral.unique hnumeral'
    have habs := congrArg abs heq
    rw [abs_signed, abs_signed] at habs
    omega
  · obtain ⟨negative, whole, fraction, hnumeral, hzeros, hlt, rfl⟩ := price_eq_ok.1 hprice
    have hexact := denotesTicks_iff.2 ⟨negative, whole, fraction, hnumeral, hzeros, rfl⟩
    have hsmall : scaled whole fraction scale % 2 ^ 128 = scaled whole fraction scale := by
      by_contra hne
      refine hwraps ⟨_, hexact, ?_, ?_⟩ <;> rw [abs_signed] <;> omega
    rw [hsmall] at hlt ⊢
    exact ⟨hexact, by rw [abs_signed]; omega⟩
  · obtain ⟨negative, whole, fraction, hnumeral, hzeros, rfl⟩ := denotesTicks_iff.1 hdenotes
    rw [abs_signed] at hlt
    have hsmall : scaled whole fraction scale % 2 ^ 128 = scaled whole fraction scale := by omega
    exact price_eq_ok.2 ⟨negative, whole, fraction, hnumeral, hzeros, by omega, by rw [hsmall]⟩

/-- The numeral of 2 ^ 128 + 5. -/
def wrappingPrice : Text := ascii "340282366920938463463374607431768211461"

theorem denotesTicks_wrappingPrice : DenotesTicks wrappingPrice 0 (2 ^ 128 + 5) :=
  denotesTicks_iff.2 ⟨false, wrappingPrice, [], ⟨⟨[], [], by decide, .inl rfl, .inr ⟨rfl, rfl⟩⟩,
    by decide +kernel, by decide⟩, by decide +kernel, by decide +kernel⟩

/-- A huge price becomes a price of five ticks. -/
theorem price_wraps : price wrappingPrice 0 = .ok 5 ∧ DenotesTicks wrappingPrice 0 (2 ^ 128 + 5) ∧
    ¬DenotesTicks wrappingPrice 0 5 := by
  refine ⟨by decide +kernel, denotesTicks_wrappingPrice, fun h => ?_⟩
  obtain ⟨negative, whole, fraction, hnumeral, -, heq⟩ :=
    denotesTicks_iff.1 denotesTicks_wrappingPrice
  obtain ⟨negative', whole', fraction', hnumeral', -, heq'⟩ := denotesTicks_iff.1 h
  obtain ⟨rfl, rfl, rfl⟩ := hnumeral.unique hnumeral'
  exact absurd (heq.trans heq'.symm) (by decide)

end Price

end PerpexEngine
