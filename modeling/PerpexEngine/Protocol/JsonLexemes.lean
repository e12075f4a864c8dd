import PerpexEngine.Lib.Program
import PerpexEngine.Protocol.Json
import Mathlib.Data.List.TakeWhile
import Mathlib.Tactic.NormNum

/-! Spaces, strings and numbers: what the reader takes is what the grammar derives. -/
namespace PerpexEngine

@[simp] theorem fail_ne_ok {α : Type} (message : String) (a : α) : fail message ≠ .ok a := nofun

theorem ite_fail_eq_ok {α : Type} {p : Prop} [Decidable p] {x : Except Text α} {message : String}
    {a : α} : (if p then x else fail message) = .ok a ↔ p ∧ x = .ok a := by
  split_ifs with h <;> simp [h]

theorem fail_ite_eq_ok {α : Type} {p : Prop} [Decidable p] {x : Except Text α} {message : String}
    {a : α} : (if p then fail message else x) = .ok a ↔ ¬p ∧ x = .ok a := by
  split_ifs with h <;> simp [h]

namespace Parser
open Json
variable {b : UInt8} {s rest : Text}

theorem consume_eq_some : consume b s = some rest ↔ s = b :: rest := by
  cases s with
  | nil => simp [consume]
  | cons current s =>
    simp only [consume]
    split_ifs with h <;> simp [h]

theorem consume_eq_none : consume b s = none ↔ ∀ rest, s ≠ b :: rest := by
  simp [Option.eq_none_iff_forall_ne_some, consume_eq_some]

theorem expect_eq_ok : expect b s = .ok rest ↔ s = b :: rest := by
  unfold expect
  rcases Option.eq_none_or_eq_some (consume b s) with h | ⟨t, h⟩
  · simp only [h, reduceCtorEq, false_iff]
    exact consume_eq_none.1 h rest
  · simp only [h, Except.ok.injEq]
    rw [consume_eq_some.1 h, List.cons.injEq]
    simp

theorem parseLiteral_eq_ok {literal : Text} :
    parseLiteral literal s = .ok rest ↔ s = literal ++ rest := by
  unfold parseLiteral
  split_ifs with h
  · rw [Except.ok.injEq]
    constructor
    · rintro rfl
      conv_lhs => rw [← List.take_append_drop literal.length s, h]
    · rintro rfl
      simp
  · simp only [fail_ne_ok, false_iff]
    rintro rfl
    exact h (by simp)

theorem exists_spaces (s : Text) : ∃ before, Spaces before ∧ s = before ++ skipWhitespace s := by
  refine ⟨s.takeWhile fun b => decide (IsSpace b), fun b hb => ?_,
    List.takeWhile_append_dropWhile.symm⟩
  have hspace := List.mem_takeWhile_imp hb
  simpa using hspace

@[simp] theorem skipWhitespace_append {before : Text} (h : Spaces before) (s : Text) :
    skipWhitespace (before ++ s) = skipWhitespace s := by
  induction before with
  | nil => rfl
  | cons b before ih =>
    have hb : IsSpace b := h b List.mem_cons_self
    have htail := ih fun c hc => h c (List.mem_cons_of_mem _ hc)
    simpa [skipWhitespace, hb] using htail

theorem skipWhitespace_cons (hb : ¬IsSpace b) (s : Text) : skipWhitespace (b :: s) = b :: s := by
  simp [skipWhitespace, hb]

section Strings

theorem hexValue_eq_ok {digit : ℕ} : hexValue b = .ok digit ↔ hexDigit b = some digit := by
  unfold hexValue
  split_ifs with h h' h''
  · simp [hexDigit, IsDigit, h]
  · have hdigit : ¬IsDigit b := h
    simp only [hexDigit, if_neg hdigit, if_pos h', Except.ok.injEq, Option.some.injEq]
    omega
  · have hdigit : ¬IsDigit b := h
    simp only [hexDigit, if_neg hdigit, if_neg h', if_pos h'', Except.ok.injEq, Option.some.injEq]
    omega
  · have hdigit : ¬IsDigit b := h
    simp [hexDigit, hdigit, h', h'']

theorem hexDigit_lt {digit : ℕ} (h : hexDigit b = some digit) : digit < 16 := by
  unfold hexDigit at h
  split at h
  · next hb =>
    have := hb.2
    cases h
    omega
  · split_ifs at h <;> cases h <;> omega

theorem shift_or {value digit : ℕ} (h : digit < 16) :
    value <<< 4 ||| digit = value * 16 + digit := by
  rw [← Nat.shiftLeft_add_eq_or_of_lt (i := 4) h, Nat.shiftLeft_eq]

theorem codeUnit_fold {a b c d : ℕ} (ha : a < 16) (hb : b < 16) (hc : c < 16) (hd : d < 16) :
    [a, b, c, d].foldl (fun value digit => (value <<< 4 ||| digit) % 2 ^ 16) 0 =
      ((a * 16 + b) * 16 + c) * 16 + d := by
  simp only [List.foldl_cons, List.foldl_nil, shift_or ha, shift_or hb, shift_or hc, shift_or hd]
  omega

theorem parseHexCodeUnit_eq_ok {unit : ℕ} :
    parseHexCodeUnit s = .ok (unit, rest) ↔ ∃ hex, CodeUnit hex unit ∧ s = hex ++ rest := by
  constructor
  · intro h
    unfold parseHexCodeUnit at h
    split at h
    · next a b c d t =>
      simp only [bind_eq_ok, hexValue_eq_ok] at h
      obtain ⟨h₁, ha, h₂, hb, h₃, hc, h₄, hd, h⟩ := h
      cases h
      exact ⟨[a, b, c, d], ⟨a, b, c, d, h₁, h₂, h₃, h₄, rfl, ha, hb, hc, hd, codeUnit_fold
        (hexDigit_lt ha) (hexDigit_lt hb) (hexDigit_lt hc) (hexDigit_lt hd)⟩, rfl⟩
    · exact absurd h (fail_ne_ok _ _)
  · rintro ⟨_, ⟨a, b, c, d, h₁, h₂, h₃, h₄, rfl, ha, hb, hc, hd, rfl⟩, rfl⟩
    show parseHexCodeUnit (a :: b :: c :: d :: rest) = _
    simp only [parseHexCodeUnit, bind_eq_ok, hexValue_eq_ok]
    refine ⟨h₁, ha, h₂, hb, h₃, hc, h₄, hd, ?_⟩
    rw [codeUnit_fold (hexDigit_lt ha) (hexDigit_lt hb) (hexDigit_lt hc) (hexDigit_lt hd)]
    rfl

theorem lead_or (high k : ℕ) {bits : ℕ} (h : bits < 2 ^ k) :
    high * 2 ^ k ||| bits = bits % 2 ^ k + high * 2 ^ k := by
  rw [← Nat.shiftLeft_eq, ← Nat.shiftLeft_add_eq_or_of_lt h, add_comm, Nat.mod_eq_of_lt h]

theorem continuation_or (value : ℕ) : 0x80 ||| (value &&& 0x3F) = value % 0x40 + 0x80 := by
  have hmask : value &&& 0x3F = value % 0x40 := Nat.and_two_pow_sub_one_eq_mod value 6
  have hlt : value % 0x40 < 2 ^ 6 := Nat.mod_lt _ (by decide)
  have hlead := lead_or 2 6 hlt
  rw [Nat.mod_eq_of_lt hlt] at hlead
  rw [hmask]
  exact hlead

theorem appendUtf8_char (c : Char) : appendUtf8 c.toNat = String.utf8EncodeChar c := by
  have hvalid : c.toNat < 0x110000 := by
    rcases c.valid with h | h
    · exact h.trans (by decide)
    · exact h.2
  have hval : c.val.toNat = c.toNat := rfl
  unfold appendUtf8 String.utf8EncodeChar
  simp only [hval]
  generalize c.toNat = v at hvalid
  split_ifs with h₁ h₂ h₃
  · rfl
  · have hlead : 0xC0 ||| v >>> 6 = v / 64 % 0x20 + 0xC0 := by
      rw [Nat.shiftRight_eq_div_pow]
      exact lead_or 6 5 (by omega)
    rw [hlead, continuation_or]
  · have hlead : 0xE0 ||| v >>> 12 = v / 4096 % 0x10 + 0xE0 := by
      rw [Nat.shiftRight_eq_div_pow]
      exact lead_or 14 4 (by omega)
    rw [hlead, continuation_or, continuation_or, Nat.shiftRight_eq_div_pow]
  · have hlead : 0xF0 ||| v >>> 18 = v / 262144 % 0x08 + 0xF0 := by
      rw [Nat.shiftRight_eq_div_pow]
      exact lead_or 30 3 (by omega)
    rw [hlead, continuation_or, continuation_or, continuation_or, Nat.shiftRight_eq_div_pow,
      Nat.shiftRight_eq_div_pow]

/-- Any number that is no surrogate and not too large is a character. -/
theorem exists_char {point : ℕ} (h : point < 0xD800 ∨ 0xDFFF < point ∧ point < 0x110000) :
    ∃ c : Char, c.toNat = point := by
  refine ⟨Char.ofNat point, ?_⟩
  rw [Char.ofNat, dif_pos h]
  rfl

theorem surrogate_or {high low : ℕ} (hlow : IsLowSurrogate low) :
    (high - 0xD800) <<< 10 ||| (low - 0xDC00) = (high - 0xD800) * 0x400 + (low - 0xDC00) := by
  have hlt : low - 0xDC00 < 2 ^ 10 := by
    have := hlow.2
    omega
  rw [← Nat.shiftLeft_add_eq_or_of_lt hlt, Nat.shiftLeft_eq]

theorem consumeEscapeU_eq_some :
    consumeEscapeU s = some rest ↔ s = byte '\\' :: byte 'u' :: rest := by
  simp only [consumeEscapeU, Option.bind_eq_some_iff, consume_eq_some]
  constructor
  · rintro ⟨_, rfl, rfl⟩
    rfl
  · rintro rfl
    exact ⟨_, rfl, rfl⟩

theorem escape_of_unicode {denoted : Text} (h : appendUnicodeEscape s = .ok (denoted, rest)) :
    ∃ hex, Escape (byte 'u' :: hex) denoted ∧ s = hex ++ rest := by
  simp only [appendUnicodeEscape, bind_eq_ok] at h
  obtain ⟨⟨first, s₁⟩, hfirst, h⟩ := h
  obtain ⟨hex, hunit, rfl⟩ := parseHexCodeUnit_eq_ok.1 hfirst
  simp only at h
  split at h
  · next hhigh =>
    rcases Option.eq_none_or_eq_some (consumeEscapeU s₁) with hc | ⟨s₂, hc⟩
    · simp only [hc, fail_ne_ok] at h
    · simp only [hc, bind_eq_ok] at h
      obtain ⟨⟨second, s₃⟩, hsecond, h⟩ := h
      obtain ⟨hex', hunit', rfl⟩ := parseHexCodeUnit_eq_ok.1 hsecond
      simp only at h
      split at h
      · next hlow =>
        cases h
        rw [consumeEscapeU_eq_some.1 hc, surrogate_or hlow]
        obtain ⟨c, hc⟩ : ∃ c : Char,
            c.toNat = 0x10000 + ((first - 0xD800) * 0x400 + (second - 0xDC00)) := by
          apply exists_char
          unfold IsHighSurrogate IsLowSurrogate at *
          omega
        rw [← hc, appendUtf8_char]
        refine ⟨_, .surrogates c hunit hunit' ⟨hhigh.1, hhigh.2, hlow.1, hlow.2, ?_⟩, by simp⟩
        rw [hc, add_assoc]
      · exact absurd h (fail_ne_ok _ _)
  · next hhigh =>
    split at h
    · exact absurd h (fail_ne_ok _ _)
    · next hlow =>
      cases h
      obtain ⟨c, rfl⟩ : ∃ c : Char, c.toNat = first := by
        apply exists_char
        have hlt : first < 0x10000 := by
          obtain ⟨a, b, c, d, h₁, h₂, h₃, h₄, -, ha, hb, hc, hd, rfl⟩ := hunit
          have := hexDigit_lt ha
          have := hexDigit_lt hb
          have := hexDigit_lt hc
          have := hexDigit_lt hd
          omega
        unfold IsHighSurrogate IsLowSurrogate at *
        omega
      rw [appendUtf8_char]
      exact ⟨hex, .unicode c hunit, rfl⟩

theorem simpleEscape_u : simpleEscape (byte 'u') = none := rfl

theorem unicode_of_escape {raw denoted : Text} (h : Escape (byte 'u' :: raw) denoted) :
    appendUnicodeEscape (raw ++ rest) = .ok (denoted, rest) := by
  simp only [appendUnicodeEscape, bind_eq_ok]
  cases h with
  | simple h =>
    rw [simpleEscape_u] at h
    cases h
  | unicode c hunit =>
    refine ⟨(c.toNat, rest), parseHexCodeUnit_eq_ok.2 ⟨raw, hunit, rfl⟩, ?_⟩
    have hscalar : ¬IsHighSurrogate c.toNat ∧ ¬IsLowSurrogate c.toNat := by
      have hvalid : c.toNat < 0xD800 ∨ 0xDFFF < c.toNat ∧ c.toNat < 0x110000 := c.valid
      unfold IsHighSurrogate IsLowSurrogate
      omega
    simp only [if_neg hscalar.1, if_neg hscalar.2, appendUtf8_char]
    rfl
  | @surrogates hex hex' high low c hhigh hlow hc =>
    refine ⟨(high, byte '\\' :: byte 'u' :: (hex' ++ rest)),
      parseHexCodeUnit_eq_ok.2 ⟨hex, hhigh, by simp⟩, ?_⟩
    have hescape : consumeEscapeU (byte '\\' :: byte 'u' :: (hex' ++ rest)) = some (hex' ++ rest) :=
      consumeEscapeU_eq_some.2 rfl
    have hlows : IsLowSurrogate low := ⟨hc.2.2.1, hc.2.2.2.1⟩
    simp only [if_pos (show IsHighSurrogate high from ⟨hc.1, hc.2.1⟩), hescape, bind_eq_ok]
    refine ⟨(low, rest), parseHexCodeUnit_eq_ok.2 ⟨hex', hlow, rfl⟩, ?_⟩
    simp only [if_pos hlows, surrogate_or hlows]
    rw [← add_assoc, ← hc.2.2.2.2, appendUtf8_char]
    rfl

theorem parseEscape_cons (escaped : UInt8) (s : Text) :
    parseEscape (escaped :: s) = match simpleEscape escaped with
      | some b => .ok ([b], s)
      | none =>
        if escaped = byte 'u' then appendUnicodeEscape s else fail "invalid escape sequence" := by
  simp only [parseEscape, simpleEscape]
  split_ifs <;> rfl

theorem parseEscape_eq_ok {denoted : Text} :
    parseEscape s = .ok (denoted, rest) ↔ ∃ raw, Escape raw denoted ∧ s = raw ++ rest := by
  cases s with
  | nil =>
    simp only [parseEscape, fail_ne_ok, false_iff]
    rintro ⟨raw, h, hnil⟩
    cases h <;> cases hnil
  | cons escaped s =>
    rw [parseEscape_cons]
    rcases Option.eq_none_or_eq_some (simpleEscape escaped) with hnone | ⟨b, hsome⟩
    · simp only [hnone]
      constructor
      · intro h
        split at h
        · next hu =>
          obtain ⟨hex, hescape, rfl⟩ := escape_of_unicode h
          exact ⟨_, hescape, by rw [hu]; rfl⟩
        · exact absurd h (fail_ne_ok _ _)
      · rintro ⟨raw, h, hraw⟩
        have hhead : ∃ tail, raw = byte 'u' :: tail := by
          cases h with
          | simple h =>
            cases hraw
            rw [hnone] at h
            cases h
          | unicode | surrogates => exact ⟨_, rfl⟩
        obtain ⟨tail, rfl⟩ := hhead
        rw [List.cons_append, List.cons.injEq] at hraw
        rw [if_pos hraw.1, hraw.2]
        exact unicode_of_escape h
    · simp only [hsome, Except.ok.injEq, Prod.mk.injEq]
      constructor
      · rintro ⟨rfl, rfl⟩
        exact ⟨[escaped], .simple hsome, rfl⟩
      · rintro ⟨raw, h, hraw⟩
        cases h with
        | simple h =>
          cases hraw
          rw [hsome] at h
          cases h
          exact ⟨rfl, rfl⟩
        | unicode | surrogates =>
          rw [List.cons_append, List.cons.injEq] at hraw
          rw [hraw.1, simpleEscape_u] at hsome
          cases hsome

theorem isUnescaped_iff : IsUnescaped b ↔ b ≠ byte '"' ∧ b ≠ byte '\\' ∧ ¬b.toNat < 0x20 := by
  unfold IsUnescaped
  rw [not_lt]
  tauto

theorem chars_of_parseChars {fuel : ℕ} {result value : Text}
    (h : parseChars fuel result s = .ok (value, rest)) :
    ∃ raw denoted, Chars raw denoted ∧ value = result ++ denoted ∧ s = raw ++ byte '"' :: rest := by
  induction fuel generalizing result s with
  | zero => exact absurd h (fail_ne_ok _ _)
  | succ fuel ih =>
    cases s with
    | nil => exact absurd h (fail_ne_ok _ _)
    | cons current s =>
      unfold parseChars at h
      split_ifs at h with hquote hescape hcontrol
      · cases h
        exact ⟨[], [], .nil, by simp, by rw [hquote]; rfl⟩
      · obtain ⟨⟨appended, s'⟩, hparsed, hrest⟩ := bind_eq_ok.1 h
        obtain ⟨escaped, he, rfl⟩ := parseEscape_eq_ok.1 hparsed
        obtain ⟨raw, denoted, hchars, rfl, rfl⟩ := ih hrest
        exact ⟨_, _, .escape he hchars, by simp, by rw [hescape]; simp⟩
      · exact absurd h (fail_ne_ok _ _)
      · obtain ⟨raw, denoted, hchars, rfl, rfl⟩ := ih h
        exact ⟨_, _, .plain (isUnescaped_iff.2 ⟨hquote, hescape, hcontrol⟩) hchars, by simp, rfl⟩

theorem parseChars_of_chars {raw denoted : Text} (h : Chars raw denoted) {fuel : ℕ}
    (hfuel : raw.length < fuel) (result : Text) :
    parseChars fuel result (raw ++ byte '"' :: rest) = .ok (result ++ denoted, rest) := by
  induction h generalizing fuel result with
  | nil =>
    obtain ⟨fuel, rfl⟩ := Nat.exists_eq_add_one_of_ne_zero (Nat.ne_zero_of_lt hfuel)
    simp [parseChars]
  | @plain b raw s hb h ih =>
    obtain ⟨fuel, rfl⟩ := Nat.exists_eq_add_one_of_ne_zero (Nat.ne_zero_of_lt hfuel)
    obtain ⟨hquote, hescape, hcontrol⟩ := isUnescaped_iff.1 hb
    rw [List.cons_append, parseChars, if_neg hquote, if_neg hescape, if_neg hcontrol,
      ih (Nat.lt_of_succ_lt_succ hfuel)]
    simp
  | @escape escaped denoted raw s he h ih =>
    obtain ⟨fuel, rfl⟩ := Nat.exists_eq_add_one_of_ne_zero (Nat.ne_zero_of_lt hfuel)
    rw [List.cons_append, parseChars, if_neg (by decide), if_pos rfl, bind_eq_ok]
    refine ⟨_, parseEscape_eq_ok.2 ⟨escaped, he, List.append_assoc _ _ _⟩, ?_⟩
    simp only [List.length_cons, List.length_append] at hfuel
    rw [← List.append_assoc]
    exact ih (by omega) _

theorem parseString_eq_ok {value : Text} :
    parseString s = .ok (value, rest) ↔ ∃ raw, Quoted raw value ∧ s = raw ++ rest := by
  simp only [parseString, bind_eq_ok, expect_eq_ok]
  constructor
  · rintro ⟨s, rfl, h⟩
    obtain ⟨raw, denoted, hchars, rfl, rfl⟩ := chars_of_parseChars h
    exact ⟨_, ⟨raw, hchars, rfl⟩, by simp⟩
  · rintro ⟨_, ⟨raw, hchars, rfl⟩, rfl⟩
    refine ⟨raw ++ byte '"' :: rest, by simp, ?_⟩
    have hfuel : raw.length < (raw ++ byte '"' :: rest).length + 1 := by
      simp only [List.length_append, List.length_cons]
      omega
    exact parseChars_of_chars hchars hfuel []

end Strings

section Numbers

theorem exists_digits (h : IsDigit (peek s)) :
    ∃ digits, Digits digits ∧ s = digits ++ consumeDigits s := by
  refine ⟨s.takeWhile fun b => decide (IsDigit b), ⟨?_, fun b hb => ?_⟩,
    List.takeWhile_append_dropWhile.symm⟩
  · cases s with
    | nil => exact absurd h (by decide)
    | cons b s => simp [show IsDigit b from h]
  · have hdigit := List.mem_takeWhile_imp hb
    simpa using hdigit

theorem consumeDigits_append {digits : Text} (h : ∀ b ∈ digits, IsDigit b)
    (hrest : ¬IsDigit (peek rest)) : consumeDigits (digits ++ rest) = rest := by
  unfold consumeDigits
  rw [List.dropWhile_append_of_pos (by simpa using h)]
  cases rest with
  | nil => rfl
  | cons b rest => simp [show ¬IsDigit b from hrest]

theorem peek_digits {digits : Text} (h : Digits digits) (s : Text) :
    IsDigit (peek (digits ++ s)) := by
  cases digits with
  | nil => exact absurd rfl h.1
  | cons b digits => exact h.2 b List.mem_cons_self

theorem isNonZeroDigit_iff : IsNonZeroDigit b ↔ IsDigit b ∧ b ≠ byte '0' := by
  have hzero : b = byte '0' ↔ b.toNat = 48 := UInt8.toNat_inj.symm
  unfold IsNonZeroDigit IsDigit
  rw [ne_eq, hzero]
  omega

theorem int_of_skipInteger (h : skipInteger s = .ok rest) : ∃ int, IsInt int ∧ s = int ++ rest := by
  unfold skipInteger at h
  rcases Option.eq_none_or_eq_some (consume (byte '0') s) with hc | ⟨t, hc⟩
  · simp only [hc, ite_fail_eq_ok] at h
    obtain ⟨hnonzero, h⟩ := h
    cases h
    obtain ⟨digits, hdigits, hs⟩ := exists_digits (isNonZeroDigit_iff.1 hnonzero).1
    refine ⟨digits, .inr ⟨hdigits, fun hhead => ?_⟩, hs⟩
    obtain ⟨tail, rfl⟩ := List.head?_eq_some_iff.1 hhead
    exact consume_eq_none.1 hc _ hs
  · simp only [hc, fail_ite_eq_ok] at h
    cases h.2
    exact ⟨[byte '0'], .inl rfl, consume_eq_some.1 hc⟩

theorem skipInteger_of_int {int : Text} (h : IsInt int) (hrest : ¬IsDigit (peek rest)) :
    skipInteger (int ++ rest) = .ok rest := by
  unfold skipInteger
  rcases h with rfl | ⟨hdigits, hhead⟩
  · simp [consume, hrest]
  · have hnone : consume (byte '0') (int ++ rest) = none := by
      apply consume_eq_none.2
      intro t ht
      cases int with
      | nil => exact hdigits.1 rfl
      | cons b int => exact hhead (congrArg some (List.cons.inj ht).1)
    have hnonzero : IsNonZeroDigit (peek (int ++ rest)) := by
      refine isNonZeroDigit_iff.2 ⟨peek_digits hdigits rest, ?_⟩
      cases int with
      | nil => exact absurd rfl hdigits.1
      | cons b int => exact fun hb => hhead (congrArg some hb)
    simp only [hnone, if_pos hnonzero, consumeDigits_append hdigits.2 hrest]

theorem fraction_of_skipFraction (h : skipFraction s = .ok rest) :
    ∃ fraction, IsFraction fraction ∧ s = fraction ++ rest := by
  unfold skipFraction at h
  rcases Option.eq_none_or_eq_some (consume (byte '.') s) with hc | ⟨t, hc⟩
  · simp only [hc] at h
    cases h
    exact ⟨[], .inl rfl, rfl⟩
  · simp only [hc, ite_fail_eq_ok] at h
    obtain ⟨hdigit, h⟩ := h
    cases h
    obtain ⟨digits, hdigits, ht⟩ := exists_digits hdigit
    refine ⟨byte '.' :: digits, .inr ⟨digits, hdigits, rfl⟩, ?_⟩
    rw [consume_eq_some.1 hc, List.cons_append, ← ht]

theorem skipFraction_of_fraction {fraction : Text} (h : IsFraction fraction)
    (hrest : ¬IsDigit (peek rest)) (hpoint : peek rest ≠ byte '.') :
    skipFraction (fraction ++ rest) = .ok rest := by
  unfold skipFraction
  rcases h with rfl | ⟨digits, hdigits, rfl⟩
  · have hnone : consume (byte '.') rest = none :=
      consume_eq_none.2 fun t ht => hpoint (by rw [ht]; rfl)
    simp only [List.nil_append, hnone]
  · have hsome : consume (byte '.') (byte '.' :: digits ++ rest) = some (digits ++ rest) :=
      consume_eq_some.2 rfl
    simp only [hsome, if_pos (peek_digits hdigits rest), consumeDigits_append hdigits.2 hrest]

theorem peek_eq (h : peek s = b) (hb : b ≠ 0) : s = b :: s.tail := by
  cases s with
  | nil => exact absurd h.symm hb
  | cons current s =>
    cases h
    rfl

theorem exists_exponentSign (s : Text) : ∃ sign,
    (sign = [] ∨ sign = [byte '+'] ∨ sign = [byte '-']) ∧ s = sign ++ skipExponentSign s := by
  unfold skipExponentSign
  split_ifs with h
  · rcases h with h | h
    · exact ⟨[byte '+'], by simp, peek_eq h (by decide)⟩
    · exact ⟨[byte '-'], by simp, peek_eq h (by decide)⟩
  · exact ⟨[], by simp, rfl⟩

theorem exponent_of_skipExponent (h : skipExponent s = .ok rest) :
    ∃ exponent, IsExponent exponent ∧ s = exponent ++ rest := by
  unfold skipExponent at h
  split_ifs at h with hmark
  · obtain ⟨hdigit, h⟩ := ite_fail_eq_ok.1 h
    cases h
    obtain ⟨digits, hdigits, ht⟩ := exists_digits hdigit
    obtain ⟨sign, hsign, hs⟩ := exists_exponentSign s.tail
    obtain ⟨mark, hmarks, hmark⟩ : ∃ mark, (mark = byte 'e' ∨ mark = byte 'E') ∧
        s = mark :: s.tail := by
      rcases hmark with hmark | hmark
      · exact ⟨byte 'e', .inl rfl, peek_eq hmark (by decide)⟩
      · exact ⟨byte 'E', .inr rfl, peek_eq hmark (by decide)⟩
    refine ⟨mark :: sign ++ digits, .inr ⟨mark, sign, digits, hmarks, hsign, hdigits, rfl⟩, ?_⟩
    rw [List.append_assoc, ← ht, List.cons_append, ← hs]
    exact hmark
  · cases h
    exact ⟨[], .inl rfl, rfl⟩

theorem skipExponentSign_append {sign digits : Text}
    (hsign : sign = [] ∨ sign = [byte '+'] ∨ sign = [byte '-']) (hdigits : Digits digits)
    (rest : Text) : skipExponentSign (sign ++ digits ++ rest) = digits ++ rest := by
  unfold skipExponentSign
  rcases hsign with rfl | rfl | rfl
  · have hdigit := peek_digits hdigits rest
    rw [List.nil_append, if_neg]
    rintro (h | h) <;> exact absurd (h ▸ hdigit) (by decide)
  · rfl
  · rfl

theorem skipExponent_of_exponent {exponent : Text} (h : IsExponent exponent)
    (hrest : ¬IsDigit (peek rest)) (hmark : ¬(peek rest = byte 'e' ∨ peek rest = byte 'E')) :
    skipExponent (exponent ++ rest) = .ok rest := by
  unfold skipExponent
  rcases h with rfl | ⟨mark, sign, digits, hmark', hsign, hdigits, rfl⟩
  · rw [List.nil_append, if_neg hmark]
  · have hpeek : peek (mark :: sign ++ digits ++ rest) = mark := rfl
    rw [hpeek, if_pos hmark']
    simp only [List.cons_append, List.tail_cons, skipExponentSign_append hsign hdigits,
      if_pos (peek_digits hdigits rest), consumeDigits_append hdigits.2 hrest]

/-- No number goes on with what comes next. -/
structure Stops (rest : Text) : Prop where
  digit : ¬IsDigit (peek rest)
  point : peek rest ≠ byte '.'
  mark : ¬(peek rest = byte 'e' ∨ peek rest = byte 'E')

theorem fraction_not_digit {fraction : Text} (h : IsFraction fraction)
    (hrest : ¬IsDigit (peek rest)) : ¬IsDigit (peek (fraction ++ rest)) := by
  rcases h with rfl | ⟨digits, -, rfl⟩
  · exact hrest
  · exact (by decide : ¬IsDigit (byte '.'))

theorem exponent_not_digit {exponent : Text} (h : IsExponent exponent)
    (hrest : ¬IsDigit (peek rest)) : ¬IsDigit (peek (exponent ++ rest)) := by
  rcases h with rfl | ⟨mark, sign, digits, rfl | rfl, -, -, rfl⟩
  · exact hrest
  · exact (by decide : ¬IsDigit (byte 'e'))
  · exact (by decide : ¬IsDigit (byte 'E'))

theorem exponent_not_point {exponent : Text} (h : IsExponent exponent)
    (hrest : peek rest ≠ byte '.') : peek (exponent ++ rest) ≠ byte '.' := by
  rcases h with rfl | ⟨mark, sign, digits, rfl | rfl, -, -, rfl⟩
  · exact hrest
  · exact (by decide : byte 'e' ≠ byte '.')
  · exact (by decide : byte 'E' ≠ byte '.')

theorem int_digit {int : Text} (h : IsInt int) (rest : Text) : IsDigit (peek (int ++ rest)) := by
  rcases h with rfl | h
  · exact (by decide : IsDigit (byte '0'))
  · exact peek_digits h.1 rest

theorem exists_sign (s : Text) : ∃ minus, (minus = [] ∨ minus = [byte '-']) ∧
    s = minus ++ skipSign s := by
  unfold skipSign
  rcases Option.eq_none_or_eq_some (consume (byte '-') s) with hc | ⟨t, hc⟩
  · rw [hc]
    exact ⟨[], .inl rfl, rfl⟩
  · rw [hc]
    exact ⟨[byte '-'], .inr rfl, consume_eq_some.1 hc⟩

theorem skipSign_append {minus : Text} (hminus : minus = [] ∨ minus = [byte '-'])
    (hs : IsDigit (peek s)) : skipSign (minus ++ s) = s := by
  unfold skipSign
  rcases hminus with rfl | rfl
  · have hnone : consume (byte '-') s = none := by
      apply consume_eq_none.2
      rintro rest rfl
      exact absurd hs (by decide : ¬IsDigit (byte '-'))
    rw [List.nil_append, hnone]
    rfl
  · rfl

theorem number_of_skipNumber (h : skipNumber s = .ok rest) :
    ∃ lexeme, IsNumber lexeme ∧ s = lexeme ++ rest := by
  simp only [skipNumber, fail_ite_eq_ok, bind_eq_ok] at h
  obtain ⟨-, s₁, h₁, s₂, h₂, h₃⟩ := h
  obtain ⟨minus, hminus, hs⟩ := exists_sign s
  obtain ⟨int, hint, hs₀⟩ := int_of_skipInteger h₁
  obtain ⟨fraction, hfraction, rfl⟩ := fraction_of_skipFraction h₂
  obtain ⟨exponent, hexponent, rfl⟩ := exponent_of_skipExponent h₃
  refine ⟨minus ++ int ++ fraction ++ exponent, ⟨_, _, _, ⟨_, _, hminus, hint, rfl⟩, hfraction,
    hexponent, rfl⟩, ?_⟩
  rw [hs, hs₀]
  simp

theorem skipNumber_of_number {lexeme : Text} (h : IsNumber lexeme) (hrest : Stops rest) :
    skipNumber (lexeme ++ rest) = .ok rest := by
  obtain ⟨_, fraction, exponent, ⟨minus, int, hminus, hint, rfl⟩, hfraction, hexponent, rfl⟩ := h
  have hdigit := int_digit hint (fraction ++ (exponent ++ rest))
  have hsign : skipSign (minus ++ (int ++ (fraction ++ (exponent ++ rest)))) =
      int ++ (fraction ++ (exponent ++ rest)) := skipSign_append hminus hdigit
  have hne : int ++ (fraction ++ (exponent ++ rest)) ≠ [] := by
    intro hnil
    rw [hnil] at hdigit
    exact absurd hdigit (by decide)
  have hexponentDigit := exponent_not_digit hexponent hrest.digit
  simp only [List.append_assoc, skipNumber, hsign, if_neg hne, bind_eq_ok]
  exact ⟨_, skipInteger_of_int hint (fraction_not_digit hfraction hexponentDigit), _,
    skipFraction_of_fraction hfraction hexponentDigit (exponent_not_point hexponent hrest.point),
    skipExponent_of_exponent hexponent hrest.digit hrest.mark⟩

theorem number_of_parseNumber {lexeme : Text} (h : parseNumber s = .ok (lexeme, rest)) :
    IsNumber lexeme ∧ s = lexeme ++ rest := by
  obtain ⟨t, ht, h⟩ := bind_eq_ok.1 h
  cases h
  obtain ⟨lexeme, hlexeme, rfl⟩ := number_of_skipNumber ht
  simpa using hlexeme

theorem parseNumber_of_number {lexeme : Text} (h : IsNumber lexeme) (hrest : Stops rest) :
    parseNumber (lexeme ++ rest) = .ok (lexeme, rest) := by
  apply bind_eq_ok.2
  refine ⟨rest, skipNumber_of_number h hrest, ?_⟩
  simp [pure, Except.pure]

end Numbers

theorem parseKey_eq_ok {key : Text} :
    parseKey s = .ok (key, rest) ↔ ∃ name, Name name key ∧ s = name ++ byte ':' :: rest := by
  simp only [parseKey, ite_fail_eq_ok, bind_eq_ok]
  constructor
  · rintro ⟨-, ⟨_, s₁⟩, hkey, s₂, hcolon, h⟩
    cases h
    obtain ⟨quoted, hquoted, hs₀⟩ := parseString_eq_ok.1 hkey
    obtain ⟨before, hbefore, hs⟩ := exists_spaces s
    obtain ⟨after, hafter, hs₁⟩ := exists_spaces s₁
    refine ⟨before ++ quoted ++ after, ⟨_, _, _, hbefore, hquoted, hafter, rfl⟩, ?_⟩
    rw [hs, hs₀, hs₁, expect_eq_ok.1 hcolon]
    simp
  · rintro ⟨_, ⟨before, quoted, after, hbefore, hquoted, hafter, rfl⟩, rfl⟩
    have hskip : skipWhitespace (before ++ quoted ++ after ++ byte ':' :: rest) =
        quoted ++ (after ++ byte ':' :: rest) := by
      obtain ⟨chars, -, rfl⟩ := hquoted
      simp only [List.append_assoc, skipWhitespace_append hbefore]
      exact skipWhitespace_cons (by decide) _
    have hpeek : peek (quoted ++ (after ++ byte ':' :: rest)) = byte '"' := by
      obtain ⟨chars, -, rfl⟩ := hquoted
      rfl
    rw [hskip]
    refine ⟨hpeek, _, parseString_eq_ok.2 ⟨quoted, hquoted, rfl⟩, rest, ?_, rfl⟩
    rw [skipWhitespace_append hafter, skipWhitespace_cons (by decide)]
    exact expect_eq_ok.2 rfl

end Parser
end PerpexEngine
