import PerpexEngine.Lib.LineReader
import PerpexEngine.Recovery.CheckpointNames
import PerpexEngine.Recovery.Restores

/-! The fields of a checkpoint file: how a value is written between two tabs, and that reading it
gives it back. -/
namespace PerpexEngine

section Texts

def escapeChar (ch : UInt8) : Text :=
  if ch = 92 then [92, 92]
  else if ch = 10 then [92, 110]
  else if ch = 13 then [92, 114]
  else if ch = 9 then [92, 116]
  else if ch < 32 then
    [92, 120, filenameHexDigit (ch.toNat / 16), filenameHexDigit (ch.toNat % 16)]
  else [ch]

def escapeField (value : Text) : Text := value.flatMap escapeChar

def hexValue (value : UInt8) : Option ℕ :=
  if 48 ≤ value ∧ value ≤ 57 then some (value.toNat - 48)
  else if 65 ≤ value ∧ value ≤ 70 then some (value.toNat - 65 + 10)
  else if 97 ≤ value ∧ value ≤ 102 then some (value.toNat - 97 + 10)
  else none

def unescapeField : Text → Except Text Text
  | [] => pure []
  | ch :: rest =>
    if ch ≠ 92 then do
      let unescaped ← unescapeField rest
      pure (ch :: unescaped)
    else
      match rest with
      | [] => throw (ascii "trailing escape in checkpoint field")
      | code :: rest =>
        if code = 120 then
          match rest with
          | high :: low :: rest =>
            match hexValue high, hexValue low with
            | some high, some low => do
              let unescaped ← unescapeField rest
              pure ((high * 16 + low).toUInt8 :: unescaped)
            | _, _ => throw (ascii "invalid hex escape in checkpoint field")
          | _ => throw (ascii "incomplete hex escape in checkpoint field")
        else if code = 92 then do
          let unescaped ← unescapeField rest
          pure (92 :: unescaped)
        else if code = 110 then do
          let unescaped ← unescapeField rest
          pure (10 :: unescaped)
        else if code = 114 then do
          let unescaped ← unescapeField rest
          pure (13 :: unescaped)
        else if code = 116 then do
          let unescaped ← unescapeField rest
          pure (9 :: unescaped)
        else throw (ascii "invalid escape in checkpoint field")

theorem hexValue_filenameHexDigit : ∀ n < 16, hexValue (filenameHexDigit n) = some n := by decide

/-- Every byte is read back from its escape, whatever follows. -/
theorem unescapeField_escapeChar (ch : UInt8) (rest : Text) :
    unescapeField (escapeChar ch ++ rest) =
      (unescapeField rest >>= fun unescaped => pure (ch :: unescaped)) := by
  by_cases hbackslash : ch = 92
  · subst hbackslash
    rw [unescapeField.eq_def]
    rfl
  by_cases hnewline : ch = 10
  · subst hnewline
    rw [unescapeField.eq_def]
    rfl
  by_cases hreturn : ch = 13
  · subst hreturn
    rw [unescapeField.eq_def]
    rfl
  by_cases htab : ch = 9
  · subst htab
    rw [unescapeField.eq_def]
    rfl
  unfold escapeChar
  rw [if_neg hbackslash, if_neg hnewline, if_neg hreturn, if_neg htab]
  by_cases hcontrol : ch < 32
  · have hlt := ch.toNat_lt
    have hbyte : (ch.toNat / 16 * 16 + ch.toNat % 16).toUInt8 = ch := by
      rw [Nat.div_add_mod']
      exact UInt8.ofNat_toNat
    rw [if_pos hcontrol]
    simp only [List.cons_append, List.nil_append, unescapeField, ne_eq, not_true, if_false,
      if_true, hexValue_filenameHexDigit _ (show ch.toNat / 16 < 16 by omega),
      hexValue_filenameHexDigit _ (show ch.toNat % 16 < 16 by omega), hbyte]
  · rw [if_neg hcontrol, List.singleton_append, unescapeField.eq_def]
    exact if_pos hbackslash

theorem unescapeField_escapeField (value : Text) : unescapeField (escapeField value) = .ok value := by
  induction value with
  | nil => rfl
  | cons ch value ih =>
    have hcons : escapeField (ch :: value) = escapeChar ch ++ escapeField value :=
      List.flatMap_cons
    rw [hcons, unescapeField_escapeChar, ih]
    rfl

/-- What separates fields and lines, and what a line loses at its end. -/
def IsControl (b : UInt8) : Prop := b = 9 ∨ b = 10 ∨ b = 13

instance (b : UInt8) : Decidable (IsControl b) := inferInstanceAs (Decidable (_ ∨ _))

def IsPlain (t : Text) : Prop := ∀ b ∈ t, ¬IsControl b

instance (t : Text) : Decidable (IsPlain t) := List.decidableBAll _ t

theorem isPlain_escapeChar (ch : UInt8) : IsPlain (escapeChar ch) := by
  have hhex : ∀ n < 16, ¬IsControl (filenameHexDigit n) := by decide
  have hlt := ch.toNat_lt
  unfold escapeChar
  split_ifs with hbackslash hnewline hreturn htab hcontrol
  · decide
  · decide
  · decide
  · decide
  · intro b hb
    simp only [List.mem_cons, List.not_mem_nil, or_false] at hb
    rcases hb with rfl | rfl | rfl | rfl
    · decide
    · decide
    · exact hhex _ (by omega)
    · exact hhex _ (by omega)
  · intro b hb
    rw [List.mem_singleton.1 hb]
    rintro (h | h | h) <;> contradiction

@[simp] theorem isPlain_escapeField (value : Text) : IsPlain (escapeField value) := by
  intro b hb
  obtain ⟨ch, -, hch⟩ := List.mem_flatMap.1 hb
  exact isPlain_escapeChar ch b hch

@[simp] theorem isPlain_nil : IsPlain [] := fun _ hb => nomatch hb

@[simp] theorem isPlain_text (z : ℤ) : IsPlain (text z) := by
  intro b hb hcontrol
  refine not_mem_text (fun hdigit => ?_) ?_ z hb
  · rcases hcontrol with rfl | rfl | rfl <;> exact absurd hdigit (by decide)
  · rcases hcontrol with rfl | rfl | rfl <;> decide

@[simp] theorem isPlain_decimal (n : ℕ) : IsPlain (decimal n) := isPlain_text n

end Texts

section Numbers

theorem digitsValue_of_digits {digits : Text} (h : ∀ b ∈ digits, IsDigit b) (n : ℕ) :
    digitsValue n digits = some (digits.foldl (fun n b => 10 * n + (b.toNat - 48)) n) := by
  induction digits generalizing n with
  | nil => rfl
  | cons b digits ih =>
    rw [digitsValue, if_pos (h b List.mem_cons_self), List.foldl_cons]
    exact ih (fun c hc => h c (List.mem_cons_of_mem _ hc)) _

theorem digitsValue_decimal (n : ℕ) : digitsValue 0 (decimal n) = some n := by
  rw [digitsValue_of_digits fun b hb => isDigit_of_mem_decimal hb]
  exact congrArg some (numeral_decimal n)

@[simp] theorem parseUnsigned_decimal {bits n : ℕ} (h : n < 2 ^ bits) :
    parseUnsigned bits (decimal n) = .ok n := by
  unfold parseUnsigned
  rw [digitsValue_decimal]
  dsimp only
  rw [if_neg (not_or.2 ⟨decimal_ne_nil n, not_le.2 h⟩)]
  rfl

theorem parseInt64_decimal {n : ℕ} (h : n < 2 ^ 63) : parseInt64 (decimal n) = .ok n := by
  have hvalue := digitsValue_decimal n
  have hne := decimal_ne_nil n
  have hdigits : ∀ b ∈ decimal n, IsDigit b := fun b => isDigit_of_mem_decimal
  generalize decimal n = value at *
  cases value with
  | nil => exact absurd rfl hne
  | cons b digits =>
    have hminus : b ≠ 45 := by
      rintro rfl
      exact absurd (hdigits 45 List.mem_cons_self) (by decide)
    unfold parseInt64
    simp only [hminus, if_false, hvalue, hne, false_or]
    rw [if_neg (by omega)]
    rfl

@[simp] theorem parseInt64_text {z : ℤ} (h : FitsInt64 z) : parseInt64 (text z) = .ok z := by
  cases z with
  | ofNat n => exact parseInt64_decimal (Int.ofNat_lt.1 h.2)
  | negSucc n =>
    have hfits : (n : ℤ) + 1 ≤ 2 ^ 63 := by
      have := h.1
      omega
    change parseInt64 (45 :: decimal (n + 1)) = _
    unfold parseInt64
    simp only [if_true, digitsValue_decimal, decimal_ne_nil, false_or]
    rw [if_neg (by omega)]
    rfl

/-- `std::from_chars` of a whole field into an `int32_t`; a number out of its range is refused just
as one that is out of the range of an `int64_t`. -/
def parseInt32 (value : Text) : Except Text ℤ := do
  let parsed ← parseInt64 value
  if parsed < -2 ^ 31 ∨ 2 ^ 31 ≤ parsed then throw (ascii "invalid integer in checkpoint field")
  else pure parsed

@[simp] theorem parseInt32_text {z : ℤ} (h : FitsInt32 z) : parseInt32 (text z) = .ok z := by
  obtain ⟨hmin, hmax⟩ := h
  unfold parseInt32
  rw [parseInt64_text (by unfold FitsInt64; omega)]
  change (if z < -2 ^ 31 ∨ 2 ^ 31 ≤ z then _ else pure z) = _
  rw [if_neg (by omega)]
  rfl

def parseUint8 (value : Text) : Except Text ℕ := do
  let parsed ← parseUnsigned 32 value
  if 2 ^ 8 ≤ parsed then throw (ascii "uint8 checkpoint field out of range") else pure parsed

@[simp] theorem parseUint8_decimal {n : ℕ} (h : n < 2 ^ 8) : parseUint8 (decimal n) = .ok n := by
  unfold parseUint8
  rw [parseUnsigned_decimal (by omega)]
  change (if 2 ^ 8 ≤ n then _ else pure n) = _
  rw [if_neg (by omega)]
  rfl

end Numbers

section Enumerations

def boolField (value : Bool) : Text := if value then ascii "1" else ascii "0"

def parseBool (value : Text) : Except Text Bool :=
  if value = ascii "0" then pure false
  else if value = ascii "1" then pure true
  else throw (ascii "invalid boolean in checkpoint field")

@[simp] theorem isPlain_boolField (value : Bool) : IsPlain (boolField value) := by
  cases value <;> decide

@[simp] theorem parseBool_boolField (value : Bool) : parseBool (boolField value) = .ok value := by
  cases value <;> rfl

/-- `enum_field`, given the values of the enumerators. -/
def enumField {α : Type} (code : α → ℕ) (value : α) : Text := decimal (code value)

@[simp] theorem isPlain_enumField {α : Type} (code : α → ℕ) (value : α) :
    IsPlain (enumField code value) := isPlain_decimal _

/-- An integer, and a switch over the enumerators. -/
def parseEnum {α : Type} (code : α → ℕ) (enumerators : List α) (error : String) (value : Text) :
    Except Text α := do
  let parsed ← parseInt32 value
  match enumerators.find? fun e => (code e : ℤ) = parsed with
  | some e => pure e
  | none => throw (ascii error)

theorem parseEnum_enumField {α : Type} {code : α → ℕ} {enumerators : List α} {value : α}
    (hmem : value ∈ enumerators) (hinj : ∀ e ∈ enumerators, code e = code value → e = value)
    (hcode : code value < 2 ^ 31) (error : String) :
    parseEnum code enumerators error (enumField code value) = .ok value := by
  have hparsed : parseInt32 (enumField code value) = .ok (code value : ℤ) :=
    @parseInt32_text (code value) ⟨by omega, by omega⟩
  have hfound : enumerators.find? (fun e => decide ((code e : ℤ) = code value)) = some value := by
    cases h : enumerators.find? fun e => decide ((code e : ℤ) = code value) with
    | none => exact absurd (List.find?_eq_none.1 h value hmem) (by simp)
    | some e =>
      have hcode := List.find?_some h
      rw [decide_eq_true_eq, Int.ofNat_inj] at hcode
      rw [hinj e (List.mem_of_find?_eq_some h) hcode]
  unfold parseEnum
  rw [hparsed]
  change (match enumerators.find? (fun e => decide ((code e : ℤ) = code value)) with
    | some e => pure e
    | none => throw (ascii error)) = _
  rw [hfound]
  rfl

def Side.code : Side → ℕ
  | .buy => 0
  | .sell => 1

def parseSide : Text → Except Text Side :=
  parseEnum Side.code [.buy, .sell] "invalid side in checkpoint field"

def AdapterSide.code : AdapterSide → ℕ
  | .long => 0
  | .short => 1

def parseAdapterSide : Text → Except Text AdapterSide :=
  parseEnum AdapterSide.code [.long, .short] "invalid adapter side in checkpoint field"

def RuntimeCommandKind.code : RuntimeCommandKind → ℕ
  | .placeOrder => 0
  | .cancelOrder => 1
  | .markPriceUpdated => 2
  | .fundingRateUpdated => 3
  | .fundingSettlementTick => 4
  | .liquidatePosition => 5

def parseRuntimeCommandKind : Text → Except Text RuntimeCommandKind :=
  parseEnum RuntimeCommandKind.code [.placeOrder, .cancelOrder, .liquidatePosition,
    .markPriceUpdated, .fundingRateUpdated, .fundingSettlementTick] "invalid runtime command kind"

def RejectReason.code : RejectReason → ℕ
  | .invalidSymbol => 0
  | .invalidPrice => 1
  | .invalidQuantity => 2
  | .duplicateCommand => 3
  | .duplicateOrder => 4
  | .orderNotFound => 5
  | .wouldSelfTrade => 6
  | .marketClosed => 7
  | .insufficientBalanceLiquidity => 8

def parseRejectReason : Text → Except Text RejectReason :=
  parseEnum RejectReason.code [.invalidSymbol, .invalidPrice, .invalidQuantity, .duplicateCommand,
    .duplicateOrder, .orderNotFound, .wouldSelfTrade, .marketClosed,
    .insufficientBalanceLiquidity] "invalid reject reason"

@[simp] theorem parseSide_enumField (side : Side) :
    parseSide (enumField Side.code side) = .ok side := by
  cases side <;> exact parseEnum_enumField (by decide) (by decide) (by decide) _

@[simp] theorem parseAdapterSide_enumField (side : AdapterSide) :
    parseAdapterSide (enumField AdapterSide.code side) = .ok side := by
  cases side <;> exact parseEnum_enumField (by decide) (by decide) (by decide) _

@[simp] theorem parseRuntimeCommandKind_enumField (kind : RuntimeCommandKind) :
    parseRuntimeCommandKind (enumField RuntimeCommandKind.code kind) = .ok kind := by
  cases kind <;> exact parseEnum_enumField (by decide) (by decide) (by decide) _

@[simp] theorem parseRejectReason_enumField (reason : RejectReason) :
    parseRejectReason (enumField RejectReason.code reason) = .ok reason := by
  cases reason <;> exact parseEnum_enumField (by decide) (by decide) (by decide) _

end Enumerations

section Rows

/-- `write_line`, less the newline. -/
def joinFields : List Text → Text
  | [] => []
  | [field] => field
  | field :: fields => field ++ 9 :: joinFields fields

theorem splitLine_of_no_tab {field : Text} (h : 9 ∉ field) : splitLine field = [field] := by
  induction field with
  | nil => rfl
  | cons b field ih =>
    rw [List.mem_cons, not_or] at h
    rw [splitLine, if_neg (Ne.symm h.1), ih h.2]

theorem splitLine_append_tab {field : Text} (h : 9 ∉ field) (rest : Text) :
    splitLine (field ++ 9 :: rest) = field :: splitLine rest := by
  induction field with
  | nil => simp [splitLine]
  | cons b field ih =>
    rw [List.mem_cons, not_or] at h
    rw [List.cons_append, splitLine, if_neg (Ne.symm h.1), ih h.2]

theorem splitLine_joinFields {fields : List Text} (hne : fields ≠ []) (h : ∀ f ∈ fields, 9 ∉ f) :
    splitLine (joinFields fields) = fields := by
  induction fields with
  | nil => exact absurd rfl hne
  | cons field fields ih =>
    have hfield := h field List.mem_cons_self
    cases fields with
    | nil => exact splitLine_of_no_tab hfield
    | cons next fields =>
      rw [joinFields, splitLine_append_tab hfield,
        ih (List.cons_ne_nil _ _) fun f hf => h f (List.mem_cons_of_mem _ hf)]
      exact List.cons_ne_nil _ _

theorem mem_joinFields {fields : List Text} {b : UInt8} (h : b ∈ joinFields fields) :
    b = 9 ∨ ∃ f ∈ fields, b ∈ f := by
  induction fields with
  | nil => cases h
  | cons field fields ih =>
    cases fields with
    | nil => exact Or.inr ⟨field, List.mem_cons_self, h⟩
    | cons next fields =>
      rw [joinFields, List.mem_append, List.mem_cons] at h
      · rcases h with h | rfl | h
        · exact Or.inr ⟨field, List.mem_cons_self, h⟩
        · exact Or.inl rfl
        · rcases ih h with rfl | ⟨f, hf, hb⟩
          · exact Or.inl rfl
          · exact Or.inr ⟨f, List.mem_cons_of_mem _ hf, hb⟩
      · exact List.cons_ne_nil _ _

/-- What begins a row: no beginning of the last line of the file. -/
def IsTag (tag : Text) : Prop := IsPlain tag ∧ 3 ≤ tag.length ∧ ¬ascii "end" <+: tag

instance (tag : Text) : Decidable (IsTag tag) := inferInstanceAs (Decidable (_ ∧ _ ∧ _))

/-- A tag and its fields. -/
def IsRow (row : List Text) : Prop :=
  ∃ tag fields, row = tag :: fields ∧ IsTag tag ∧ ∀ f ∈ fields, IsPlain f

namespace IsRow
variable {row : List Text}

theorem plain (h : IsRow row) : ∀ f ∈ row, IsPlain f := by
  obtain ⟨tag, fields, rfl, htag, hfields⟩ := h
  exact List.forall_mem_cons.2 ⟨htag.1, hfields⟩

theorem splitLine_eq (h : IsRow row) : splitLine (joinFields row) = row := by
  have hplain := h.plain
  obtain ⟨tag, fields, rfl, -, -⟩ := h
  exact splitLine_joinFields (List.cons_ne_nil _ _) fun f hf htab => hplain f hf 9 htab (Or.inl rfl)

theorem not_mem (h : IsRow row) {b : UInt8} (hb : b = 10 ∨ b = 13) : b ∉ joinFields row := by
  intro hmem
  rcases mem_joinFields hmem with rfl | ⟨f, hf, hbf⟩
  · rcases hb with hb | hb <;> exact absurd hb (by decide)
  · exact h.plain f hf b hbf (Or.inr hb)

/-- No row is taken for the last line. -/
theorem not_end (h : IsRow row) : ¬ascii "end" <+: joinFields row := by
  obtain ⟨tag, fields, rfl, htag, -⟩ := h
  have hstart : tag <+: joinFields (tag :: fields) := by
    cases fields with
    | nil => exact List.prefix_rfl
    | cons field fields => exact List.prefix_append _ _
  intro hend
  exact htag.2.2 (List.prefix_of_prefix_length_le hend hstart htag.2.1)

end IsRow

end Rows

end PerpexEngine
