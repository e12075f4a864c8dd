import PerpexEngine.Runtime.OutputSerializer
import PerpexEngine.Protocol.JsonTexts

/-! What the writer writes is a JSON text of the record, so the reader gives the record back. -/
namespace PerpexEngine.Serializer
open Json
variable {s rest : Text}

section Numbers

theorem consumeDigits_eq_some :
    consumeDigits s = some rest ↔ IsDigit (Parser.peek s) ∧ Parser.consumeDigits s = rest := by
  cases s with
  | nil => simp [consumeDigits, show ¬IsDigit (Parser.peek []) by decide]
  | cons b s =>
    have hpeek : Parser.peek (b :: s) = b := rfl
    have hle : (Parser.consumeDigits s).length ≤ s.length := List.length_dropWhile_le _ _
    unfold consumeDigits Parser.consumeDigits at *
    rw [hpeek]
    by_cases hb : IsDigit b
    · simp only [List.dropWhile_cons, hb, decide_true, if_true, true_and, List.length_cons,
        Nat.lt_add_one_of_le hle, Option.some.injEq]
    · simp [hb]

theorem afterFraction_eq_some :
    afterFraction s = some rest ↔ Parser.skipFraction s = .ok rest := by
  unfold afterFraction Parser.skipFraction
  cases s with
  | nil => simp [Parser.consume]
  | cons b s =>
    by_cases hb : b = byte '.'
    · simp only [Parser.consume, hb, List.head?_cons, List.tail_cons, if_true,
        consumeDigits_eq_some, ite_fail_eq_ok, Except.ok.injEq]
    · simp only [Parser.consume, List.head?_cons, Option.some.injEq, if_neg hb, Except.ok.injEq]

theorem head_eq_iff {b : UInt8} (hb : b ≠ 0) : s.head? = some b ↔ Parser.peek s = b := by
  cases s with
  | nil => exact ⟨fun h => (nomatch h), fun h => absurd h.symm hb⟩
  | cons c s => exact Option.some_inj

theorem afterExponent_eq_some :
    afterExponent s = some rest ↔ Parser.skipExponent s = .ok rest := by
  unfold afterExponent Parser.skipExponent Parser.skipExponentSign
  simp (disch := decide) only [head_eq_iff]
  by_cases hmark : Parser.peek s = byte 'e' ∨ Parser.peek s = byte 'E'
  · by_cases hsign : Parser.peek s.tail = byte '+' ∨ Parser.peek s.tail = byte '-'
    · simp only [if_pos hmark, if_pos hsign, consumeDigits_eq_some, ite_fail_eq_ok,
        Except.ok.injEq]
    · simp only [if_pos hmark, if_neg hsign, consumeDigits_eq_some, ite_fail_eq_ok,
        Except.ok.injEq]
  · simp only [if_neg hmark, Option.some.injEq, Except.ok.injEq]

theorem afterInteger_of_skipInteger (h : Parser.skipInteger s = .ok rest) :
    afterInteger s = some rest := by
  unfold Parser.skipInteger at h
  unfold afterInteger
  simp (disch := decide) only [head_eq_iff]
  rcases Option.eq_none_or_eq_some (Parser.consume (byte '0') s) with hc | ⟨t, hc⟩
  · simp only [hc, ite_fail_eq_ok, Except.ok.injEq] at h
    have hzero : Parser.peek s ≠ byte '0' := fun hpeek =>
      Parser.consume_eq_none.1 hc _ (Parser.peek_eq hpeek (by decide))
    have hnonzero : 49 ≤ (s.headD 0).toNat ∧ (s.headD 0).toNat ≤ 57 := h.1
    rw [if_neg hzero, if_pos hnonzero]
    exact consumeDigits_eq_some.2 ⟨(Parser.isNonZeroDigit_iff.1 h.1).1, h.2⟩
  · simp only [hc, fail_ite_eq_ok, Except.ok.injEq] at h
    rw [Parser.consume_eq_some.1 hc, h.2]
    rfl

/-- The leading zero of a longer numeral is taken alone; what is left is then no number's end. -/
theorem int_of_afterInteger (h : afterInteger s = some rest) :
    ∃ int, IsInt int ∧ s = int ++ rest := by
  unfold afterInteger at h
  simp (disch := decide) only [head_eq_iff] at h
  split_ifs at h with hzero hnonzero
  · cases h
    exact ⟨[byte '0'], .inl rfl, Parser.peek_eq hzero (by decide)⟩
  · obtain ⟨hdigit, rfl⟩ := consumeDigits_eq_some.1 h
    obtain ⟨digits, hdigits, hs⟩ := Parser.exists_digits hdigit
    refine ⟨digits, .inr ⟨hdigits, fun hhead => hzero ?_⟩, hs⟩
    obtain ⟨tail, rfl⟩ := List.head?_eq_some_iff.1 hhead
    rw [hs]
    rfl

theorem minus_of_afterMinus (h : afterMinus s = some rest) :
    ∃ minus, (minus = [] ∨ minus = [byte '-']) ∧ s = minus ++ rest := by
  cases s with
  | nil => cases h
  | cons b s =>
    simp only [afterMinus] at h
    split_ifs at h with hminus hnil
    · cases h
      exact ⟨[byte '-'], .inr rfl, by rw [hminus]; rfl⟩
    · cases h
      exact ⟨[], .inl rfl, rfl⟩

theorem afterMinus_append {minus : Text} (hminus : minus = [] ∨ minus = [byte '-'])
    (hs : IsDigit (Parser.peek s)) : afterMinus (minus ++ s) = some s := by
  cases s with
  | nil => exact absurd hs (by decide)
  | cons b s =>
    rcases hminus with rfl | rfl
    · have hne : b ≠ byte '-' := by
        rintro rfl
        exact absurd hs (by decide : ¬IsDigit (byte '-'))
      simp only [List.nil_append, afterMinus, if_neg hne]
    · rfl

theorem isJsonNumber_iff : isJsonNumber s = true ↔ IsNumber s := by
  simp only [isJsonNumber, decide_eq_true_eq, Option.bind_eq_some_iff]
  constructor
  · rintro ⟨_, ⟨_, ⟨_, h₁, h₂⟩, h₃⟩, h₄⟩
    obtain ⟨minus, hminus, rfl⟩ := minus_of_afterMinus h₁
    obtain ⟨int, hint, rfl⟩ := int_of_afterInteger h₂
    obtain ⟨fraction, hfraction, rfl⟩ :=
      Parser.fraction_of_skipFraction (afterFraction_eq_some.1 h₃)
    obtain ⟨exponent, hexponent, rfl⟩ :=
      Parser.exponent_of_skipExponent (afterExponent_eq_some.1 h₄)
    exact ⟨_, _, _, ⟨_, _, hminus, hint, rfl⟩, hfraction, hexponent, by simp⟩
  · rintro ⟨_, fraction, exponent, ⟨minus, int, hminus, hint, rfl⟩, hfraction, hexponent, rfl⟩
    have hend : ¬IsDigit (Parser.peek []) := by decide
    have hdigit := Parser.exponent_not_digit hexponent hend
    have hpoint : Parser.peek (exponent ++ []) ≠ byte '.' :=
      Parser.exponent_not_point hexponent (by decide)
    rw [List.append_nil] at hdigit hpoint
    refine ⟨exponent, ⟨fraction ++ exponent, ⟨int ++ (fraction ++ exponent), ?_, ?_⟩, ?_⟩, ?_⟩
    · rw [List.append_assoc, List.append_assoc]
      exact afterMinus_append hminus (Parser.int_digit hint _)
    · exact afterInteger_of_skipInteger (Parser.skipInteger_of_int hint
        (Parser.fraction_not_digit hfraction hdigit))
    · exact afterFraction_eq_some.2 (Parser.skipFraction_of_fraction hfraction hdigit hpoint)
    · have hskip := Parser.skipExponent_of_exponent hexponent hend (by decide)
      rw [List.append_nil] at hskip
      exact afterExponent_eq_some.2 hskip

instance : DecidablePred IsNumber := fun _ => decidable_of_iff _ isJsonNumber_iff

theorem isInt_iff {digits : Text} : IsInt digits ↔ digits ≠ [] ∧ (∀ b ∈ digits, IsDigit b) ∧
    ¬(digits.head? = some (byte '0') ∧ 1 < digits.length) := by
  unfold IsInt Digits
  constructor
  · rintro (rfl | ⟨⟨hne, hdigits⟩, hhead⟩)
    · refine ⟨List.cons_ne_nil _ _, fun b hb => ?_, fun h => absurd h.2 (Nat.lt_irrefl 1)⟩
      rw [List.mem_singleton.1 hb]
      decide
    · exact ⟨hne, hdigits, fun h => hhead h.1⟩
  · rintro ⟨hne, hdigits, hzero⟩
    by_cases hhead : digits.head? = some (byte '0')
    · obtain ⟨tail, rfl⟩ := List.head?_eq_some_iff.1 hhead
      have htail : tail = [] := by
        apply List.eq_nil_of_length_eq_zero
        have hlength : ¬1 < (byte '0' :: tail).length := fun h => hzero ⟨hhead, h⟩
        rw [List.length_cons] at hlength
        omega
      exact .inl (by rw [htail])
    · exact .inr ⟨⟨hne, hdigits⟩, hhead⟩

theorem isInteger_cons {b : UInt8} :
    IsInteger (b :: s) ↔ if b = byte '-' then IsInt s else IsInt (b :: s) := by
  have hhead : ∀ {int : Text}, IsInt int → int.head? ≠ some (byte '-') := by
    intro int hint h
    have hdigit := Parser.int_digit hint []
    rw [List.append_nil, (head_eq_iff (by decide)).1 h] at hdigit
    exact absurd hdigit (by decide)
  constructor
  · rintro ⟨minus, int, rfl | rfl, hint, hs⟩
    · rw [List.nil_append] at hs
      have hb : b ≠ byte '-' := by
        rintro rfl
        exact hhead hint (by rw [← hs]; rfl)
      rwa [if_neg hb, hs]
    · cases hs
      rwa [if_pos rfl]
  · intro h
    split_ifs at h with hb
    · exact ⟨[byte '-'], s, .inr rfl, h, by rw [hb]; rfl⟩
    · exact ⟨[], b :: s, .inl rfl, h, rfl⟩

/-- What `is_json_integer` asks of the text after the sign. -/
def intCheck (digits : Text) : Bool :=
  if digits.head? = some (byte '0') ∧ 1 < digits.length then false
  else digits.all fun b => decide (IsDigit b)

theorem intCheck_iff (hs : s ≠ []) : intCheck s = true ↔ IsInt s := by
  rw [isInt_iff]
  unfold intCheck
  split_ifs with h
  · simp [h]
  · simp only [List.all_eq_true, decide_eq_true_eq, h, not_false_eq_true, and_true]
    exact ⟨fun hdigits => ⟨hs, hdigits⟩, fun hdigits => hdigits.2⟩

theorem isJsonInteger_iff : isJsonInteger s = true ↔ IsInteger s := by
  cases s with
  | nil =>
    simp only [isJsonInteger, if_true, Bool.false_eq_true, false_iff]
    rintro ⟨minus, int, -, hint, h⟩
    exact (isInt_iff.1 hint).1 (List.append_eq_nil_iff.1 h.symm).2
  | cons b s =>
    rw [isInteger_cons]
    by_cases hb : b = byte '-'
    · rw [if_pos hb]
      by_cases hnil : s = []
      · rw [hb, hnil]
        simp [isJsonInteger, isInt_iff]
      · have hcheck : isJsonInteger (b :: s) = true ↔ intCheck s = true := by
          simp [isJsonInteger, intCheck, hb, hnil]
        rw [hcheck, intCheck_iff hnil]
    · have hcheck : isJsonInteger (b :: s) = true ↔ intCheck (b :: s) = true := by
        simp only [isJsonInteger, reduceCtorEq, List.head?_cons, Option.some.injEq, hb, false_and,
          if_false, intCheck]
      rw [hcheck, intCheck_iff (List.cons_ne_nil b s), if_neg hb]

instance : DecidablePred IsInteger := fun _ => decidable_of_iff _ isJsonInteger_iff

end Numbers

section Strings

theorem hexDigit_hex {digit : ℕ} (h : digit < 16) : hexDigit (hex digit) = some digit := by
  revert digit
  decide

theorem codeUnit_control {n : ℕ} (h : n < 0x20) :
    CodeUnit (ascii "00" ++ [hex (n >>> 4), hex (n &&& 0x0F)]) n := by
  have hshift : n >>> 4 = n / 16 := Nat.shiftRight_eq_div_pow n 4
  have hmask : n &&& 0x0F = n % 16 := Nat.and_two_pow_sub_one_eq_mod n 4
  rw [hshift, hmask]
  refine ⟨byte '0', byte '0', hex (n / 16), hex (n % 16), 0, 0, n / 16, n % 16, rfl, by decide,
    by decide, hexDigit_hex (by omega), hexDigit_hex (by omega), by omega⟩

theorem chars_escaped (ch : UInt8) {raw value : Text} (h : Chars raw value) :
    Chars (escaped ch ++ raw) (ch :: value) := by
  have hsimple : ∀ letter : UInt8, simpleEscape letter = some ch →
      Chars (byte '\\' :: letter :: raw) (ch :: value) :=
    fun letter hletter => .escape (.simple hletter) h
  unfold escaped
  split_ifs with h₁ h₂ h₃ h₄ h₅ h₆ h₇ hcontrol
  · exact hsimple (byte '"') (by rw [h₁]; rfl)
  · exact hsimple (byte '\\') (by rw [h₂]; rfl)
  · exact hsimple (byte 'b') (by rw [h₃]; rfl)
  · exact hsimple (byte 'f') (by rw [h₄]; rfl)
  · exact hsimple (byte 'n') (by rw [h₅]; rfl)
  · exact hsimple (byte 'r') (by rw [h₆]; rfl)
  · exact hsimple (byte 't') (by rw [h₇]; rfl)
  · obtain ⟨c, hc⟩ := Parser.exists_char (.inl (hcontrol.trans (by decide)))
    have hutf8 : String.utf8EncodeChar c = [ch] := by
      rw [← Parser.appendUtf8_char, hc, Parser.appendUtf8, if_pos (by omega)]
      exact congrArg (fun b => [b]) (UInt8.ofNat_toNat)
    have hunit := codeUnit_control hcontrol
    rw [← hc] at hunit ⊢
    have hchars := Chars.escape (.unicode c hunit) h
    rw [hutf8] at hchars
    exact hchars
  · exact .plain (Parser.isUnescaped_iff.2 ⟨h₁, h₂, hcontrol⟩) h

theorem quoted_appendJsonString (value : Text) : Quoted (appendJsonString value) value := by
  refine ⟨value.flatMap escaped, ?_, rfl⟩
  induction value with
  | nil => exact .nil
  | cons ch value ih =>
    rw [List.flatMap_cons]
    exact chars_escaped ch ih

end Strings

section Values

mutual

/-- A value as the reader gives it back, where it stands under a field. -/
def readBack (field : Text) : PayloadValue → JsonValue
  | .null => .null
  | .boolean value => .bool value
  | .number text => if IsNumber text then .number text else .string text
  | .string value =>
    if IsIntegerPayloadField field ∧ IsInteger value then .number value else .string value
  | .array values => .array (readBackAll values)
  | .object fields => .object (readBackFields fields)

def readBackAll : List PayloadValue → List JsonValue
  | [] => []
  | value :: values => readBack [] value :: readBackAll values

def readBackFields : List (Text × PayloadValue) → List (Text × JsonValue)
  | [] => []
  | (field, value) :: fields => (field, readBack field value) :: readBackFields fields

end

theorem readBackFields_eq_map (fields : List (Text × PayloadValue)) :
    readBackFields fields = fields.map fun field => (field.1, readBack field.1 field.2) := by
  induction fields with
  | nil => rfl
  | cons field fields ih => rw [readBackFields, ih, List.map_cons]

theorem ranked_readBackFields {fields : List (Text × PayloadValue)}
    (h : Ranked (fun field => byteOrder field.1) fields) : RankedKeys (readBackFields fields) := by
  rw [readBackFields_eq_map]
  exact List.pairwise_map.2 h

theorem isText_of_value {s : Text} {value : JsonValue} (h : Denotes s (.value value)) :
    IsText s value := by
  have htext := Denotes.text Spaces.nil h Spaces.nil
  rwa [List.nil_append, List.append_nil] at htext

theorem name_appendJsonString (key : Text) : Name (appendJsonString key) key :=
  ⟨[], _, [], Spaces.nil, quoted_appendJsonString key, Spaces.nil, by simp⟩

theorem isNumber_of_isInteger {s : Text} (h : IsInteger s) : IsNumber s :=
  ⟨s, [], [], h, .inl rfl, .inl rfl, by simp⟩

theorem denotes_appendPayloadText (field value : Text) :
    Denotes (appendPayloadText field value) (.value (readBack field (.string value))) := by
  simp only [appendPayloadText, readBack, isJsonInteger_iff]
  split_ifs with h
  · exact .number (isNumber_of_isInteger h.2)
  · exact .string (quoted_appendJsonString value)

/-- A separator aside, the loops write the same whether or not the first value is behind them. -/
theorem appendPayloadArray_false (value : PayloadValue) (values : List PayloadValue) :
    appendPayloadArray false (value :: values) =
      byte ',' :: appendPayloadArray true (value :: values) := by
  simp [appendPayloadArray, separator]

theorem appendPayloadObject_false (field : Text × PayloadValue)
    (fields : List (Text × PayloadValue)) :
    appendPayloadObject false (field :: fields) =
      byte ',' :: appendPayloadObject true (field :: fields) := by
  simp [appendPayloadObject, separator]

mutual

theorem denotes_appendPayloadValue (field : Text) :
    ∀ {value : PayloadValue}, value.Ordered →
      Denotes (appendPayloadValue field value) (.value (readBack field value))
  | .null, _ => .null
  | .boolean true, _ => .true
  | .boolean false, _ => .false
  | .number text, _ => by
    simp only [appendPayloadValue, readBack, isJsonNumber_iff]
    split_ifs with h
    · exact .number h
    · exact .string (quoted_appendJsonString text)
  | .string value, _ => denotes_appendPayloadText field value
  | .array [], _ => .emptyArray Spaces.nil
  | .array (value :: values), h =>
    .array (denotes_appendPayloadArray h (List.cons_ne_nil value values))
  | .object [], _ => .emptyObject Spaces.nil
  | .object (head :: fields), h =>
    .object (denotes_appendPayloadObject h.2 (List.cons_ne_nil head fields)) (.refl _)
      (ranked_readBackFields h.1)

theorem denotes_appendPayloadArray :
    ∀ {values : List PayloadValue}, OrderedAll values → values ≠ [] →
      Denotes (appendPayloadArray true values) (.elements (readBackAll values))
  | [], _, hne => absurd rfl hne
  | [value], h, _ => by
    simpa [appendPayloadArray, separator, readBackAll] using
      Denotes.element (isText_of_value (denotes_appendPayloadValue [] h.1))
  | value :: next :: values, h, _ => by
    rw [appendPayloadArray, appendPayloadArray_false]
    exact .elements (isText_of_value (denotes_appendPayloadValue [] h.1))
      (denotes_appendPayloadArray h.2 (List.cons_ne_nil next values))

theorem denotes_appendPayloadObject :
    ∀ {fields : List (Text × PayloadValue)}, OrderedFields fields → fields ≠ [] →
      Denotes (appendPayloadObject true fields) (.members (readBackFields fields))
  | [], _, hne => absurd rfl hne
  | [(field, value)], h, _ => by
    simpa [appendPayloadObject, separator, readBackFields] using
      Denotes.member (name_appendJsonString field)
        (isText_of_value (denotes_appendPayloadValue field h.1))
  | (field, value) :: next :: fields, h, _ => by
    rw [appendPayloadObject, appendPayloadObject_false]
    simpa [separator, readBackFields] using
      Denotes.members (name_appendJsonString field)
        (isText_of_value (denotes_appendPayloadValue field h.1))
        (denotes_appendPayloadObject h.2 (List.cons_ne_nil next fields))

end

end Values

section Records

theorem orderedFields_iff {fields : List (Text × PayloadValue)} :
    OrderedFields fields ↔ ∀ field ∈ fields, field.2.Ordered := by
  induction fields with
  | nil => exact ⟨fun _ field hfield => (nomatch hfield), fun _ => trivial⟩
  | cons field fields ih => simp [OrderedFields, ih]

theorem perm_sortedFields (payload : PayloadFields) : (sortedFields payload).Perm payload.fields :=
  List.perm_insertionSort _ _

theorem ranked_sortedFields (payload : PayloadFields) :
    Ranked (fun field => byteOrder field.1) (sortedFields payload) :=
  Ranked.insertionSort (payload.distinct.imp fun h heq => h (byteOrder_injective heq))

theorem ordered_sortedFields (payload : PayloadFields) : OrderedFields (sortedFields payload) :=
  orderedFields_iff.2 fun field hfield =>
    orderedFields_iff.1 payload.ordered field ((perm_sortedFields payload).mem_iff.1 hfield)

/-- The payload of a record is written as the map it is. -/
theorem denotes_payload (payload : PayloadFields) :
    Denotes (byte '{' :: (appendPayloadObject true (sortedFields payload) ++ [byte '}']))
      (.value (.object (readBackFields (sortedFields payload)))) := by
  have hordered : (PayloadValue.object (sortedFields payload)).Ordered :=
    ⟨ranked_sortedFields payload, ordered_sortedFields payload⟩
  exact denotes_appendPayloadValue [] hordered

theorem isText_serialized (record : EngineOutputRecord) :
    IsText (serializeEngineOutputRecord record)
      (.object [(ascii "payload", .object (readBackFields (sortedFields record.payload))),
        (ascii "type", .string record.type)]) := by
  have htype : Denotes (ascii "\"type\"" ++ byte ':' :: (appendJsonString record.type ++ byte ',' ::
      (ascii "\"payload\"" ++ byte ':' :: (byte '{' ::
        (appendPayloadObject true (sortedFields record.payload) ++ [byte '}'])))))
      (.members [(ascii "type", .string record.type),
        (ascii "payload", .object (readBackFields (sortedFields record.payload)))]) :=
    .members (name_appendJsonString (ascii "type"))
      (isText_of_value (.string (quoted_appendJsonString record.type)))
      (.member (name_appendJsonString (ascii "payload"))
        (isText_of_value (denotes_payload record.payload)))
  have hranked : RankedKeys
      [(ascii "payload", .object (readBackFields (sortedFields record.payload))),
        (ascii "type", .string record.type)] := by
    refine List.pairwise_cons.2 ⟨fun member hmember => ?_, List.pairwise_singleton _ _⟩
    rw [List.mem_singleton.1 hmember]
    exact (by decide : byteOrder (ascii "payload") < byteOrder (ascii "type"))
  have hwhole := isText_of_value (.object htype (.swap _ _ _) hranked)
  have htypeKey : ascii "\"type\":" = ascii "\"type\"" ++ [byte ':'] := rfl
  have hpayloadKey : ascii "\"payload\":" = ascii "\"payload\"" ++ [byte ':'] := rfl
  simpa [serializeEngineOutputRecord, htypeKey, hpayloadKey] using hwhole

/-- The reader gives a written record back: its type, and each field of its payload with its value,
texts of numbers and integer fields re-typed. -/
theorem serialized_record_read_back (record : EngineOutputRecord) (htype : record.type ≠ []) :
    ∃ members, RankedKeys members ∧
      members.Perm (record.payload.fields.map fun field => (field.1, readBack field.1 field.2)) ∧
      parseProtocolMessage (serializeEngineOutputRecord record) =
        .ok ⟨record.type, .object members⟩ := by
  refine ⟨readBackFields (sortedFields record.payload),
    ranked_readBackFields (ranked_sortedFields record.payload), ?_, ?_⟩
  · rw [readBackFields_eq_map]
    exact (perm_sortedFields record.payload).map _
  · unfold parseProtocolMessage
    rw [parseJson_eq_ok.2 (isText_serialized record)]
    have hkeys : (ascii "type" == ascii "payload") = false := by decide
    have hfind : JsonValue.find (ascii "type")
        (.object [(ascii "payload", .object (readBackFields (sortedFields record.payload))),
          (ascii "type", .string record.type)]) = some (.string record.type) := by
      simp [JsonValue.find, List.lookup_cons, hkeys]
    have hfind' : JsonValue.find (ascii "payload")
        (.object [(ascii "payload", .object (readBackFields (sortedFields record.payload))),
          (ascii "type", .string record.type)]) =
        some (.object (readBackFields (sortedFields record.payload))) := by
      simp [JsonValue.find]
    simp only [bind, Except.bind, hfind, hfind', if_neg htype]
    rfl

def sampleRecord : EngineOutputRecord where
  type := ascii "Test"
  payload :=
    { fields := [(ascii "rate", .string (ascii "-0")), (ascii "name", .string (ascii "1\n")),
        (ascii "ratio", .number (ascii "01")),
        (ascii "bids", .array [.object [(ascii "price", .string (ascii "100"))], .null])]
      distinct := by decide
      ordered := ⟨trivial, trivial, trivial,
        ⟨⟨List.pairwise_singleton _ _, trivial, trivial⟩, trivial, trivial⟩, trivial⟩ }

theorem serialized_record_read_back_sample : sampleRecord.type ≠ [] ∧
    ∃ members, RankedKeys members ∧
      members.Perm (sampleRecord.payload.fields.map fun field =>
        (field.1, readBack field.1 field.2)) ∧
      parseProtocolMessage (serializeEngineOutputRecord sampleRecord) =
        .ok ⟨sampleRecord.type, .object members⟩ :=
  ⟨by decide, serialized_record_read_back sampleRecord (by decide)⟩

example : readBack [] (.object sampleRecord.payload.fields) =
    .object [(ascii "rate", .number (ascii "-0")), (ascii "name", .string (ascii "1\n")),
      (ascii "ratio", .string (ascii "01")),
      (ascii "bids", .array [.object [(ascii "price", .number (ascii "100"))], .null])] := by
  rfl

end Records
end PerpexEngine.Serializer
