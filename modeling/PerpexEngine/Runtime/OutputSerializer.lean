import PerpexEngine.Protocol.Json

/-! The writer of output records. What it appends to the stream is what its functions return. -/
namespace PerpexEngine

/-- A `std::map` of fields stands in the order of its keys. -/
inductive PayloadValue where
  | null
  | boolean (value : Bool)
  | number (text : Text)
  | string (value : Text)
  | array (values : List PayloadValue)
  | object (fields : List (Text × PayloadValue))
deriving Repr

mutual

/-- Every map in the value is in order. -/
def PayloadValue.Ordered : PayloadValue → Prop
  | .array values => OrderedAll values
  | .object fields => Ranked (fun field => byteOrder field.1) fields ∧ OrderedFields fields
  | _ => True

def OrderedAll : List PayloadValue → Prop
  | [] => True
  | value :: values => value.Ordered ∧ OrderedAll values

def OrderedFields : List (Text × PayloadValue) → Prop
  | [] => True
  | (_, value) :: fields => value.Ordered ∧ OrderedFields fields

end

/-- `PayloadFields` is an `std::unordered_map`: any order, no key twice. -/
structure PayloadFields where
  fields : List (Text × PayloadValue)
  distinct : fields.Pairwise fun x y => x.1 ≠ y.1
  ordered : OrderedFields fields

namespace Serializer

structure EngineOutputRecord where
  type : Text
  payload : PayloadFields

def hex (digit : ℕ) : UInt8 := (ascii "0123456789abcdef").getD digit 0

/-- One turn of the loop of `append_json_string`. -/
def escaped (ch : UInt8) : Text :=
  if ch = byte '"' then ascii "\\\""
  else if ch = byte '\\' then ascii "\\\\"
  else if ch = 8 then ascii "\\b"
  else if ch = 12 then ascii "\\f"
  else if ch = byte '\n' then ascii "\\n"
  else if ch = byte '\r' then ascii "\\r"
  else if ch = byte '\t' then ascii "\\t"
  else if ch.toNat < 0x20 then ascii "\\u00" ++ [hex (ch.toNat >>> 4), hex (ch.toNat &&& 0x0F)]
  else [ch]

def appendJsonString (value : Text) : Text := byte '"' :: (value.flatMap escaped ++ [byte '"'])

def integerPayloadFields : List Text :=
  ["account_id", "amount", "base_asset_id", "credit_amount", "debit_amount", "engine_sequence",
    "engine_timestamp_ms", "fill_id", "index_price", "interval_end_ms", "interval_start_ms",
    "leverage", "maker_order_id", "maker_user_id", "market_id", "order_id", "position_id", "price",
    "quantity", "quote_asset_id", "released_amount", "released_quantity", "source_input_offset",
    "source_sequence", "source_timestamp_ms", "taker_order_id", "taker_user_id", "trade_id",
    "user_id", "wallet_id", "entry_price", "exit_price", "mark_price", "published_at_ms", "rate",
    "rate_scale", "valid_until_ms"].map ascii

def IsIntegerPayloadField (field : Text) : Prop := field ∈ integerPayloadFields

instance (field : Text) : Decidable (IsIntegerPayloadField field) :=
  inferInstanceAs (Decidable (_ ∈ _))

def isJsonInteger (value : Text) : Bool :=
  if value = [] then false
  else if value.head? = some (byte '-') ∧ value.length = 1 then false
  else
    let digits := if value.head? = some (byte '-') then value.drop 1 else value
    if digits.head? = some (byte '0') ∧ 1 < digits.length then false
    else digits.all fun b => decide (IsDigit b)

/-- `none` where no digit was consumed. -/
def consumeDigits (s : Text) : Option Text :=
  let rest := s.dropWhile fun b => decide (IsDigit b)
  if rest.length < s.length then some rest else none

def afterMinus : Text → Option Text
  | [] => none
  | b :: s => if b = byte '-' then (if s = [] then none else some s) else some (b :: s)

def afterInteger (s : Text) : Option Text :=
  if s.head? = some (byte '0') then some s.tail
  else if 49 ≤ (s.headD 0).toNat ∧ (s.headD 0).toNat ≤ 57 then consumeDigits s
  else none

def afterFraction (s : Text) : Option Text :=
  if s.head? = some (byte '.') then consumeDigits s.tail else some s

def afterExponent (s : Text) : Option Text :=
  if s.head? = some (byte 'e') ∨ s.head? = some (byte 'E') then
    if s.tail.head? = some (byte '+') ∨ s.tail.head? = some (byte '-') then
      consumeDigits s.tail.tail
    else consumeDigits s.tail
  else some s

def isJsonNumber (value : Text) : Bool :=
  decide ((((afterMinus value).bind afterInteger).bind afterFraction).bind afterExponent = some [])

/-- `append_payload_value` of a string. -/
def appendPayloadText (field value : Text) : Text :=
  if IsIntegerPayloadField field ∧ isJsonInteger value = true then value
  else appendJsonString value

def separator (first : Bool) : Text := if first then [] else [byte ',']

mutual

def appendPayloadValue (field : Text) : PayloadValue → Text
  | .null => ascii "null"
  | .boolean value => if value then ascii "true" else ascii "false"
  | .number text => if isJsonNumber text = true then text else appendJsonString text
  | .string value => appendPayloadText field value
  | .array values => byte '[' :: (appendPayloadArray true values ++ [byte ']'])
  | .object fields => byte '{' :: (appendPayloadObject true fields ++ [byte '}'])

/-- The loop of `append_payload_array`. -/
def appendPayloadArray : Bool → List PayloadValue → Text
  | _, [] => []
  | first, value :: values =>
    separator first ++ appendPayloadValue [] value ++ appendPayloadArray false values

/-- The loop of `append_payload_object`, and of the payload of a record. -/
def appendPayloadObject : Bool → List (Text × PayloadValue) → Text
  | _, [] => []
  | first, (field, value) :: fields =>
    separator first ++ appendJsonString field ++ byte ':' :: appendPayloadValue field value ++
      appendPayloadObject false fields

end

def sortedFields (payload : PayloadFields) : List (Text × PayloadValue) :=
  payload.fields.insertionSort fun lhs rhs => byteOrder lhs.1 ≤ byteOrder rhs.1

def serializeEngineOutputRecord (record : EngineOutputRecord) : Text :=
  byte '{' :: ascii "\"type\":" ++ appendJsonString record.type ++ byte ',' ::
    ascii "\"payload\":" ++ byte '{' :: appendPayloadObject true (sortedFields record.payload) ++
      [byte '}', byte '}']

end Serializer
end PerpexEngine
