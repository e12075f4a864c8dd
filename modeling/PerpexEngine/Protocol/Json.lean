import PerpexEngine.Lib.JsonGrammar

/-! The JSON reader. A parser takes the text from `pos_` on and returns what is left of it. -/
namespace PerpexEngine

/-- `JsonParseError`, its message only. -/
def fail {α : Type} (message : String) : Except Text α := .error (ascii message)

namespace Parser
open Json (IsSpace)

def peek (s : Text) : UInt8 := s.headD 0

def skipWhitespace (s : Text) : Text := s.dropWhile fun b => decide (IsSpace b)

def consume (expected : UInt8) : Text → Option Text
  | [] => none
  | current :: s => if current = expected then some s else none

def expect (expected : UInt8) (s : Text) : Except Text Text :=
  match consume expected s with
  | some s => .ok s
  | none => .error (ascii "expected '" ++ [expected] ++ ascii "'")

def parseLiteral (literal s : Text) : Except Text Text :=
  if s.take literal.length = literal then .ok (s.drop literal.length) else fail "invalid literal"

def hexValue (b : UInt8) : Except Text ℕ :=
  if 48 ≤ b.toNat ∧ b.toNat ≤ 57 then .ok (b.toNat - 48)
  else if 97 ≤ b.toNat ∧ b.toNat ≤ 102 then .ok (10 + b.toNat - 97)
  else if 65 ≤ b.toNat ∧ b.toNat ≤ 70 then .ok (10 + b.toNat - 65)
  else fail "invalid unicode escape"

def parseHexCodeUnit : Text → Except Text (ℕ × Text)
  | a :: b :: c :: d :: s => do
    let first ← hexValue a
    let second ← hexValue b
    let third ← hexValue c
    let fourth ← hexValue d
    return ([first, second, third, fourth].foldl (fun value digit =>
      (value <<< 4 ||| digit) % 2 ^ 16) 0, s)
  | _ => fail "incomplete unicode escape"

def IsHighSurrogate (value : ℕ) : Prop := 0xD800 ≤ value ∧ value ≤ 0xDBFF

def IsLowSurrogate (value : ℕ) : Prop := 0xDC00 ≤ value ∧ value ≤ 0xDFFF

instance (value : ℕ) : Decidable (IsHighSurrogate value) := inferInstanceAs (Decidable (_ ∧ _))

instance (value : ℕ) : Decidable (IsLowSurrogate value) := inferInstanceAs (Decidable (_ ∧ _))

/-- The bytes it appends. -/
def appendUtf8 (codepoint : ℕ) : Text :=
  if codepoint ≤ 0x7F then [codepoint.toUInt8]
  else if codepoint ≤ 0x7FF then
    [(0xC0 ||| codepoint >>> 6).toUInt8, (0x80 ||| (codepoint &&& 0x3F)).toUInt8]
  else if codepoint ≤ 0xFFFF then
    [(0xE0 ||| codepoint >>> 12).toUInt8, (0x80 ||| (codepoint >>> 6 &&& 0x3F)).toUInt8,
      (0x80 ||| (codepoint &&& 0x3F)).toUInt8]
  else
    [(0xF0 ||| codepoint >>> 18).toUInt8, (0x80 ||| (codepoint >>> 12 &&& 0x3F)).toUInt8,
      (0x80 ||| (codepoint >>> 6 &&& 0x3F)).toUInt8, (0x80 ||| (codepoint &&& 0x3F)).toUInt8]

def consumeEscapeU (s : Text) : Option Text := (consume (byte '\\') s).bind (consume (byte 'u'))

def appendUnicodeEscape (s : Text) : Except Text (Text × Text) := do
  let (first, s) ← parseHexCodeUnit s
  if IsHighSurrogate first then
    match consumeEscapeU s with
    | none => fail "expected low surrogate escape"
    | some s =>
      let (second, s) ← parseHexCodeUnit s
      if IsLowSurrogate second then
        return (appendUtf8 (0x10000 + ((first - 0xD800) <<< 10 ||| (second - 0xDC00))), s)
      else fail "expected low surrogate"
  else if IsLowSurrogate first then fail "unexpected low surrogate"
  else return (appendUtf8 first, s)

/-- What follows a backslash, as the bytes it appends. -/
def parseEscape : Text → Except Text (Text × Text)
  | [] => fail "unterminated escape sequence"
  | escaped :: s =>
    if escaped = byte '"' ∨ escaped = byte '\\' ∨ escaped = byte '/' then .ok ([escaped], s)
    else if escaped = byte 'b' then .ok ([8], s)
    else if escaped = byte 'f' then .ok ([12], s)
    else if escaped = byte 'n' then .ok ([10], s)
    else if escaped = byte 'r' then .ok ([13], s)
    else if escaped = byte 't' then .ok ([9], s)
    else if escaped = byte 'u' then appendUnicodeEscape s
    else fail "invalid escape sequence"

/-- The loop of `parse_string`; every turn takes a byte. -/
def parseChars : ℕ → Text → Text → Except Text (Text × Text)
  | 0, _, _ => fail "out of fuel"
  | _ + 1, _, [] => fail "unterminated string"
  | fuel + 1, result, current :: s =>
    if current = byte '"' then .ok (result, s)
    else if current = byte '\\' then do
      let (appended, s) ← parseEscape s
      parseChars fuel (result ++ appended) s
    else if current.toNat < 0x20 then fail "unescaped control character in string"
    else parseChars fuel (result ++ [current]) s

def parseString (s : Text) : Except Text (Text × Text) := do
  let s ← expect (byte '"') s
  parseChars (s.length + 1) [] s

def IsNonZeroDigit (b : UInt8) : Prop := 49 ≤ b.toNat ∧ b.toNat ≤ 57

instance (b : UInt8) : Decidable (IsNonZeroDigit b) := inferInstanceAs (Decidable (_ ∧ _))

def consumeDigits (s : Text) : Text := s.dropWhile fun b => decide (IsDigit b)

def skipSign (s : Text) : Text := (consume (byte '-') s).getD s

def skipInteger (s : Text) : Except Text Text :=
  match consume (byte '0') s with
  | some s => if IsDigit (peek s) then fail "leading zero in number" else .ok s
  | none =>
    if IsNonZeroDigit (peek s) then .ok (consumeDigits s) else fail "expected number digits"

def skipFraction (s : Text) : Except Text Text :=
  match consume (byte '.') s with
  | none => .ok s
  | some s =>
    if IsDigit (peek s) then .ok (consumeDigits s) else fail "expected fractional digits"

def skipExponentSign (s : Text) : Text :=
  if peek s = byte '+' ∨ peek s = byte '-' then s.tail else s

def skipExponent (s : Text) : Except Text Text :=
  if peek s = byte 'e' ∨ peek s = byte 'E' then
    let s := skipExponentSign s.tail
    if IsDigit (peek s) then .ok (consumeDigits s) else fail "expected exponent digits"
  else .ok s

def skipNumber (s : Text) : Except Text Text :=
  if skipSign s = [] then fail "incomplete number"
  else do
    let s ← skipInteger (skipSign s)
    let s ← skipFraction s
    skipExponent s

/-- The lexeme is what was skipped. -/
def parseNumber (s : Text) : Except Text (Text × Text) := do
  let rest ← skipNumber s
  return (s.take (s.length - rest.length), rest)

/-- `std::map::emplace`: no map where the key is there already. -/
def emplace (key : Text) (value : JsonValue) :
    List (Text × JsonValue) → Option (List (Text × JsonValue))
  | [] => some [(key, value)]
  | member :: members =>
    if byteOrder key < byteOrder member.1 then some ((key, value) :: member :: members)
    else if key = member.1 then none
    else (emplace key value members).map (member :: ·)

/-- The key of a member, with its spaces and the colon. -/
def parseKey (s : Text) : Except Text (Text × Text) :=
  if peek (skipWhitespace s) = byte '"' then do
    let (key, s) ← parseString (skipWhitespace s)
    let s ← expect (byte ':') (skipWhitespace s)
    return (key, s)
  else fail "expected object key string"

mutual

def parseValue : ℕ → Text → Except Text (JsonValue × Text)
  | 0, _ => fail "out of fuel"
  | fuel + 1, s =>
    let s := skipWhitespace s
    let current := peek s
    if s = [] then fail "expected JSON value"
    else if current = byte '{' then do
      let (members, s) ← parseObject fuel s
      return (.object members, s)
    else if current = byte '[' then do
      let (values, s) ← parseArray fuel s
      return (.array values, s)
    else if current = byte '"' then do
      let (value, s) ← parseString s
      return (.string value, s)
    else if current = byte 't' then do
      let s ← parseLiteral (ascii "true") s
      return (.bool true, s)
    else if current = byte 'f' then do
      let s ← parseLiteral (ascii "false") s
      return (.bool false, s)
    else if current = byte 'n' then do
      let s ← parseLiteral (ascii "null") s
      return (.null, s)
    else if current = byte '-' ∨ IsDigit current then do
      let (lexeme, s) ← parseNumber s
      return (.number lexeme, s)
    else fail "expected JSON value"

def parseObject : ℕ → Text → Except Text (List (Text × JsonValue) × Text)
  | 0, _ => fail "out of fuel"
  | fuel + 1, s => do
    let s ← expect (byte '{') s
    match consume (byte '}') (skipWhitespace s) with
    | some s => return ([], s)
    | none => parseMembers fuel [] (skipWhitespace s)

def parseMembers : ℕ → List (Text × JsonValue) → Text →
    Except Text (List (Text × JsonValue) × Text)
  | 0, _, _ => fail "out of fuel"
  | fuel + 1, object, s => do
    let (key, s) ← parseKey s
    let (value, s) ← parseValue fuel s
    match emplace key value object with
    | none => fail "duplicate object key"
    | some object =>
      match consume (byte '}') (skipWhitespace s) with
      | some s => return (object, s)
      | none => do
        let s ← expect (byte ',') (skipWhitespace s)
        parseMembers fuel object s

def parseArray : ℕ → Text → Except Text (List JsonValue × Text)
  | 0, _ => fail "out of fuel"
  | fuel + 1, s => do
    let s ← expect (byte '[') s
    match consume (byte ']') (skipWhitespace s) with
    | some s => return ([], s)
    | none => parseElements fuel [] (skipWhitespace s)

def parseElements : ℕ → List JsonValue → Text → Except Text (List JsonValue × Text)
  | 0, _, _ => fail "out of fuel"
  | fuel + 1, array, s => do
    let (value, s) ← parseValue fuel s
    match consume (byte ']') (skipWhitespace s) with
    | some s => return (array ++ [value], s)
    | none => do
      let s ← expect (byte ',') (skipWhitespace s)
      parseElements fuel (array ++ [value]) s

end

end Parser

/-- A text of `n` bytes nests fewer than `3 * n + 1` calls. -/
def parseJson (text : Text) : Except Text JsonValue := do
  let (value, s) ← Parser.parseValue (3 * text.length + 1) text
  if Parser.skipWhitespace s = [] then return value else fail "unexpected trailing content"

def JsonValue.find (key : Text) : JsonValue → Option JsonValue
  | .object members => members.lookup key
  | _ => none

structure ProtocolMessage where
  type : Text
  payload : JsonValue

/-- Its errors are `JsonParseError`s and `ProtocolError`s. -/
def parseProtocolMessage (text : Text) : Except Text ProtocolMessage := do
  let root ← parseJson text
  match root with
  | .object _ =>
    match root.find (ascii "type") with
    | some (.string type) =>
      if type = [] then fail "protocol message type must not be empty"
      else match root.find (ascii "payload") with
        | some (.object members) => return ⟨type, .object members⟩
        | _ => fail "protocol message must contain top-level object field 'payload'"
    | _ => fail "protocol message must contain top-level string field 'type'"
  | _ => fail "protocol message root must be a JSON object"

end PerpexEngine
