import PerpexEngine.Lib.Decimal
import PerpexEngine.Lib.Ranked
import Mathlib.Data.List.Lex

/-! The texts of RFC 8259, read over bytes, and the values they denote. -/
namespace PerpexEngine

/-- The members of an object stand in the order of their keys. -/
inductive JsonValue where
  | null
  | bool (value : Bool)
  | number (lexeme : Text)
  | string (value : Text)
  | array (values : List JsonValue)
  | object (members : List (Text × JsonValue))
deriving Repr

/-- The byte of an ASCII character. -/
abbrev byte (c : Char) : UInt8 := c.toNat.toUInt8

/-- Byte strings compare by their first different byte. -/
def byteOrder (key : Text) : List ℕ := key.map UInt8.toNat

theorem byteOrder_injective : Function.Injective byteOrder :=
  List.map_injective_iff.2 fun _ _ h => UInt8.toNat_inj.1 h

namespace Json

def IsSpace (b : UInt8) : Prop := b = byte ' ' ∨ b = byte '\t' ∨ b = byte '\n' ∨ b = byte '\r'

instance (b : UInt8) : Decidable (IsSpace b) := inferInstanceAs (Decidable (_ ∨ _))

def Spaces (s : Text) : Prop := ∀ b ∈ s, IsSpace b

def Digits (s : Text) : Prop := s ≠ [] ∧ ∀ b ∈ s, IsDigit b

/-- No leading zero, unless it is the whole numeral. -/
def IsInt (s : Text) : Prop := s = [byte '0'] ∨ Digits s ∧ s.head? ≠ some (byte '0')

def IsFraction (s : Text) : Prop := s = [] ∨ ∃ digits, Digits digits ∧ s = byte '.' :: digits

def IsExponent (s : Text) : Prop := s = [] ∨ ∃ mark sign digits,
  (mark = byte 'e' ∨ mark = byte 'E') ∧ (sign = [] ∨ sign = [byte '+'] ∨ sign = [byte '-']) ∧
    Digits digits ∧ s = mark :: sign ++ digits

def IsInteger (s : Text) : Prop := ∃ minus int, (minus = [] ∨ minus = [byte '-']) ∧ IsInt int ∧
  s = minus ++ int

def IsNumber (s : Text) : Prop := ∃ integer fraction exponent, IsInteger integer ∧
  IsFraction fraction ∧ IsExponent exponent ∧ s = integer ++ fraction ++ exponent

/-- Bytes from 0x80 on stand for themselves. -/
def IsUnescaped (b : UInt8) : Prop := 32 ≤ b.toNat ∧ b ≠ byte '"' ∧ b ≠ byte '\\'

/-- What a backslash and one byte stand for. -/
def simpleEscape (escaped : UInt8) : Option UInt8 :=
  if escaped = byte '"' ∨ escaped = byte '\\' ∨ escaped = byte '/' then some escaped
  else if escaped = byte 'b' then some 8
  else if escaped = byte 'f' then some 12
  else if escaped = byte 'n' then some 10
  else if escaped = byte 'r' then some 13
  else if escaped = byte 't' then some 9
  else none

def hexDigit (b : UInt8) : Option ℕ :=
  if IsDigit b then some (b.toNat - 48)
  else if 97 ≤ b.toNat ∧ b.toNat ≤ 102 then some (b.toNat - 87)
  else if 65 ≤ b.toNat ∧ b.toNat ≤ 70 then some (b.toNat - 55)
  else none

/-- Four hexadecimal digits and their value. -/
def CodeUnit (hex : Text) (unit : ℕ) : Prop := ∃ a b c d h₁ h₂ h₃ h₄, hex = [a, b, c, d] ∧
  hexDigit a = some h₁ ∧ hexDigit b = some h₂ ∧ hexDigit c = some h₃ ∧ hexDigit d = some h₄ ∧
    unit = ((h₁ * 16 + h₂) * 16 + h₃) * 16 + h₄

/-- A high surrogate, a low surrogate and the code point they make. -/
def SurrogatePair (high low point : ℕ) : Prop := 0xD800 ≤ high ∧ high ≤ 0xDBFF ∧
  0xDC00 ≤ low ∧ low ≤ 0xDFFF ∧ point = 0x10000 + (high - 0xD800) * 0x400 + (low - 0xDC00)

/-- What follows a backslash, and the bytes it denotes. A `Char` is no surrogate. -/
inductive Escape : Text → Text → Prop
  | simple {escaped b : UInt8} (h : simpleEscape escaped = some b) : Escape [escaped] [b]
  | unicode {hex : Text} (c : Char) (h : CodeUnit hex c.toNat) :
      Escape (byte 'u' :: hex) (String.utf8EncodeChar c)
  | surrogates {hex hex' : Text} {high low : ℕ} (c : Char) (hhigh : CodeUnit hex high)
      (hlow : CodeUnit hex' low) (hc : SurrogatePair high low c.toNat) :
      Escape (byte 'u' :: (hex ++ byte '\\' :: byte 'u' :: hex')) (String.utf8EncodeChar c)

/-- What stands between the quotes, and the string it denotes. -/
inductive Chars : Text → Text → Prop
  | nil : Chars [] []
  | plain {b : UInt8} {raw s : Text} (hb : IsUnescaped b) (h : Chars raw s) :
      Chars (b :: raw) (b :: s)
  | escape {escaped denoted raw s : Text} (he : Escape escaped denoted) (h : Chars raw s) :
      Chars (byte '\\' :: (escaped ++ raw)) (denoted ++ s)

def Quoted (raw s : Text) : Prop := ∃ chars, Chars chars s ∧
  raw = byte '"' :: (chars ++ [byte '"'])

/-- The key of a member with the spaces around it. -/
def Name (raw key : Text) : Prop := ∃ before quoted after, Spaces before ∧ Quoted quoted key ∧
  Spaces after ∧ raw = before ++ quoted ++ after

/-- What a part of a text may denote. -/
inductive Phrase where
  | value (value : JsonValue)
  | text (value : JsonValue)
  | elements (values : List JsonValue)
  | members (members : List (Text × JsonValue))

/-- `s` is a phrase of the grammar that denotes `p`. -/
inductive Denotes : Text → Phrase → Prop
  | null : Denotes (ascii "null") (.value .null)
  | true : Denotes (ascii "true") (.value (.bool true))
  | false : Denotes (ascii "false") (.value (.bool false))
  | number {s : Text} (h : IsNumber s) : Denotes s (.value (.number s))
  | string {raw s : Text} (h : Quoted raw s) : Denotes raw (.value (.string s))
  | emptyArray {inner : Text} (h : Spaces inner) :
      Denotes (byte '[' :: (inner ++ [byte ']'])) (.value (.array []))
  | array {inner : Text} {values : List JsonValue} (h : Denotes inner (.elements values)) :
      Denotes (byte '[' :: (inner ++ [byte ']'])) (.value (.array values))
  | emptyObject {inner : Text} (h : Spaces inner) :
      Denotes (byte '{' :: (inner ++ [byte '}'])) (.value (.object []))
  | object {inner : Text} {listed members : List (Text × JsonValue)}
      (h : Denotes inner (.members listed)) (hsame : members.Perm listed)
      (hranked : Ranked (fun member => byteOrder member.1) members) :
      Denotes (byte '{' :: (inner ++ [byte '}'])) (.value (.object members))
  | text {before s after : Text} {value : JsonValue} (hbefore : Spaces before)
      (h : Denotes s (.value value)) (hafter : Spaces after) :
      Denotes (before ++ s ++ after) (.text value)
  | element {s : Text} {value : JsonValue} (h : Denotes s (.text value)) :
      Denotes s (.elements [value])
  | elements {s rest : Text} {value : JsonValue} {values : List JsonValue}
      (h : Denotes s (.text value)) (hrest : Denotes rest (.elements values)) :
      Denotes (s ++ byte ',' :: rest) (.elements (value :: values))
  | member {name s key : Text} {value : JsonValue} (hname : Name name key)
      (h : Denotes s (.text value)) :
      Denotes (name ++ byte ':' :: s) (.members [(key, value)])
  | members {name s rest key : Text} {value : JsonValue} {members : List (Text × JsonValue)}
      (hname : Name name key) (h : Denotes s (.text value))
      (hrest : Denotes rest (.members members)) :
      Denotes (name ++ byte ':' :: (s ++ byte ',' :: rest)) (.members ((key, value) :: members))

/-- A JSON text: one value with spaces around it. -/
abbrev IsText (s : Text) (value : JsonValue) : Prop := Denotes s (.text value)

section Spaces
variable {before s : Text} {value : JsonValue}

theorem Spaces.nil : Spaces [] := fun _ h => (nomatch h)

theorem Spaces.append {after : Text} (h : Spaces before) (h' : Spaces after) :
    Spaces (before ++ after) :=
  fun b hb => (List.mem_append.1 hb).elim (h b) (h' b)

theorem Name.spaces {key : Text} (hbefore : Spaces before) (h : Name s key) :
    Name (before ++ s) key := by
  obtain ⟨before', quoted, after, hbefore', hquoted, hafter, rfl⟩ := h
  exact ⟨before ++ before', quoted, after, hbefore.append hbefore', hquoted, hafter, by simp⟩

theorem IsText.spaces (hbefore : Spaces before) (h : IsText s value) :
    IsText (before ++ s) value := by
  cases h with
  | @text before' raw after _ hbefore' h hafter =>
    rw [← List.append_assoc, ← List.append_assoc]
    exact .text (hbefore.append hbefore') h hafter

theorem Denotes.spaces_elements {values : List JsonValue} (hbefore : Spaces before)
    (h : Denotes s (.elements values)) : Denotes (before ++ s) (.elements values) := by
  cases h with
  | element h => exact .element (IsText.spaces hbefore h)
  | elements h hrest =>
    rw [← List.append_assoc]
    exact .elements (IsText.spaces hbefore h) hrest

theorem Denotes.spaces_members {members : List (Text × JsonValue)} (hbefore : Spaces before)
    (h : Denotes s (.members members)) : Denotes (before ++ s) (.members members) := by
  cases h with
  | member hname h =>
    rw [← List.append_assoc]
    exact .member (hname.spaces hbefore) h
  | members hname h hrest =>
    rw [← List.append_assoc]
    exact .members (hname.spaces hbefore) h hrest

end Spaces

end Json
end PerpexEngine
