import PerpexEngine.Runtime.OutputRoundTrip

/-! Which values JSON texts denote. -/
namespace PerpexEngine.Json
open Serializer

/-- Its numbers are numbers of the grammar, and the keys of its objects stand in order. -/
inductive IsValue : JsonValue → Prop
  | null : IsValue .null
  | bool (value : Bool) : IsValue (.bool value)
  | number {lexeme : Text} (h : IsNumber lexeme) : IsValue (.number lexeme)
  | string (value : Text) : IsValue (.string value)
  | array {values : List JsonValue} (h : ∀ value ∈ values, IsValue value) : IsValue (.array values)
  | object {members : List (Text × JsonValue)}
      (hranked : Ranked (fun member => byteOrder member.1) members)
      (h : ∀ member ∈ members, IsValue member.2) : IsValue (.object members)

def Phrase.Proper : Phrase → Prop
  | .value v => IsValue v
  | .text v => IsValue v
  | .elements vs => ∀ v ∈ vs, IsValue v
  | .members ms => ∀ m ∈ ms, IsValue m.2

theorem Denotes.proper {raw : Text} {p : Phrase} (h : Denotes raw p) : p.Proper := by
  induction h with
  | null => exact IsValue.null
  | true => exact IsValue.bool Bool.true
  | false => exact IsValue.bool Bool.false
  | number h => exact IsValue.number h
  | string _ => exact IsValue.string _
  | emptyArray _ => exact IsValue.array (by simp)
  | array _ ih => exact IsValue.array ih
  | emptyObject _ => exact IsValue.object (.nil _) (by simp)
  | object _ hsame hranked ih =>
    exact IsValue.object hranked fun member hmember => ih member (hsame.mem_iff.1 hmember)
  | text _ _ _ ih => exact ih
  | element _ ih =>
    intro value hvalue
    rw [List.mem_singleton.1 hvalue]
    exact ih
  | elements _ _ ih ihrest => exact List.forall_mem_cons.2 ⟨ih, ihrest⟩
  | member _ _ ih =>
    intro member hmember
    rw [List.mem_singleton.1 hmember]
    exact ih
  | members _ _ _ ih ihrest => exact List.forall_mem_cons.2 ⟨ih, ihrest⟩

theorem exists_elements {values : List JsonValue} (hne : values ≠ [])
    (h : ∀ value ∈ values, ∃ raw, Denotes raw (.value value)) :
    ∃ raw, Denotes raw (.elements values) := by
  induction values with
  | nil => exact absurd rfl hne
  | cons value values ih =>
    obtain ⟨raw, hraw⟩ := h value List.mem_cons_self
    by_cases hnil : values = []
    · subst hnil
      exact ⟨raw, .element (isText_of_value hraw)⟩
    · obtain ⟨rest, hrest⟩ := ih hnil fun other hother => h other (List.mem_cons_of_mem _ hother)
      exact ⟨_, .elements (isText_of_value hraw) hrest⟩

theorem exists_members {members : List (Text × JsonValue)} (hne : members ≠ [])
    (h : ∀ member ∈ members, ∃ raw, Denotes raw (.value member.2)) :
    ∃ raw, Denotes raw (.members members) := by
  induction members with
  | nil => exact absurd rfl hne
  | cons member members ih =>
    obtain ⟨key, value⟩ := member
    obtain ⟨raw, hraw⟩ := h (key, value) List.mem_cons_self
    by_cases hnil : members = []
    · subst hnil
      exact ⟨_, .member (name_appendJsonString key) (isText_of_value hraw)⟩
    · obtain ⟨rest, hrest⟩ := ih hnil fun other hother => h other (List.mem_cons_of_mem _ hother)
      exact ⟨_, .members (name_appendJsonString key) (isText_of_value hraw) hrest⟩

theorem IsValue.exists_raw {value : JsonValue} (h : IsValue value) :
    ∃ raw, Denotes raw (.value value) := by
  induction h with
  | null => exact ⟨_, .null⟩
  | bool value => cases value with
    | true => exact ⟨_, .true⟩
    | false => exact ⟨_, .false⟩
  | number h => exact ⟨_, .number h⟩
  | string value => exact ⟨_, .string (quoted_appendJsonString value)⟩
  | @array values _ ih =>
    by_cases hnil : values = []
    · subst hnil
      exact ⟨_, .emptyArray .nil⟩
    · obtain ⟨raw, hraw⟩ := exists_elements hnil ih
      exact ⟨_, .array hraw⟩
  | @object members hranked _ ih =>
    by_cases hnil : members = []
    · subst hnil
      exact ⟨_, .emptyObject .nil⟩
    · obtain ⟨raw, hraw⟩ := exists_members hnil ih
      exact ⟨_, .object hraw (.refl _) hranked⟩

/-- Every such value has a text, and no other value has one. -/
theorem exists_isText_iff {value : JsonValue} : (∃ raw, IsText raw value) ↔ IsValue value := by
  constructor
  · rintro ⟨raw, hraw⟩
    exact hraw.proper
  · intro h
    obtain ⟨raw, hraw⟩ := h.exists_raw
    exact ⟨raw, isText_of_value hraw⟩

end PerpexEngine.Json
