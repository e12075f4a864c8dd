import PerpexEngine.Protocol.JsonLexemes

/-! `parse_json` reads the JSON texts and nothing else. -/
namespace PerpexEngine

abbrev RankedKeys (members : List (Text × JsonValue)) : Prop :=
  Ranked (fun member => byteOrder member.1) members

namespace Parser
open Json
variable {s rest : Text} {fuel : ℕ}

theorem emplace_eq_some {key : Text} {value : JsonValue} {members result : List (Text × JsonValue)}
    (hranked : RankedKeys members) (h : emplace key value members = some result) :
    RankedKeys result ∧ result.Perm ((key, value) :: members) := by
  induction members generalizing result with
  | nil =>
    cases h
    exact ⟨List.pairwise_singleton _ _, .refl _⟩
  | cons member members ih =>
    simp only [emplace] at h
    split_ifs at h with hlt heq
    · cases h
      refine ⟨List.pairwise_cons.2 ⟨fun other hother => ?_, hranked⟩, .refl _⟩
      rcases List.mem_cons.1 hother with rfl | hother
      · exact hlt
      · exact hlt.trans (hranked.head_lt hother)
    · obtain ⟨tail, htail, rfl⟩ := Option.map_eq_some_iff.1 h
      obtain ⟨hrankedTail, hperm⟩ := ih hranked.tail htail
      refine ⟨List.pairwise_cons.2 ⟨fun other hother => ?_, hrankedTail⟩,
        (hperm.cons member).trans (.swap _ _ _)⟩
      rcases List.mem_cons.1 (hperm.mem_iff.1 hother) with rfl | hother
      · exact lt_of_le_of_ne (not_lt.1 hlt) fun h => heq (byteOrder_injective h).symm
      · exact hranked.head_lt hother

theorem exists_emplace {key : Text} {value : JsonValue} {members : List (Text × JsonValue)}
    (h : ∀ member ∈ members, member.1 ≠ key) : ∃ result, emplace key value members = some result := by
  induction members with
  | nil => exact ⟨_, rfl⟩
  | cons member members ih =>
    obtain ⟨result, hresult⟩ := ih fun other hother => h other (List.mem_cons_of_mem _ hother)
    simp only [emplace]
    split_ifs with hlt heq
    · exact ⟨_, rfl⟩
    · exact absurd heq.symm (h member List.mem_cons_self)
    · exact ⟨_, by rw [hresult]; rfl⟩

section Soundness

/-- What each parser took, when it has this much fuel. -/
structure Sound (fuel : ℕ) : Prop where
  value : ∀ {s value rest}, parseValue fuel s = .ok (value, rest) →
    ∃ before raw, Spaces before ∧ Denotes raw (.value value) ∧ s = before ++ raw ++ rest
  object : ∀ {s members rest}, parseObject fuel s = .ok (members, rest) →
    ∃ raw, Denotes raw (.value (.object members)) ∧ s = raw ++ rest
  members : ∀ {object s members rest}, parseMembers fuel object s = .ok (members, rest) →
    RankedKeys object → ∃ raw listed, Denotes raw (.members listed) ∧ RankedKeys members ∧
      members.Perm (object ++ listed) ∧ s = raw ++ byte '}' :: rest
  array : ∀ {s values rest}, parseArray fuel s = .ok (values, rest) →
    ∃ raw, Denotes raw (.value (.array values)) ∧ s = raw ++ rest
  elements : ∀ {array s values rest}, parseElements fuel array s = .ok (values, rest) →
    ∃ raw listed, Denotes raw (.elements listed) ∧ values = array ++ listed ∧
      s = raw ++ byte ']' :: rest

theorem Sound.text (h : Sound fuel) {value : JsonValue}
    (hvalue : parseValue fuel s = .ok (value, rest)) :
    ∃ raw, IsText raw value ∧ s = raw ++ skipWhitespace rest := by
  obtain ⟨before, raw, hbefore, hraw, rfl⟩ := h.value hvalue
  obtain ⟨after, hafter, hrest⟩ := exists_spaces rest
  refine ⟨_, .text hbefore hraw hafter, ?_⟩
  conv_lhs => rw [hrest]
  simp

theorem Sound.zero : Sound 0 where
  value h := absurd h (fail_ne_ok _ _)
  object h := absurd h (fail_ne_ok _ _)
  members h := absurd h (fail_ne_ok _ _)
  array h := absurd h (fail_ne_ok _ _)
  elements h := absurd h (fail_ne_ok _ _)

theorem Sound.parseValue (h : Sound fuel) {value : JsonValue}
    (hvalue : parseValue (fuel + 1) s = .ok (value, rest)) :
    ∃ before raw, Spaces before ∧ Denotes raw (.value value) ∧ s = before ++ raw ++ rest := by
  obtain ⟨before, hbefore, hs⟩ := exists_spaces s
  have hraw : ∃ raw, Denotes raw (.value value) ∧ skipWhitespace s = raw ++ rest := by
    clear hs
    simp only [Parser.parseValue] at hvalue
    generalize skipWhitespace s = t at hvalue
    split_ifs at hvalue
    · exact absurd hvalue (fail_ne_ok _ _)
    · obtain ⟨⟨members, s'⟩, hmembers, hpure⟩ := bind_eq_ok.1 hvalue
      cases hpure
      exact h.object hmembers
    · obtain ⟨⟨values, s'⟩, hvalues, hpure⟩ := bind_eq_ok.1 hvalue
      cases hpure
      exact h.array hvalues
    · obtain ⟨⟨string, s'⟩, hstring, hpure⟩ := bind_eq_ok.1 hvalue
      cases hpure
      obtain ⟨raw, hquoted, rfl⟩ := parseString_eq_ok.1 hstring
      exact ⟨raw, .string hquoted, rfl⟩
    · obtain ⟨s', hliteral, hpure⟩ := bind_eq_ok.1 hvalue
      cases hpure
      exact ⟨_, .true, parseLiteral_eq_ok.1 hliteral⟩
    · obtain ⟨s', hliteral, hpure⟩ := bind_eq_ok.1 hvalue
      cases hpure
      exact ⟨_, .false, parseLiteral_eq_ok.1 hliteral⟩
    · obtain ⟨s', hliteral, hpure⟩ := bind_eq_ok.1 hvalue
      cases hpure
      exact ⟨_, .null, parseLiteral_eq_ok.1 hliteral⟩
    · obtain ⟨⟨lexeme, s'⟩, hnumber, hpure⟩ := bind_eq_ok.1 hvalue
      cases hpure
      obtain ⟨hlexeme, rfl⟩ := number_of_parseNumber hnumber
      exact ⟨lexeme, .number hlexeme, rfl⟩
    · exact absurd hvalue (fail_ne_ok _ _)
  obtain ⟨raw, hraw, ht⟩ := hraw
  exact ⟨before, raw, hbefore, hraw, by rw [List.append_assoc, ← ht]; exact hs⟩

theorem Sound.parseObject (h : Sound fuel) {members : List (Text × JsonValue)}
    (hobject : parseObject (fuel + 1) s = .ok (members, rest)) :
    ∃ raw, Denotes raw (.value (.object members)) ∧ s = raw ++ rest := by
  simp only [Parser.parseObject, bind_eq_ok, expect_eq_ok] at hobject
  obtain ⟨t, rfl, hobject⟩ := hobject
  obtain ⟨inner, hinner, ht⟩ := exists_spaces t
  rcases Option.eq_none_or_eq_some (consume (byte '}') (skipWhitespace t)) with hc | ⟨t', hc⟩
  · simp only [hc] at hobject
    obtain ⟨raw, listed, hraw, hranked, hperm, hs⟩ := h.members hobject (Ranked.nil _)
    refine ⟨_, .object (hraw.spaces_members hinner) hperm hranked, ?_⟩
    rw [ht, hs]
    simp
  · simp only [hc] at hobject
    cases hobject
    refine ⟨_, .emptyObject hinner, ?_⟩
    rw [ht, consume_eq_some.1 hc]
    simp

theorem Sound.parseMembers (h : Sound fuel) {object members : List (Text × JsonValue)}
    (hparsed : parseMembers (fuel + 1) object s = .ok (members, rest))
    (hobject : RankedKeys object) : ∃ raw listed, Denotes raw (.members listed) ∧
      RankedKeys members ∧ members.Perm (object ++ listed) ∧ s = raw ++ byte '}' :: rest := by
  obtain ⟨⟨key, s₁⟩, hkey, hrest⟩ := bind_eq_ok.1 hparsed
  obtain ⟨⟨value, s₂⟩, hvalue, hmembers⟩ := bind_eq_ok.1 hrest
  obtain ⟨name, hname, rfl⟩ := parseKey_eq_ok.1 hkey
  obtain ⟨raw, hraw, rfl⟩ := h.text hvalue
  rcases Option.eq_none_or_eq_some (emplace key value object) with he | ⟨object', he⟩
  · simp only [he, fail_ne_ok] at hmembers
  · obtain ⟨hranked, hperm⟩ := emplace_eq_some hobject he
    have hmoved : object'.Perm (object ++ [(key, value)]) :=
      hperm.trans (List.perm_append_singleton _ _).symm
    rcases Option.eq_none_or_eq_some (consume (byte '}') (skipWhitespace s₂)) with hc | ⟨t, hc⟩
    · simp only [he, hc, bind_eq_ok, expect_eq_ok] at hmembers
      obtain ⟨t, ht, hmembers⟩ := hmembers
      obtain ⟨raw', listed, hraw', hranked', hperm', rfl⟩ := h.members hmembers hranked
      refine ⟨_, _, .members hname hraw hraw', hranked', ?_, by rw [ht]; simp⟩
      have hall := hperm'.trans (hmoved.append_right listed)
      rwa [List.append_assoc] at hall
    · simp only [he, hc] at hmembers
      cases hmembers
      exact ⟨_, _, .member hname hraw, hranked, hmoved, by rw [consume_eq_some.1 hc]; simp⟩

theorem Sound.parseArray (h : Sound fuel) {values : List JsonValue}
    (harray : parseArray (fuel + 1) s = .ok (values, rest)) :
    ∃ raw, Denotes raw (.value (.array values)) ∧ s = raw ++ rest := by
  simp only [Parser.parseArray, bind_eq_ok, expect_eq_ok] at harray
  obtain ⟨t, rfl, harray⟩ := harray
  obtain ⟨inner, hinner, ht⟩ := exists_spaces t
  rcases Option.eq_none_or_eq_some (consume (byte ']') (skipWhitespace t)) with hc | ⟨t', hc⟩
  · simp only [hc] at harray
    obtain ⟨raw, listed, hraw, rfl, hs⟩ := h.elements harray
    refine ⟨_, .array (hraw.spaces_elements hinner), ?_⟩
    rw [ht, hs]
    simp
  · simp only [hc] at harray
    cases harray
    refine ⟨_, .emptyArray hinner, ?_⟩
    rw [ht, consume_eq_some.1 hc]
    simp

theorem Sound.parseElements (h : Sound fuel) {array values : List JsonValue}
    (hparsed : parseElements (fuel + 1) array s = .ok (values, rest)) :
    ∃ raw listed, Denotes raw (.elements listed) ∧ values = array ++ listed ∧
      s = raw ++ byte ']' :: rest := by
  obtain ⟨⟨value, s₁⟩, hvalue, helements⟩ := bind_eq_ok.1 hparsed
  obtain ⟨raw, hraw, rfl⟩ := h.text hvalue
  rcases Option.eq_none_or_eq_some (consume (byte ']') (skipWhitespace s₁)) with hc | ⟨t, hc⟩
  · simp only [hc, bind_eq_ok, expect_eq_ok] at helements
    obtain ⟨t, ht, helements⟩ := helements
    obtain ⟨raw', listed, hraw', rfl, rfl⟩ := h.elements helements
    exact ⟨_, _, .elements hraw hraw', by simp, by rw [ht]; simp⟩
  · simp only [hc] at helements
    cases helements
    exact ⟨_, _, .element hraw, rfl, by rw [consume_eq_some.1 hc]⟩

theorem sound (fuel : ℕ) : Sound fuel := by
  induction fuel with
  | zero => exact .zero
  | succ fuel ih => exact ⟨ih.parseValue, ih.parseObject, ih.parseMembers, ih.parseArray,
      ih.parseElements⟩

end Soundness

section Completeness

theorem parseValue_spaces {before : Text} (h : Spaces before) (fuel : ℕ) (s : Text) :
    parseValue fuel (before ++ s) = parseValue fuel s := by
  cases fuel with
  | zero => rfl
  | succ fuel => simp only [parseValue, skipWhitespace_append h]

theorem parseElements_spaces {before : Text} (h : Spaces before) (fuel : ℕ)
    (array : List JsonValue) (s : Text) :
    parseElements fuel array (before ++ s) = parseElements fuel array s := by
  cases fuel with
  | zero => rfl
  | succ fuel => simp only [parseElements, parseValue_spaces h]

theorem parseMembers_spaces {before : Text} (h : Spaces before) (fuel : ℕ)
    (object : List (Text × JsonValue)) (s : Text) :
    parseMembers fuel object (before ++ s) = parseMembers fuel object s := by
  cases fuel with
  | zero => rfl
  | succ fuel => simp only [parseMembers, parseKey, skipWhitespace_append h]

theorem parseElements_close (array : List JsonValue) (s : Text) (result : List JsonValue × Text) :
    parseElements fuel array (byte ']' :: s) ≠ .ok result := by
  intro h
  cases fuel with
  | zero => exact absurd h (fail_ne_ok _ _)
  | succ fuel =>
    obtain ⟨_, hvalue, -⟩ := bind_eq_ok.1 h
    cases fuel with
    | zero => exact absurd hvalue (fail_ne_ok _ _)
    | succ fuel => exact absurd hvalue (fail_ne_ok _ _)

theorem parseMembers_close (object : List (Text × JsonValue)) (s : Text)
    (result : List (Text × JsonValue) × Text) :
    parseMembers fuel object (byte '}' :: s) ≠ .ok result := by
  intro h
  cases fuel with
  | zero => exact absurd h (fail_ne_ok _ _)
  | succ fuel =>
    obtain ⟨_, hkey, -⟩ := bind_eq_ok.1 h
    exact absurd hkey (fail_ne_ok _ _)

/-- What may follow a value and its spaces. -/
def Closes (rest : Text) : Prop :=
  rest = [] ∨ peek rest = byte ',' ∨ peek rest = byte ']' ∨ peek rest = byte '}'

theorem Closes.skip (h : Closes rest) : skipWhitespace rest = rest := by
  cases rest with
  | nil => rfl
  | cons b rest =>
    apply skipWhitespace_cons
    rcases h with h | h | h | h
    · cases h
    all_goals
      rw [show b = _ from h]
      decide

theorem stops_cons {b : UInt8} (hdigit : ¬IsDigit b)
    (hmarks : b ≠ byte '.' ∧ b ≠ byte 'e' ∧ b ≠ byte 'E') (rest : Text) : Stops (b :: rest) :=
  ⟨hdigit, hmarks.1, not_or.2 hmarks.2⟩

theorem Closes.stops (h : Closes rest) {after : Text} (hafter : Spaces after) :
    Stops (after ++ rest) := by
  cases after with
  | nil =>
    rw [List.nil_append]
    cases rest with
    | nil => exact ⟨by decide, by decide, by decide⟩
    | cons b rest =>
      rcases h with h | h | h | h
      · cases h
      all_goals
        rw [show b = _ from h]
        exact stops_cons (by decide) (by decide) rest
  | cons b after =>
    rcases hafter b List.mem_cons_self with rfl | rfl | rfl | rfl
    all_goals exact stops_cons (by decide) (by decide) _

/-- What the parsers make of a phrase that stands before `rest`. -/
def Reads (raw : Text) : Phrase → Prop
  | .value value => ∀ fuel rest, 3 * raw.length + 1 ≤ fuel → Stops rest →
      parseValue fuel (raw ++ rest) = .ok (value, rest)
  | .text value => ∀ fuel rest, 3 * raw.length + 1 ≤ fuel → Closes rest →
      ∃ rest', parseValue fuel (raw ++ rest) = .ok (value, rest') ∧ skipWhitespace rest' = rest
  | .elements values => ∀ fuel array rest, 3 * raw.length + 2 ≤ fuel →
      parseElements fuel array (raw ++ byte ']' :: rest) = .ok (array ++ values, rest)
  | .members listed => ∀ fuel object members rest, 3 * raw.length + 2 ≤ fuel →
      RankedKeys object → RankedKeys members → members.Perm (object ++ listed) →
      parseMembers fuel object (raw ++ byte '}' :: rest) = .ok (members, rest)

theorem parseValue_cons {b : UInt8} (hb : ¬IsSpace b) (fuel : ℕ) (s : Text) :
    parseValue (fuel + 1) (b :: s) =
      if b = byte '{' then do
        let (members, s) ← parseObject fuel (b :: s)
        return (.object members, s)
      else if b = byte '[' then do
        let (values, s) ← parseArray fuel (b :: s)
        return (.array values, s)
      else if b = byte '"' then do
        let (value, s) ← parseString (b :: s)
        return (.string value, s)
      else if b = byte 't' then do
        let s ← parseLiteral (ascii "true") (b :: s)
        return (.bool true, s)
      else if b = byte 'f' then do
        let s ← parseLiteral (ascii "false") (b :: s)
        return (.bool false, s)
      else if b = byte 'n' then do
        let s ← parseLiteral (ascii "null") (b :: s)
        return (.null, s)
      else if b = byte '-' ∨ IsDigit b then do
        let (lexeme, s) ← parseNumber (b :: s)
        return (.number lexeme, s)
      else fail "expected JSON value" := by
  simp only [parseValue, skipWhitespace_cons hb, peek, List.headD_cons, reduceCtorEq, if_false]

theorem reads_null : Reads (ascii "null") (.value .null) := by
  intro fuel rest hfuel _
  obtain ⟨fuel, rfl⟩ := Nat.exists_eq_add_one_of_ne_zero (Nat.ne_zero_of_lt hfuel)
  have hcons : ascii "null" ++ rest = byte 'n' :: (ascii "ull" ++ rest) := rfl
  rw [hcons, parseValue_cons (by decide), if_neg (by decide), if_neg (by decide),
    if_neg (by decide), if_neg (by decide), if_neg (by decide), if_pos rfl, ← hcons]
  exact bind_eq_ok.2 ⟨rest, parseLiteral_eq_ok.2 rfl, rfl⟩

theorem reads_true : Reads (ascii "true") (.value (.bool true)) := by
  intro fuel rest hfuel _
  obtain ⟨fuel, rfl⟩ := Nat.exists_eq_add_one_of_ne_zero (Nat.ne_zero_of_lt hfuel)
  have hcons : ascii "true" ++ rest = byte 't' :: (ascii "rue" ++ rest) := rfl
  rw [hcons, parseValue_cons (by decide), if_neg (by decide), if_neg (by decide),
    if_neg (by decide), if_pos rfl, ← hcons]
  exact bind_eq_ok.2 ⟨rest, parseLiteral_eq_ok.2 rfl, rfl⟩

theorem reads_false : Reads (ascii "false") (.value (.bool false)) := by
  intro fuel rest hfuel _
  obtain ⟨fuel, rfl⟩ := Nat.exists_eq_add_one_of_ne_zero (Nat.ne_zero_of_lt hfuel)
  have hcons : ascii "false" ++ rest = byte 'f' :: (ascii "alse" ++ rest) := rfl
  rw [hcons, parseValue_cons (by decide), if_neg (by decide), if_neg (by decide),
    if_neg (by decide), if_neg (by decide), if_pos rfl, ← hcons]
  exact bind_eq_ok.2 ⟨rest, parseLiteral_eq_ok.2 rfl, rfl⟩

theorem number_head {lexeme : Text} (h : IsNumber lexeme) :
    ∃ b tail, lexeme = b :: tail ∧ (b = byte '-' ∨ IsDigit b) := by
  obtain ⟨_, fraction, exponent, ⟨minus, int, hminus, hint, rfl⟩, -, -, rfl⟩ := h
  rcases hminus with rfl | rfl
  · cases int with
    | nil => exact absurd (int_digit hint []) (by decide)
    | cons b int => exact ⟨b, _, rfl, .inr (int_digit hint [])⟩
  · exact ⟨_, _, rfl, .inl rfl⟩

theorem reads_number {lexeme : Text} (h : IsNumber lexeme) :
    Reads lexeme (.value (.number lexeme)) := by
  intro fuel rest hfuel hrest
  obtain ⟨fuel, rfl⟩ := Nat.exists_eq_add_one_of_ne_zero (Nat.ne_zero_of_lt hfuel)
  obtain ⟨b, tail, rfl, hb⟩ := number_head h
  have hne : ∀ c : UInt8, ¬(c = byte '-' ∨ IsDigit c) → b ≠ c := by
    rintro c hc rfl
    exact hc hb
  have hspace : ¬IsSpace b := by
    rintro (rfl | rfl | rfl | rfl) <;> exact absurd hb (by decide)
  rw [List.cons_append, parseValue_cons hspace, if_neg (hne _ (by decide)),
    if_neg (hne _ (by decide)), if_neg (hne _ (by decide)), if_neg (hne _ (by decide)),
    if_neg (hne _ (by decide)), if_neg (hne _ (by decide)), if_pos hb]
  exact bind_eq_ok.2 ⟨_, parseNumber_of_number h hrest, rfl⟩

theorem reads_string {raw value : Text} (h : Quoted raw value) :
    Reads raw (.value (.string value)) := by
  intro fuel rest hfuel _
  obtain ⟨fuel, rfl⟩ := Nat.exists_eq_add_one_of_ne_zero (Nat.ne_zero_of_lt hfuel)
  have hparsed : parseString (raw ++ rest) = .ok (value, rest) := parseString_eq_ok.2 ⟨raw, h, rfl⟩
  obtain ⟨chars, -, rfl⟩ := h
  rw [List.cons_append] at hparsed ⊢
  rw [parseValue_cons (by decide), if_neg (by decide), if_neg (by decide), if_pos rfl]
  exact bind_eq_ok.2 ⟨_, hparsed, rfl⟩

theorem parseValue_array {values : List JsonValue} (h : parseArray fuel (byte '[' :: s) =
    .ok (values, rest)) : parseValue (fuel + 1) (byte '[' :: s) = .ok (.array values, rest) := by
  rw [parseValue_cons (by decide), if_neg (by decide), if_pos rfl]
  exact bind_eq_ok.2 ⟨_, h, rfl⟩

theorem parseValue_object {members : List (Text × JsonValue)} (h : parseObject fuel
    (byte '{' :: s) = .ok (members, rest)) :
    parseValue (fuel + 1) (byte '{' :: s) = .ok (.object members, rest) := by
  rw [parseValue_cons (by decide), if_pos rfl]
  exact bind_eq_ok.2 ⟨_, h, rfl⟩

theorem exists_fuel {n : ℕ} (h : 2 ≤ n) : ∃ fuel, n = fuel + 1 + 1 := ⟨n - 2, by omega⟩

theorem reads_emptyArray {inner : Text} (h : Spaces inner) :
    Reads (byte '[' :: (inner ++ [byte ']'])) (.value (.array [])) := by
  intro fuel rest hfuel _
  simp only [List.length_cons, List.length_append] at hfuel
  obtain ⟨fuel, rfl⟩ := exists_fuel (n := fuel) (by omega)
  rw [List.cons_append, List.append_assoc]
  apply parseValue_array
  refine bind_eq_ok.2 ⟨_, expect_eq_ok.2 rfl, ?_⟩
  rw [skipWhitespace_append h, List.singleton_append, skipWhitespace_cons (by decide)]
  rfl

theorem reads_array {inner : Text} {values : List JsonValue}
    (h : Reads inner (.elements values)) :
    Reads (byte '[' :: (inner ++ [byte ']'])) (.value (.array values)) := by
  intro fuel rest hfuel _
  simp only [List.length_cons, List.length_append] at hfuel
  obtain ⟨fuel, rfl⟩ := exists_fuel (n := fuel) (by omega)
  have hparsed : parseElements fuel [] (inner ++ byte ']' :: rest) = .ok ([] ++ values, rest) :=
    h _ _ _ (by omega)
  rw [List.cons_append, List.append_assoc]
  apply parseValue_array
  refine bind_eq_ok.2 ⟨_, expect_eq_ok.2 rfl, ?_⟩
  rw [List.singleton_append]
  obtain ⟨before, hbefore, hs⟩ := exists_spaces (inner ++ byte ']' :: rest)
  rw [hs, parseElements_spaces hbefore] at hparsed
  rcases Option.eq_none_or_eq_some
    (consume (byte ']') (skipWhitespace (inner ++ byte ']' :: rest))) with hc | ⟨t, hc⟩
  · simp only [hc]
    exact hparsed
  · rw [consume_eq_some.1 hc] at hparsed
    exact absurd hparsed (parseElements_close _ _ _)

theorem reads_emptyObject {inner : Text} (h : Spaces inner) :
    Reads (byte '{' :: (inner ++ [byte '}'])) (.value (.object [])) := by
  intro fuel rest hfuel _
  simp only [List.length_cons, List.length_append] at hfuel
  obtain ⟨fuel, rfl⟩ := exists_fuel (n := fuel) (by omega)
  rw [List.cons_append, List.append_assoc]
  apply parseValue_object
  refine bind_eq_ok.2 ⟨_, expect_eq_ok.2 rfl, ?_⟩
  rw [skipWhitespace_append h, List.singleton_append, skipWhitespace_cons (by decide)]
  rfl

theorem reads_object {inner : Text} {listed members : List (Text × JsonValue)}
    (h : Reads inner (.members listed)) (hsame : members.Perm listed)
    (hranked : RankedKeys members) :
    Reads (byte '{' :: (inner ++ [byte '}'])) (.value (.object members)) := by
  intro fuel rest hfuel _
  simp only [List.length_cons, List.length_append] at hfuel
  obtain ⟨fuel, rfl⟩ := exists_fuel (n := fuel) (by omega)
  have hparsed : parseMembers fuel [] (inner ++ byte '}' :: rest) = .ok (members, rest) :=
    h _ _ _ _ (by omega) (Ranked.nil _) hranked hsame
  rw [List.cons_append, List.append_assoc]
  apply parseValue_object
  refine bind_eq_ok.2 ⟨_, expect_eq_ok.2 rfl, ?_⟩
  rw [List.singleton_append]
  obtain ⟨before, hbefore, hs⟩ := exists_spaces (inner ++ byte '}' :: rest)
  rw [hs, parseMembers_spaces hbefore] at hparsed
  rcases Option.eq_none_or_eq_some
    (consume (byte '}') (skipWhitespace (inner ++ byte '}' :: rest))) with hc | ⟨t, hc⟩
  · simp only [hc]
    exact hparsed
  · rw [consume_eq_some.1 hc] at hparsed
    exact absurd hparsed (parseMembers_close _ _ _)

theorem reads_text {before raw after : Text} {value : JsonValue} (hbefore : Spaces before)
    (h : Reads raw (.value value)) (hafter : Spaces after) :
    Reads (before ++ raw ++ after) (.text value) := by
  intro fuel rest hfuel hrest
  simp only [List.length_append] at hfuel
  refine ⟨after ++ rest, ?_, by rw [skipWhitespace_append hafter, hrest.skip]⟩
  rw [List.append_assoc, List.append_assoc, parseValue_spaces hbefore]
  exact h _ _ (by omega) (hrest.stops hafter)

theorem reads_element {raw : Text} {value : JsonValue} (h : Reads raw (.text value)) :
    Reads raw (.elements [value]) := by
  intro fuel array rest hfuel
  obtain ⟨fuel, rfl⟩ := exists_fuel (n := fuel) (by omega)
  obtain ⟨rest', hvalue, hskip⟩ := h (fuel + 1) (byte ']' :: rest) (by omega)
    (.inr (.inr (.inl rfl)))
  refine bind_eq_ok.2 ⟨_, hvalue, ?_⟩
  simp only [hskip]
  rfl

theorem reads_elements {raw rest' : Text} {value : JsonValue} {values : List JsonValue}
    (h : Reads raw (.text value)) (hvalues : Reads rest' (.elements values)) :
    Reads (raw ++ byte ',' :: rest') (.elements (value :: values)) := by
  intro fuel array rest hfuel
  simp only [List.length_cons, List.length_append] at hfuel
  obtain ⟨fuel, rfl⟩ := exists_fuel (n := fuel) (by omega)
  obtain ⟨t, hvalue, hskip⟩ := h (fuel + 1) (byte ',' :: (rest' ++ byte ']' :: rest))
    (by omega) (.inr (.inl rfl))
  rw [List.append_assoc, List.cons_append]
  refine bind_eq_ok.2 ⟨_, hvalue, ?_⟩
  simp only [hskip]
  refine bind_eq_ok.2 ⟨_, expect_eq_ok.2 rfl, ?_⟩
  rw [hvalues (fuel + 1) _ _ (by omega), List.append_assoc]
  rfl

/-- A member of a list with distinct keys finds its place. -/
theorem emplace_of_perm {key : Text} {value : JsonValue}
    {object members listed : List (Text × JsonValue)} (hobject : RankedKeys object)
    (hmembers : RankedKeys members) (hperm : members.Perm (object ++ (key, value) :: listed)) :
    ∃ object', emplace key value object = some object' ∧ RankedKeys object' ∧
      members.Perm (object' ++ listed) := by
  have hdistinct : (object ++ (key, value) :: listed).Pairwise fun x y => x.1 ≠ y.1 := by
    refine (hperm.pairwise_iff fun hxy => hxy.symm).1 (hmembers.imp fun hxy heq => ?_)
    simp only [heq, lt_irrefl] at hxy
  obtain ⟨object', hobject'⟩ := exists_emplace fun member hmember =>
    (List.pairwise_append.1 hdistinct).2.2 member hmember (key, value) List.mem_cons_self
  obtain ⟨hranked, hperm'⟩ := emplace_eq_some hobject hobject'
  refine ⟨object', hobject', hranked, hperm.trans ?_⟩
  exact List.perm_middle.trans (hperm'.symm.append_right listed)

theorem reads_member {name raw key : Text} {value : JsonValue} (hname : Name name key)
    (h : Reads raw (.text value)) :
    Reads (name ++ byte ':' :: raw) (.members [(key, value)]) := by
  intro fuel object members rest hfuel hobject hmembers hperm
  simp only [List.length_cons, List.length_append] at hfuel
  obtain ⟨fuel, rfl⟩ := exists_fuel (n := fuel) (by omega)
  obtain ⟨t, hvalue, hskip⟩ := h (fuel + 1) (byte '}' :: rest) (by omega)
    (.inr (.inr (.inr rfl)))
  obtain ⟨object', hemplace, hranked, hperm'⟩ := emplace_of_perm hobject hmembers hperm
  rw [List.append_nil] at hperm'
  have hsame : members = object' := hmembers.ext hranked fun _ => hperm'.mem_iff
  rw [List.append_assoc, List.cons_append]
  refine bind_eq_ok.2 ⟨_, parseKey_eq_ok.2 ⟨name, hname, rfl⟩, ?_⟩
  refine bind_eq_ok.2 ⟨_, hvalue, ?_⟩
  simp only [hemplace, hskip, hsame]
  rfl

theorem reads_members {name raw rest' key : Text} {value : JsonValue}
    {listed : List (Text × JsonValue)} (hname : Name name key) (h : Reads raw (.text value))
    (hlisted : Reads rest' (.members listed)) :
    Reads (name ++ byte ':' :: (raw ++ byte ',' :: rest')) (.members ((key, value) :: listed)) := by
  intro fuel object members rest hfuel hobject hmembers hperm
  simp only [List.length_cons, List.length_append] at hfuel
  obtain ⟨fuel, rfl⟩ := exists_fuel (n := fuel) (by omega)
  obtain ⟨t, hvalue, hskip⟩ := h (fuel + 1) (byte ',' :: (rest' ++ byte '}' :: rest))
    (by omega) (.inr (.inl rfl))
  obtain ⟨object', hemplace, hranked, hperm'⟩ := emplace_of_perm hobject hmembers hperm
  rw [List.append_assoc, List.cons_append, List.append_assoc, List.cons_append]
  refine bind_eq_ok.2 ⟨_, parseKey_eq_ok.2 ⟨name, hname, rfl⟩, ?_⟩
  refine bind_eq_ok.2 ⟨_, hvalue, ?_⟩
  simp only [hemplace, hskip]
  refine bind_eq_ok.2 ⟨_, expect_eq_ok.2 rfl, ?_⟩
  exact hlisted (fuel + 1) _ _ _ (by omega) hranked hmembers hperm'

theorem reads_denoted {raw : Text} {p : Phrase} (h : Denotes raw p) : Reads raw p := by
  induction h with
  | null => exact reads_null
  | true => exact reads_true
  | false => exact reads_false
  | number h => exact reads_number h
  | string h => exact reads_string h
  | emptyArray h => exact reads_emptyArray h
  | array h ih => exact reads_array ih
  | emptyObject h => exact reads_emptyObject h
  | object h hsame hranked ih => exact reads_object ih hsame hranked
  | text hbefore h hafter ih => exact reads_text hbefore ih hafter
  | element h ih => exact reads_element ih
  | elements h hrest ih ihrest => exact reads_elements ih ihrest
  | member hname h ih => exact reads_member hname ih
  | members hname h hrest ih ihrest => exact reads_members hname ih ihrest

end Completeness

end Parser

theorem parseJson_eq_ok {text : Text} {value : JsonValue} :
    parseJson text = .ok value ↔ Json.IsText text value := by
  simp only [parseJson, bind_eq_ok, ite_fail_eq_ok]
  constructor
  · rintro ⟨⟨_, rest⟩, hvalue, hend, h⟩
    cases h
    obtain ⟨raw, hraw, rfl⟩ := (Parser.sound _).text hvalue
    rwa [hend, List.append_nil]
  · intro h
    obtain ⟨rest, hvalue, hskip⟩ := Parser.reads_denoted h _ [] le_rfl (.inl rfl)
    rw [List.append_nil] at hvalue
    exact ⟨_, hvalue, hskip, rfl⟩

/-- `parse_json` accepts exactly the JSON texts, and returns the one value a text denotes. -/
theorem parses_json_texts (text : Text) :
    ((∃ value, parseJson text = .ok value) ↔ ∃ value, Json.IsText text value) ∧
      ∀ value, parseJson text = .ok value →
        Json.IsText text value ∧ ∀ other, Json.IsText text other → other = value := by
  refine ⟨exists_congr fun _ => parseJson_eq_ok, fun value h => ⟨parseJson_eq_ok.1 h, ?_⟩⟩
  intro other hother
  rw [parseJson_eq_ok.2 hother] at h
  cases h
  rfl

example : parseJson (ascii " \x7b\"b\" : [1.50, true], \"a\": \"\\u00e9\"\x7d ") =
    .ok (.object [(ascii "a", .string [195, 169]),
      (ascii "b", .array [.number (ascii "1.50"), .bool true])]) := by
  rfl

end PerpexEngine
