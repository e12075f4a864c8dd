import PerpexEngine.Runtime.EventNumbers

/-! An input that was processed stays known: its repetitions are duplicates and change nothing. -/
namespace PerpexEngine
open Program

namespace ParsedEngineInput

def inputId : ParsedEngineInput → Option Text
  | placeOrder input => input.inputId
  | cancelOrder input => input.inputId
  | liquidatePosition input => input.inputId
  | markPriceUpdated input => input.inputId
  | fundingRateUpdated input => input.inputId
  | fundingSettlementTick input => input.inputId

/-- The commands carry an idempotency key. -/
def idempotencyKey : ParsedEngineInput → Option Text
  | placeOrder input => some input.envelope.idempotencyKey
  | cancelOrder input => some input.envelope.idempotencyKey
  | liquidatePosition input => some input.envelope.idempotencyKey
  | _ => none

end ParsedEngineInput

namespace EngineRuntime

/-- One of the two tables of processed requests knows a key of the input. -/
def Knows (rt : EngineRuntime) (parsed : ParsedEngineInput) : Prop :=
  (∃ inputId ∈ parsed.inputId, inputId ∈ rt.processedInputIds) ∨
    ∃ key ∈ parsed.idempotencyKey, key ∈ rt.processedIdempotencyKeys

instance (rt : EngineRuntime) (parsed : ParsedEngineInput) : Decidable (rt.Knows parsed) := by
  unfold Knows
  infer_instance

/-- No processed request is forgotten. -/
structure Remembers (rt rt' : EngineRuntime) : Prop where
  inputIds : ∀ inputId ∈ rt.processedInputIds, inputId ∈ rt'.processedInputIds
  keys : ∀ key ∈ rt.processedIdempotencyKeys, key ∈ rt'.processedIdempotencyKeys

theorem Remembers.refl (rt : EngineRuntime) : rt.Remembers rt := ⟨fun _ h => h, fun _ h => h⟩

theorem Remembers.knows {rt rt' : EngineRuntime} (h : rt.Remembers rt')
    {parsed : ParsedEngineInput} (hk : rt.Knows parsed) : rt'.Knows parsed := by
  rcases hk with ⟨inputId, hmem, hin⟩ | ⟨key, hmem, hin⟩
  · exact Or.inl ⟨inputId, hmem, h.inputIds inputId hin⟩
  · exact Or.inr ⟨key, hmem, h.keys key hin⟩

theorem remembersRule : RunRule (fun _ => True) fun rt _ rt' => rt.Remembers rt' where
  nothing := Remembers.refl
  append h h' := ⟨fun i hi => h'.inputIds i (h.inputIds i hi), fun k hk => h'.keys k (h.keys k hk)⟩
  core rt _ := ⟨fun _ h => h, fun _ h => h⟩
  ledger rt :=
    { nothing := fun _ => Remembers.refl _
      append := fun _ _ => ⟨fun _ h => h, fun _ h => h⟩
      clock := fun _ => ⟨fun _ h => h, fun _ h => h⟩
      event := fun _ _ _ => ⟨fun _ h => h, fun _ h => h⟩
      metadata := fun _ _ _ => ⟨fun _ h => h, fun _ h => h⟩
      fill := fun _ _ _ _ _ => ⟨fun _ h => h, fun _ h => h⟩ }
  inputId rt inputId _ := by
    cases inputId with
    | none => exact Remembers.refl rt
    | some inputId =>
      exact ⟨fun i hi => Std.ExtTreeMap.mem_insertIfNew.2 (Or.inr hi), fun _ h => h⟩
  idempotencyKey rt _ _ :=
    ⟨fun _ h => h, fun k hk => Std.ExtTreeMap.mem_insertIfNew.2 (Or.inr hk)⟩
  markPrice _ _ := ⟨fun _ h => h, fun _ h => h⟩
  fundingRate _ _ := ⟨fun _ h => h, fun _ h => h⟩
  funding _ _ _ := ⟨fun _ h => h, fun _ h => h⟩
  settled _ _ := ⟨fun _ h => h, fun _ h => h⟩
  restart _ _ _ := ⟨fun _ h => h, fun _ h => h⟩

end EngineRuntime

section Marking
variable {rt : EngineRuntime}

theorem ensures_markInputProcessed (kind : RuntimeCommandKind) (record : InboundEngineRecord)
    (inputId : Option Text) : Ensures (markInputProcessed kind record inputId) rt
      (fun _ rt' => ∀ i ∈ inputId, i ∈ rt'.processedInputIds) fun _ => False := by
  rintro i hi
  cases hi
  exact Std.ExtTreeMap.mem_insertIfNew_self

theorem ensures_markProcessed (kind : RuntimeCommandKind) (record : InboundEngineRecord)
    (inputId : Option Text) (key : Text) : Ensures (markProcessed kind record inputId key) rt
      (fun _ rt' => key ∈ rt'.processedIdempotencyKeys) fun _ => False :=
  Std.ExtTreeMap.mem_insertIfNew_self

theorem knows_of_duplicateInput (parsed : ParsedEngineInput) {result : EngineProcessResult}
    (h : duplicateInputResultFor rt parsed.inputId = some result) : rt.Knows parsed := by
  unfold duplicateInputResultFor at h
  simp only [Option.bind_eq_bind, Option.pure_def, Option.bind_eq_some_iff, Option.some.injEq] at h
  obtain ⟨inputId, hmem, original, hget, -⟩ := h
  exact Or.inl ⟨inputId, hmem, Std.ExtTreeMap.mem_iff_isSome_getElem?.2 (by rw [hget]; rfl)⟩

theorem duplicateInput_of_knows {inputId : Option Text}
    (h : ∃ i ∈ inputId, i ∈ rt.processedInputIds) :
    ∃ key original, duplicateInputResultFor rt inputId =
      some (makeDuplicateResult .inputId key original) := by
  obtain ⟨i, rfl, hin⟩ := h
  obtain ⟨original, hget⟩ := Option.isSome_iff_exists.1 (Std.ExtTreeMap.mem_iff_isSome_getElem?.1 hin)
  refine ⟨i, original, ?_⟩
  unfold duplicateInputResultFor
  simp only [Option.bind_eq_bind, Option.bind_some, hget]
  rfl

theorem duplicateResult_of_knows {inputId : Option Text} {key : Text}
    (h : (∃ i ∈ inputId, i ∈ rt.processedInputIds) ∨ key ∈ rt.processedIdempotencyKeys) :
    ∃ reason found original, duplicateResultFor rt inputId key =
      some (makeDuplicateResult reason found original) := by
  unfold duplicateResultFor
  split
  · rename_i hdup
    obtain ⟨found, original, rfl⟩ := duplicateInputResultFor_eq hdup
    exact ⟨_, found, original, rfl⟩
  · rename_i hdup
    rcases h with h | h
    · obtain ⟨found, original, hsome⟩ := duplicateInput_of_knows h
      rw [hdup] at hsome
      cases hsome
    · obtain ⟨original, hget⟩ := Option.isSome_iff_exists.1
        (Std.ExtTreeMap.mem_iff_isSome_getElem?.1 h)
      rw [hget]
      exact ⟨_, key, original, rfl⟩

theorem knows_of_duplicate (parsed : ParsedEngineInput) {key : Text}
    (hkey : key ∈ parsed.idempotencyKey) {result : EngineProcessResult}
    (h : duplicateResultFor rt parsed.inputId key = some result) : rt.Knows parsed := by
  unfold duplicateResultFor at h
  split at h
  · rename_i hdup
    exact knows_of_duplicateInput parsed hdup
  · rw [Option.map_eq_some_iff] at h
    obtain ⟨original, hget, -⟩ := h
    exact Or.inr ⟨key, hkey, Std.ExtTreeMap.mem_iff_isSome_getElem?.2 (by rw [hget]; rfl)⟩

/-- The input has a key it can be known by. -/
def ParsedEngineInput.Keyed (parsed : ParsedEngineInput) : Prop :=
  parsed.inputId.isSome ∨ parsed.idempotencyKey.isSome

theorem marked_knows (parsed : ParsedEngineInput) (hkeyed : parsed.Keyed)
    (hno : parsed.idempotencyKey = none) (kind : RuntimeCommandKind)
    (record : InboundEngineRecord) (result : EngineProcessResult) (rt : EngineRuntime) :
    Ensures (do
      markInputProcessed kind record parsed.inputId
      pure result) rt (fun _ rt' => rt'.Knows parsed) fun _ => True := by
  rw [ensures_bind]
  refine (ensures_markInputProcessed kind record parsed.inputId).mono ?_ fun _ => False.elim
  intro _ rt' h
  rcases hkeyed with hsome | hsome
  · obtain ⟨i, hi⟩ := Option.isSome_iff_exists.1 hsome
    exact Or.inl ⟨i, hi, h i hi⟩
  · rw [hno] at hsome
    cases hsome

/-- What was processed to the end is known, on every path of every handler. -/
theorem processParsed_knows (record : InboundEngineRecord) (mode : ProcessingMode)
    (parsed : ParsedEngineInput) (hkeyed : parsed.Keyed) :
    Ensures (EngineRuntime.processParsed record mode parsed) rt
      (fun _ rt' => rt'.Knows parsed) fun _ => True := by
  have hcommand : ∀ (kind : RuntimeCommandKind) (result : EngineProcessResult) (rt : EngineRuntime),
      ∀ key ∈ parsed.idempotencyKey, Ensures (do
        markProcessed kind record parsed.inputId key
        pure result) rt (fun _ rt' => rt'.Knows parsed) fun _ => True := by
    intro kind result rt key hkey
    rw [ensures_bind]
    refine (ensures_markProcessed kind record _ _).mono (fun _ rt' h => ?_) fun _ => False.elim
    exact Or.inr ⟨key, hkey, h⟩
  cases parsed with
  | placeOrder input =>
    unfold EngineRuntime.processParsed placeOrder
    dsimp only
    rw [ensures_bind, ensures_get]
    split
    · rename_i hdup
      exact knows_of_duplicate (.placeOrder input) rfl hdup
    · exact ensures_bind_of_forall fun result t => hcommand _ _ t _ rfl
  | cancelOrder input =>
    unfold EngineRuntime.processParsed cancelOrder
    dsimp only
    rw [ensures_bind, ensures_get]
    split
    · rename_i hdup
      exact knows_of_duplicate (.cancelOrder input) rfl hdup
    · exact ensures_bind_of_forall fun _ _ => ensures_bind_of_forall fun _ _ =>
        ensures_bind_of_forall fun _ _ => ensures_bind_of_forall fun _ t => hcommand _ _ t _ rfl
  | liquidatePosition input =>
    unfold EngineRuntime.processParsed liquidatePosition
    dsimp only
    rw [ensures_bind, ensures_get]
    split
    · rename_i hdup
      exact knows_of_duplicate (.liquidatePosition input) rfl hdup
    · exact ensures_bind_of_forall fun result t => hcommand _ _ t _ rfl
  | markPriceUpdated input =>
    unfold EngineRuntime.processParsed markPriceUpdated
    dsimp only
    rw [ensures_bind, ensures_get]
    split
    · rename_i hdup
      exact knows_of_duplicateInput (.markPriceUpdated input) hdup
    · exact ensures_bind_of_forall fun _ _ => ensures_bind_of_forall fun _ _ =>
        ensures_bind_of_forall fun _ _ => ensures_bind_of_forall fun _ t =>
          marked_knows (.markPriceUpdated input) hkeyed rfl _ _ _ t
  | fundingRateUpdated input =>
    unfold EngineRuntime.processParsed fundingRateUpdated
    dsimp only
    rw [ensures_bind, ensures_get]
    split
    · rename_i hdup
      exact knows_of_duplicateInput (.fundingRateUpdated input) hdup
    · exact ensures_bind_of_forall fun _ _ => ensures_bind_of_forall fun _ t =>
        marked_knows (.fundingRateUpdated input) hkeyed rfl _ _ _ t
  | fundingSettlementTick input =>
    have hmark := marked_knows (.fundingSettlementTick input) hkeyed rfl .fundingSettlementTick
      record
    unfold EngineRuntime.processParsed fundingSettlementTick
    dsimp only
    rw [ensures_bind, ensures_get]
    split
    · rename_i hdup
      exact knows_of_duplicateInput (.fundingSettlementTick input) hdup
    · split_ifs
      · exact hmark _ _
      · split
        · exact hmark _ _
        · exact ensures_bind_of_forall fun _ _ => ensures_bind_of_forall fun _ _ =>
            ensures_bind_of_forall fun _ t => hmark _ t

theorem processParsed_known {parsed : ParsedEngineInput} (h : rt.Knows parsed)
    (record : InboundEngineRecord) (mode : ProcessingMode) : ∃ reason key original,
      Ensures (EngineRuntime.processParsed record mode parsed) rt
        (fun a rt' => a = makeDuplicateResult reason key original ∧ rt' = rt) fun _ => False := by
  unfold EngineRuntime.Knows at h
  cases parsed with
  | placeOrder input | cancelOrder input | liquidatePosition input =>
    have hdup : ∃ reason key original, duplicateResultFor rt input.inputId
        input.envelope.idempotencyKey = some (makeDuplicateResult reason key original) := by
      apply duplicateResult_of_knows
      rcases h with hinput | ⟨key, hmem, hkey⟩
      · exact Or.inl hinput
      · cases hmem
        exact Or.inr hkey
    obtain ⟨reason, key, original, hdup⟩ := hdup
    refine ⟨reason, key, original, ?_⟩
    simp only [EngineRuntime.processParsed, placeOrder, cancelOrder, liquidatePosition]
    rw [ensures_bind, ensures_get, hdup]
    exact ⟨rfl, rfl⟩
  | markPriceUpdated input | fundingRateUpdated input | fundingSettlementTick input =>
    have hinput : ∃ i ∈ input.inputId, i ∈ rt.processedInputIds := by
      rcases h with hinput | ⟨key, hmem, -⟩
      · exact hinput
      · cases hmem
    obtain ⟨key, original, hdup⟩ := duplicateInput_of_knows hinput
    refine ⟨.inputId, key, original, ?_⟩
    simp only [EngineRuntime.processParsed, markPriceUpdated, fundingRateUpdated,
      fundingSettlementTick]
    rw [ensures_bind, ensures_get, hdup]
    exact ⟨rfl, rfl⟩

end Marking

section Repeated
variable {rt : EngineRuntime}

theorem step_input (record : InboundEngineRecord) (input : EngineInput) (mode : ProcessingMode) :
    rt.step (.input record (.ok input) mode) =
      (EngineRuntime.processParsed record mode input.parsed).run.run rt := rfl

/-- A known input is answered as a duplicate, and nothing moves. -/
theorem step_known {input : EngineInput} (h : rt.Knows input.parsed)
    (record : InboundEngineRecord) (mode : ProcessingMode) :
    ∃ reason key original, rt.step (.input record (.ok input) mode) =
      (.ok (makeDuplicateResult reason key original), rt) := by
  obtain ⟨reason, key, original, hknown⟩ := processParsed_known h record mode
  exact ⟨reason, key, original, hknown.run_eq⟩

/-- Once processed to the end, an input with a key is a duplicate ever after, live or replayed, at
any place of the log and across restarts, and leaves the whole state as it is. -/
theorem repeated_input_is_duplicate (config : EngineRuntimeConfig) (earlier later : List RuntimeStep)
    (record record' : InboundEngineRecord) (input : EngineInput) (mode mode' : ProcessingMode)
    (hkeyed : input.parsed.Keyed) {rt : EngineRuntime}
    (hrt : rt = ((EngineRuntime.new config).run earlier).2)
    (hfirst : ∃ result, (rt.step (.input record (.ok input) mode)).1 = .ok result)
    {rt' : EngineRuntime} (hrt' : rt' = ((rt.step (.input record (.ok input) mode)).2.run later).2) :
    ∃ repetition, rt'.step (.input record' (.ok input) mode') = (.ok repetition, rt') ∧
      repetition.status = .duplicate ∧ repetition.replies = [] ∧ repetition.events = [] := by
  obtain ⟨result, hresult⟩ := hfirst
  have hpositive : rt.ledger.marketSequences.Positive := by
    rw [hrt]
    exact positive_run (positive_new config) earlier
  have hknows : (rt.step (.input record (.ok input) mode)).2.Knows input.parsed :=
    (processParsed_knows record mode input.parsed hkeyed).returned (Prod.ext hresult rfl)
  obtain ⟨-, hremembers, -⟩ := EngineRuntime.remembersRule.run (positive_step hpositive _) later
    fun _ _ => trivial
  rw [← hrt'] at hremembers
  obtain ⟨reason, key, original, hstep⟩ := step_known (hremembers.knows hknows) record' mode'
  exact ⟨_, hstep, rfl, rfl, rfl⟩

theorem repeated_input_is_duplicate_sample :
    ∃ repetition, (((EngineRuntime.new sampleRuntimeConfig).run sampleRuntimeSteps).2.step (.input
        ⟨engineInputTopic, 0, 4⟩ (.ok (samplePlaceInput 1 11 .long 100 10)) .replaySilent)) =
          (.ok repetition, ((EngineRuntime.new sampleRuntimeConfig).run sampleRuntimeSteps).2) ∧
      repetition.status = .duplicate ∧ repetition.replies = [] ∧ repetition.events = [] :=
  repeated_input_is_duplicate sampleRuntimeConfig [] sampleRuntimeSteps.tail
    ⟨engineInputTopic, 0, 1⟩ ⟨engineInputTopic, 0, 4⟩ (samplePlaceInput 1 11 .long 100 10) .live
    .replaySilent (Or.inr rfl)
    (show EngineRuntime.new sampleRuntimeConfig =
      ((EngineRuntime.new sampleRuntimeConfig).run []).2 from rfl)
    (by decide +kernel)
    (EngineRuntime.run_cons _ (samplePlace 1 11 .long 100 10) sampleRuntimeSteps.tail)

end Repeated
end PerpexEngine
