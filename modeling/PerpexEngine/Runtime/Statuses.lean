import PerpexEngine.Runtime.RuntimeRuns

/-! A result that is not marked processed says nothing: duplicates and rejected settlements. -/
namespace PerpexEngine
open Program

/-- The program returns a processed result, or throws. -/
def Processes {σ α : Type} (out : α → EngineProcessResult) (m : Program Text σ α) : Prop :=
  ∀ s, Ensures m s (fun a _ => (out a).status = .processed) fun _ => True

section Programs
variable {σ α : Type} {out : α → EngineProcessResult}

/-- A result starts with that of its first program. -/
theorem Processes.first {β : Type} {m : Program Text σ α} {f : α → Program Text σ β}
    {result : β → EngineProcessResult} (h : Processes out m)
    (hf : ∀ a t, (out a).status = .processed →
      Ensures (f a) t (fun b _ => (result b).status = .processed) fun _ => True) :
    Processes result (m >>= f) := fun s => (h s).andThen hf

theorem processes_pure {a : α} (h : (out a).status = .processed) :
    Processes out (pure a : Program Text σ α) := fun _ => h

theorem processes_withLedger {m : LedgerM α} (h : Processes out m) :
    Processes out (withLedger m) := by
  intro rt
  unfold withLedger
  rw [ensures_zoom]
  exact h rt.ledger

theorem processes_makeEvent (context : EngineEventTranslationContext) (marketId : MarketId)
    (payload : EventPayload) : Processes id (makeEvent context marketId payload) := by
  intro s
  unfold makeEvent
  rw [ensures_map]
  exact Ensures.always fun _ _ => rfl

theorem processes_makeRuntimeMarketEvent (record : InboundEngineRecord)
    (inputId requestId : Option Text) (marketId : MarketId) (payload : EventPayload) :
    Processes id (makeRuntimeMarketEvent record inputId requestId marketId payload) := by
  intro s
  unfold makeRuntimeMarketEvent
  rw [ensures_map]
  exact Ensures.always fun _ _ => rfl

theorem processes_translateEvent (context : EngineEventTranslationContext)
    (markPrices : MarkPrices) (filled : List OrderId) (event : EngineEvent) :
    Processes id (translateEvent context markPrices filled event) := by
  intro s
  cases event with
  | orderAccepted accepted =>
    unfold translateEvent appendOrderAccepted
    rw [ensures_bind, ensures_get]
    apply ensures_ite.2
    exact ⟨fun _ => rfl, fun _ => ensures_bind_of_forall fun _ _ => rfl⟩
  | orderRejected rejected =>
    unfold translateEvent appendOrderRejected
    rw [ensures_bind, ensures_get]
    dsimp only
    generalize findMetadata _ s = found
    cases found with
    | none => rfl
    | some metadata =>
      apply ensures_ite.2
      exact ⟨fun _ => rfl, fun _ => ensures_bind_of_forall fun _ _ => rfl⟩
  | tradeExecuted trade =>
    unfold translateEvent appendTradeExecuted
    rw [ensures_bind, ensures_get]
    refine (processes_makeEvent _ _ _ s).andThen fun executed t h => ?_
    exact ensures_bind_of_forall fun _ _ => ensures_bind_of_forall fun _ _ => h
  | orderPartial e => rfl
  | orderFilled e => rfl
  | orderCancelled cancelled =>
    unfold translateEvent appendOrderCancelled
    rw [ensures_bind, ensures_get]
    exact ensures_bind_of_forall fun _ _ => rfl
  | orderBookDelta delta => exact processes_makeEvent _ _ _ s

theorem processes_translate (context : EngineEventTranslationContext) (markPrices : MarkPrices)
    (events : List EngineEvent) : Processes id (translate context markPrices events) := by
  unfold translate
  generalize filledOrderIds events = filled
  cases events with
  | nil => exact processes_pure rfl
  | cons event events =>
    exact (processes_translateEvent _ _ _ _).first fun _ _ h => ensures_bind_of_forall fun _ _ => h

theorem processes_withPending {m : TranslateM EngineProcessResult} (h : Processes id m)
    (pending : Option OrderMetadata) : Processes Prod.fst (withPending pending m) := by
  intro l
  unfold withPending
  rw [ensures_zoom]
  exact (h _).andThen fun _ _ ha => ha

end Programs

section Handlers

theorem processes_executeLiquidation (record : InboundEngineRecord)
    (input : LiquidatePositionInput) :
    Processes id (executeLiquidation record input true) := by
  intro rt
  unfold executeLiquidation
  rw [ensures_bind, ensures_get]
  dsimp only
  split
  · rfl
  · split
    · apply ensures_ite.2
      refine ⟨fun _ => rfl, fun _ => ?_⟩
      refine ensures_bind_of_forall fun _ _ => ensures_bind_of_forall fun _ _ =>
        ensures_bind_of_forall fun _ v => ?_
      apply ensures_ite.2
      refine ⟨fun _ => rfl, fun _ => ?_⟩
      unfold runLiquidation
      rw [bind_assoc]
      refine (processes_withLedger (processes_makeRuntimeMarketEvent _ _ _ _ _) v).andThen
        fun started t h => ?_
      simp only [bind_assoc]
      refine ensures_bind_of_forall fun _ _ => ensures_bind_of_forall fun _ _ =>
        ensures_bind_of_forall fun _ _ => ensures_bind_of_forall fun _ _ =>
        ensures_bind_of_forall fun _ _ => h
    · trivial

theorem processes_placeNewOrder (record : InboundEngineRecord) (input : PlaceOrderInput) :
    Processes id (placeNewOrder record input) := by
  intro rt
  unfold placeNewOrder
  rw [ensures_bind, ensures_get]
  split
  · rename_i reason _
    have hrejected : Processes id (reduceOnlyRejectedResult record input reason) :=
      fun l => ensures_bind_of_forall fun _ _ => rfl
    exact processes_withLedger hrejected rt
  · refine ensures_bind_of_forall fun mapped _ => ensures_bind_of_forall fun rt _ =>
      ensures_bind_of_forall fun coreEvents t => ?_
    refine (processes_withLedger (fun l => ?_) t).andThen fun _ _ h =>
      ensures_bind_of_forall fun _ _ => h
    refine (processes_withPending (processes_translate _ _ _) _ l).andThen fun _ _ h => ?_
    exact ensures_bind_of_forall fun _ _ => ensures_bind_of_forall fun _ _ =>
      ensures_bind_of_forall fun _ _ => h

/-- A result that is not marked processed has no outputs. -/
def EngineProcessResult.QuietUnlessProcessed (result : EngineProcessResult) : Prop :=
  result.status ≠ .processed → result.replies = [] ∧ result.events = []

theorem quiet_of_processed {result : EngineProcessResult} (h : result.status = .processed) :
    result.QuietUnlessProcessed := fun hne => absurd h hne

theorem quiet_duplicateInput {rt : EngineRuntime} {inputId : Option Text}
    {result : EngineProcessResult} (h : duplicateInputResultFor rt inputId = some result) :
    result.QuietUnlessProcessed := by
  obtain ⟨key, original, rfl⟩ := duplicateInputResultFor_eq h
  exact fun _ => ⟨rfl, rfl⟩

theorem quiet_duplicate {rt : EngineRuntime} {inputId : Option Text} {idempotencyKey : Text}
    {result : EngineProcessResult}
    (h : duplicateResultFor rt inputId idempotencyKey = some result) :
    result.QuietUnlessProcessed := by
  obtain ⟨reason, key, original, rfl⟩ := duplicateResultFor_eq h
  exact fun _ => ⟨rfl, rfl⟩

theorem processParsed_quiet (record : InboundEngineRecord) (parsed : ParsedEngineInput)
    (rt : EngineRuntime) : Ensures (EngineRuntime.processParsed record .live parsed) rt
      (fun a _ => a.QuietUnlessProcessed) fun _ => True := by
  cases parsed with
  | placeOrder input =>
    unfold EngineRuntime.processParsed placeOrder
    rw [ensures_bind, ensures_get]
    split
    · rename_i h
      exact quiet_duplicate h
    · exact (processes_placeNewOrder record input rt).andThen fun _ _ h =>
        ensures_bind_of_forall fun _ _ => quiet_of_processed h
  | cancelOrder input =>
    unfold EngineRuntime.processParsed cancelOrder
    rw [ensures_bind, ensures_get]
    split
    · rename_i h
      exact quiet_duplicate h
    · refine ensures_bind_of_forall fun _ _ => ensures_bind_of_forall fun _ t => ?_
      refine (processes_withLedger (processes_withPending (processes_translate _ _ _) _) t).andThen
        fun _ _ h => ?_
      exact ensures_bind_of_forall fun _ _ => ensures_bind_of_forall fun _ _ =>
        quiet_of_processed h
  | liquidatePosition input =>
    unfold EngineRuntime.processParsed liquidatePosition
    rw [ensures_bind, ensures_get]
    split
    · rename_i h
      exact quiet_duplicate h
    · exact (processes_executeLiquidation record input rt).andThen fun _ _ h =>
        ensures_bind_of_forall fun _ _ => quiet_of_processed h
  | markPriceUpdated input =>
    unfold EngineRuntime.processParsed markPriceUpdated
    rw [ensures_bind, ensures_get]
    split
    · rename_i h
      exact quiet_duplicateInput h
    · refine (processes_withLedger (processes_makeRuntimeMarketEvent _ _ _ _ _) rt).andThen
        fun _ _ h => ?_
      exact ensures_bind_of_forall fun _ _ => ensures_bind_of_forall fun _ _ =>
        ensures_bind_of_forall fun _ _ => ensures_bind_of_forall fun _ _ => quiet_of_processed h
  | fundingRateUpdated input =>
    unfold EngineRuntime.processParsed fundingRateUpdated
    rw [ensures_bind, ensures_get]
    split
    · rename_i h
      exact quiet_duplicateInput h
    · refine (processes_withLedger (processes_makeRuntimeMarketEvent _ _ _ _ _) rt).andThen
        fun _ _ h => ?_
      exact ensures_bind_of_forall fun _ _ => ensures_bind_of_forall fun _ _ =>
        quiet_of_processed h
  | fundingSettlementTick input =>
    unfold EngineRuntime.processParsed fundingSettlementTick
    rw [ensures_bind, ensures_get]
    split
    · rename_i h
      exact quiet_duplicateInput h
    · dsimp only
      apply ensures_ite.2
      refine ⟨fun _ => ensures_bind_of_forall fun _ _ => quiet_of_processed rfl, fun _ => ?_⟩
      split
      · exact ensures_bind_of_forall fun _ _ _ => ⟨rfl, rfl⟩
      · rename_i funding _
        have hpaid : Processes id (applyFundingPayments record input funding rt.markPrices) :=
          fun l => ensures_bind_of_forall fun _ _ => ensures_bind_of_forall fun _ t =>
            (processes_makeRuntimeMarketEvent _ _ _ _ _ t).andThen fun _ _ h =>
              ensures_bind_of_forall fun _ _ => h
        refine (processes_withLedger hpaid rt).andThen fun _ _ h => ?_
        exact ensures_bind_of_forall fun _ _ => ensures_bind_of_forall fun _ _ =>
          ensures_bind_of_forall fun _ _ => quiet_of_processed h

/-- Only an input that is marked processed has outputs. -/
theorem process_quiet (record : InboundEngineRecord) (parsed : Except Text EngineInput)
    (rt : EngineRuntime) : Ensures (EngineRuntime.process record parsed .live) rt
      (fun a _ => a.QuietUnlessProcessed) fun _ => True :=
  ensures_bind_of_forall fun input t => processParsed_quiet record input.parsed t

end Handlers
end PerpexEngine
