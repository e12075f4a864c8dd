import PerpexEngine.Runtime.LedgerRules

/-! What an input can do to the runtime and emit, said once, down to liquidations set off by
other inputs. The executions on a book may be moves of their own, or made of those of the ledger. -/
namespace PerpexEngine
open Program

/-- A relation that holds across the two moves of an execution: the core takes a command, and the
ledger moves under fixed mark prices. -/
structure RuntimeRule (R : EngineRuntime → List EngineEventRecord → EngineRuntime → Prop) : Prop
    extends TraceRule R where
  core : ∀ rt command, R rt [] { rt with core := (rt.core.process command).2 }
  ledger : ∀ rt : EngineRuntime, LedgerRule rt.markPrices fun l events l' =>
    R { rt with ledger := l } events { rt with ledger := l' }

/-- The same where a fill is one move of the ledger. -/
structure ExecutionRule (R : EngineRuntime → List EngineEventRecord → EngineRuntime → Prop) : Prop
    extends TraceRule R where
  core : ∀ rt command, R rt [] { rt with core := (rt.core.process command).2 }
  ledger : ∀ rt : EngineRuntime, FillRule rt.markPrices fun l events l' =>
    R { rt with ledger := l } events { rt with ledger := l' }

namespace EngineRuntime

/-- The runtime after the risk states of a market were redone at a new mark price. -/
def afterMarkPrice (rt : EngineRuntime) (input : MarkPriceUpdatedInput) : EngineRuntime :=
  { rt with
    markPrices := rt.markPrices.insert input.marketId (markStateFromInput input)
    ledger := (updateRiskStates (markRiskOf input) rt.ledger rt.ledger.positions.toList).1 }

/-- The runtime after the equities of a market took their funding amounts. -/
def afterFunding (rt : EngineRuntime) (input : FundingSettlementTickInput)
    (funding : FundingRateState) : EngineRuntime :=
  { rt with ledger :=
    (updateRiskStates (fundingRiskOf input funding rt.markPrices) rt.ledger
      rt.ledger.positions.toList).1 }

end EngineRuntime

/-- A relation that also holds across what the handlers themselves record. -/
structure HandlerRule (R : EngineRuntime → List EngineEventRecord → EngineRuntime → Prop) : Prop
    extends RuntimeRule R where
  inputId : ∀ rt inputId processed, R rt [] (insertInputId inputId processed rt)
  idempotencyKey : ∀ (rt : EngineRuntime) key processed, R rt []
    { rt with processedIdempotencyKeys := rt.processedIdempotencyKeys.insertIfNew key processed }
  markPrice : ∀ rt input, R rt [] (rt.afterMarkPrice input)
  fundingRate : ∀ (rt : EngineRuntime) input, R rt []
    { rt with fundingRates :=
        rt.fundingRates.insert input.marketId (fundingRateStateFromInput input) }
  funding : ∀ rt input funding, R rt [] (rt.afterFunding input funding)
  settled : ∀ (rt : EngineRuntime) key,
    R rt [] { rt with settledFundingIntervals := rt.settledFundingIntervals.insert key }

/-- What placing an order does before the liquidations that its trades may set off. -/
def placeOnBook (record : InboundEngineRecord) (input : PlaceOrderInput)
    (cappedQuantity : AdapterQuantity) : RuntimeM (EngineProcessResult × List EngineEvent) := do
  let coreInput := coreInputOf input cappedQuantity
  let (command, metadata) ← liftExcept (mapPlaceOrderToCore coreInput (receivedSequence record))
  let rt ← get
  let coreEvents ← processCore (.placeOrder command)
  let result ← withLedger (settlePlacedOrder record input coreInput rt.markPrices
    (pendingMetadataOf input metadata) coreEvents)
  pure (result, coreEvents)

theorem placeAllowedOrder_eq (record : InboundEngineRecord) (input : PlaceOrderInput)
    (cappedQuantity : AdapterQuantity) : placeAllowedOrder record input cappedQuantity = (do
      let (result, coreEvents) ← placeOnBook record input cappedQuantity
      let liquidations ← emitWhen (hasTradeExecuted coreEvents = true)
        (evaluateAutomaticLiquidationsForMarket input.marketId record input.inputId)
      pure (result ++ liquidations)) := by
  unfold placeAllowedOrder placeOnBook
  simp only [bind_assoc, pure_bind]

/-- What cancelling an order does, up to its record. -/
def cancelOnBook (record : InboundEngineRecord) (input : CancelOrderInput)
    (markPrices : MarkPrices) : RuntimeM EngineProcessResult := do
  let command ← liftExcept (mapCancelOrderToCore input (receivedSequence record))
  let coreEvents ← processCore (.cancelOrder command)
  let (result, _) ← withLedger (withPending none
    (translate (cancelContext record input) markPrices coreEvents))
  withLedger (modifyMetadata (cleanupCompletedOrderMetadata coreEvents))
  pure result

theorem cancelOnBook_bind (record : InboundEngineRecord) (input : CancelOrderInput)
    (markPrices : MarkPrices) (rest : EngineProcessResult → RuntimeM EngineProcessResult) :
    (cancelOnBook record input markPrices >>= rest) = (do
      let command ← liftExcept (mapCancelOrderToCore input (receivedSequence record))
      let coreEvents ← processCore (.cancelOrder command)
      let (result, _) ← withLedger (withPending none
        (translate (cancelContext record input) markPrices coreEvents))
      withLedger (modifyMetadata (cleanupCompletedOrderMetadata coreEvents))
      rest result) := by
  unfold cancelOnBook
  simp only [bind_assoc, pure_bind]

/-- A relation that holds across plain records and whole executions, with such orders as are
allowed. -/
structure OperationRule (Allowed : PlaceOrderInput → Prop)
    (R : EngineRuntime → List EngineEventRecord → EngineRuntime → Prop) : Prop
    extends TraceRule R where
  event : ∀ (rt : EngineRuntime) e, EngineEventRecord.Next rt.ledger e → e.payload.Plain →
    R rt [e] { rt with ledger := rt.ledger.afterEvent e.marketId }
  place : ∀ rt record input capped, Allowed input →
    checkReduceOnlyOrder input rt.ledger = .ok capped →
      EmitsFrom id (fun r => r.1.events) R (placeOnBook record input capped) rt
  cancel : ∀ rt record input,
    EmitsFrom id (·.events) R (cancelOnBook record input rt.markPrices) rt
  liquidate : ∀ record input emitReplies,
    Emits id (·.events) R (executeLiquidation record input emitReplies)

/-- A relation that also holds across what the handlers record and redo. -/
structure InputRule (R : EngineRuntime → List EngineEventRecord → EngineRuntime → Prop) : Prop
    extends OperationRule (fun input => FitsInt64 input.quantity) R where
  inputId : ∀ rt inputId processed, R rt [] (insertInputId inputId processed rt)
  idempotencyKey : ∀ (rt : EngineRuntime) key processed, R rt []
    { rt with processedIdempotencyKeys := rt.processedIdempotencyKeys.insertIfNew key processed }
  markPrice : ∀ record input (rt : EngineRuntime),
    Ensures (withLedger (appendMarkPriceRiskUpdates record input))
      { rt with markPrices := rt.markPrices.insert input.marketId (markStateFromInput input) }
      (fun a rt' => R rt a.events rt') fun rt' => ∃ events, R rt events rt'
  fundingRate : ∀ (rt : EngineRuntime) input, R rt []
    { rt with fundingRates :=
        rt.fundingRates.insert input.marketId (fundingRateStateFromInput input) }
  funding : ∀ record input funding (rt : EngineRuntime), EmitsFrom id (·.events) R
    (withLedger (applyFundingPayments record input funding rt.markPrices)) rt
  settled : ∀ (rt : EngineRuntime) key,
    R rt [] { rt with settledFundingIntervals := rt.settledFundingIntervals.insert key }

@[simp] theorem ensures_processCore {rt : EngineRuntime} {command : EngineCommand}
    {Q : List EngineEvent → EngineRuntime → Prop} {E : EngineRuntime → Prop} :
    Ensures (processCore command) rt Q E ↔
      Q (rt.core.process command).1 { rt with core := (rt.core.process command).2 } := Iff.rfl

theorem ensures_liftExcept {σ α : Type} {s : σ} {e : Except Text α} {Q : α → σ → Prop}
    {E : σ → Prop} : Ensures (liftExcept e : Program Text σ α) s Q E ↔
      (∀ a, e = .ok a → Q a s) ∧ ∀ x, e = .error x → E s := by
  cases e <;> simp [liftExcept]

section Programs
variable {R : EngineRuntime → List EngineEventRecord → EngineRuntime → Prop} {α : Type}

theorem emits_withLedger (rt : EngineRuntime) {out : α → List EngineEventRecord} {m : LedgerM α}
    (hm : Emits id out (fun l events l' =>
      R { rt with ledger := l } events { rt with ledger := l' }) m) :
    EmitsFrom id out R (withLedger m) rt := by
  unfold EmitsFrom PerpexEngine.withLedger
  rw [ensures_zoom]
  exact hm rt.ledger

theorem Program.TraceRule.liftExcept {σ : Type} {view : σ → EngineRuntime} (rule : TraceRule R)
    (e : Except Text α) : Emits view (fun _ => []) R (liftExcept e : Program Text σ α) := by
  cases e with
  | error e => exact rule.throw e
  | ok a => exact rule.pure rfl

end Programs

namespace ExecutionRule
variable {R : EngineRuntime → List EngineEventRecord → EngineRuntime → Prop} {α : Type}

theorem processCore (rule : ExecutionRule R) (command : EngineCommand) :
    Emits id (fun _ => []) R (processCore command) := fun rt => rule.core rt command

theorem askBook (rule : ExecutionRule R) (hasCrossingLiquidity : Bool)
    (command : PlaceOrderCommand) :
    Emits id (fun _ => []) R (askBook hasCrossingLiquidity command) := by
  intro rt
  apply EmitsFrom.ite
  · exact (rule.processCore _ rt).map fun _ => rfl
  · exact rule.pure rfl rt

theorem makeLiquidationEvent (rule : ExecutionRule R) (record : InboundEngineRecord)
    (input : LiquidatePositionInput) {payload : EventPayload} (h : payload.Plain) :
    Emits id (·.events) R (makeLiquidationEvent record input payload) :=
  fun rt => emits_withLedger rt ((rule.ledger rt).makeRuntimeMarketEvent _ _ _ _ h)

theorem liquidateAgainstBook (rule : ExecutionRule R) (record : InboundEngineRecord)
    (input : LiquidatePositionInput) (context : EngineEventTranslationContext)
    (metadata : OrderMetadata) (coreEvents : Option (List EngineEvent)) :
    Emits id (fun r => r.1.events) R
      (liquidateAgainstBook record input context metadata coreEvents) := by
  intro rt
  unfold EmitsFrom PerpexEngine.liquidateAgainstBook
  rw [ensures_bind, ensures_get]
  split
  · refine (emits_withLedger rt (emits_withPending _ ((rule.ledger rt).translate _ _))).first
      fun a t h => ?_
    refine rule.next h (emits_withLedger t ((rule.ledger t).cleanup _)) fun _ u hu => ?_
    rw [List.append_nil] at hu
    exact hu
  · exact rule.nothing _

theorem runLiquidation (rule : ExecutionRule R) (record : InboundEngineRecord)
    (input : LiquidatePositionInput) (context : EngineEventTranslationContext)
    (metadata : OrderMetadata) (coreEvents : Option (List EngineEvent)) (price : AdapterPrice)
    (previousPosition : IsolatedPositionState) (previousRisk : IsolatedRiskState) :
    Emits id (·.events) R (runLiquidation record input context metadata coreEvents price
      previousPosition previousRisk) := by
  intro rt
  refine (rule.makeLiquidationEvent _ _ (by trivial) rt).first fun a t h => ?_
  refine rule.next h (rule.liquidateAgainstBook _ _ _ _ _ _) fun b u hu => ?_
  rw [ensures_bind, ensures_get]
  have hadl := emits_withLedger u (emits_withPending b.2
    ((rule.ledger u).appendAdlFills context input
      (min ((b.2.map (·.remainingQuantity)).getD 0)
        (openQuantity u.ledger ⟨input.liquidatedUserId, input.marketId⟩)) price))
  refine rule.next hu (rule.emitWhen _ (hadl.map fun _ => rfl)) fun c v hv => ?_
  rw [ensures_bind, ensures_get]
  exact rule.next hv (rule.makeLiquidationEvent _ _ (by trivial) _) fun _ _ hw => hw

theorem executeLiquidation (rule : ExecutionRule R) (record : InboundEngineRecord)
    (input : LiquidatePositionInput) (emitReplies : Bool) :
    Emits id (·.events) R (executeLiquidation record input emitReplies) := by
  have hreply : ∀ reply, (replyIf emitReplies reply).events = [] := by
    intro reply
    unfold replyIf
    split_ifs <;> rfl
  have hreplies : ∀ result : EngineProcessResult,
      (result.repliesIf emitReplies).events = result.events := by
    intro result
    unfold EngineProcessResult.repliesIf
    split_ifs <;> rfl
  intro rt
  unfold EmitsFrom PerpexEngine.executeLiquidation
  rw [ensures_bind, ensures_get]
  dsimp only
  split
  · exact rule.pure (hreply _) rt
  · split
    · apply EmitsFrom.ite
      · exact rule.pure (hreply _) rt
      · refine (rule.liftExcept _ rt).first fun orderId t h => ?_
        refine rule.next h (rule.liftExcept _ _) fun mapped u hu => ?_
        refine rule.next hu (rule.askBook _ _ _) fun coreEvents v hv => ?_
        apply ensures_ite.2
        refine ⟨fun _ => ?_, fun _ => ?_⟩
        · rw [ensures_pure, hreply]
          exact hv
        · refine rule.next hv (rule.runLiquidation _ _ _ _ _ _ _ _ _) fun result w hw => ?_
          rw [ensures_pure, hreplies]
          exact hw
    · exact ⟨[], rule.nothing _⟩

theorem placeOnBook (rule : ExecutionRule R) (record : InboundEngineRecord)
    (input : PlaceOrderInput) (cappedQuantity : AdapterQuantity) :
    Emits id (fun r => r.1.events) R (placeOnBook record input cappedQuantity) := by
  intro rt
  refine (rule.liftExcept _ rt).first fun mapped t h => ?_
  rw [ensures_bind, ensures_get, ensures_bind, ensures_processCore]
  have hcore := rule.append h (rule.core t (.placeOrder mapped.1))
  exact rule.next hcore (emits_withLedger _ ((rule.ledger _).settlePlacedOrder _ _ _ _ _))
    fun a u hu => hu

theorem cancelOnBook (rule : ExecutionRule R) (record : InboundEngineRecord)
    (input : CancelOrderInput) (rt : EngineRuntime) :
    EmitsFrom id (·.events) R (cancelOnBook record input rt.markPrices) rt := by
  unfold EmitsFrom PerpexEngine.cancelOnBook
  rw [ensures_bind, ensures_liftExcept]
  refine ⟨fun command _ => ?_, fun _ _ => ⟨[], rule.nothing rt⟩⟩
  rw [ensures_bind, ensures_processCore]
  have hcore := rule.core rt (.cancelOrder command)
  refine rule.next hcore (emits_withLedger _ (emits_withPending _
    ((rule.ledger _).translate _ _))) fun a t h => ?_
  refine rule.next h (emits_withLedger _ ((rule.ledger _).cleanup _)) fun _ u hu => ?_
  rw [List.append_nil] at hu
  exact hu

end ExecutionRule

/-- Operations are related where the moves they are made of are. -/
theorem ExecutionRule.operations {Allowed : PlaceOrderInput → Prop}
    {R : EngineRuntime → List EngineEventRecord → EngineRuntime → Prop} (rule : ExecutionRule R) :
    OperationRule Allowed R where
  toTraceRule := rule.toTraceRule
  event rt e h hplain := (rule.ledger rt).event rt.ledger e h hplain
  place rt record input capped _ _ := rule.placeOnBook record input capped rt
  cancel rt record input := rule.cancelOnBook record input rt
  liquidate := rule.executeLiquidation

theorem RuntimeRule.executions {R : EngineRuntime → List EngineEventRecord → EngineRuntime → Prop}
    (rule : RuntimeRule R) : ExecutionRule R where
  toTraceRule := rule.toTraceRule
  core := rule.core
  ledger rt := (rule.ledger rt).fills

namespace HandlerRule
variable {R : EngineRuntime → List EngineEventRecord → EngineRuntime → Prop}

/-- The mark price and the risk states move together; nothing is emitted between. -/
theorem appendMarkPriceRiskUpdates (rule : HandlerRule R) (record : InboundEngineRecord)
    (input : MarkPriceUpdatedInput) (rt : EngineRuntime) :
    Ensures (withLedger (appendMarkPriceRiskUpdates record input))
      { rt with markPrices := rt.markPrices.insert input.marketId (markStateFromInput input) }
      (fun a rt' => R rt a.events rt') fun rt' => ∃ events, R rt events rt' := by
  unfold PerpexEngine.appendMarkPriceRiskUpdates PerpexEngine.withLedger
  rw [ensures_zoom, ensures_bind, ensures_get]
  have hrisks := (rule.ledger (rt.afterMarkPrice input)).appendRiskUpdates record input.inputId
    (updateRiskStates (markRiskOf input) rt.ledger rt.ledger.positions.toList).2
    (rt.afterMarkPrice input).ledger
  apply ensures_bind.2
  refine hrisks.mono (fun a l h => ?_) fun l ⟨events, h⟩ => ⟨events, ?_⟩
  · exact rule.append (rule.markPrice rt input) h
  · exact rule.append (rule.markPrice rt input) h

theorem applyFundingPayments (rule : HandlerRule R) (record : InboundEngineRecord)
    (input : FundingSettlementTickInput) (funding : FundingRateState) (rt : EngineRuntime) :
    EmitsFrom id (·.events) R
      (withLedger (applyFundingPayments record input funding rt.markPrices)) rt := by
  unfold EmitsFrom PerpexEngine.applyFundingPayments PerpexEngine.withLedger
  rw [ensures_zoom, ensures_bind, ensures_get]
  have hledger := rule.ledger (rt.afterFunding input funding)
  have hrisks := hledger.appendRiskUpdates record input.inputId
    (updateRiskStates (fundingRiskOf input funding rt.markPrices) rt.ledger
      rt.ledger.positions.toList).2
  apply ensures_bind.2
  apply ensures_bind.2
  refine (hledger.makeRuntimeMarketEvent _ _ _ _ _ (rt.afterFunding input funding).ledger).mono
    (fun a l h => ?_) fun l ⟨events, h⟩ => ⟨events, rule.append (rule.funding rt input funding) h⟩
  apply ensures_bind.2
  refine (hrisks l).mono (fun b l' h' => ?_) fun l' ⟨events, h'⟩ => ⟨a.events ++ events, ?_⟩
  · exact rule.append (rule.append (rule.funding rt input funding) h) h'
  · exact rule.append (rule.append (rule.funding rt input funding) h) h'

theorem inputs (rule : HandlerRule R) : InputRule R where
  toOperationRule := rule.executions.operations
  inputId := rule.inputId
  idempotencyKey := rule.idempotencyKey
  markPrice := rule.appendMarkPriceRiskUpdates
  fundingRate := rule.fundingRate
  funding := rule.applyFundingPayments
  settled := rule.settled

end HandlerRule

theorem duplicateInputResultFor_eq {rt : EngineRuntime} {inputId : Option Text}
    {result : EngineProcessResult} (h : duplicateInputResultFor rt inputId = some result) :
    ∃ key original, result = makeDuplicateResult .inputId key original := by
  unfold duplicateInputResultFor at h
  simp only [Option.bind_eq_bind, Option.pure_def, Option.bind_eq_some_iff, Option.some.injEq] at h
  obtain ⟨key, -, original, -, rfl⟩ := h
  exact ⟨key, original, rfl⟩

theorem duplicateResultFor_eq {rt : EngineRuntime} {inputId : Option Text} {key : Text}
    {result : EngineProcessResult} (h : duplicateResultFor rt inputId key = some result) :
    ∃ reason key original, result = makeDuplicateResult reason key original := by
  unfold duplicateResultFor at h
  split at h
  · rename_i hdup
    cases h
    exact ⟨_, duplicateInputResultFor_eq hdup⟩
  · rw [Option.map_eq_some_iff] at h
    obtain ⟨original, -, rfl⟩ := h
    exact ⟨_, key, original, rfl⟩

namespace OperationRule
variable {Allowed : PlaceOrderInput → Prop}
  {R : EngineRuntime → List EngineEventRecord → EngineRuntime → Prop}

/-- The plain records of the ledger, beside what it is part of. -/
theorem ledger (rule : OperationRule Allowed R) (rt : EngineRuntime) :
    EventRule fun l events l' => R { rt with ledger := l } events { rt with ledger := l' } where
  nothing _ := rule.nothing _
  append := rule.append
  event l e h hplain := rule.event { rt with ledger := l } e h hplain

theorem attemptCandidates (rule : OperationRule Allowed R) (source : InboundEngineRecord)
    (sourceInputId : Option Text) (candidates : List AutomaticLiquidationCandidate)
    (progress : LiquidationAttempts) :
    Emits id (fun r => r.1.events) R (attemptCandidates source sourceInputId candidates progress) := by
  induction candidates generalizing progress with
  | nil => exact rule.pure rfl
  | cons candidate candidates ih =>
    intro rt
    unfold PerpexEngine.attemptCandidates
    apply EmitsFrom.ite (rule.pure rfl rt)
    refine (rule.liquidate _ _ _ rt).first fun execution t h => ?_
    apply ensures_ite.2
    refine ⟨fun _ => ?_, fun _ => h⟩
    exact rule.next h (ih _ _) fun _ _ hu => hu

theorem liquidationRounds (rule : OperationRule Allowed R) (source : InboundEngineRecord)
    (sourceInputId : Option Text) (marketId : MarketId) (rounds : ℕ)
    (progress : LiquidationAttempts) :
    Emits id (·.events) R (liquidationRounds source sourceInputId marketId rounds progress) := by
  induction rounds generalizing progress with
  | zero => exact rule.pure rfl
  | succ rounds ih =>
    intro rt
    unfold PerpexEngine.liquidationRounds
    apply EmitsFrom.ite (rule.pure rfl rt)
    unfold EmitsFrom
    rw [ensures_bind, ensures_get]
    apply ensures_ite.2
    refine ⟨fun _ => rule.nothing rt, fun _ => ?_⟩
    refine (rule.attemptCandidates _ _ _ _ rt).first fun attempted t h => ?_
    apply ensures_ite.2
    refine ⟨fun _ => ?_, fun _ => h⟩
    exact rule.next h (ih _ _) fun _ _ hu => hu

theorem evaluateAutomaticLiquidationsForMarket (rule : OperationRule Allowed R) (marketId : MarketId)
    (source : InboundEngineRecord) (sourceInputId : Option Text) : Emits id (·.events) R
      (evaluateAutomaticLiquidationsForMarket marketId source sourceInputId) :=
  rule.liquidationRounds _ _ _ _ _

theorem evaluateMarkets (rule : OperationRule Allowed R) (source : InboundEngineRecord)
    (sourceInputId : Option Text) (markets : List MarketId) :
    Emits id (·.events) R (evaluateMarkets source sourceInputId markets) := by
  induction markets with
  | nil => exact rule.pure rfl
  | cons marketId markets ih =>
    intro rt
    refine (rule.evaluateAutomaticLiquidationsForMarket _ _ _ rt).first fun a t h => ?_
    exact rule.next h (ih _) fun _ _ hu => hu

theorem evaluateAllAutomaticLiquidations (rule : OperationRule Allowed R) (source : InboundEngineRecord)
    (sourceInputId : Option Text) :
    Emits id (·.events) R (evaluateAllAutomaticLiquidations source sourceInputId) := by
  intro rt
  unfold EmitsFrom PerpexEngine.evaluateAllAutomaticLiquidations
  rw [ensures_bind, ensures_get]
  exact rule.evaluateMarkets _ _ _ rt

theorem placeNewOrder (rule : OperationRule Allowed R) (record : InboundEngineRecord)
    {input : PlaceOrderInput} (hallowed : Allowed input) :
    Emits id (·.events) R (placeNewOrder record input) := by
  intro rt
  unfold EmitsFrom PerpexEngine.placeNewOrder
  rw [ensures_bind, ensures_get]
  cases hcapped : checkReduceOnlyOrder input rt.ledger with
  | error reason => exact emits_withLedger rt ((rule.ledger rt).reduceOnlyRejectedResult _ _ _)
  | ok capped =>
    dsimp only
    rw [placeAllowedOrder_eq]
    refine (rule.place rt record input capped hallowed hcapped).first fun a t h => ?_
    refine rule.next h (rule.emitWhen _ (rule.evaluateAutomaticLiquidationsForMarket _ _ _ _))
      fun _ _ hu => hu

end OperationRule

namespace InputRule
variable {R : EngineRuntime → List EngineEventRecord → EngineRuntime → Prop}

theorem markProcessed (rule : InputRule R) (kind : RuntimeCommandKind)
    (record : InboundEngineRecord) (inputId : Option Text) (key : Text) :
    Emits id (fun _ => []) R (markProcessed kind record inputId key) :=
  fun rt => rule.append (rule.inputId rt inputId _) (rule.idempotencyKey _ key _)

theorem markInputProcessed (rule : InputRule R) (kind : RuntimeCommandKind)
    (record : InboundEngineRecord) (inputId : Option Text) :
    Emits id (fun _ => []) R (markInputProcessed kind record inputId) :=
  fun rt => rule.inputId rt inputId _

theorem placeOrder (rule : InputRule R) (record : InboundEngineRecord)
    {input : PlaceOrderInput} (hfits : FitsInt64 input.quantity) :
    Emits id (·.events) R (placeOrder record input .live) := by
  intro rt
  unfold EmitsFrom PerpexEngine.placeOrder
  rw [ensures_bind, ensures_get]
  split
  · rename_i hdup
    obtain ⟨-, -, -, rfl⟩ := duplicateResultFor_eq hdup
    exact rule.pure rfl rt
  · refine (rule.placeNewOrder _ hfits rt).first fun a t h => ?_
    refine rule.next h (rule.markProcessed _ _ _ _ _) fun _ u hu => ?_
    rw [List.append_nil] at hu
    exact hu

theorem cancelOrder (rule : InputRule R) (record : InboundEngineRecord)
    (input : CancelOrderInput) : Emits id (·.events) R (cancelOrder record input .live) := by
  intro rt
  unfold EmitsFrom PerpexEngine.cancelOrder
  rw [ensures_bind, ensures_get]
  split
  · rename_i hdup
    obtain ⟨-, -, -, rfl⟩ := duplicateResultFor_eq hdup
    exact rule.pure rfl rt
  · rw [← cancelOnBook_bind record input rt.markPrices fun result => do
      PerpexEngine.markProcessed .cancelOrder record input.inputId input.envelope.idempotencyKey
      Pure.pure (result.applyProcessingMode .live)]
    refine (rule.cancel rt record input).first fun a t h => ?_
    refine rule.next h (rule.markProcessed _ _ _ _ _) fun _ u hu => ?_
    rw [List.append_nil] at hu
    exact hu

theorem liquidatePosition (rule : InputRule R) (record : InboundEngineRecord)
    (input : LiquidatePositionInput) :
    Emits id (·.events) R (liquidatePosition record input .live) := by
  intro rt
  unfold EmitsFrom PerpexEngine.liquidatePosition
  rw [ensures_bind, ensures_get]
  split
  · rename_i hdup
    obtain ⟨-, -, -, rfl⟩ := duplicateResultFor_eq hdup
    exact rule.pure rfl rt
  · refine (rule.liquidate _ _ _ rt).first fun a t h => ?_
    refine rule.next h (rule.markProcessed _ _ _ _ _) fun _ u hu => ?_
    rw [List.append_nil] at hu
    exact hu

theorem markPriceUpdated (rule : InputRule R) (record : InboundEngineRecord)
    (input : MarkPriceUpdatedInput) :
    Emits id (·.events) R (markPriceUpdated record input .live) := by
  intro rt
  unfold EmitsFrom PerpexEngine.markPriceUpdated
  rw [ensures_bind, ensures_get]
  split
  · rename_i hdup
    obtain ⟨-, -, rfl⟩ := duplicateInputResultFor_eq hdup
    exact rule.pure rfl rt
  · refine (emits_withLedger _ ((rule.ledger _).makeRuntimeMarketEvent _ _ _ _ (by trivial))).first
      fun a t h => ?_
    rw [ensures_bind, ensures_modify, ensures_bind]
    refine (rule.markPrice record input t).mono (fun b u hu => ?_)
      fun u ⟨events, hu⟩ => ⟨_, rule.append h hu⟩
    refine rule.next (rule.append h hu) (rule.evaluateAutomaticLiquidationsForMarket _ _ _ _)
      fun c v hv => ?_
    refine rule.next hv (rule.markInputProcessed _ _ _ _) fun _ w hw => ?_
    rw [List.append_nil] at hw
    exact hw

theorem fundingRateUpdated (rule : InputRule R) (record : InboundEngineRecord)
    (input : FundingRateUpdatedInput) :
    Emits id (·.events) R (fundingRateUpdated record input .live) := by
  intro rt
  unfold EmitsFrom PerpexEngine.fundingRateUpdated
  rw [ensures_bind, ensures_get]
  split
  · rename_i hdup
    obtain ⟨-, -, rfl⟩ := duplicateInputResultFor_eq hdup
    exact rule.pure rfl rt
  · refine (emits_withLedger _ ((rule.ledger _).makeRuntimeMarketEvent _ _ _ _ (by trivial))).first
      fun a t h => ?_
    rw [ensures_bind, ensures_modify]
    have hrate := rule.append h (rule.fundingRate t input)
    refine rule.next hrate (rule.markInputProcessed _ _ _ _) fun _ w hw => ?_
    rw [List.append_nil, List.append_nil] at hw
    exact hw

theorem fundingSettlementTick (rule : InputRule R) (record : InboundEngineRecord)
    (input : FundingSettlementTickInput) :
    Emits id (·.events) R (fundingSettlementTick record input .live) := by
  intro rt
  unfold EmitsFrom PerpexEngine.fundingSettlementTick
  rw [ensures_bind, ensures_get]
  dsimp only
  split
  · rename_i hdup
    obtain ⟨-, -, rfl⟩ := duplicateInputResultFor_eq hdup
    exact rule.pure rfl rt
  · split
    · exact (rule.markInputProcessed _ _ _ rt).first fun _ _ h => h
    · split
      · exact (rule.markInputProcessed _ _ _ rt).first fun _ _ h => h
      · refine (rule.funding _ _ _ rt).first fun a t h => ?_
        rw [ensures_bind, ensures_modify]
        have hsettled := rule.append h (rule.settled t ⟨input.marketId, input.fundingIntervalId⟩)
        refine rule.next hsettled (rule.evaluateAutomaticLiquidationsForMarket _ _ _ _)
          fun c v hv => ?_
        refine rule.next hv (rule.markInputProcessed _ _ _ _) fun _ w hw => ?_
        rw [List.append_nil, List.append_nil] at hw
        exact hw

/-- One input, processed live. -/
theorem process (rule : InputRule R) (record : InboundEngineRecord)
    (parsed : Except Text EngineInput) :
    Emits id (·.events) R (EngineRuntime.process record parsed .live) := by
  intro rt
  unfold EmitsFrom EngineRuntime.process
  rw [ensures_bind, ensures_liftExcept]
  refine ⟨fun input _ => ?_, fun _ _ => ⟨[], rule.nothing rt⟩⟩
  obtain ⟨parsed, hwell⟩ := input
  cases parsed with
  | placeOrder input => exact rule.placeOrder _ hwell.2 rt
  | cancelOrder input => exact rule.cancelOrder _ _ rt
  | liquidatePosition input => exact rule.liquidatePosition _ _ rt
  | markPriceUpdated input => exact rule.markPriceUpdated _ _ rt
  | fundingRateUpdated input => exact rule.fundingRateUpdated _ _ rt
  | fundingSettlementTick input => exact rule.fundingSettlementTick _ _ rt

end InputRule
end PerpexEngine
