import PerpexEngine.Runtime.Liquidation

/-! The runtime: one input at a time, with deduplication, and its snapshot. -/
namespace PerpexEngine

structure EngineRuntimeConfig where
  symbols : List SymbolConfig
  firstPublicSequence : EngineSequence
  firstTradeId : TradeId
  clock : ℕ → ℤ

/-- `EngineRuntime(config)`. -/
def EngineRuntime.new (config : EngineRuntimeConfig) : EngineRuntime where
  core := config.symbols.foldl EngineCore.addSymbol
    { EngineCore.empty with sequenceGenerator := { SequenceGenerator.new with
      nextTradeId := config.firstTradeId } }
  ledger :=
    { metadataStore := ∅
      positions := ∅
      riskStates := ∅
      marketSequences := .new config.firstPublicSequence
      clock := ⟨config.clock, 0⟩ }
  markPrices := ∅
  fundingRates := ∅
  settledFundingIntervals := ∅
  processedInputIds := ∅
  processedIdempotencyKeys := ∅
  firstPublicSequence := config.firstPublicSequence

section Duplicates

def makeDuplicateResult (reason : EngineDuplicateReason) (key : Text)
    (original : ProcessedRuntimeRequest) : EngineProcessResult :=
  { EngineProcessResult.new with
    status := .duplicate
    duplicate := some ⟨reason, key, original.topic, original.partition, original.offset,
      original.inputId, original.idempotencyKey⟩ }

def duplicateInputResultFor (rt : EngineRuntime) (inputId : Option Text) :
    Option EngineProcessResult := do
  let inputId ← inputId
  let original ← rt.processedInputIds[inputId]?
  pure (makeDuplicateResult .inputId inputId original)

def duplicateResultFor (rt : EngineRuntime) (inputId : Option Text) (idempotencyKey : Text) :
    Option EngineProcessResult :=
  match duplicateInputResultFor rt inputId with
  | some result => some result
  | none => (rt.processedIdempotencyKeys[idempotencyKey]?).map
      (makeDuplicateResult .idempotencyKey idempotencyKey)

def insertInputId (inputId : Option Text) (processed : ProcessedRuntimeRequest)
    (rt : EngineRuntime) : EngineRuntime :=
  match inputId with
  | none => rt
  | some inputId =>
    { rt with processedInputIds := rt.processedInputIds.insertIfNew inputId processed }

def markProcessed (commandKind : RuntimeCommandKind) (record : InboundEngineRecord)
    (inputId : Option Text) (idempotencyKey : Text) : RuntimeM Unit := do
  let processed : ProcessedRuntimeRequest :=
    ⟨commandKind, record.topic, record.partition, record.offset, inputId, idempotencyKey⟩
  modify fun rt =>
    let rt := insertInputId inputId processed rt
    { rt with processedIdempotencyKeys :=
      rt.processedIdempotencyKeys.insertIfNew idempotencyKey processed }

def markInputProcessed (commandKind : RuntimeCommandKind) (record : InboundEngineRecord)
    (inputId : Option Text) : RuntimeM Unit :=
  modify (insertInputId inputId
    ⟨commandKind, record.topic, record.partition, record.offset, inputId, []⟩)

end Duplicates

section PlaceOrder

def sideReducesPosition (side : AdapterSide) (signedQuantity : ℤ) : Bool :=
  match side with
  | .long => signedQuantity < 0
  | .short => 0 < signedQuantity

/-- Why a reduce-only order is not allowed, or the quantity it may have. -/
def checkReduceOnlyOrder (input : PlaceOrderInput) (ledger : Ledger) :
    Except Text AdapterQuantity :=
  if input.reduceOnly = false then .ok input.quantity
  else
    match ledger.positions[(⟨input.envelope.userId, input.marketId⟩ : PositionRiskKey)]? with
    | none => .error (ascii "reduce_only_no_position")
    | some position =>
      if position.signedQuantity = 0 then .error (ascii "reduce_only_no_position")
      else if sideReducesPosition input.side position.signedQuantity = false then
        .error (ascii "reduce_only_wrong_side")
      else .ok (min input.quantity (absQuantity position.signedQuantity))

def orderRejectedReply (record : InboundEngineRecord) (input : PlaceOrderInput) (reason : Text) :
    EngineReply where
  type := .orderRejected
  requestId := input.envelope.requestId
  partition := input.envelope.replyPartition
  source := sourceFields record input.inputId
  fields := ⟨some input.orderId,
    if input.reservationId.isEmpty then none else some input.reservationId, none, some reason⟩

def reservationReleasedPayload (input : PlaceOrderInput) (releasedAmount : ℤ) (reason : Text) :
    ReservationReleasedPayload where
  reservationId := input.reservationId
  userId := input.envelope.userId
  asset := assetOr input.marginAsset
  releasedAmount := releasedAmount
  reason := reason

def reduceOnlyRejectedResult (record : InboundEngineRecord) (input : PlaceOrderInput)
    (reason : Text) : LedgerM EngineProcessResult := do
  let released ← emitWhen (input.reservationId ≠ [] ∧ 0 < input.reservedMarginAmount)
    (makeRuntimeMarketEvent record input.inputId (some input.envelope.requestId) input.marketId
      (.reservationReleased (reservationReleasedPayload input input.reservedMarginAmount
        (ascii "ORDER_REJECTED_AFTER_RESERVATION"))))
  pure (.reply (orderRejectedReply record input reason) ++ released)

def reduceOnlyFilledQuantity (orderId : OrderId) (coreEvents : List EngineEvent) : ℤ :=
  (coreEvents.map fun
    | .tradeExecuted trade => if trade.takerOrderId = orderId then (trade.quantity.lots : ℤ) else 0
    | _ => 0).sum

def canOpenRestingOrder (input : PlaceOrderInput) : Bool :=
  input.orderType = .limit && (input.timeInForce = .gtc || input.timeInForce = .postOnly)

def placeContext (record : InboundEngineRecord) (input : PlaceOrderInput) :
    EngineEventTranslationContext where
  commandKind := .placeOrder
  source := record
  requestId := input.envelope.requestId
  inputId := input.inputId
  replyPartition := input.envelope.replyPartition
  orderId := input.orderId
  marketId := input.marketId
  canOpenRestingOrder := canOpenRestingOrder input
  liquidationId := []
  liquidatedUserId := 0
  liquidationPositionSide := .long
  adl := none

def orderExpiredPayload (metadata : OrderMetadata) (expiredQuantity : ℤ) : OrderExpiredPayload where
  orderId := metadata.orderId
  reservationId := metadata.reservationId
  userId := metadata.userId
  expiredQuantity := expiredQuantity
  releasedAmount := metadata.remainingReservedMargin
  reason := ascii "REDUCE_ONLY_REMAINDER"

/-- `core_input`: a reduce-only order is capped and never rests. -/
def coreInputOf (input : PlaceOrderInput) (cappedQuantity : AdapterQuantity) : PlaceOrderInput :=
  if input.reduceOnly then { input with quantity := cappedQuantity, timeInForce := .ioc } else input

/-- The pending metadata: that of a reduce-only order keeps the quantity asked for. -/
def pendingMetadataOf (input : PlaceOrderInput) (metadata : OrderMetadata) : OrderMetadata :=
  if input.reduceOnly then
    { metadata with originalQuantity := input.quantity, remainingQuantity := input.quantity }
  else metadata

/-- What is recorded of an order after the translation, if it was accepted. -/
def recordAccepted (pending : Option OrderMetadata) (accepted : Bool) : LedgerM Unit := do
  let ledger ← get
  if accepted then
    match pending with
    | none => throw (ascii "accepted order metadata was not available")
    | some metadata =>
      if ledger.metadataStore.contains metadata.orderId then
        throw (ascii "accepted order metadata already exists")
      else modifyMetadata (·.insert metadata.orderId metadata)

/-- The remainder of an accepted reduce-only order expires. -/
def expireReduceOnly (record : InboundEngineRecord) (input : PlaceOrderInput)
    (metadata : OrderMetadata) (coreEvents : List EngineEvent) : LedgerM EngineProcessResult := do
  let expiredQuantity := input.quantity - reduceOnlyFilledQuantity metadata.orderId coreEvents
  let expired ← emitWhen (0 < expiredQuantity)
    (makeRuntimeMarketEvent record metadata.placeInputId none metadata.marketId
      (.orderExpired (orderExpiredPayload metadata expiredQuantity)))
  modifyMetadata (·.erase metadata.orderId)
  pure expired

/-- The last step of placing an order, for a reduce-only order that was accepted. -/
def expireIfReduceOnly (record : InboundEngineRecord) (input : PlaceOrderInput)
    (pending : Option OrderMetadata) (coreEvents : List EngineEvent) :
    LedgerM EngineProcessResult :=
  match pending with
  | some metadata =>
    emitWhen (input.reduceOnly = true ∧ hasOrderAccepted coreEvents = true)
      (expireReduceOnly record input metadata coreEvents)
  | none => pure .new

/-- The ledger part of placing an order: translate, record, clean up, expire. -/
def settlePlacedOrder (record : InboundEngineRecord) (input coreInput : PlaceOrderInput)
    (markPrices : MarkPrices) (metadata : OrderMetadata) (coreEvents : List EngineEvent) :
    LedgerM EngineProcessResult := do
  let (translated, pending) ← withPending (some metadata)
    (translate (placeContext record coreInput) markPrices coreEvents)
  recordAccepted pending (hasOrderAccepted coreEvents)
  modifyMetadata (cleanupCompletedOrderMetadata coreEvents)
  let expired ← expireIfReduceOnly record input pending coreEvents
  pure (translated ++ expired)

def placeAllowedOrder (record : InboundEngineRecord) (input : PlaceOrderInput)
    (cappedQuantity : AdapterQuantity) : RuntimeM EngineProcessResult := do
  let coreInput := coreInputOf input cappedQuantity
  let (command, metadata) ← liftExcept (mapPlaceOrderToCore coreInput (receivedSequence record))
  let rt ← get
  let coreEvents ← processCore (.placeOrder command)
  let result ← withLedger (settlePlacedOrder record input coreInput rt.markPrices
    (pendingMetadataOf input metadata) coreEvents)
  let liquidations ← emitWhen (hasTradeExecuted coreEvents = true)
    (evaluateAutomaticLiquidationsForMarket input.marketId record input.inputId)
  pure (result ++ liquidations)

/-- Placing an order that was not seen before. -/
def placeNewOrder (record : InboundEngineRecord) (input : PlaceOrderInput) :
    RuntimeM EngineProcessResult := do
  let rt ← get
  match checkReduceOnlyOrder input rt.ledger with
  | .error reason => withLedger (reduceOnlyRejectedResult record input reason)
  | .ok cappedQuantity => placeAllowedOrder record input cappedQuantity

def placeOrder (record : InboundEngineRecord) (input : PlaceOrderInput) (mode : ProcessingMode) :
    RuntimeM EngineProcessResult := do
  let rt ← get
  match duplicateResultFor rt input.inputId input.envelope.idempotencyKey with
  | some duplicate => pure duplicate
  | none =>
    let result ← placeNewOrder record input
    markProcessed .placeOrder record input.inputId input.envelope.idempotencyKey
    pure (result.applyProcessingMode mode)

end PlaceOrder

section OtherInputs

def cancelContext (record : InboundEngineRecord) (input : CancelOrderInput) :
    EngineEventTranslationContext where
  commandKind := .cancelOrder
  source := record
  requestId := input.envelope.requestId
  inputId := input.inputId
  replyPartition := input.envelope.replyPartition
  orderId := input.orderId
  marketId := input.marketId
  canOpenRestingOrder := false
  liquidationId := []
  liquidatedUserId := 0
  liquidationPositionSide := .long
  adl := none

def cancelOrder (record : InboundEngineRecord) (input : CancelOrderInput) (mode : ProcessingMode) :
    RuntimeM EngineProcessResult := do
  let rt ← get
  match duplicateResultFor rt input.inputId input.envelope.idempotencyKey with
  | some duplicate => pure duplicate
  | none =>
    let command ← liftExcept (mapCancelOrderToCore input (receivedSequence record))
    let coreEvents ← processCore (.cancelOrder command)
    let (result, _) ← withLedger (withPending none
      (translate (cancelContext record input) rt.markPrices coreEvents))
    withLedger (modifyMetadata (cleanupCompletedOrderMetadata coreEvents))
    markProcessed .cancelOrder record input.inputId input.envelope.idempotencyKey
    pure (result.applyProcessingMode mode)

def liquidatePosition (record : InboundEngineRecord) (input : LiquidatePositionInput)
    (mode : ProcessingMode) : RuntimeM EngineProcessResult := do
  let rt ← get
  match duplicateResultFor rt input.inputId input.envelope.idempotencyKey with
  | some duplicate => pure duplicate
  | none =>
    let result ← executeLiquidation record input true
    markProcessed .liquidatePosition record input.inputId input.envelope.idempotencyKey
    pure (result.applyProcessingMode mode)

/-- `risk_from_position` of the runtime: what the previous equity had beyond margin and profit
stays. -/
def riskFromPosition (position : IsolatedPositionState) (markPrice : AdapterPrice)
    (updatedAtMs : ℤ) (previousRisk : Option IsolatedRiskState) : IsolatedRiskState :=
  let unrealizedPnl := (markPrice - position.averageEntryPrice) * position.signedQuantity
  let maintenanceMargin := maintenanceMarginFor position.signedQuantity markPrice
  let equityAdjustment :=
    match previousRisk with
    | none => 0
    | some risk => risk.equity - (risk.isolatedMargin + risk.unrealizedPnl)
  let equity := position.isolatedMargin + unrealizedPnl + equityAdjustment
  { userId := position.userId
    marketId := position.marketId
    status := riskStatusFor position.signedQuantity equity maintenanceMargin
    marginAsset := assetOr position.marginAsset
    signedQuantity := position.signedQuantity
    averageEntryPrice := position.averageEntryPrice
    markPrice := markPrice
    isolatedMargin := position.isolatedMargin
    unrealizedPnl := unrealizedPnl
    equity := equity
    maintenanceMargin := maintenanceMargin
    marginRatio := marginRatioFor equity maintenanceMargin
    leverage := position.leverage
    updatedAtMs := updatedAtMs }

/-- A round over the positions of a market that puts a new risk state for some of them; the keys
come back in order. -/
def updateRiskStates (riskOf : IsolatedPositionState → Option IsolatedRiskState →
      Option IsolatedRiskState) (ledger : Ledger) :
    List (PositionRiskKey × IsolatedPositionState) → Ledger × List PositionRiskKey
  | [] => (ledger, [])
  | (key, position) :: entries =>
    match riskOf position ledger.riskStates[key]? with
    | none => updateRiskStates riskOf ledger entries
    | some risk =>
      let (ledger, keys) := updateRiskStates riskOf
        { ledger with riskStates := ledger.riskStates.insert key risk } entries
      (ledger, key :: keys)

def appendRiskUpdates (record : InboundEngineRecord) (inputId : Option Text) :
    List PositionRiskKey → LedgerM EngineProcessResult
  | [] => pure .new
  | key :: keys => do
    let ledger ← get
    match ledger.riskStates[key]? with
    | none => throw (ascii "map::at")
    | some risk =>
      let event ← makeRuntimeMarketEvent record inputId none risk.marketId (.riskStateUpdated risk)
      let rest ← appendRiskUpdates record inputId keys
      pure (event ++ rest)

def markRiskOf (input : MarkPriceUpdatedInput) (position : IsolatedPositionState)
    (previousRisk : Option IsolatedRiskState) : Option IsolatedRiskState :=
  if position.marketId ≠ input.marketId ∨ position.signedQuantity = 0 then none
  else some (riskFromPosition position input.markPrice input.publishedAtMs previousRisk)

def appendMarkPriceRiskUpdates (record : InboundEngineRecord) (input : MarkPriceUpdatedInput) :
    LedgerM EngineProcessResult := do
  let ledger ← get
  let (ledger, updatedKeys) := updateRiskStates (markRiskOf input) ledger ledger.positions.toList
  set ledger
  appendRiskUpdates record input.inputId updatedKeys

def markStateFromInput (input : MarkPriceUpdatedInput) : MarkPriceState where
  marketId := input.marketId
  markPrice := input.markPrice
  indexPrice := input.indexPrice
  sourceTimestampMs := input.sourceTimestampMs
  publishedAtMs := input.publishedAtMs
  validUntilMs := input.validUntilMs
  sourceSequence := input.sourceSequence
  sourceStatus := input.sourceStatus

def markPriceUpdated (record : InboundEngineRecord) (input : MarkPriceUpdatedInput)
    (mode : ProcessingMode) : RuntimeM EngineProcessResult := do
  let rt ← get
  match duplicateInputResultFor rt input.inputId with
  | some duplicate => pure duplicate
  | none =>
    let updated ← withLedger (makeRuntimeMarketEvent record input.inputId none input.marketId
      (.markPriceUpdated input))
    modify fun rt => { rt with
      markPrices := rt.markPrices.insert input.marketId (markStateFromInput input) }
    let risks ← withLedger (appendMarkPriceRiskUpdates record input)
    let liquidations ← evaluateAutomaticLiquidationsForMarket input.marketId record input.inputId
    markInputProcessed .markPriceUpdated record input.inputId
    pure ((updated ++ risks ++ liquidations).applyProcessingMode mode)

def fundingRateStateFromInput (input : FundingRateUpdatedInput) : FundingRateState where
  marketId := input.marketId
  fundingIntervalId := input.fundingIntervalId
  rate := input.rate
  rateScale := input.rateScale
  intervalStartMs := input.intervalStartMs
  intervalEndMs := input.intervalEndMs
  sourceTimestampMs := input.sourceTimestampMs

def fundingRateUpdated (record : InboundEngineRecord) (input : FundingRateUpdatedInput)
    (mode : ProcessingMode) : RuntimeM EngineProcessResult := do
  let rt ← get
  match duplicateInputResultFor rt input.inputId with
  | some duplicate => pure duplicate
  | none =>
    let updated ← withLedger (makeRuntimeMarketEvent record input.inputId none input.marketId
      (.fundingRateUpdated input))
    modify fun rt => { rt with
      fundingRates := rt.fundingRates.insert input.marketId (fundingRateStateFromInput input) }
    markInputProcessed .fundingRateUpdated record input.inputId
    pure (updated.applyProcessingMode mode)

def settlementMarkPriceFor (position : IsolatedPositionState) (markPrices : MarkPrices) :
    AdapterPrice :=
  match markPrices[position.marketId]? with
  | none => position.averageEntryPrice
  | some mark => mark.markPrice

/-- What a position pays or gets in a settlement. -/
def fundingAmount (position : IsolatedPositionState) (markPrice : AdapterPrice)
    (funding : FundingRateState) : ℤ :=
  -((position.signedQuantity * markPrice * funding.rate).tdiv funding.rateScale)

/-- The amount due, if the settlement is about this position and the amount is not zero. -/
def fundingDue (input : FundingSettlementTickInput) (funding : FundingRateState)
    (markPrices : MarkPrices) (position : IsolatedPositionState) : Option ℤ :=
  if position.marketId ≠ input.marketId ∨ position.signedQuantity = 0 then none
  else
    let amount := fundingAmount position (settlementMarkPriceFor position markPrices) funding
    if amount = 0 then none else some amount

def fundingPayment (input : FundingSettlementTickInput) (funding : FundingRateState)
    (markPrices : MarkPrices) (position : IsolatedPositionState) : Option FundingPayment :=
  (fundingDue input funding markPrices position).map fun amount =>
    { userId := position.userId
      positionId := positionIdText position.userId position.marketId
      side := positionSide position.signedQuantity
      asset := assetOr position.marginAsset
      amount := amount }

def fundingRiskOf (input : FundingSettlementTickInput) (funding : FundingRateState)
    (markPrices : MarkPrices) (position : IsolatedPositionState)
    (previousRisk : Option IsolatedRiskState) : Option IsolatedRiskState :=
  (fundingDue input funding markPrices position).map fun amount =>
    let risk := riskFromPosition position (settlementMarkPriceFor position markPrices)
      input.settleAtMs previousRisk
    let equity := risk.equity + amount
    { risk with
      equity := equity
      marginRatio := marginRatioFor equity risk.maintenanceMargin
      status := riskStatusFor risk.signedQuantity equity risk.maintenanceMargin }

/-- The payments of a settlement: risk states first, then the events. -/
def applyFundingPayments (record : InboundEngineRecord) (input : FundingSettlementTickInput)
    (funding : FundingRateState) (markPrices : MarkPrices) : LedgerM EngineProcessResult := do
  let ledger ← get
  let entries := ledger.positions.toList
  let payments := entries.filterMap fun entry => fundingPayment input funding markPrices entry.2
  let (ledger, paidKeys) :=
    updateRiskStates (fundingRiskOf input funding markPrices) ledger entries
  set ledger
  let applied ← makeRuntimeMarketEvent record input.inputId none input.marketId
    (.fundingPaymentApplied input.fundingIntervalId payments)
  let risks ← appendRiskUpdates record input.inputId paidKeys
  pure (applied ++ risks)

def fundingSettlementTick (record : InboundEngineRecord) (input : FundingSettlementTickInput)
    (mode : ProcessingMode) : RuntimeM EngineProcessResult := do
  let rt ← get
  match duplicateInputResultFor rt input.inputId with
  | some duplicate => pure duplicate
  | none =>
    let settlementKey : FundingSettlementKey := ⟨input.marketId, input.fundingIntervalId⟩
    if rt.settledFundingIntervals.contains settlementKey then
      markInputProcessed .fundingSettlementTick record input.inputId
      pure .new
    else
      match rt.fundingRates[input.marketId]?.filter
          (·.fundingIntervalId = input.fundingIntervalId) with
      | none =>
        markInputProcessed .fundingSettlementTick record input.inputId
        pure { EngineProcessResult.new with status := .rejected }
      | some funding =>
        let paid ← withLedger (applyFundingPayments record input funding rt.markPrices)
        modify fun rt => { rt with
          settledFundingIntervals := rt.settledFundingIntervals.insert settlementKey }
        let liquidations ←
          evaluateAutomaticLiquidationsForMarket input.marketId record input.inputId
        markInputProcessed .fundingSettlementTick record input.inputId
        pure ((paid ++ liquidations).applyProcessingMode mode)

end OtherInputs

namespace EngineRuntime

def processParsed (record : InboundEngineRecord) (mode : ProcessingMode) :
    ParsedEngineInput → RuntimeM EngineProcessResult
  | .placeOrder input => PerpexEngine.placeOrder record input mode
  | .cancelOrder input => PerpexEngine.cancelOrder record input mode
  | .liquidatePosition input => PerpexEngine.liquidatePosition record input mode
  | .markPriceUpdated input => PerpexEngine.markPriceUpdated record input mode
  | .fundingRateUpdated input => PerpexEngine.fundingRateUpdated record input mode
  | .fundingSettlementTick input => PerpexEngine.fundingSettlementTick record input mode

/-- `process`, given what the parser makes of the text of the record. -/
def process (record : InboundEngineRecord) (parsed : Except Text EngineInput)
    (mode : ProcessingMode) : RuntimeM EngineProcessResult := do
  let input ← liftExcept parsed
  processParsed record mode input.parsed

structure StateSnapshot where
  coreSnapshot : EngineSnapshot
  metadataStore : OrderMetadataStore
  publicSequences : Std.ExtTreeMap MarketId EngineSequence
  markPrices : MarkPrices
  fundingRates : Std.ExtTreeMap MarketId FundingRateState
  settledFundingIntervals : Std.ExtTreeSet FundingSettlementKey
  positions : Std.ExtTreeMap PositionRiskKey IsolatedPositionState
  riskStates : Std.ExtTreeMap PositionRiskKey IsolatedRiskState
  processedInputIds : Std.ExtTreeMap Text ProcessedRuntimeRequest
  processedIdempotencyKeys : Std.ExtTreeMap Text ProcessedRuntimeRequest

def snapshotState (rt : EngineRuntime) : StateSnapshot where
  coreSnapshot := rt.core.snapshot
  metadataStore := rt.ledger.metadataStore
  publicSequences := rt.ledger.marketSequences.nextByMarket
  markPrices := rt.markPrices
  fundingRates := rt.fundingRates
  settledFundingIntervals := rt.settledFundingIntervals
  positions := rt.ledger.positions
  riskStates := rt.ledger.riskStates
  processedInputIds := rt.processedInputIds
  processedIdempotencyKeys := rt.processedIdempotencyKeys

/-- `market_sequences_.restore` for each entry. -/
def restoreSequences : List (MarketId × EngineSequence) → LedgerM Unit
  | [] => pure ()
  | (marketId, nextSequence) :: entries => do
    let ledger ← get
    let marketSequences ← liftExcept (ledger.marketSequences.restore marketId nextSequence)
    set { ledger with marketSequences := marketSequences }
    restoreSequences entries

/-- `restore_state`; `fits` says which ladders can be built. -/
def restoreState (fits : ℕ → Bool) (snapshot : StateSnapshot) : RuntimeM Unit := do
  let restored := EngineCore.restoreWithin fits snapshot.coreSnapshot
  modify fun rt => { rt with core := restored.2 }
  if restored.1 = false then throw (ascii "cannot create std::vector larger than max_size()")
  modify fun rt => { rt with
    ledger := { rt.ledger with
      metadataStore := snapshot.metadataStore
      marketSequences := .new rt.firstPublicSequence } }
  withLedger (restoreSequences snapshot.publicSequences.toList)
  modify fun rt => { rt with
    ledger := { rt.ledger with
      positions := snapshot.positions
      riskStates := snapshot.riskStates }
    markPrices := snapshot.markPrices
    fundingRates := snapshot.fundingRates
    settledFundingIntervals := snapshot.settledFundingIntervals
    processedInputIds := snapshot.processedInputIds
    processedIdempotencyKeys := snapshot.processedIdempotencyKeys }

end EngineRuntime
end PerpexEngine
