import PerpexEngine.Runtime.EventTranslator
import Mathlib.Data.List.Sort

/-! Forced closing of positions: against the book first, then against profitable opposing
positions. -/
namespace PerpexEngine

structure ProcessedRuntimeRequest where
  commandKind : RuntimeCommandKind
  topic : Text
  partition : ℤ
  offset : ℤ
  inputId : Option Text
  idempotencyKey : Text
deriving DecidableEq, Repr

/-- Ordered by market, then by interval. -/
structure FundingSettlementKey where
  marketId : MarketId
  fundingIntervalId : Text
deriving DecidableEq, Repr

instance : Ord FundingSettlementKey where
  compare := compareLex (compareOn FundingSettlementKey.marketId)
    (compareOn FundingSettlementKey.fundingIntervalId)

instance : Std.TransOrd FundingSettlementKey :=
  inferInstanceAs (Std.TransCmp (compareLex (compareOn _) (compareOn _)))

instance : Std.LawfulEqOrd FundingSettlementKey where
  eq_of_compare {a b} h := by
    obtain ⟨hm, hi⟩ := compareLex_eq_eq.1 h
    cases a
    cases b
    rw [FundingSettlementKey.mk.injEq]
    exact ⟨Std.LawfulEqCmp.eq_of_compare hm, Std.LawfulEqCmp.eq_of_compare hi⟩

structure EngineRuntime where
  core : EngineCore OrderBook
  ledger : Ledger
  markPrices : MarkPrices
  fundingRates : Std.ExtTreeMap MarketId FundingRateState
  settledFundingIntervals : Std.ExtTreeSet FundingSettlementKey
  processedInputIds : Std.ExtTreeMap Text ProcessedRuntimeRequest
  processedIdempotencyKeys : Std.ExtTreeMap Text ProcessedRuntimeRequest
  firstPublicSequence : EngineSequence

abbrev RuntimeM := Program Text EngineRuntime

def liftExcept {σ α : Type} : Except Text α → Program Text σ α
  | .ok a => pure a
  | .error e => throw e

def withLedger {α : Type} (m : LedgerM α) : RuntimeM α :=
  Program.zoom EngineRuntime.ledger (fun rt l => { rt with ledger := l }) m

/-- A translation with the given pending metadata; what is left of it comes back. -/
def withPending {α : Type} (pending : Option OrderMetadata) (m : TranslateM α) :
    LedgerM (α × Option OrderMetadata) :=
  Program.zoom (fun l => ⟨l, pending⟩) (fun _ t => t.ledger) do
    let a ← m
    let state ← get
    pure (a, state.pending)

def hasOrderAccepted (coreEvents : List EngineEvent) : Bool := hasEventOrderAccepted coreEvents

def hasTradeExecuted (coreEvents : List EngineEvent) : Bool :=
  coreEvents.any fun
    | .tradeExecuted _ => true
    | _ => false

/-- `core_.process(command)`. -/
def processCore (command : EngineCommand) : RuntimeM (List EngineEvent) := do
  let rt ← get
  let (events, core) := rt.core.process command
  set { rt with core := core }
  pure events

def cleanupCompletedOrderMetadata (coreEvents : List EngineEvent)
    (metadataStore : OrderMetadataStore) : OrderMetadataStore :=
  coreEvents.foldl (fun store event =>
    match event with
    | .orderCancelled e => store.erase e.orderId
    | .orderFilled e => store.erase e.orderId
    | _ => store) metadataStore

def modifyMetadata (f : OrderMetadataStore → OrderMetadataStore) : LedgerM Unit :=
  modify fun ledger => { ledger with metadataStore := f ledger.metadataStore }

def receivedSequence (record : InboundEngineRecord) : EngineSequence :=
  if record.offset < 0 then 0 else record.offset.toNat

/-- `make_runtime_market_event`. -/
def makeRuntimeMarketEvent (record : InboundEngineRecord) (inputId requestId : Option Text)
    (marketId : MarketId) (payload : EventPayload) : LedgerM EngineProcessResult :=
  .event <$> makeMarketEvent marketId (sourceFields record inputId) requestId payload

section Candidates

def liquidationOrderSide (signedQuantity : ℤ) : AdapterSide :=
  if 0 < signedQuantity then .short else .long

def sideMatchesPosition (side : AdapterSide) (signedQuantity : ℤ) : Bool :=
  match side with
  | .long => 0 < signedQuantity
  | .short => signedQuantity < 0

def positionAdapterSide (signedQuantity : ℤ) : AdapterSide :=
  if 0 ≤ signedQuantity then .long else .short

def liquidationQuantity (input : LiquidatePositionInput) (position : IsolatedPositionState) :
    AdapterQuantity :=
  let positionQuantity := absQuantity position.signedQuantity
  if input.quantity ≤ 0 then positionQuantity else min input.quantity positionQuantity

def liquidationPrice (input : LiquidatePositionInput) (position : IsolatedPositionState)
    (markPrices : MarkPrices) : AdapterPrice :=
  if 0 < input.price then input.price
  else
    match markPrices[input.marketId]? with
    | some mark => if 0 < mark.markPrice then mark.markPrice else position.averageEntryPrice
    | none => position.averageEntryPrice

/-- The hash of the id, cut to a positive `int64_t`. -/
def liquidationOrderId (liquidationId : Text) : Except Text AdapterOrderId := do
  let raw ← commandIdFromRequestId liquidationId
  let bounded : ℕ := raw % 2 ^ 63
  pure (if bounded = 0 then 1 else bounded)

def crossingLiquidityExists (core : EngineCore OrderBook) (marketId : MarketId)
    (orderSide : AdapterSide) (price : AdapterPrice) : Bool :=
  if price ≤ 0 ∨ marketId ≤ 0 ∨ 2 ^ 32 - 1 < marketId then false
  else
    match core.getOrderBook marketId.toNat with
    | none => false
    | some book =>
      match orderSide with
      | .long =>
        match book.asks.bestLevel.bind book.asks.levels.read with
        | none => false
        | some level => !level.totalQuantity.isZero && level.price.ticks ≤ price
      | .short =>
        match book.bids.bestLevel.bind book.bids.levels.read with
        | none => false
        | some level => !level.totalQuantity.isZero && price ≤ level.price.ticks

structure AdlCandidate where
  key : PositionRiskKey
  position : IsolatedPositionState
  availableQuantity : ℤ
  unrealizedPnl : ℤ
  leverage : ℤ
  marginRatio : ℤ

def hasOpposingExposure (liquidatedQuantity candidateQuantity : ℤ) : Bool :=
  (0 < liquidatedQuantity && candidateQuantity < 0) ||
    (liquidatedQuantity < 0 && 0 < candidateQuantity)

/-- Higher profit, higher leverage, lower margin ratio, larger exposure, lower user id first. -/
def AdlCandidate.before (left right : AdlCandidate) : Bool :=
  if left.unrealizedPnl ≠ right.unrealizedPnl then right.unrealizedPnl < left.unrealizedPnl
  else if left.leverage ≠ right.leverage then right.leverage < left.leverage
  else if left.marginRatio ≠ right.marginRatio then left.marginRatio < right.marginRatio
  else if left.availableQuantity ≠ right.availableQuantity then
    right.availableQuantity < left.availableQuantity
  else left.key.userId < right.key.userId

def adlCandidateOf (input : LiquidatePositionInput) (liquidatedPosition : IsolatedPositionState)
    (riskStates : Std.ExtTreeMap PositionRiskKey IsolatedRiskState) (key : PositionRiskKey)
    (position : IsolatedPositionState) : Option AdlCandidate :=
  if key.marketId ≠ input.marketId ∨ key.userId = input.liquidatedUserId ∨
      position.signedQuantity = 0 ∨
      hasOpposingExposure liquidatedPosition.signedQuantity position.signedQuantity = false then
    none
  else
    match riskStates[key]? with
    | none => none
    | some risk =>
      if risk.unrealizedPnl ≤ 0 then none
      else some ⟨key, position, absQuantity position.signedQuantity, risk.unrealizedPnl,
        risk.leverage, risk.marginRatio⟩

def adlCandidatesFor (input : LiquidatePositionInput) (liquidatedPosition : IsolatedPositionState)
    (ledger : Ledger) : List AdlCandidate :=
  (ledger.positions.toList.filterMap fun entry =>
    adlCandidateOf input liquidatedPosition ledger.riskStates entry.1 entry.2).insertionSort
      fun left right => left.before right = true

/-- `total_adl_available`, from what was counted so far. -/
def totalAdlAvailable (limit : ℤ) : List AdlCandidate → ℤ → ℤ
  | [], available => available
  | c :: candidates, available =>
    if limit ≤ available + c.availableQuantity then limit
    else totalAdlAvailable limit candidates (available + c.availableQuantity)

structure AutomaticLiquidationCandidate where
  key : PositionRiskKey
  position : IsolatedPositionState
  risk : IsolatedRiskState
  notional : ℤ

/-- Lower margin ratio, lower equity, larger notional, lower user id first. -/
def AutomaticLiquidationCandidate.before (left right : AutomaticLiquidationCandidate) : Bool :=
  if left.risk.marginRatio ≠ right.risk.marginRatio then
    left.risk.marginRatio < right.risk.marginRatio
  else if left.risk.equity ≠ right.risk.equity then left.risk.equity < right.risk.equity
  else if left.notional ≠ right.notional then right.notional < left.notional
  else left.key.userId < right.key.userId

def automaticLiquidationCandidatesFor (marketId : MarketId) (ledger : Ledger)
    (attempted : List PositionRiskKey) : List AutomaticLiquidationCandidate :=
  (ledger.riskStates.toList.filterMap fun (key, risk) =>
    if key.marketId ≠ marketId ∨ risk.status ≠ .liquidatable ∨ risk.signedQuantity = 0 ∨
        key ∈ attempted then none
    else
      match ledger.positions[key]? with
      | none => none
      | some position =>
        if position.signedQuantity = 0 then none
        else
          let price := if 0 < risk.markPrice then risk.markPrice else position.averageEntryPrice
          some (⟨key, position, risk, absQuantity position.signedQuantity * price⟩ :
            AutomaticLiquidationCandidate)).insertionSort
    fun left right => left.before right = true

end Candidates

section Adl

def adlIdFor (liquidationId : Text) (priorityRank : ℤ) (userId : AdapterUserId) : Text :=
  liquidationId ++ ascii "-adl-" ++ text priorityRank ++ ascii "-" ++ text userId

/-- The first of the 1024 salted hashes that no order has. -/
@[irreducible] def adlCounterpartyOrderId (adlId : Text) (liquidationOrderId : OrderId)
    (metadataStore : OrderMetadataStore) : Option OrderId :=
  ((List.range 1024).map fun salt : ℕ =>
    stableStringId (ascii "adl-order-" ++ adlId ++ ascii "-" ++ text salt)).find? fun orderId =>
      orderId ≠ liquidationOrderId ∧ metadataStore.contains orderId = false

def adlCounterpartyMetadata (input : LiquidatePositionInput) (candidate : AdlCandidate)
    (orderId : OrderId) (fillQuantity priorityRank : ℤ) (adlId : Text) : OrderMetadata where
  orderId := orderId
  marketId := input.marketId
  userId := candidate.key.userId
  side := liquidationOrderSide candidate.position.signedQuantity
  originalQuantity := fillQuantity
  remainingQuantity := fillQuantity
  reduceOnly := true
  marginAsset := assetOr candidate.position.marginAsset
  reservedMarginAmount := 0
  remainingReservedMargin := 0
  leverage := candidate.position.leverage
  reservationId := ascii "adl-" ++ input.liquidationId ++ ascii "-" ++ text candidate.key.userId ++
    ascii "-" ++ text priorityRank
  placeRequestId := adlId
  placeIdempotencyKey := adlId
  placeInputId := none
  replyPartition := input.envelope.replyPartition
  coreClientOrderId := stableStringId adlId
  corePlaceCommandId := stableStringId adlId

/-- `trade_id` of an ADL fill: the hash of its ADL id. -/
def adlTradeId (adlId : Text) : TradeId := stableStringId (ascii "adl-fill-" ++ adlId)

def adlTradeEvent (input : LiquidatePositionInput) (adlId : Text)
    (counterpartyOrderId takerOrderId : OrderId) (fillQuantity : ℤ) (price : AdapterPrice) :
    TradeExecuted where
  eventId := adlTradeId adlId
  sequence := 0
  tradeId := adlTradeId adlId
  symbolId := (input.marketId % 2 ^ 32).toNat
  makerOrderId := counterpartyOrderId
  takerOrderId := takerOrderId
  price := Price.fromTicks price
  quantity := Quantity.ofLots fillQuantity.toNat

def setMetadataStore (f : OrderMetadataStore → OrderMetadataStore) : TranslateM Unit :=
  onLedger (modifyMetadata f)

def requirePending : TranslateM Unit := do
  let state ← get
  if state.pending.isNone then throw (ascii "ADL requires liquidation order metadata")

/-- One ADL fill: metadata for the counterparty comes, trades and goes. The store has room for it,
since its id was chosen free. -/
def appendAdlFill (context : EngineEventTranslationContext) (markPrices : MarkPrices)
    (input : LiquidatePositionInput) (price : AdapterPrice) (candidate : AdlCandidate)
    (fillQuantity priorityRank : ℤ) : TranslateM EngineProcessResult := do
  let state ← get
  let adlId := adlIdFor input.liquidationId priorityRank candidate.key.userId
  let takerOrderId := (state.pending.map (·.orderId)).getD 0
  match adlCounterpartyOrderId adlId takerOrderId state.ledger.metadataStore with
  | none => throw (ascii "unable to allocate deterministic ADL order id")
  | some counterpartyOrderId =>
    setMetadataStore fun store => store.insert counterpartyOrderId
      (adlCounterpartyMetadata input candidate counterpartyOrderId fillQuantity priorityRank adlId)
    requirePending
    let translated ← translate
      { context with adl := some ⟨adlId, candidate.key.userId, priorityRank⟩ } markPrices
      [.tradeExecuted (adlTradeEvent input adlId counterpartyOrderId takerOrderId fillQuantity
        price)]
    setMetadataStore (·.erase counterpartyOrderId)
    pure translated

def appendAdlFillsFrom (context : EngineEventTranslationContext) (markPrices : MarkPrices)
    (input : LiquidatePositionInput) (price : AdapterPrice) :
    List AdlCandidate → ℤ → ℤ → TranslateM EngineProcessResult
  | [], _, _ => pure .new
  | candidate :: candidates, remainingQuantity, priorityRank =>
    if remainingQuantity ≤ 0 then pure .new
    else
      let fillQuantity := min remainingQuantity candidate.availableQuantity
      if fillQuantity ≤ 0 then
        appendAdlFillsFrom context markPrices input price candidates remainingQuantity
          (priorityRank + 1)
      else do
        let fill ← appendAdlFill context markPrices input price candidate fillQuantity priorityRank
        let rest ← appendAdlFillsFrom context markPrices input price candidates
          (remainingQuantity - fillQuantity) (priorityRank + 1)
        pure (fill ++ rest)

def appendAdlFills (context : EngineEventTranslationContext) (markPrices : MarkPrices)
    (input : LiquidatePositionInput) (remainingQuantity : ℤ) (price : AdapterPrice) :
    TranslateM EngineProcessResult := do
  let state ← get
  match state.ledger.positions[(⟨input.liquidatedUserId, input.marketId⟩ : PositionRiskKey)]? with
  | none => pure .new
  | some liquidatedPosition =>
    if liquidatedPosition.signedQuantity = 0 ∨ remainingQuantity ≤ 0 then pure .new
    else
      appendAdlFillsFrom context markPrices input price
        (adlCandidatesFor input liquidatedPosition state.ledger) remainingQuantity 1

end Adl

section Execute

def liquidationRejectionReason (input : LiquidatePositionInput) (ledger : Ledger) : Option Text :=
  let key : PositionRiskKey := ⟨input.liquidatedUserId, input.marketId⟩
  match ledger.positions[key]? with
  | none => some (ascii "position is not liquidatable")
  | some position =>
    if position.signedQuantity = 0 then some (ascii "position is not liquidatable")
    else if sideMatchesPosition input.positionSide position.signedQuantity = false then
      some (ascii "position side mismatch")
    else
      match ledger.riskStates[key]? with
      | none => some (ascii "position is not liquidatable")
      | some risk =>
        if risk.status ≠ .liquidatable ∧ risk.maintenanceMargin < risk.equity then
          some (ascii "position is not liquidatable")
        else none

def syntheticLiquidationOrder (input : LiquidatePositionInput) (position : IsolatedPositionState)
    (orderId : AdapterOrderId) (quantity : AdapterQuantity) (price : AdapterPrice) :
    PlaceOrderInput where
  inputId := input.inputId.map (ascii "liquidation-core-" ++ ·)
  envelope :=
    { input.envelope with
      requestId := ascii "liquidation-core-" ++ input.liquidationId
      idempotencyKey := ascii "liquidation-core-" ++ input.liquidationId
      userId := input.liquidatedUserId }
  orderId := orderId
  reservationId := ascii "liquidation-" ++ input.liquidationId
  marketId := input.marketId
  side := liquidationOrderSide position.signedQuantity
  orderType := .limit
  timeInForce := .ioc
  price := price
  quantity := quantity
  reduceOnly := true
  marginAsset := assetOr position.marginAsset
  reservedMarginAmount := 0
  leverage := position.leverage

def makeLiquidationReply (record : InboundEngineRecord) (input : LiquidatePositionInput)
    (type : ReplyType) (fields : ReplyFields) : EngineReply where
  type := type
  requestId := input.envelope.requestId
  partition := input.envelope.replyPartition
  source := sourceFields record input.inputId
  fields := fields

def liquidationRejectedReply (record : InboundEngineRecord) (input : LiquidatePositionInput)
    (reason : Text) : EngineReply :=
  makeLiquidationReply record input .liquidationRejected
    ⟨none, none, some input.liquidationId, some reason⟩

def liquidationAcceptedReply (record : InboundEngineRecord) (input : LiquidatePositionInput)
    (metadata : OrderMetadata) : EngineReply :=
  makeLiquidationReply record input .liquidationAccepted
    ⟨some metadata.orderId,
      if metadata.reservationId.isEmpty then none else some metadata.reservationId,
      some input.liquidationId, none⟩

def liquidationStartedPayload (input : LiquidatePositionInput) (position : IsolatedPositionState)
    (risk : IsolatedRiskState) : LiquidationStartedPayload where
  liquidationId := input.liquidationId
  userId := input.liquidatedUserId
  positionId := positionIdText input.liquidatedUserId input.marketId
  side := positionSide position.signedQuantity
  quantity := absQuantity position.signedQuantity
  markPrice := risk.markPrice
  maintenanceMargin := risk.maintenanceMargin
  equity := risk.equity
  reason := ascii "MAINTENANCE_MARGIN_BREACH"

def liquidationCompletedPayload (input : LiquidatePositionInput) (remainingQuantity : ℤ) :
    LiquidationCompletedPayload where
  liquidationId := input.liquidationId
  userId := input.liquidatedUserId
  positionId := positionIdText input.liquidatedUserId input.marketId
  finalStatus := if remainingQuantity = 0 then ascii "FLAT" else ascii "PARTIAL"
  remainingQuantity := remainingQuantity
  insuranceFundDelta := 0
  badDebt := 0

def liquidationContext (record : InboundEngineRecord) (input : LiquidatePositionInput)
    (orderId : AdapterOrderId) : EngineEventTranslationContext where
  commandKind := .liquidatePosition
  source := record
  requestId := input.envelope.requestId
  inputId := input.inputId
  replyPartition := input.envelope.replyPartition
  orderId := orderId
  marketId := input.marketId
  canOpenRestingOrder := false
  liquidationId := input.liquidationId
  liquidatedUserId := input.liquidatedUserId
  liquidationPositionSide := input.positionSide
  adl := none

/-- The size of a position, zero for a position that is not there. -/
def openQuantity (ledger : Ledger) (key : PositionRiskKey) : ℤ :=
  match ledger.positions[key]? with
  | none => 0
  | some position => absQuantity position.signedQuantity

def makeLiquidationEvent (record : InboundEngineRecord) (input : LiquidatePositionInput)
    (payload : EventPayload) : RuntimeM EngineProcessResult :=
  withLedger (makeRuntimeMarketEvent record input.inputId (some input.envelope.requestId)
    input.marketId payload)

/-- The book phase of a liquidation that goes ahead, if the book was asked, and the metadata of
its order afterwards. -/
def liquidateAgainstBook (record : InboundEngineRecord) (input : LiquidatePositionInput)
    (context : EngineEventTranslationContext) (metadata : OrderMetadata)
    (coreEvents : Option (List EngineEvent)) :
    RuntimeM (EngineProcessResult × Option OrderMetadata) := do
  let rt ← get
  match coreEvents with
  | some coreEvents =>
    let translated ← withLedger (withPending (some metadata)
      (translate context rt.markPrices coreEvents))
    withLedger (modifyMetadata (cleanupCompletedOrderMetadata coreEvents))
    pure translated
  | none =>
    pure (.reply (liquidationAcceptedReply record input metadata), some metadata)

/-- What a liquidation does once it has been decided to go ahead. -/
def runLiquidation (record : InboundEngineRecord) (input : LiquidatePositionInput)
    (context : EngineEventTranslationContext) (metadata : OrderMetadata)
    (coreEvents : Option (List EngineEvent)) (price : AdapterPrice)
    (previousPosition : IsolatedPositionState) (previousRisk : IsolatedRiskState) :
    RuntimeM EngineProcessResult := do
  let key : PositionRiskKey := ⟨input.liquidatedUserId, input.marketId⟩
  let started ← makeLiquidationEvent record input
    (.liquidationStarted (liquidationStartedPayload input previousPosition previousRisk))
  let (booked, pending) ← liquidateAgainstBook record input context metadata coreEvents
  let rt ← get
  let remainingAdlQuantity :=
    min ((pending.map (·.remainingQuantity)).getD 0) (openQuantity rt.ledger key)
  let deleveraged ← emitWhen (0 < remainingAdlQuantity)
    (Prod.fst <$> withLedger (withPending pending
      (appendAdlFills context rt.markPrices input remainingAdlQuantity price)))
  let rt ← get
  let completed ← makeLiquidationEvent record input
    (.liquidationCompleted (liquidationCompletedPayload input (openQuantity rt.ledger key)))
  pure (started ++ booked ++ deleveraged ++ completed)

/-- A reply of the runtime itself, unless replies are off. -/
def replyIf (emitReplies : Bool) (reply : EngineReply) : EngineProcessResult :=
  if emitReplies then .reply reply else .new

/-- `replies.clear()` when replies are off. -/
def EngineProcessResult.repliesIf (emitReplies : Bool) (result : EngineProcessResult) :
    EngineProcessResult :=
  if emitReplies then result else { result with replies := [] }

/-- The events of the book, if it has something to trade against. -/
def askBook (hasCrossingLiquidity : Bool) (command : PlaceOrderCommand) :
    RuntimeM (Option (List EngineEvent)) :=
  if hasCrossingLiquidity then some <$> processCore (.placeOrder command) else pure none

def executeLiquidation (record : InboundEngineRecord) (input : LiquidatePositionInput)
    (emitReplies : Bool) : RuntimeM EngineProcessResult := do
  let rt ← get
  let key : PositionRiskKey := ⟨input.liquidatedUserId, input.marketId⟩
  let rejected := fun reason => replyIf emitReplies (liquidationRejectedReply record input reason)
  match liquidationRejectionReason input rt.ledger with
  | some reason => pure (rejected reason)
  | none =>
    match rt.ledger.positions[key]?, rt.ledger.riskStates[key]? with
    | some previousPosition, some previousRisk =>
      let orderQuantity := liquidationQuantity input previousPosition
      let orderPrice := liquidationPrice input previousPosition rt.markPrices
      let hasCrossingLiquidity := crossingLiquidityExists rt.core input.marketId
        (liquidationOrderSide previousPosition.signedQuantity) orderPrice
      let initialAdlAvailable := totalAdlAvailable orderQuantity
        (adlCandidatesFor input previousPosition rt.ledger) 0
      if orderQuantity ≤ 0 ∨ orderPrice ≤ 0 ∨
          (hasCrossingLiquidity = false ∧ initialAdlAvailable ≤ 0) then
        pure (rejected (ascii "no liquidation liquidity"))
      else
        let orderId ← liftExcept (liquidationOrderId input.liquidationId)
        let (command, metadata) ← liftExcept (mapPlaceOrderToCore
          (syntheticLiquidationOrder input previousPosition orderId orderQuantity orderPrice)
          (receivedSequence record))
        let coreEvents ← askBook hasCrossingLiquidity command
        if hasCrossingLiquidity = true ∧ hasTradeExecuted (coreEvents.getD []) = false ∧
            initialAdlAvailable ≤ 0 then
          pure (rejected (ascii "no liquidation liquidity"))
        else
          let result ← runLiquidation record input (liquidationContext record input orderId)
            metadata coreEvents orderPrice previousPosition previousRisk
          pure (result.repliesIf emitReplies)
    | _, _ => throw (ascii "map::at")

end Execute

section Automatic

def maxAutomaticLiquidationAttemptsPerTrigger : ℕ := 16

def automaticLiquidationId (source : InboundEngineRecord) (sourceInputId : Option Text)
    (key : PositionRiskKey) (attempt : ℕ) : Text :=
  let id := ascii "auto-liq-" ++ text key.marketId ++ ascii "-" ++ text key.userId ++ ascii "-" ++
    text source.partition ++ ascii "-" ++ text source.offset ++ ascii "-" ++ text attempt
  match sourceInputId with
  | none => id
  | some inputId => id ++ ascii "-" ++ inputId

def automaticLiquidationInput (source : InboundEngineRecord) (sourceInputId : Option Text)
    (candidate : AutomaticLiquidationCandidate) (attempt : ℕ) : LiquidatePositionInput :=
  let liquidationId := automaticLiquidationId source sourceInputId candidate.key attempt
  { inputId := sourceInputId
    envelope :=
      { requestId := ascii "auto-req-" ++ liquidationId
        idempotencyKey := ascii "auto-idem-" ++ liquidationId
        userId := 0
        replyPartition := 0 }
    liquidationId := liquidationId
    marketId := candidate.key.marketId
    liquidatedUserId := candidate.key.userId
    positionSide := positionAdapterSide candidate.position.signedQuantity
    quantity := absQuantity candidate.position.signedQuantity
    price := 0 }

/-- Where the loop over the candidates stands. -/
structure LiquidationAttempts where
  attempted : List PositionRiskKey
  attempts : ℕ

/-- The inner loop: it stops at the first execution that emits events, and says whether one did. -/
def attemptCandidates (source : InboundEngineRecord) (sourceInputId : Option Text) :
    List AutomaticLiquidationCandidate → LiquidationAttempts →
      RuntimeM (EngineProcessResult × Bool × LiquidationAttempts)
  | [], progress => pure (.new, false, progress)
  | candidate :: candidates, progress =>
    if maxAutomaticLiquidationAttemptsPerTrigger ≤ progress.attempts then
      pure (.new, false, progress)
    else do
      let progress : LiquidationAttempts :=
        ⟨candidate.key :: progress.attempted, progress.attempts + 1⟩
      let execution ← executeLiquidation source
        (automaticLiquidationInput source sourceInputId candidate progress.attempts) false
      if execution.events.isEmpty then
        let (rest, shouldRescan, progress) ←
          attemptCandidates source sourceInputId candidates progress
        pure (execution ++ rest, shouldRescan, progress)
      else pure (execution, true, progress)

/-- The outer loop; every round but the last makes an attempt, so `rounds` bounds them. -/
def liquidationRounds (source : InboundEngineRecord) (sourceInputId : Option Text)
    (marketId : MarketId) : ℕ → LiquidationAttempts → RuntimeM EngineProcessResult
  | 0, _ => pure .new
  | rounds + 1, progress =>
    if maxAutomaticLiquidationAttemptsPerTrigger ≤ progress.attempts then pure .new
    else do
      let rt ← get
      let candidates := automaticLiquidationCandidatesFor marketId rt.ledger progress.attempted
      if candidates.isEmpty then pure .new
      else
        let (result, shouldRescan, progress) ←
          attemptCandidates source sourceInputId candidates progress
        if shouldRescan then
          let rest ← liquidationRounds source sourceInputId marketId rounds progress
          pure (result ++ rest)
        else pure result

def evaluateAutomaticLiquidationsForMarket (marketId : MarketId) (source : InboundEngineRecord)
    (sourceInputId : Option Text) : RuntimeM EngineProcessResult :=
  liquidationRounds source sourceInputId marketId
    (maxAutomaticLiquidationAttemptsPerTrigger + 1) ⟨[], 0⟩

/-- The markets of the liquidatable positions, in order. -/
def liquidatableMarkets (ledger : Ledger) : List MarketId :=
  (ledger.riskStates.toList.filterMap fun (key, risk) =>
    if risk.status = .liquidatable ∧ risk.signedQuantity ≠ 0 then some key.marketId
    else none).dedup.insertionSort (· ≤ ·)

def evaluateMarkets (source : InboundEngineRecord) (sourceInputId : Option Text) :
    List MarketId → RuntimeM EngineProcessResult
  | [] => pure .new
  | marketId :: markets => do
    let result ← evaluateAutomaticLiquidationsForMarket marketId source sourceInputId
    let rest ← evaluateMarkets source sourceInputId markets
    pure (result ++ rest)

def evaluateAllAutomaticLiquidations (source : InboundEngineRecord)
    (sourceInputId : Option Text) : RuntimeM EngineProcessResult := do
  let rt ← get
  evaluateMarkets source sourceInputId (liquidatableMarkets rt.ledger)

end Automatic
end PerpexEngine
