import PerpexEngine.Runtime.Adapter

/-! From core events to replies and engine events: margin, positions and risk follow every fill. -/
namespace PerpexEngine

/-- The clock of the runtime: what it shows at each reading, and how often it was read. -/
structure EngineRuntimeClock where
  readings : ℕ → ℤ
  reads : ℕ

/-- The part of the runtime the translator works on. -/
structure Ledger where
  metadataStore : OrderMetadataStore
  positions : Std.ExtTreeMap PositionRiskKey IsolatedPositionState
  riskStates : Std.ExtTreeMap PositionRiskKey IsolatedRiskState
  marketSequences : MarketSequenceGenerator
  clock : EngineRuntimeClock

abbrev LedgerM := Program Text Ledger

abbrev MarkPrices := Std.ExtTreeMap MarketId MarkPriceState

/-- `context.pending_metadata` is kept apart, in the state of the translation. -/
structure EngineEventTranslationContext where
  commandKind : RuntimeCommandKind
  source : InboundEngineRecord
  requestId : Text
  inputId : Option Text
  replyPartition : ℤ
  orderId : AdapterOrderId
  marketId : MarketId
  canOpenRestingOrder : Bool
  liquidationId : Text
  liquidatedUserId : AdapterUserId
  liquidationPositionSide : AdapterSide
  adl : Option AdlFields

structure TranslationState where
  ledger : Ledger
  pending : Option OrderMetadata

abbrev TranslateM := Program Text TranslationState

def onLedger {α : Type} (m : LedgerM α) : TranslateM α :=
  Program.zoom TranslationState.ledger (fun t l => { t with ledger := l }) m

def reasonText : RejectReason → Text
  | .invalidSymbol => ascii "invalid_symbol"
  | .invalidPrice => ascii "invalid_price"
  | .invalidQuantity => ascii "invalid_quantity"
  | .duplicateCommand => ascii "duplicate_command"
  | .duplicateOrder => ascii "duplicate_order"
  | .orderNotFound => ascii "order_not_found"
  | .wouldSelfTrade => ascii "would_self_trade"
  | .marketClosed => ascii "market_closed"
  | .insufficientBalanceLiquidity => ascii "insufficient_balance_liquidity"

/-- `abs_quantity`. -/
def absQuantity (quantity : ℤ) : ℤ := if quantity < 0 then -quantity else quantity

def positionSide (signedQuantity : ℤ) : RiskSide :=
  if 0 < signedQuantity then .long else if signedQuantity < 0 then .short else .flat

def positionIdText (userId : AdapterUserId) (marketId : MarketId) : Text :=
  ascii "pos_" ++ text userId ++ ascii "_" ++ text marketId

def maintenanceMarginFor (signedQuantity : ℤ) (price : AdapterPrice) : ℤ :=
  (absQuantity signedQuantity * price).tdiv 20

def marginRatioFor (equity maintenanceMargin : ℤ) : ℤ :=
  if maintenanceMargin = 0 then 0 else (equity * 10000).tdiv maintenanceMargin

def riskStatusFor (signedQuantity equity maintenanceMargin : ℤ) : RiskStatus :=
  if signedQuantity = 0 then .flat
  else if equity ≤ maintenanceMargin then .liquidatable
  else .healthy

def sameDirection (left right : ℤ) : Bool := (0 < left && 0 < right) || (left < 0 && right < 0)

/-- `margin_asset`, or the default. -/
def assetOr (asset : Text) : Text := if asset.isEmpty then ascii "USDC" else asset

section Emit

/-- An optional step of a program. -/
def emitWhen {σ : Type} (c : Prop) [Decidable c] (m : Program Text σ EngineProcessResult) :
    Program Text σ EngineProcessResult :=
  if c then m else pure .new

/-- `market_sequences.next(market_id)`. -/
def drawSequence (marketId : MarketId) : LedgerM EngineSequence :=
  if marketId ≤ 0 then throw (ascii "market_id must be positive")
  else do
    let ledger ← get
    set { ledger with marketSequences := ledger.marketSequences.advance marketId }
    pure (ledger.marketSequences.peek marketId)

def readClock : LedgerM ℤ := do
  let ledger ← get
  set { ledger with clock := { ledger.clock with reads := ledger.clock.reads + 1 } }
  pure (ledger.clock.readings ledger.clock.reads)

def engineEventId (marketId : MarketId) (sequence : EngineSequence) : Text :=
  ascii "eng_" ++ text marketId ++ ascii "_" ++ text sequence

/-- Every event record is made here: it draws a sequence number and reads the clock. -/
def makeMarketEvent (marketId : MarketId) (source : SourceFields) (requestId : Option Text)
    (payload : EventPayload) : LedgerM EngineEventRecord := do
  let sequence ← drawSequence marketId
  let timestampMs ← readClock
  pure
    { marketId := marketId
      engineSequence := sequence
      engineEventId := engineEventId marketId sequence
      engineTimestampMs := timestampMs
      source := source
      requestId := requestId.filter (!·.isEmpty)
      payload := payload }

/-- `make_event` of the translator. -/
def makeEvent (context : EngineEventTranslationContext) (marketId : MarketId)
    (payload : EventPayload) : TranslateM EngineProcessResult :=
  .event <$> onLedger (makeMarketEvent marketId (sourceFields context.source context.inputId)
    (some context.requestId) payload)

def makeReply (context : EngineEventTranslationContext) (type : ReplyType) (fields : ReplyFields) :
    EngineReply where
  type := type
  requestId := context.requestId
  partition := context.replyPartition
  source := sourceFields context.source context.inputId
  fields := fields

end Emit

section Metadata

def findMetadata (orderId : OrderId) (state : TranslationState) : Option OrderMetadata :=
  match state.pending with
  | some pending =>
    if pending.orderId = orderId then some pending else state.ledger.metadataStore[orderId]?
  | none => state.ledger.metadataStore[orderId]?

/-- Writing through the pointer `find_metadata_mutable` returns. -/
def putMetadata (orderId : OrderId) (metadata : OrderMetadata) (state : TranslationState) :
    TranslationState :=
  let stored := { state with ledger := { state.ledger with
    metadataStore := state.ledger.metadataStore.insert orderId metadata } }
  match state.pending with
  | some pending =>
    if pending.orderId = orderId then { state with pending := some metadata } else stored
  | none => stored

def filledOrderIds (coreEvents : List EngineEvent) : List OrderId :=
  coreEvents.filterMap fun
    | .orderFilled e => some e.orderId
    | _ => none

def fallbackMargin (metadata : OrderMetadata) (fillQuantity : ℤ) (price : AdapterPrice) : ℤ :=
  (price * fillQuantity).tdiv (if metadata.leverage ≤ 0 then 1 else metadata.leverage)

def previewFillMargin (metadata : OrderMetadata) (fillQuantity : ℤ) (price : AdapterPrice) : ℤ :=
  if 0 < metadata.reservedMarginAmount ∧ 0 < metadata.originalQuantity then
    if 0 < metadata.remainingQuantity ∧ metadata.remainingQuantity ≤ fillQuantity then
      metadata.remainingReservedMargin
    else
      min ((metadata.reservedMarginAmount * fillQuantity).tdiv metadata.originalQuantity)
        metadata.remainingReservedMargin
  else fallbackMargin metadata fillQuantity price

/-- The amount `allocate_fill_margin` returns. -/
def allocatedMargin (metadata : OrderMetadata) (fillQuantity : ℤ) (price : AdapterPrice) : ℤ :=
  if 0 < metadata.reservedMarginAmount ∧ 0 < metadata.originalQuantity then
    min
      (if 0 < metadata.remainingQuantity ∧ metadata.remainingQuantity ≤ fillQuantity then
        metadata.remainingReservedMargin
      else (metadata.reservedMarginAmount * fillQuantity).tdiv metadata.originalQuantity)
      metadata.remainingReservedMargin
  else fallbackMargin metadata fillQuantity price

/-- What `allocate_fill_margin` leaves of the metadata. -/
def allocateFillMargin (metadata : OrderMetadata) (fillQuantity : ℤ) (price : AdapterPrice) :
    OrderMetadata :=
  let allocated := allocatedMargin metadata fillQuantity price
  { metadata with
    remainingQuantity :=
      if fillQuantity < metadata.remainingQuantity then metadata.remainingQuantity - fillQuantity
      else 0
    remainingReservedMargin :=
      if allocated < metadata.remainingReservedMargin
      then metadata.remainingReservedMargin - allocated else 0 }

def signedFillQuantity (metadata : OrderMetadata) (fillQuantity : ℤ) : ℤ :=
  match metadata.side with
  | .long => fillQuantity
  | .short => -fillQuantity

end Metadata

section Fill

/-- `IsolatedPositionState{}`, which `positions[key]` starts from. -/
def IsolatedPositionState.none : IsolatedPositionState := ⟨0, 0, 0, 0, [], 0, 0, 0⟩

/-- The average entry price and the margin after a fill. -/
def filledAverageAndMargin (position : IsolatedPositionState) (signedFill : ℤ)
    (price : AdapterPrice) (fillMargin : ℤ) : ℤ × ℤ :=
  let oldQuantity := position.signedQuantity
  let newQuantity := oldQuantity + signedFill
  let oldAbs := absQuantity oldQuantity
  let fillAbs := absQuantity signedFill
  if oldQuantity = 0 then (price, fillMargin)
  else if sameDirection oldQuantity signedFill then
    ((position.averageEntryPrice * oldAbs + price * fillAbs).tdiv (oldAbs + fillAbs),
      position.isolatedMargin + fillMargin)
  else if newQuantity = 0 then (0, 0)
  else if sameDirection oldQuantity newQuantity then
    (position.averageEntryPrice,
      if oldAbs = 0 then 0 else (position.isolatedMargin * absQuantity newQuantity).tdiv oldAbs)
  else (price, if fillAbs = 0 then 0 else (fillMargin * absQuantity newQuantity).tdiv fillAbs)

def applyPositionFill (position : IsolatedPositionState) (metadata : OrderMetadata)
    (signedFill : ℤ) (price : AdapterPrice) (fillMargin timestampMs : ℤ) : IsolatedPositionState :=
  let filled := filledAverageAndMargin position signedFill price fillMargin
  { userId := metadata.userId
    marketId := metadata.marketId
    signedQuantity := position.signedQuantity + signedFill
    averageEntryPrice := filled.1
    marginAsset := if metadata.marginAsset.isEmpty then position.marginAsset
      else metadata.marginAsset
    isolatedMargin := filled.2
    leverage := if position.leverage = 0 ∨ position.signedQuantity = 0 then metadata.leverage
      else position.leverage
    updatedAtMs := timestampMs }

def markPriceFor (marketId : MarketId) (tradePrice : AdapterPrice) (markPrices : MarkPrices) :
    AdapterPrice :=
  match markPrices[marketId]? with
  | none => tradePrice
  | some mark => mark.markPrice

/-- `risk_from_position` of the translator: equity starts over from margin and profit. -/
def fillRiskFromPosition (position : IsolatedPositionState) (markPrice : AdapterPrice)
    (timestampMs : ℤ) : IsolatedRiskState :=
  let unrealizedPnl := (markPrice - position.averageEntryPrice) * position.signedQuantity
  let maintenanceMargin := maintenanceMarginFor position.signedQuantity markPrice
  let equity := position.isolatedMargin + unrealizedPnl
  { userId := position.userId
    marketId := position.marketId
    status := riskStatusFor position.signedQuantity equity maintenanceMargin
    marginAsset := position.marginAsset
    signedQuantity := position.signedQuantity
    averageEntryPrice := position.averageEntryPrice
    markPrice := markPrice
    isolatedMargin := position.isolatedMargin
    unrealizedPnl := unrealizedPnl
    equity := equity
    maintenanceMargin := maintenanceMargin
    marginRatio := marginRatioFor equity maintenanceMargin
    leverage := position.leverage
    updatedAtMs := timestampMs }

/-- The realized profit `account_effect_for_fill` finds; the released margin is not used. -/
def realizedPnlForFill (position : IsolatedPositionState) (signedFill : ℤ)
    (fillPrice : AdapterPrice) : ℤ :=
  if position.signedQuantity = 0 ∨ sameDirection position.signedQuantity signedFill = true then 0
  else
    let closedQuantity := min (absQuantity position.signedQuantity) (absQuantity signedFill)
    if 0 < position.signedQuantity then (fillPrice - position.averageEntryPrice) * closedQuantity
    else (position.averageEntryPrice - fillPrice) * closedQuantity

def fillReasonText (context : EngineEventTranslationContext) : Text :=
  if context.adl.isSome then ascii "ADL"
  else if context.commandKind = .liquidatePosition then ascii "LIQUIDATION"
  else ascii "TRADE"

def accountDeltaReasonText (context : EngineEventTranslationContext) : Text :=
  if context.adl.isSome then ascii "ADL_SETTLEMENT"
  else if context.commandKind = .liquidatePosition then ascii "LIQUIDATION_SETTLEMENT"
  else ascii "POSITION_CLOSE_SETTLEMENT"

def accountDeltaReferenceId (trade : TradeExecuted) (context : EngineEventTranslationContext) :
    Text :=
  match context.adl.filter (!·.adlId.isEmpty) with
  | some adl => adl.adlId
  | none =>
    if context.commandKind = .liquidatePosition ∧ context.liquidationId ≠ []
    then context.liquidationId
    else ascii "fill_" ++ text trade.tradeId

def accountDeltaId (trade : TradeExecuted) (metadata : OrderMetadata) : Text :=
  ascii "acct_fill_" ++ text trade.tradeId ++ ascii "_" ++ text metadata.userId ++ ascii "_" ++
    text metadata.orderId

def accountDeltaAssetFor (position : IsolatedPositionState) (metadata : OrderMetadata) : Text :=
  if position.marginAsset.isEmpty then assetOr metadata.marginAsset else position.marginAsset

def accountDeltaPayload (metadata : OrderMetadata) (previousPosition : IsolatedPositionState)
    (trade : TradeExecuted) (realizedPnl : ℤ) (context : EngineEventTranslationContext) :
    AccountDeltaPayload where
  accountDeltaId := accountDeltaId trade metadata
  userId := metadata.userId
  asset := accountDeltaAssetFor previousPosition metadata
  totalDelta := realizedPnl
  lockedDelta := 0
  reason := accountDeltaReasonText context
  referenceId := accountDeltaReferenceId trade context

def positionChangedPayload (position : IsolatedPositionState) (fillQuantity : ℤ)
    (fillPrice realizedPnl markPrice : ℤ) (context : EngineEventTranslationContext) :
    PositionChangedPayload where
  position := position
  markPrice := markPrice
  realizedPnl := realizedPnl
  unrealizedPnl := (markPrice - position.averageEntryPrice) * position.signedQuantity
  maintenanceMargin := maintenanceMarginFor position.signedQuantity markPrice
  reason := fillReasonText context
  lastFillQuantity := fillQuantity
  lastFillPrice := fillPrice

/-- What the fill of one order does to its metadata, its position and its risk. -/
structure FillLeg where
  metadata : OrderMetadata
  previousPosition : IsolatedPositionState
  position : IsolatedPositionState
  risk : IsolatedRiskState
  realizedPnl : ℤ

def FillLeg.key (leg : FillLeg) : PositionRiskKey := ⟨leg.metadata.userId, leg.metadata.marketId⟩

def fillLeg (markPrices : MarkPrices) (ledger : Ledger) (metadata : OrderMetadata)
    (fillQuantity fillPrice timestampMs : ℤ) : FillLeg :=
  let signedFill := signedFillQuantity metadata fillQuantity
  let previousPosition :=
    ledger.positions.getD ⟨metadata.userId, metadata.marketId⟩ IsolatedPositionState.none
  let position := applyPositionFill previousPosition metadata signedFill fillPrice
    (allocatedMargin metadata fillQuantity fillPrice) timestampMs
  { metadata := allocateFillMargin metadata fillQuantity fillPrice
    previousPosition := previousPosition
    position := position
    risk := fillRiskFromPosition position
      (markPriceFor metadata.marketId fillPrice markPrices) timestampMs
    realizedPnl := realizedPnlForFill previousPosition signedFill fillPrice }

def putFillLeg (orderId : OrderId) (leg : FillLeg) (state : TranslationState) : TranslationState :=
  let state := putMetadata orderId leg.metadata state
  { state with ledger := { state.ledger with
    positions := state.ledger.positions.insert leg.key leg.position
    riskStates := state.ledger.riskStates.insert leg.key leg.risk } }

/-- One round of the loop of `append_position_and_risk_updates`. -/
def appendFillLeg (context : EngineEventTranslationContext) (markPrices : MarkPrices)
    (trade : TradeExecuted) (timestampMs : ℤ) (orderId : OrderId) :
    TranslateM EngineProcessResult := do
  let state ← get
  match findMetadata orderId state with
  | none => pure .new
  | some metadata =>
    let leg := fillLeg markPrices state.ledger metadata trade.quantity.lots trade.price.ticks
      timestampMs
    set (putFillLeg orderId leg state)
    let accountDelta ← emitWhen (leg.realizedPnl ≠ 0)
      (makeEvent context metadata.marketId (.accountDelta (accountDeltaPayload leg.metadata
        leg.previousPosition trade leg.realizedPnl context)))
    let positionChanged ← makeEvent context leg.position.marketId
      (.positionChanged (positionChangedPayload leg.position trade.quantity.lots trade.price.ticks
        leg.realizedPnl leg.risk.markPrice context))
    let riskUpdated ← makeEvent context leg.risk.marketId (.riskStateUpdated leg.risk)
    pure (accountDelta ++ positionChanged ++ riskUpdated)

def appendPositionAndRiskUpdates (context : EngineEventTranslationContext)
    (markPrices : MarkPrices) (trade : TradeExecuted) : TranslateM EngineProcessResult := do
  let timestampMs ← onLedger readClock
  let maker ← appendFillLeg context markPrices trade timestampMs trade.makerOrderId
  let taker ← appendFillLeg context markPrices trade timestampMs trade.takerOrderId
  pure (maker ++ taker)

end Fill

section Events

def OrderMetadata.party (metadata : OrderMetadata) : OrderParty :=
  ⟨metadata.userId, metadata.reservationId⟩

/-- `settlement_asset_for` order metadata that may be missing. -/
def settlementAssetFor (metadata : Option OrderMetadata) : Text :=
  assetOr ((metadata.map (·.marginAsset)).getD [])

def appendOrderAccepted (context : EngineEventTranslationContext) (filled : List OrderId)
    (accepted : OrderAccepted) : TranslateM EngineProcessResult := do
  let state ← get
  let metadata := findMetadata accepted.orderId state
  let isLiquidation : Bool := context.commandKind = .liquidatePosition
  let reply := EngineProcessResult.reply (makeReply context
    (if isLiquidation then .liquidationAccepted else .orderAccepted)
    { orderId := some accepted.orderId
      reservationId := metadata.map (·.reservationId)
      liquidationId := if isLiquidation then some context.liquidationId else none
      reason := none })
  if isLiquidation || !context.canOpenRestingOrder || filled.contains accepted.orderId then
    pure reply
  else
    let opened ← makeEvent context accepted.symbolId (.orderOpened
      { orderId := accepted.orderId
        userId := accepted.userId
        side := accepted.side
        price := accepted.price.ticks
        quantity := accepted.quantity.lots
        reservationId := metadata.map (·.reservationId) })
    pure (reply ++ opened)

def rejectedReplyType : RuntimeCommandKind → ReplyType
  | .cancelOrder => .cancelRejected
  | .liquidatePosition => .liquidationRejected
  | _ => .orderRejected

def appendOrderRejected (context : EngineEventTranslationContext) (rejected : OrderRejected) :
    TranslateM EngineProcessResult := do
  let state ← get
  let orderId := rejected.orderId.getD context.orderId.toNat
  let metadata := findMetadata orderId state
  let reply := EngineProcessResult.reply (makeReply context (rejectedReplyType context.commandKind)
    { orderId := if orderId = 0 then none else some orderId
      reservationId := metadata.map (·.reservationId)
      liquidationId := if context.commandKind = .liquidatePosition
        then some context.liquidationId else none
      reason := some (reasonText rejected.reason) })
  match metadata with
  | none => pure reply
  | some metadata =>
    if context.commandKind ≠ .placeOrder ∨ metadata.reservationId = [] ∨
        metadata.remainingReservedMargin ≤ 0 then
      pure reply
    else
      let released ← makeEvent context metadata.marketId (.reservationReleased
        { reservationId := metadata.reservationId
          userId := metadata.userId
          asset := settlementAssetFor (some metadata)
          releasedAmount := metadata.remainingReservedMargin
          reason := ascii "ORDER_REJECTED_AFTER_RESERVATION" })
      pure (reply ++ released)

def liquidationFeeForContext (trade : TradeExecuted) (context : EngineEventTranslationContext) :
    ℤ :=
  if context.adl.isSome then 0 else (trade.price.ticks * trade.quantity.lots).tdiv 200

def liquidationFeeDeltas (trade : TradeExecuted) (taker : Option OrderMetadata)
    (context : EngineEventTranslationContext) : List FeeDelta :=
  [⟨context.liquidatedUserId, settlementAssetFor taker, liquidationFeeForContext trade context,
    ascii "LIQUIDATION"⟩]

def settlementOf (metadata : OrderMetadata) (margin : ℤ) : Settlement :=
  let asset := settlementAssetFor (some metadata)
  ⟨metadata.reservationId, asset, margin, asset, margin⟩

/-- `append_settlement_for`: nothing for a reduce-only order or an empty margin. -/
def settlementFor (metadata : Option OrderMetadata) (trade : TradeExecuted) : List Settlement :=
  match metadata with
  | none => []
  | some metadata =>
    if metadata.reservationId = [] ∨ metadata.reduceOnly = true then []
    else
      let margin := previewFillMargin metadata trade.quantity.lots trade.price.ticks
      if margin ≤ 0 then [] else [settlementOf metadata margin]

def normalSettlements (trade : TradeExecuted) (maker taker : Option OrderMetadata) :
    List Settlement := settlementFor maker trade ++ settlementFor taker trade

def liquidationSettlements (trade : TradeExecuted) (maker : Option OrderMetadata) :
    List Settlement :=
  match maker with
  | none => []
  | some maker =>
    if maker.reservationId = [] then []
    else [settlementOf maker (previewFillMargin maker trade.quantity.lots trade.price.ticks)]

def liquidationFields (trade : TradeExecuted) (context : EngineEventTranslationContext) :
    LiquidationFields where
  liquidationId := context.liquidationId
  liquidatedUserId := context.liquidatedUserId
  positionSide := context.liquidationPositionSide
  liquidationFee := liquidationFeeForContext trade context

def tradeExecutedPayload (trade : TradeExecuted) (maker taker : Option OrderMetadata)
    (context : EngineEventTranslationContext) : TradeExecutedPayload :=
  let isLiquidation : Bool := context.commandKind = .liquidatePosition
  let isAdl := context.adl.isSome
  { tradeId := trade.tradeId
    price := trade.price.ticks
    quantity := trade.quantity.lots
    makerOrderId := trade.makerOrderId
    takerOrderId := trade.takerOrderId
    executionReason := if isLiquidation then ascii "LIQUIDATION" else ascii "TRADE"
    feeDeltas := if isLiquidation && !isAdl then liquidationFeeDeltas trade taker context else []
    settlements :=
      if isLiquidation then if isAdl then [] else liquidationSettlements trade maker
      else normalSettlements trade maker taker
    maker := maker.map (·.party)
    taker := taker.map (·.party)
    liquidation := if isLiquidation then some (liquidationFields trade context) else none
    adl := context.adl }

/-- `make_liquidation_executed_event`, which under ADL reports the deleveraging. -/
def liquidationExecutedPayload (trade : TradeExecuted) (taker : Option OrderMetadata)
    (context : EngineEventTranslationContext) : EventPayload :=
  match context.adl with
  | some adl => .adlExecuted
    { adlId := adl.adlId
      liquidationId := context.liquidationId
      liquidatedUserId := context.liquidatedUserId
      deleveragedUserId := adl.counterpartyUserId
      positionSide := context.liquidationPositionSide
      quantity := trade.quantity.lots
      price := trade.price.ticks
      rank := adl.adlPriorityRank
      reason := ascii "INSURANCE_FUND_INSUFFICIENT" }
  | none => .liquidationExecuted
    { liquidation := liquidationFields trade context
      tradeId := trade.tradeId
      price := trade.price.ticks
      quantity := trade.quantity.lots
      executionReason := ascii "LIQUIDATION"
      feeAsset := settlementAssetFor taker }

def appendTradeExecuted (context : EngineEventTranslationContext) (markPrices : MarkPrices)
    (trade : TradeExecuted) : TranslateM EngineProcessResult := do
  let state ← get
  let maker := findMetadata trade.makerOrderId state
  let taker := findMetadata trade.takerOrderId state
  let executed ← makeEvent context trade.symbolId
    (.tradeExecuted (tradeExecutedPayload trade maker taker context))
  let liquidation ← emitWhen (context.commandKind = .liquidatePosition)
    (makeEvent context trade.symbolId (liquidationExecutedPayload trade taker context))
  let updates ← appendPositionAndRiskUpdates context markPrices trade
  pure (executed ++ liquidation ++ updates)

def appendOrderCancelled (context : EngineEventTranslationContext) (cancelled : OrderCancelled) :
    TranslateM EngineProcessResult := do
  let state ← get
  let metadata := findMetadata cancelled.orderId state
  let reply := EngineProcessResult.reply (makeReply context .cancelAccepted
    { orderId := some cancelled.orderId
      reservationId := none
      liquidationId := none
      reason := none })
  let event ← makeEvent context ((metadata.map (·.marketId)).getD context.marketId)
    (.orderCancelled
      { orderId := cancelled.orderId
        releasedQuantity := cancelled.releasedQuantity.lots
        party := metadata.map (·.party)
        releasedAmount := (metadata.map (·.remainingReservedMargin)).getD 0 })
  pure (reply ++ event)

def appendOrderbookDelta (context : EngineEventTranslationContext) (delta : OrderBookDelta) :
    TranslateM EngineProcessResult :=
  makeEvent context delta.symbolId
    (.orderBookDelta ⟨delta.side, delta.price.ticks, delta.totalQuantityAtPrice.lots⟩)

/-- The translation of one core event; fill reports give nothing. -/
def translateEvent (context : EngineEventTranslationContext) (markPrices : MarkPrices)
    (filled : List OrderId) : EngineEvent → TranslateM EngineProcessResult
  | .orderAccepted e => appendOrderAccepted context filled e
  | .orderRejected e => appendOrderRejected context e
  | .tradeExecuted e => appendTradeExecuted context markPrices e
  | .orderCancelled e => appendOrderCancelled context e
  | .orderBookDelta e => appendOrderbookDelta context e
  | .orderPartial _ => pure .new
  | .orderFilled _ => pure .new

def translateEvents (context : EngineEventTranslationContext) (markPrices : MarkPrices)
    (filled : List OrderId) : List EngineEvent → TranslateM EngineProcessResult
  | [] => pure .new
  | e :: events => do
    let head ← translateEvent context markPrices filled e
    let tail ← translateEvents context markPrices filled events
    pure (head ++ tail)

/-- `EngineEventTranslator::translate`. -/
def translate (context : EngineEventTranslationContext) (markPrices : MarkPrices)
    (coreEvents : List EngineEvent) : TranslateM EngineProcessResult :=
  translateEvents context markPrices (filledOrderIds coreEvents) coreEvents

end Events
end PerpexEngine
