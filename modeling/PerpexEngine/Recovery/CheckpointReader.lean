import PerpexEngine.Recovery.CheckpointWriter

/-! `CheckpointReader`, section by section. -/
namespace PerpexEngine
open Program

section Sections

def readFieldsAny : ReaderM (List Text) := do
  let line ← readRawLine
  pure (splitLine line)

def fieldCountError : Text := ascii "unexpected checkpoint field count"

def countFromFields (fields : List Text) (expectedTag : Text) : Except Text ℕ :=
  if fields.head? = some expectedTag then
    match fields with
    | [_, count] => parseUnsigned 64 count
    | _ => throw fieldCountError
  else throw (ascii "unexpected checkpoint section")

/-- The loop of a section: one row of this tag after the other goes into what was read before. -/
def readEntries {γ : Type} (entryTag : Text) (add : γ → List Text → Except Text γ) :
    ℕ → γ → ReaderM γ
  | 0, entries => pure entries
  | count + 1, entries => do
    let fields ← readFields entryTag
    let entries ← liftExcept (add entries fields)
    readEntries entryTag add count entries

def readSection {γ : Type} (countTag entryTag : Text) (add : γ → List Text → Except Text γ)
    (start : γ) : ReaderM γ := do
  let count ← readCount countTag
  readEntries entryTag add count start

/-- A section that older files lack, given the row that begins it or what comes in its place; with
the row after it. -/
def readOptionalSection {γ : Type} (countTag entryTag : Text) (add : γ → List Text → Except Text γ)
    (absent : γ) (fields : List Text) : ReaderM (γ × List Text) :=
  if fields.head? = some countTag then do
    let count ← liftExcept (countFromFields fields countTag)
    let entries ← readEntries entryTag add count absent
    let next ← readFieldsAny
    pure (entries, next)
  else pure (absent, fields)

/-- `emplace`, with an error for a key that is there already. -/
def emplaceNew {κ α : Type} [Ord κ] [Std.TransOrd κ] (entries : Std.ExtTreeMap κ α) (key : κ)
    (value : α) (error : String) : Except Text (Std.ExtTreeMap κ α) :=
  if entries.contains key then throw (ascii error) else pure (entries.insert key value)

def insertNew {κ : Type} [Ord κ] [Std.TransOrd κ] (entries : Std.ExtTreeSet κ) (key : κ)
    (error : String) : Except Text (Std.ExtTreeSet κ) :=
  if entries.contains key then throw (ascii error) else pure (entries.insert key)

end Sections

section Core

def parsePrice (value : Text) : Except Text Price := do
  let ticks ← parseInt64 value
  pure (.fromTicks ticks)

def parseQuantity (value : Text) : Except Text Quantity := do
  let lots ← parseUnsigned 64 value
  pure (.ofLots lots)

def symbolConfigOf : List Text → Except Text SymbolConfig
  | [_, symbolId, baseAssetId, quoteAssetId, tickSize, lotSize, minQuantity, maxQuantity, minPrice,
      maxPrice, ringCapacityTicks, thresholdPercentage, initialBaseTick, priceScale, quantityScale,
      makerFeeRate, takerFeeRate, tradingEnabled] => do
    let symbolId ← parseUnsigned 32 symbolId
    let baseAssetId ← parseUnsigned 32 baseAssetId
    let quoteAssetId ← parseUnsigned 32 quoteAssetId
    let tickSize ← parsePrice tickSize
    let lotSize ← parseQuantity lotSize
    let minQuantity ← parseQuantity minQuantity
    let maxQuantity ← parseQuantity maxQuantity
    let minPrice ← parsePrice minPrice
    let maxPrice ← parsePrice maxPrice
    let ringCapacityTicks ← parseUnsigned 64 ringCapacityTicks
    let thresholdPercentage ← parseUnsigned 64 thresholdPercentage
    let initialBaseTick ← parseInt64 initialBaseTick
    let priceScale ← parseUint8 priceScale
    let quantityScale ← parseUint8 quantityScale
    let makerFeeRate ← parseUnsigned 32 makerFeeRate
    let takerFeeRate ← parseUnsigned 32 takerFeeRate
    let tradingEnabled ← parseBool tradingEnabled
    pure ⟨symbolId, baseAssetId, quoteAssetId, tickSize, lotSize, minQuantity, maxQuantity,
      minPrice, maxPrice, ringCapacityTicks, thresholdPercentage, initialBaseTick, priceScale,
      quantityScale, makerFeeRate, takerFeeRate, tradingEnabled⟩
  | _ => throw fieldCountError

def readSymbolConfig : ReaderM SymbolConfig := do
  let fields ← readFields (ascii "symbol")
  liftExcept (symbolConfigOf fields)

def addPriceLevel (levels : List PriceLevelSnapshot) :
    List Text → Except Text (List PriceLevelSnapshot)
  | _ :: price :: totalQuantity :: orderCount :: orderIds => do
    let orderCount ← parseUnsigned 64 orderCount
    if orderIds.length ≠ orderCount then throw (ascii "price level order count mismatch")
    else do
      let price ← parsePrice price
      let totalQuantity ← parseQuantity totalQuantity
      let orderIds ← orderIds.mapM (parseUnsigned 64)
      pure (levels ++ [⟨price, totalQuantity, orderIds⟩])
  | _ => throw (ascii "price level section is incomplete")

def readPriceLevels (countTag entryTag : Text) : ReaderM (List PriceLevelSnapshot) :=
  readSection countTag entryTag addPriceLevel []

def addOrder (orders : List OrderSnapshot) : List Text → Except Text (List OrderSnapshot)
  | [_, orderId, clientOrderId, userId, symbolId, side, price, originalQuantity,
      remainingQuantity, sequenceAccepted] => do
    let orderId ← parseUnsigned 64 orderId
    let clientOrderId ← parseUnsigned 64 clientOrderId
    let userId ← parseUnsigned 64 userId
    let symbolId ← parseUnsigned 32 symbolId
    let side ← parseSide side
    let price ← parsePrice price
    let originalQuantity ← parseQuantity originalQuantity
    let remainingQuantity ← parseQuantity remainingQuantity
    let sequenceAccepted ← parseUnsigned 64 sequenceAccepted
    pure (orders ++ [⟨orderId, clientOrderId, userId, symbolId, side, price, originalQuantity,
      remainingQuantity, sequenceAccepted⟩])
  | _ => throw fieldCountError

def readOrders : ReaderM (List OrderSnapshot) :=
  readSection (ascii "active_orders") (ascii "order") addOrder []

def addClientOrder (error : String) (entries : Std.ExtTreeMap ClientOrderId OrderId) :
    List Text → Except Text (Std.ExtTreeMap ClientOrderId OrderId)
  | [_, clientOrderId, orderId] => do
    let clientOrderId ← parseUnsigned 64 clientOrderId
    let orderId ← parseUnsigned 64 orderId
    emplaceNew entries clientOrderId orderId error
  | _ => throw fieldCountError

def readClientOrderMap : ReaderM (Std.ExtTreeMap ClientOrderId OrderId) :=
  readSection (ascii "client_order_map") (ascii "client_order")
    (addClientOrder "duplicate client order id in checkpoint") ∅

def readSymbolEntries : ℕ → List OrderBookSnapshot → ReaderM (List OrderBookSnapshot)
  | 0, symbols => pure symbols
  | count + 1, symbols => do
    let symbolConfig ← readSymbolConfig
    let bidLevels ← readPriceLevels (ascii "bid_levels") (ascii "bid_level")
    let askLevels ← readPriceLevels (ascii "ask_levels") (ascii "ask_level")
    let activeOrders ← readOrders
    let clientOrderIdToOrderId ← readClientOrderMap
    readSymbolEntries count (symbols ++ [⟨symbolConfig.symbolId, symbolConfig, bidLevels, askLevels,
      activeOrders, clientOrderIdToOrderId⟩])

def readSymbols : ReaderM (List OrderBookSnapshot) := do
  let count ← readCount (ascii "symbols")
  readSymbolEntries count []

/-- A value whose presence is a field of its own. -/
def parseOptional {α : Type} (parse : Text → Except Text α) (present value : Text) :
    Except Text (Option α) := do
  let present ← parseBool present
  if present then do
    let value ← parse value
    pure (some value)
  else pure none

def addProcessedCommand (commands : Std.ExtTreeMap CommandId CommandResultSummary) :
    List Text → Except Text (Std.ExtTreeMap CommandId CommandResultSummary)
  | [_, commandId, accepted, hasOrderId, orderId, hasRejectReason, rejectReason, sequence] => do
    let commandId ← parseUnsigned 64 commandId
    let orderId ← parseOptional (parseUnsigned 64) hasOrderId orderId
    let rejectReason ← parseOptional parseRejectReason hasRejectReason rejectReason
    let accepted ← parseBool accepted
    let sequence ← parseUnsigned 64 sequence
    emplaceNew commands commandId ⟨commandId, accepted, orderId, rejectReason, sequence⟩
      "duplicate processed command id"
  | _ => throw fieldCountError

def addOrderId (orderIds : Std.ExtTreeSet OrderId) :
    List Text → Except Text (Std.ExtTreeSet OrderId)
  | [_, orderId] => do
    let orderId ← parseUnsigned 64 orderId
    insertNew orderIds orderId "duplicate idempotency order id"
  | _ => throw fieldCountError

def readIdempotencySnapshot : ReaderM IdempotencyIndex := do
  let processedCommandIds ← readSection (ascii "idempotency_processed_commands")
    (ascii "processed_command") addProcessedCommand ∅
  let clientOrderIdToOrderId ← readSection (ascii "idempotency_client_orders")
    (ascii "idempotency_client_order")
    (addClientOrder "duplicate idempotency client order id") ∅
  let orderIds ← readSection (ascii "idempotency_order_ids") (ascii "idempotency_order_id")
    addOrderId ∅
  pure ⟨processedCommandIds, clientOrderIdToOrderId, orderIds⟩

end Core
section Runtime

def addMarkPrice (markPrices : Std.ExtTreeMap MarketId MarkPriceState) :
    List Text → Except Text (Std.ExtTreeMap MarketId MarkPriceState)
  | [_, marketId, markPrice, indexPrice, sourceTimestampMs, publishedAtMs, validUntilMs,
      sourceSequence, sourceStatus] => do
    let marketId ← parseInt64 marketId
    let markPrice ← parseInt64 markPrice
    let indexPrice ← parseInt64 indexPrice
    let sourceTimestampMs ← parseInt64 sourceTimestampMs
    let publishedAtMs ← parseInt64 publishedAtMs
    let validUntilMs ← parseInt64 validUntilMs
    let sourceSequence ← parseInt64 sourceSequence
    let sourceStatus ← unescapeField sourceStatus
    emplaceNew markPrices marketId ⟨marketId, markPrice, indexPrice, sourceTimestampMs,
      publishedAtMs, validUntilMs, sourceSequence, sourceStatus⟩ "duplicate mark price market id"
  | _ => throw fieldCountError

def addFundingRate (fundingRates : Std.ExtTreeMap MarketId FundingRateState) :
    List Text → Except Text (Std.ExtTreeMap MarketId FundingRateState)
  | [_, marketId, fundingIntervalId, rate, rateScale, intervalStartMs, intervalEndMs,
      sourceTimestampMs] => do
    let marketId ← parseInt64 marketId
    let fundingIntervalId ← unescapeField fundingIntervalId
    let rate ← parseInt64 rate
    let rateScale ← parseInt64 rateScale
    let intervalStartMs ← parseInt64 intervalStartMs
    let intervalEndMs ← parseInt64 intervalEndMs
    let sourceTimestampMs ← parseInt64 sourceTimestampMs
    emplaceNew fundingRates marketId ⟨marketId, fundingIntervalId, rate, rateScale,
      intervalStartMs, intervalEndMs, sourceTimestampMs⟩ "duplicate funding rate market id"
  | _ => throw fieldCountError

def addSettledFundingInterval (settled : Std.ExtTreeSet FundingSettlementKey) :
    List Text → Except Text (Std.ExtTreeSet FundingSettlementKey)
  | [_, marketId, fundingIntervalId] => do
    let marketId ← parseInt64 marketId
    let fundingIntervalId ← unescapeField fundingIntervalId
    insertNew settled ⟨marketId, fundingIntervalId⟩ "duplicate settled funding interval"
  | _ => throw fieldCountError

def parseKey (userId marketId : Text) : Except Text PositionRiskKey := do
  let userId ← parseInt64 userId
  let marketId ← parseInt64 marketId
  pure ⟨userId, marketId⟩

def addPosition (positions : Std.ExtTreeMap PositionRiskKey IsolatedPositionState) :
    List Text → Except Text (Std.ExtTreeMap PositionRiskKey IsolatedPositionState)
  | [_, keyUserId, keyMarketId, userId, marketId, signedQuantity, averageEntryPrice, marginAsset,
      isolatedMargin, leverage, updatedAtMs] => do
    let key ← parseKey keyUserId keyMarketId
    let userId ← parseInt64 userId
    let marketId ← parseInt64 marketId
    let signedQuantity ← parseInt64 signedQuantity
    let averageEntryPrice ← parseInt64 averageEntryPrice
    let marginAsset ← unescapeField marginAsset
    let isolatedMargin ← parseInt64 isolatedMargin
    let leverage ← parseInt32 leverage
    let updatedAtMs ← parseInt64 updatedAtMs
    emplaceNew positions key ⟨userId, marketId, signedQuantity, averageEntryPrice, marginAsset,
      isolatedMargin, leverage, updatedAtMs⟩ "duplicate position key"
  | _ => throw fieldCountError

/-- A row of 17 fields, or an older one of 14, which has no equity, maintenance margin and ratio. -/
def addRiskState (riskStates : Std.ExtTreeMap PositionRiskKey StoredRiskState) :
    List Text → Except Text (Std.ExtTreeMap PositionRiskKey StoredRiskState)
  | [_, keyUserId, keyMarketId, userId, marketId, status, marginAsset, signedQuantity,
      averageEntryPrice, markPrice, isolatedMargin, unrealizedPnl, equity, maintenanceMargin,
      marginRatio, leverage, updatedAtMs] => do
    let key ← parseKey keyUserId keyMarketId
    let userId ← parseInt64 userId
    let marketId ← parseInt64 marketId
    let status ← unescapeField status
    let marginAsset ← unescapeField marginAsset
    let signedQuantity ← parseInt64 signedQuantity
    let averageEntryPrice ← parseInt64 averageEntryPrice
    let markPrice ← parseInt64 markPrice
    let isolatedMargin ← parseInt64 isolatedMargin
    let unrealizedPnl ← parseInt64 unrealizedPnl
    let equity ← parseInt64 equity
    let maintenanceMargin ← parseInt64 maintenanceMargin
    let marginRatio ← parseInt64 marginRatio
    let leverage ← parseInt32 leverage
    let updatedAtMs ← parseInt64 updatedAtMs
    emplaceNew riskStates key ⟨userId, marketId, status, marginAsset, signedQuantity,
      averageEntryPrice, markPrice, isolatedMargin, unrealizedPnl, equity, maintenanceMargin,
      marginRatio, leverage, updatedAtMs⟩ "duplicate risk state key"
  | [_, keyUserId, keyMarketId, userId, marketId, status, marginAsset, signedQuantity,
      averageEntryPrice, markPrice, isolatedMargin, unrealizedPnl, leverage, updatedAtMs] => do
    let key ← parseKey keyUserId keyMarketId
    let userId ← parseInt64 userId
    let marketId ← parseInt64 marketId
    let status ← unescapeField status
    let marginAsset ← unescapeField marginAsset
    let signedQuantity ← parseInt64 signedQuantity
    let averageEntryPrice ← parseInt64 averageEntryPrice
    let markPrice ← parseInt64 markPrice
    let isolatedMargin ← parseInt64 isolatedMargin
    let unrealizedPnl ← parseInt64 unrealizedPnl
    let leverage ← parseInt32 leverage
    let updatedAtMs ← parseInt64 updatedAtMs
    emplaceNew riskStates key ⟨userId, marketId, status, marginAsset, signedQuantity,
      averageEntryPrice, markPrice, isolatedMargin, unrealizedPnl, isolatedMargin + unrealizedPnl,
      0, 0, leverage, updatedAtMs⟩ "duplicate risk state key"
  | _ => throw fieldCountError

/-- A row of 20 fields, or an older one of 12, whose other fields get their defaults. -/
def addMetadata (store : OrderMetadataStore) : List Text → Except Text OrderMetadataStore
  | [_, orderId, marketId, userId, side, originalQuantity, remainingQuantity, reduceOnly,
      marginAsset, reservedMarginAmount, remainingReservedMargin, leverage, reservationId,
      placeRequestId, placeIdempotencyKey, hasPlaceInputId, placeInputId, replyPartition,
      coreClientOrderId, corePlaceCommandId] => do
    let orderId ← parseUnsigned 64 orderId
    let marketId ← parseInt64 marketId
    let userId ← parseInt64 userId
    let side ← parseAdapterSide side
    let originalQuantity ← parseInt64 originalQuantity
    let remainingQuantity ← parseInt64 remainingQuantity
    let reduceOnly ← parseBool reduceOnly
    let marginAsset ← unescapeField marginAsset
    let reservedMarginAmount ← parseInt64 reservedMarginAmount
    let remainingReservedMargin ← parseInt64 remainingReservedMargin
    let leverage ← parseInt32 leverage
    let reservationId ← unescapeField reservationId
    let placeRequestId ← unescapeField placeRequestId
    let placeIdempotencyKey ← unescapeField placeIdempotencyKey
    let placeInputId ← parseOptional unescapeField hasPlaceInputId placeInputId
    let replyPartition ← parseInt32 replyPartition
    let coreClientOrderId ← parseUnsigned 64 coreClientOrderId
    let corePlaceCommandId ← parseUnsigned 64 corePlaceCommandId
    emplaceNew store orderId ⟨orderId, marketId, userId, side, originalQuantity,
      remainingQuantity, reduceOnly, marginAsset, reservedMarginAmount, remainingReservedMargin,
      leverage, reservationId, placeRequestId, placeIdempotencyKey, placeInputId, replyPartition,
      coreClientOrderId, corePlaceCommandId⟩ "duplicate metadata order id"
  | [_, orderId, marketId, userId, reservationId, placeRequestId, placeIdempotencyKey,
      hasPlaceInputId, placeInputId, replyPartition, coreClientOrderId, corePlaceCommandId] => do
    let orderId ← parseUnsigned 64 orderId
    let marketId ← parseInt64 marketId
    let userId ← parseInt64 userId
    let reservationId ← unescapeField reservationId
    let placeRequestId ← unescapeField placeRequestId
    let placeIdempotencyKey ← unescapeField placeIdempotencyKey
    let placeInputId ← parseOptional unescapeField hasPlaceInputId placeInputId
    let replyPartition ← parseInt32 replyPartition
    let coreClientOrderId ← parseUnsigned 64 coreClientOrderId
    let corePlaceCommandId ← parseUnsigned 64 corePlaceCommandId
    emplaceNew store orderId ⟨orderId, marketId, userId, .long, 0, 0, false, [], 0, 0, 0,
      reservationId, placeRequestId, placeIdempotencyKey, placeInputId, replyPartition,
      coreClientOrderId, corePlaceCommandId⟩ "duplicate metadata order id"
  | _ => throw fieldCountError

def addProcessedRequest (processed : Std.ExtTreeMap Text ProcessedRuntimeRequest) :
    List Text → Except Text (Std.ExtTreeMap Text ProcessedRuntimeRequest)
  | [_, key, commandKind, topic, partition, offset, hasInputId, inputId, idempotencyKey] => do
    let key ← unescapeField key
    let commandKind ← parseRuntimeCommandKind commandKind
    let topic ← unescapeField topic
    let partition ← parseInt32 partition
    let offset ← parseInt64 offset
    let inputId ← parseOptional unescapeField hasInputId inputId
    let idempotencyKey ← unescapeField idempotencyKey
    emplaceNew processed key ⟨commandKind, topic, partition, offset, inputId, idempotencyKey⟩
      "duplicate processed request key"
  | _ => throw fieldCountError

def readProcessedRequests (sectionTag : Text) :
    ReaderM (Std.ExtTreeMap Text ProcessedRuntimeRequest) :=
  readSection sectionTag (ascii "processed_request") addProcessedRequest ∅

end Runtime

section Header

def readSchemaVersion : ReaderM ℕ := do
  let fields ← readFields (ascii "schema_version")
  match fields with
  | [_, schemaVersion] => liftExcept (parseUnsigned 32 schemaVersion)
  | _ => throw fieldCountError

def readCheckpointId : ReaderM Text := do
  let fields ← readFields (ascii "checkpoint_id")
  match fields with
  | [_, checkpointId] => liftExcept (unescapeField checkpointId)
  | _ => throw fieldCountError

def readSourcePosition : ReaderM CheckpointSourcePosition := do
  let fields ← readFields (ascii "source_position")
  match fields with
  | [_, topic, partition, nextOffset] => do
    let topic ← liftExcept (unescapeField topic)
    let partition ← liftExcept (parseInt32 partition)
    let nextOffset ← liftExcept (parseInt64 nextOffset)
    pure ⟨topic, partition, nextOffset⟩
  | _ => throw fieldCountError

def readSequenceState : ReaderM SequenceGenerator := do
  let fields ← readFields (ascii "sequence_state")
  match fields with
  | [_, nextSequence, nextTradeId, nextEventId] => do
    let nextSequence ← liftExcept (parseUnsigned 64 nextSequence)
    let nextTradeId ← liftExcept (parseUnsigned 64 nextTradeId)
    let nextEventId ← liftExcept (parseUnsigned 64 nextEventId)
    pure ⟨nextSequence, nextTradeId, nextEventId⟩
  | _ => throw fieldCountError

def readMagic : ReaderM Unit := do
  let magic ← readRawLine
  if magic ≠ checkpointMagic then throw (ascii "invalid checkpoint magic") else pure ()

def readEnd : ReaderM Unit := do
  let fields ← readFields (ascii "end")
  if fields.length ≠ 1 then throw fieldCountError else pure ()

end Header

def readCheckpoint : ReaderM StoredCheckpoint := do
  readMagic
  let schemaVersion ← readSchemaVersion
  let checkpointId ← readCheckpointId
  let sourcePosition ← readSourcePosition
  let sequenceState ← readSequenceState
  let symbolSnapshots ← readSymbols
  let idempotencyState ← readIdempotencySnapshot
  let publicSequences ← readPublicSequences
  let fields ← readFieldsAny
  let (markPrices, fields) ← readOptionalSection (ascii "mark_prices")
    (ascii "mark_price_state") addMarkPrice ∅ fields
  let (fundingRates, fields) ← readOptionalSection (ascii "funding_rates")
    (ascii "funding_rate_state") addFundingRate ∅ fields
  let (settledFundingIntervals, fields) ← readOptionalSection
    (ascii "settled_funding_intervals") (ascii "settled_funding_interval")
    addSettledFundingInterval ∅ fields
  let (positions, fields) ← readOptionalSection (ascii "positions") (ascii "position_state")
    addPosition ∅ fields
  let (riskStates, fields) ← readOptionalSection (ascii "risk_states") (ascii "risk_state")
    addRiskState ∅ fields
  let count ← liftExcept (countFromFields fields (ascii "metadata"))
  let metadataStore ← readEntries (ascii "metadata_entry") addMetadata count ∅
  let processedInputIds ← readProcessedRequests (ascii "processed_input_ids")
  let processedIdempotencyKeys ← readProcessedRequests (ascii "processed_idempotency_keys")
  readEnd
  pure ⟨schemaVersion, checkpointId, sourcePosition,
    ⟨symbolSnapshots, sequenceState, idempotencyState⟩, publicSequences, markPrices, fundingRates,
    settledFundingIntervals, positions, riskStates, metadataStore, processedInputIds,
    processedIdempotencyKeys⟩

def deserializeCheckpoint (text : Text) : Except Text StoredCheckpoint :=
  (readCheckpoint.run.run (linesOf 10 text)).1

/-- `try_deserialize_checkpoint`: whatever is thrown, nothing. -/
def tryDeserializeCheckpoint (text : Text) : Option StoredCheckpoint :=
  (deserializeCheckpoint text).toOption

end PerpexEngine
