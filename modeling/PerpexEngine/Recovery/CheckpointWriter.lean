import PerpexEngine.Recovery.CheckpointFields

/-! The checkpoint file, row by row. -/
namespace PerpexEngine

/-- An isolated risk state as the file has it: any text can be its status. -/
structure StoredRiskState where
  userId : AdapterUserId
  marketId : MarketId
  status : Text
  marginAsset : Text
  signedQuantity : ℤ
  averageEntryPrice : AdapterPrice
  markPrice : AdapterPrice
  isolatedMargin : ℤ
  unrealizedPnl : ℤ
  equity : ℤ
  maintenanceMargin : ℤ
  marginRatio : ℤ
  leverage : ℤ
  updatedAtMs : ℤ
deriving DecidableEq, Repr

/-- The `EngineCheckpoint` that the file holds. -/
structure StoredCheckpoint where
  schemaVersion : ℕ
  checkpointId : Text
  sourcePosition : CheckpointSourcePosition
  coreSnapshot : EngineSnapshot
  publicSequences : Std.ExtTreeMap MarketId EngineSequence
  markPrices : Std.ExtTreeMap MarketId MarkPriceState
  fundingRates : Std.ExtTreeMap MarketId FundingRateState
  settledFundingIntervals : Std.ExtTreeSet FundingSettlementKey
  positions : Std.ExtTreeMap PositionRiskKey IsolatedPositionState
  riskStates : Std.ExtTreeMap PositionRiskKey StoredRiskState
  metadataStore : OrderMetadataStore
  processedInputIds : Std.ExtTreeMap Text ProcessedRuntimeRequest
  processedIdempotencyKeys : Std.ExtTreeMap Text ProcessedRuntimeRequest

/-- The status of a position, as `risk_status` spells it. -/
def RiskStatus.text : RiskStatus → Text
  | .flat => ascii "FLAT"
  | .liquidatable => ascii "LIQUIDATABLE"
  | .healthy => ascii "HEALTHY"

def IsolatedRiskState.stored (risk : IsolatedRiskState) : StoredRiskState where
  userId := risk.userId
  marketId := risk.marketId
  status := risk.status.text
  marginAsset := risk.marginAsset
  signedQuantity := risk.signedQuantity
  averageEntryPrice := risk.averageEntryPrice
  markPrice := risk.markPrice
  isolatedMargin := risk.isolatedMargin
  unrealizedPnl := risk.unrealizedPnl
  equity := risk.equity
  maintenanceMargin := risk.maintenanceMargin
  marginRatio := risk.marginRatio
  leverage := risk.leverage
  updatedAtMs := risk.updatedAtMs

def EngineCheckpoint.stored (checkpoint : EngineCheckpoint) : StoredCheckpoint where
  schemaVersion := checkpoint.schemaVersion
  checkpointId := checkpoint.checkpointId
  sourcePosition := checkpoint.sourcePosition
  coreSnapshot := checkpoint.coreSnapshot
  publicSequences := checkpoint.publicSequences
  markPrices := checkpoint.markPrices
  fundingRates := checkpoint.fundingRates
  settledFundingIntervals := checkpoint.settledFundingIntervals
  positions := checkpoint.positions
  riskStates := checkpoint.riskStates.map fun _ risk => risk.stored
  metadataStore := checkpoint.metadataStore
  processedInputIds := checkpoint.processedInputIds
  processedIdempotencyKeys := checkpoint.processedIdempotencyKeys

section Rows

/-- A section: its tag and count, and a row for every entry. -/
def countedRows {α : Type} (tag : Text) (row : α → List Text) (entries : List α) :
    List (List Text) :=
  [tag, decimal entries.length] :: entries.map row

def symbolConfigRow (config : SymbolConfig) : List Text :=
  [ascii "symbol", decimal config.symbolId, decimal config.baseAssetId,
    decimal config.quoteAssetId, text config.tickSize.ticks, decimal config.lotSize.lots,
    decimal config.minQuantity.lots, decimal config.maxQuantity.lots, text config.minPrice.ticks,
    text config.maxPrice.ticks, decimal config.ringCapacityTicks,
    decimal config.thresholdPercentage, text config.initialBaseTick, decimal config.priceScale,
    decimal config.quantityScale, decimal config.makerFeeRate, decimal config.takerFeeRate,
    boolField config.tradingEnabled]

def priceLevelRow (entryTag : Text) (level : PriceLevelSnapshot) : List Text :=
  entryTag :: text level.price.ticks :: decimal level.totalQuantity.lots ::
    decimal level.orderIds.length :: level.orderIds.map decimal

def priceLevelRows (countTag entryTag : Text) (levels : List PriceLevelSnapshot) :
    List (List Text) :=
  countedRows countTag (priceLevelRow entryTag) levels

def orderRow (order : OrderSnapshot) : List Text :=
  [ascii "order", decimal order.orderId, decimal order.clientOrderId, decimal order.userId,
    decimal order.symbolId, enumField Side.code order.side, text order.price.ticks,
    decimal order.originalQuantity.lots, decimal order.remainingQuantity.lots,
    decimal order.sequenceAccepted]

def sortedOrders (orders : List OrderSnapshot) : List OrderSnapshot :=
  orders.insertionSort fun left right => left.orderId ≤ right.orderId

def clientOrderRow (tag : Text) (entry : ClientOrderId × OrderId) : List Text :=
  [tag, decimal entry.1, decimal entry.2]

def orderBookRows (symbol : OrderBookSnapshot) : List (List Text) :=
  symbolConfigRow symbol.symbolConfig ::
    priceLevelRows (ascii "bid_levels") (ascii "bid_level") symbol.bidLevels ++
    priceLevelRows (ascii "ask_levels") (ascii "ask_level") symbol.askLevels ++
    countedRows (ascii "active_orders") orderRow (sortedOrders symbol.activeOrders) ++
    countedRows (ascii "client_order_map") (clientOrderRow (ascii "client_order"))
      symbol.clientOrderIdToOrderId.toList

def processedCommandRow (entry : CommandId × CommandResultSummary) : List Text :=
  [ascii "processed_command", decimal entry.1, boolField entry.2.accepted,
    boolField entry.2.orderId.isSome, (entry.2.orderId.map decimal).getD (ascii "0"),
    boolField entry.2.rejectReason.isSome,
    (entry.2.rejectReason.map (enumField RejectReason.code)).getD (ascii "0"),
    decimal entry.2.sequence]

def idempotencySnapshotRows (snapshot : IdempotencyIndex) : List (List Text) :=
  countedRows (ascii "idempotency_processed_commands") processedCommandRow
      snapshot.processedCommandIds.toList ++
    countedRows (ascii "idempotency_client_orders")
      (clientOrderRow (ascii "idempotency_client_order")) snapshot.clientOrderIdToOrderId.toList ++
    countedRows (ascii "idempotency_order_ids")
      (fun orderId => [ascii "idempotency_order_id", decimal orderId]) snapshot.orderIds.toList

def publicSequenceRow (entry : MarketId × EngineSequence) : List Text :=
  [ascii "public_sequence", text entry.1, decimal entry.2]

def markPriceRow (entry : MarketId × MarkPriceState) : List Text :=
  [ascii "mark_price_state", text entry.1, text entry.2.markPrice, text entry.2.indexPrice,
    text entry.2.sourceTimestampMs, text entry.2.publishedAtMs, text entry.2.validUntilMs,
    text entry.2.sourceSequence, escapeField entry.2.sourceStatus]

def fundingRateRow (entry : MarketId × FundingRateState) : List Text :=
  [ascii "funding_rate_state", text entry.1, escapeField entry.2.fundingIntervalId,
    text entry.2.rate, text entry.2.rateScale, text entry.2.intervalStartMs,
    text entry.2.intervalEndMs, text entry.2.sourceTimestampMs]

def settledFundingIntervalRow (key : FundingSettlementKey) : List Text :=
  [ascii "settled_funding_interval", text key.marketId, escapeField key.fundingIntervalId]

def positionRow (entry : PositionRiskKey × IsolatedPositionState) : List Text :=
  [ascii "position_state", text entry.1.userId, text entry.1.marketId, text entry.2.userId,
    text entry.2.marketId, text entry.2.signedQuantity, text entry.2.averageEntryPrice,
    escapeField entry.2.marginAsset, text entry.2.isolatedMargin, text entry.2.leverage,
    text entry.2.updatedAtMs]

def riskStateRow (entry : PositionRiskKey × StoredRiskState) : List Text :=
  [ascii "risk_state", text entry.1.userId, text entry.1.marketId, text entry.2.userId,
    text entry.2.marketId, escapeField entry.2.status, escapeField entry.2.marginAsset,
    text entry.2.signedQuantity, text entry.2.averageEntryPrice, text entry.2.markPrice,
    text entry.2.isolatedMargin, text entry.2.unrealizedPnl, text entry.2.equity,
    text entry.2.maintenanceMargin, text entry.2.marginRatio, text entry.2.leverage,
    text entry.2.updatedAtMs]

/-- The metadata of the orders that are active in some book, each once. -/
def metadataEntries (checkpoint : StoredCheckpoint) : List OrderMetadata :=
  let orders := checkpoint.coreSnapshot.symbolSnapshots.flatMap (·.activeOrders)
  ((orders.map (·.orderId)).eraseDups.filterMap fun orderId =>
    checkpoint.metadataStore[orderId]?).insertionSort fun left right => left.orderId ≤ right.orderId

def metadataRow (metadata : OrderMetadata) : List Text :=
  [ascii "metadata_entry", decimal metadata.orderId, text metadata.marketId,
    text metadata.userId, enumField AdapterSide.code metadata.side, text metadata.originalQuantity,
    text metadata.remainingQuantity, boolField metadata.reduceOnly,
    escapeField metadata.marginAsset, text metadata.reservedMarginAmount,
    text metadata.remainingReservedMargin, text metadata.leverage,
    escapeField metadata.reservationId, escapeField metadata.placeRequestId,
    escapeField metadata.placeIdempotencyKey, boolField metadata.placeInputId.isSome,
    (metadata.placeInputId.map escapeField).getD [], text metadata.replyPartition,
    decimal metadata.coreClientOrderId, decimal metadata.corePlaceCommandId]

def processedRequestRow (entry : Text × ProcessedRuntimeRequest) : List Text :=
  [ascii "processed_request", escapeField entry.1,
    enumField RuntimeCommandKind.code entry.2.commandKind, escapeField entry.2.topic,
    text entry.2.partition, text entry.2.offset, boolField entry.2.inputId.isSome,
    (entry.2.inputId.map escapeField).getD [], escapeField entry.2.idempotencyKey]

def headerRows (checkpoint : StoredCheckpoint) : List (List Text) :=
  [[ascii "schema_version", decimal checkpoint.schemaVersion],
    [ascii "checkpoint_id", escapeField checkpoint.checkpointId],
    [ascii "source_position", escapeField checkpoint.sourcePosition.topic,
      text checkpoint.sourcePosition.partition, text checkpoint.sourcePosition.nextOffset],
    [ascii "sequence_state", decimal checkpoint.coreSnapshot.sequenceState.nextSequence,
      decimal checkpoint.coreSnapshot.sequenceState.nextTradeId,
      decimal checkpoint.coreSnapshot.sequenceState.nextEventId]]

def sortedSymbolSnapshots (snapshot : EngineSnapshot) : List OrderBookSnapshot :=
  snapshot.symbolSnapshots.insertionSort fun left right => left.symbolId ≤ right.symbolId

def symbolRows (symbols : List OrderBookSnapshot) : List (List Text) :=
  [ascii "symbols", decimal symbols.length] :: symbols.flatMap orderBookRows

/-- Everything between the magic line and the last one. -/
def checkpointRows (checkpoint : StoredCheckpoint) : List (List Text) :=
  headerRows checkpoint ++
    symbolRows (sortedSymbolSnapshots checkpoint.coreSnapshot) ++
    idempotencySnapshotRows checkpoint.coreSnapshot.idempotencyState ++
    countedRows (ascii "public_sequences") publicSequenceRow checkpoint.publicSequences.toList ++
    countedRows (ascii "mark_prices") markPriceRow checkpoint.markPrices.toList ++
    countedRows (ascii "funding_rates") fundingRateRow checkpoint.fundingRates.toList ++
    countedRows (ascii "settled_funding_intervals") settledFundingIntervalRow
      checkpoint.settledFundingIntervals.toList ++
    countedRows (ascii "positions") positionRow checkpoint.positions.toList ++
    countedRows (ascii "risk_states") riskStateRow checkpoint.riskStates.toList ++
    countedRows (ascii "metadata") metadataRow (metadataEntries checkpoint) ++
    countedRows (ascii "processed_input_ids") processedRequestRow
      checkpoint.processedInputIds.toList ++
    countedRows (ascii "processed_idempotency_keys") processedRequestRow
      checkpoint.processedIdempotencyKeys.toList

def checkpointMagic : Text := ascii "cex.engine.checkpoint.file.v1"

def checkpointLines (checkpoint : StoredCheckpoint) : List Text :=
  checkpointMagic :: (checkpointRows checkpoint).map joinFields ++ [ascii "end"]

/-- `write_checkpoint`. -/
def writeCheckpoint (checkpoint : StoredCheckpoint) : Text :=
  joinLines 10 (checkpointLines checkpoint)

/-- `serialize_checkpoint`. -/
def serializeCheckpoint (checkpoint : EngineCheckpoint) : Text :=
  writeCheckpoint checkpoint.stored

/-- Every entry of a section is a row, and its head is one. -/
theorem isRow_countedRows {α : Type} {tag : Text} {row : α → List Text} (htag : IsTag tag)
    (hrow : ∀ a, IsRow (row a)) (entries : List α) : ∀ r ∈ countedRows tag row entries, IsRow r := by
  intro r hr
  rcases List.mem_cons.1 hr with rfl | hr
  · exact ⟨tag, _, rfl, htag, by simp⟩
  · obtain ⟨a, -, rfl⟩ := List.mem_map.1 hr
    exact hrow a

theorem isPlain_getD {α : Type} {f : α → Text} (hf : ∀ a, IsPlain (f a)) {other : Text}
    (hother : IsPlain other) (value : Option α) : IsPlain ((value.map f).getD other) := by
  cases value with
  | none => exact hother
  | some a => exact hf a

theorem isRow_clientOrderRow {tag : Text} (htag : IsTag tag) (entry : ClientOrderId × OrderId) :
    IsRow (clientOrderRow tag entry) :=
  ⟨tag, _, rfl, htag, by simp⟩

theorem isRow_priceLevelRow {tag : Text} (htag : IsTag tag) (level : PriceLevelSnapshot) :
    IsRow (priceLevelRow tag level) :=
  ⟨tag, _, rfl, htag, by simp⟩

theorem isRow_orderBookRows (symbol : OrderBookSnapshot) :
    ∀ r ∈ orderBookRows symbol, IsRow r := by
  intro r hr
  simp only [orderBookRows, List.mem_append, List.mem_cons] at hr
  rcases hr with (((rfl | hr) | hr) | hr) | hr
  · exact ⟨_, _, rfl, by decide, by simp⟩
  · exact isRow_countedRows (by decide) (isRow_priceLevelRow (by decide)) _ r hr
  · exact isRow_countedRows (by decide) (isRow_priceLevelRow (by decide)) _ r hr
  · exact isRow_countedRows (by decide) (fun order => ⟨_, _, rfl, by decide, by simp⟩) _ r hr
  · exact isRow_countedRows (by decide) (isRow_clientOrderRow (by decide)) _ r hr

theorem isRow_processedRequestRow (entry : Text × ProcessedRuntimeRequest) :
    IsRow (processedRequestRow entry) :=
  ⟨_, _, rfl, by decide, by
    simp [isPlain_getD isPlain_escapeField isPlain_nil]⟩

theorem isRow_metadataRow (metadata : OrderMetadata) : IsRow (metadataRow metadata) :=
  ⟨_, _, rfl, by decide, by
    simp [isPlain_getD isPlain_escapeField isPlain_nil]⟩

theorem isRow_headerRows (checkpoint : StoredCheckpoint) :
    ∀ r ∈ headerRows checkpoint, IsRow r := by
  intro r hr
  simp only [headerRows, List.mem_cons, List.not_mem_nil, or_false] at hr
  rcases hr with rfl | rfl | rfl | rfl <;> exact ⟨_, _, rfl, by decide, by simp⟩

theorem isRow_symbolRows (symbols : List OrderBookSnapshot) :
    ∀ r ∈ symbolRows symbols, IsRow r := by
  intro r hr
  rcases List.mem_cons.1 hr with rfl | hr
  · exact ⟨_, _, rfl, by decide, by simp⟩
  · obtain ⟨symbol, -, hr⟩ := List.mem_flatMap.1 hr
    exact isRow_orderBookRows symbol r hr

theorem isRow_processedCommandRow (entry : CommandId × CommandResultSummary) :
    IsRow (processedCommandRow entry) := by
  have hplain : IsPlain (ascii "0") := by decide
  refine ⟨_, _, rfl, by decide, ?_⟩
  simp [isPlain_getD isPlain_decimal hplain, isPlain_getD (isPlain_enumField _) hplain]

theorem isRow_idempotencySnapshotRows (snapshot : IdempotencyIndex) :
    ∀ r ∈ idempotencySnapshotRows snapshot, IsRow r := by
  intro r hr
  simp only [idempotencySnapshotRows, List.mem_append] at hr
  rcases hr with (hr | hr) | hr
  · exact isRow_countedRows (by decide) isRow_processedCommandRow _ r hr
  · exact isRow_countedRows (by decide) (isRow_clientOrderRow (by decide)) _ r hr
  · exact isRow_countedRows (by decide) (fun orderId => ⟨_, _, rfl, by decide, by simp⟩) _ r hr

theorem isRow_checkpointRows (checkpoint : StoredCheckpoint) :
    ∀ r ∈ checkpointRows checkpoint, IsRow r := by
  intro r hr
  simp only [checkpointRows, List.mem_append] at hr
  rcases hr with (((((((((((hr | hr) | hr) | hr) | hr) | hr) | hr) | hr) | hr) | hr) | hr) | hr)
  · exact isRow_headerRows _ r hr
  · exact isRow_symbolRows _ r hr
  · exact isRow_idempotencySnapshotRows _ r hr
  · exact isRow_countedRows (by decide) (fun entry => ⟨_, _, rfl, by decide, by simp⟩) _ r hr
  · exact isRow_countedRows (by decide) (fun entry => ⟨_, _, rfl, by decide, by simp⟩) _ r hr
  · exact isRow_countedRows (by decide) (fun entry => ⟨_, _, rfl, by decide, by simp⟩) _ r hr
  · exact isRow_countedRows (by decide) (fun entry => ⟨_, _, rfl, by decide, by simp⟩) _ r hr
  · exact isRow_countedRows (by decide) (fun entry => ⟨_, _, rfl, by decide, by simp⟩) _ r hr
  · exact isRow_countedRows (by decide) (fun entry => ⟨_, _, rfl, by decide, by simp⟩) _ r hr
  · exact isRow_countedRows (by decide) isRow_metadataRow _ r hr
  · exact isRow_countedRows (by decide) isRow_processedRequestRow _ r hr
  · exact isRow_countedRows (by decide) isRow_processedRequestRow _ r hr

/-- No line of a checkpoint holds the end of a line. -/
theorem not_mem_checkpointLines (checkpoint : StoredCheckpoint) {b : UInt8} (hb : b = 10 ∨ b = 13) :
    ∀ line ∈ checkpointLines checkpoint, b ∉ line := by
  intro line hline
  rcases List.mem_append.1 hline with hline | hline
  · rcases List.mem_cons.1 hline with rfl | hline
    · rcases hb with rfl | rfl <;> decide
    · obtain ⟨r, hr, rfl⟩ := List.mem_map.1 hline
      exact (isRow_checkpointRows checkpoint r hr).not_mem hb
  · rw [List.mem_singleton.1 hline]
    rcases hb with rfl | rfl <;> decide

end Rows
end PerpexEngine
