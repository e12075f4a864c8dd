import Mathlib.Tactic.MkIffOfInductiveProp
import PerpexEngine.Recovery.CheckpointReader

/-! The rows of a checkpoint, read back: what every row adds to its section. -/
namespace PerpexEngine

section Values

theorem Price.fromTicks_ticks (price : Price) : Price.fromTicks price.ticks = price := by
  apply Price.ext
  have hrange := price.inRange
  exact Int.bmod_eq_of_le (by omega) (by omega)

@[simp] theorem parsePrice_text (price : Price) : parsePrice (text price.ticks) = .ok price := by
  unfold parsePrice
  rw [parseInt64_text price.inRange]
  exact congrArg Except.ok price.fromTicks_ticks

@[simp] theorem parseQuantity_decimal (quantity : Quantity) :
    parseQuantity (decimal quantity.lots) = .ok quantity := by
  unfold parseQuantity
  rw [parseUnsigned_decimal quantity.inRange]
  exact congrArg Except.ok quantity.ofLots_lots

/-- An optional value is read back from its two fields, whatever stands for no value. -/
theorem parseOptional_field {α : Type} {parse : Text → Except Text α} (field : α → Text)
    {value : Option α} (hparse : ∀ a, value = some a → parse (field a) = .ok a) (other : Text) :
    parseOptional parse (boolField value.isSome) ((value.map field).getD other) = .ok value := by
  unfold parseOptional
  rw [parseBool_boolField]
  cases value with
  | none => rfl
  | some a =>
    change (parse (field a) >>= fun a => pure (some a)) = _
    rw [hparse a rfl]
    rfl

theorem mapM_parse {α : Type} {parse : Text → Except Text α} {field : α → Text} {values : List α}
    (hparse : ∀ a ∈ values, parse (field a) = .ok a) :
    (values.map field).mapM parse = .ok values := by
  induction values with
  | nil => rfl
  | cons a values ih =>
    rw [List.map_cons, List.mapM_cons, hparse a List.mem_cons_self,
      ih fun b hb => hparse b (List.mem_cons_of_mem _ hb)]
    rfl

end Values

section Typed

/-- The integers are values of their C++ types, where the model has them unbounded. -/
@[mk_iff]
structure SymbolConfig.Typed (config : SymbolConfig) : Prop where
  symbolId : config.symbolId < 2 ^ 32
  baseAssetId : config.baseAssetId < 2 ^ 32
  quoteAssetId : config.quoteAssetId < 2 ^ 32
  ringCapacityTicks : config.ringCapacityTicks < 2 ^ 64
  thresholdPercentage : config.thresholdPercentage < 2 ^ 64
  initialBaseTick : FitsInt64 config.initialBaseTick
  priceScale : config.priceScale < 2 ^ 8
  quantityScale : config.quantityScale < 2 ^ 8
  makerFeeRate : config.makerFeeRate < 2 ^ 32
  takerFeeRate : config.takerFeeRate < 2 ^ 32

@[mk_iff]
structure PriceLevelSnapshot.Typed (level : PriceLevelSnapshot) : Prop where
  size : level.orderIds.length < 2 ^ 64
  orderIds : ∀ orderId ∈ level.orderIds, orderId < 2 ^ 64

@[mk_iff]
structure OrderSnapshot.Typed (order : OrderSnapshot) : Prop where
  orderId : order.orderId < 2 ^ 64
  clientOrderId : order.clientOrderId < 2 ^ 64
  userId : order.userId < 2 ^ 64
  symbolId : order.symbolId < 2 ^ 32
  sequenceAccepted : order.sequenceAccepted < 2 ^ 64

@[mk_iff]
structure CommandResultSummary.Typed (summary : CommandResultSummary) : Prop where
  orderId : ∀ orderId ∈ summary.orderId, orderId < 2 ^ 64
  sequence : summary.sequence < 2 ^ 64

@[mk_iff]
structure MarkPriceState.Typed (state : MarkPriceState) : Prop where
  marketId : FitsInt64 state.marketId
  markPrice : FitsInt64 state.markPrice
  indexPrice : FitsInt64 state.indexPrice
  sourceTimestampMs : FitsInt64 state.sourceTimestampMs
  publishedAtMs : FitsInt64 state.publishedAtMs
  validUntilMs : FitsInt64 state.validUntilMs
  sourceSequence : FitsInt64 state.sourceSequence

@[mk_iff]
structure FundingRateState.Typed (state : FundingRateState) : Prop where
  marketId : FitsInt64 state.marketId
  rate : FitsInt64 state.rate
  rateScale : FitsInt64 state.rateScale
  intervalStartMs : FitsInt64 state.intervalStartMs
  intervalEndMs : FitsInt64 state.intervalEndMs
  sourceTimestampMs : FitsInt64 state.sourceTimestampMs

@[mk_iff]
structure PositionRiskKey.Typed (key : PositionRiskKey) : Prop where
  userId : FitsInt64 key.userId
  marketId : FitsInt64 key.marketId

@[mk_iff]
structure IsolatedPositionState.Typed (state : IsolatedPositionState) : Prop where
  userId : FitsInt64 state.userId
  marketId : FitsInt64 state.marketId
  signedQuantity : FitsInt64 state.signedQuantity
  averageEntryPrice : FitsInt64 state.averageEntryPrice
  isolatedMargin : FitsInt64 state.isolatedMargin
  leverage : FitsInt32 state.leverage
  updatedAtMs : FitsInt64 state.updatedAtMs

@[mk_iff]
structure StoredRiskState.Typed (state : StoredRiskState) : Prop where
  userId : FitsInt64 state.userId
  marketId : FitsInt64 state.marketId
  signedQuantity : FitsInt64 state.signedQuantity
  averageEntryPrice : FitsInt64 state.averageEntryPrice
  markPrice : FitsInt64 state.markPrice
  isolatedMargin : FitsInt64 state.isolatedMargin
  unrealizedPnl : FitsInt64 state.unrealizedPnl
  equity : FitsInt64 state.equity
  maintenanceMargin : FitsInt64 state.maintenanceMargin
  marginRatio : FitsInt64 state.marginRatio
  leverage : FitsInt32 state.leverage
  updatedAtMs : FitsInt64 state.updatedAtMs

@[mk_iff]
structure OrderMetadata.Typed (metadata : OrderMetadata) : Prop where
  orderId : metadata.orderId < 2 ^ 64
  marketId : FitsInt64 metadata.marketId
  userId : FitsInt64 metadata.userId
  originalQuantity : FitsInt64 metadata.originalQuantity
  remainingQuantity : FitsInt64 metadata.remainingQuantity
  reservedMarginAmount : FitsInt64 metadata.reservedMarginAmount
  remainingReservedMargin : FitsInt64 metadata.remainingReservedMargin
  leverage : FitsInt32 metadata.leverage
  replyPartition : FitsInt32 metadata.replyPartition
  coreClientOrderId : metadata.coreClientOrderId < 2 ^ 64
  corePlaceCommandId : metadata.corePlaceCommandId < 2 ^ 64

@[mk_iff]
structure ProcessedRuntimeRequest.Typed (processed : ProcessedRuntimeRequest) : Prop where
  partition : FitsInt32 processed.partition
  offset : FitsInt64 processed.offset

instance (config : SymbolConfig) : Decidable config.Typed := decidable_of_iff' _ (SymbolConfig.typed_iff config)

instance (level : PriceLevelSnapshot) : Decidable level.Typed := decidable_of_iff' _ (PriceLevelSnapshot.typed_iff level)

instance (order : OrderSnapshot) : Decidable order.Typed := decidable_of_iff' _ (OrderSnapshot.typed_iff order)

instance (summary : CommandResultSummary) : Decidable summary.Typed := decidable_of_iff' _ (CommandResultSummary.typed_iff summary)

instance (state : MarkPriceState) : Decidable state.Typed := decidable_of_iff' _ (MarkPriceState.typed_iff state)

instance (state : FundingRateState) : Decidable state.Typed := decidable_of_iff' _ (FundingRateState.typed_iff state)

instance (key : PositionRiskKey) : Decidable key.Typed := decidable_of_iff' _ (PositionRiskKey.typed_iff key)

instance (state : IsolatedPositionState) : Decidable state.Typed := decidable_of_iff' _ (IsolatedPositionState.typed_iff state)

instance (state : StoredRiskState) : Decidable state.Typed := decidable_of_iff' _ (StoredRiskState.typed_iff state)

instance (metadata : OrderMetadata) : Decidable metadata.Typed := decidable_of_iff' _ (OrderMetadata.typed_iff metadata)

instance (processed : ProcessedRuntimeRequest) : Decidable processed.Typed := decidable_of_iff' _ (ProcessedRuntimeRequest.typed_iff processed)

end Typed

section Rows

theorem symbolConfigOf_row {config : SymbolConfig} (h : config.Typed) :
    symbolConfigOf (symbolConfigRow config) = .ok config := by
  simp only [symbolConfigRow, symbolConfigOf, parsePrice_text, parseQuantity_decimal,
    parseBool_boolField, parseUnsigned_decimal h.symbolId, parseUnsigned_decimal h.baseAssetId,
    parseUnsigned_decimal h.quoteAssetId, parseUnsigned_decimal h.ringCapacityTicks,
    parseUnsigned_decimal h.thresholdPercentage, parseInt64_text h.initialBaseTick,
    parseUint8_decimal h.priceScale, parseUint8_decimal h.quantityScale,
    parseUnsigned_decimal h.makerFeeRate, parseUnsigned_decimal h.takerFeeRate]
  rfl

theorem addPriceLevel_row {level : PriceLevelSnapshot} (h : level.Typed) (tag : Text)
    (levels : List PriceLevelSnapshot) :
    addPriceLevel levels (priceLevelRow tag level) = .ok (levels ++ [level]) := by
  have hids : (level.orderIds.map decimal).mapM (parseUnsigned 64) = .ok level.orderIds :=
    mapM_parse fun orderId hid => parseUnsigned_decimal (h.orderIds orderId hid)
  simp only [priceLevelRow, addPriceLevel, parsePrice_text, parseQuantity_decimal,
    parseUnsigned_decimal h.size, hids, List.length_map]
  change (if level.orderIds.length ≠ level.orderIds.length then _ else _) = _
  rw [if_neg (not_not.2 rfl)]
  rfl

theorem addOrder_row {order : OrderSnapshot} (h : order.Typed) (orders : List OrderSnapshot) :
    addOrder orders (orderRow order) = .ok (orders ++ [order]) := by
  simp only [orderRow, addOrder, parsePrice_text, parseQuantity_decimal, parseSide_enumField,
    parseUnsigned_decimal h.orderId, parseUnsigned_decimal h.clientOrderId,
    parseUnsigned_decimal h.userId, parseUnsigned_decimal h.symbolId,
    parseUnsigned_decimal h.sequenceAccepted]
  rfl

theorem addClientOrder_row {entry : ClientOrderId × OrderId} (h : entry.1 < 2 ^ 64 ∧ entry.2 < 2 ^ 64)
    (error : String) (tag : Text) (entries : Std.ExtTreeMap ClientOrderId OrderId) :
    addClientOrder error entries (clientOrderRow tag entry) =
      emplaceNew entries entry.1 entry.2 error := by
  simp only [clientOrderRow, addClientOrder, parseUnsigned_decimal h.1, parseUnsigned_decimal h.2]
  rfl

theorem addProcessedCommand_row {entry : CommandId × CommandResultSummary} (h : entry.2.Typed)
    (hid : entry.1 < 2 ^ 64) (hkey : entry.2.commandId = entry.1)
    (commands : Std.ExtTreeMap CommandId CommandResultSummary) :
    addProcessedCommand commands (processedCommandRow entry) =
      emplaceNew commands entry.1 entry.2 "duplicate processed command id" := by
  have horder := parseOptional_field decimal
    (fun orderId hsome => parseUnsigned_decimal (h.orderId orderId hsome)) (ascii "0")
  have hreason := @parseOptional_field _ _ (enumField RejectReason.code) entry.2.rejectReason
    (fun reason _ => parseRejectReason_enumField reason) (ascii "0")
  simp only [processedCommandRow, addProcessedCommand, parseUnsigned_decimal hid, horder, hreason,
    parseBool_boolField, parseUnsigned_decimal h.sequence]
  rw [← hkey]
  rfl

theorem addOrderId_row {orderId : OrderId} (h : orderId < 2 ^ 64) (tag : Text)
    (orderIds : Std.ExtTreeSet OrderId) : addOrderId orderIds [tag, decimal orderId] =
      insertNew orderIds orderId "duplicate idempotency order id" := by
  simp only [addOrderId, parseUnsigned_decimal h]
  rfl

theorem addMarkPrice_row {entry : MarketId × MarkPriceState} (h : entry.2.Typed)
    (hkey : entry.2.marketId = entry.1) (markPrices : Std.ExtTreeMap MarketId MarkPriceState) :
    addMarkPrice markPrices (markPriceRow entry) =
      emplaceNew markPrices entry.1 entry.2 "duplicate mark price market id" := by
  rw [markPriceRow, ← hkey]
  simp only [addMarkPrice, parseInt64_text h.marketId, parseInt64_text h.markPrice,
    parseInt64_text h.indexPrice, parseInt64_text h.sourceTimestampMs,
    parseInt64_text h.publishedAtMs, parseInt64_text h.validUntilMs,
    parseInt64_text h.sourceSequence, unescapeField_escapeField]
  rfl

theorem addFundingRate_row {entry : MarketId × FundingRateState} (h : entry.2.Typed)
    (hkey : entry.2.marketId = entry.1)
    (fundingRates : Std.ExtTreeMap MarketId FundingRateState) :
    addFundingRate fundingRates (fundingRateRow entry) =
      emplaceNew fundingRates entry.1 entry.2 "duplicate funding rate market id" := by
  rw [fundingRateRow, ← hkey]
  simp only [addFundingRate, parseInt64_text h.marketId, parseInt64_text h.rate,
    parseInt64_text h.rateScale, parseInt64_text h.intervalStartMs,
    parseInt64_text h.intervalEndMs, parseInt64_text h.sourceTimestampMs,
    unescapeField_escapeField]
  rfl

theorem addSettledFundingInterval_row {key : FundingSettlementKey} (h : FitsInt64 key.marketId)
    (settled : Std.ExtTreeSet FundingSettlementKey) :
    addSettledFundingInterval settled (settledFundingIntervalRow key) =
      insertNew settled key "duplicate settled funding interval" := by
  simp only [settledFundingIntervalRow, addSettledFundingInterval, parseInt64_text h,
    unescapeField_escapeField]
  rfl

theorem parseKey_text {key : PositionRiskKey} (h : key.Typed) :
    parseKey (text key.userId) (text key.marketId) = .ok key := by
  simp only [parseKey, parseInt64_text h.userId, parseInt64_text h.marketId]
  rfl

theorem addPosition_row {entry : PositionRiskKey × IsolatedPositionState} (hkey : entry.1.Typed)
    (h : entry.2.Typed) (positions : Std.ExtTreeMap PositionRiskKey IsolatedPositionState) :
    addPosition positions (positionRow entry) =
      emplaceNew positions entry.1 entry.2 "duplicate position key" := by
  simp only [positionRow, addPosition, parseKey_text hkey, parseInt64_text h.userId,
    parseInt64_text h.marketId, parseInt64_text h.signedQuantity,
    parseInt64_text h.averageEntryPrice, parseInt64_text h.isolatedMargin,
    parseInt32_text h.leverage, parseInt64_text h.updatedAtMs, unescapeField_escapeField]
  rfl

theorem addRiskState_row {entry : PositionRiskKey × StoredRiskState} (hkey : entry.1.Typed)
    (h : entry.2.Typed) (riskStates : Std.ExtTreeMap PositionRiskKey StoredRiskState) :
    addRiskState riskStates (riskStateRow entry) =
      emplaceNew riskStates entry.1 entry.2 "duplicate risk state key" := by
  simp only [riskStateRow, addRiskState, parseKey_text hkey, parseInt64_text h.userId,
    parseInt64_text h.marketId, parseInt64_text h.signedQuantity,
    parseInt64_text h.averageEntryPrice, parseInt64_text h.markPrice,
    parseInt64_text h.isolatedMargin, parseInt64_text h.unrealizedPnl, parseInt64_text h.equity,
    parseInt64_text h.maintenanceMargin, parseInt64_text h.marginRatio,
    parseInt32_text h.leverage, parseInt64_text h.updatedAtMs, unescapeField_escapeField]
  rfl

theorem addMetadata_row {metadata : OrderMetadata} (h : metadata.Typed)
    (store : OrderMetadataStore) : addMetadata store (metadataRow metadata) =
      emplaceNew store metadata.orderId metadata "duplicate metadata order id" := by
  have hinput := @parseOptional_field _ _ escapeField metadata.placeInputId
    (fun inputId _ => unescapeField_escapeField inputId) []
  simp only [metadataRow, addMetadata, parseUnsigned_decimal h.orderId,
    parseInt64_text h.marketId, parseInt64_text h.userId, parseAdapterSide_enumField,
    parseInt64_text h.originalQuantity, parseInt64_text h.remainingQuantity, parseBool_boolField,
    parseInt64_text h.reservedMarginAmount, parseInt64_text h.remainingReservedMargin,
    parseInt32_text h.leverage, hinput, parseInt32_text h.replyPartition,
    parseUnsigned_decimal h.coreClientOrderId, parseUnsigned_decimal h.corePlaceCommandId,
    unescapeField_escapeField]
  rfl

theorem addProcessedRequest_row {entry : Text × ProcessedRuntimeRequest} (h : entry.2.Typed)
    (processed : Std.ExtTreeMap Text ProcessedRuntimeRequest) :
    addProcessedRequest processed (processedRequestRow entry) =
      emplaceNew processed entry.1 entry.2 "duplicate processed request key" := by
  have hinput := @parseOptional_field _ _ escapeField entry.2.inputId
    (fun inputId _ => unescapeField_escapeField inputId) []
  simp only [processedRequestRow, addProcessedRequest, parseRuntimeCommandKind_enumField,
    parseInt32_text h.partition, parseInt64_text h.offset, hinput, unescapeField_escapeField]
  rfl

end Rows
end PerpexEngine
