import PerpexEngine.Lib.FromChars
import PerpexEngine.Protocol.Json
import PerpexEngine.Runtime.Messages

/-! The parser of the input messages. A member that later code never reads is checked and dropped. -/
namespace PerpexEngine

section Fields

def requireField (object : JsonValue) (field path : String) : Except Text JsonValue :=
  match object.find (ascii field) with
  | some value => .ok value
  | none => fail (path ++ "." ++ field ++ " is required")

def requireString (object : JsonValue) (field path : String) : Except Text Text := do
  match ← requireField object field path with
  | .string text =>
    if text = [] then fail (path ++ "." ++ field ++ " must be a non-empty string") else pure text
  | _ => fail (path ++ "." ++ field ++ " must be a non-empty string")

def requirePayloadString (message : ProtocolMessage) (field : String) : Except Text Text :=
  requireString message.payload field "payload"

def optionalPayloadString (message : ProtocolMessage) (field : String) :
    Except Text (Option Text) :=
  match message.payload.find (ascii field) with
  | none => .ok none
  | some .null => .ok none
  | some (.string text) =>
    if text = [] then fail ("payload." ++ field ++ " must be a non-empty string when present")
    else .ok (some text)
  | some _ => fail ("payload." ++ field ++ " must be a non-empty string when present")

def parseIntegerText (text : Text) (path : String) : Except Text ℤ :=
  match fromCharsSigned 64 text with
  | some parsed => .ok parsed
  | none => fail (path ++ " must be an integer")

/-- A number, or a string that reads as one. -/
def requireI64 (object : JsonValue) (field path : String) : Except Text ℤ := do
  match ← requireField object field path with
  | .number lexeme => parseIntegerText lexeme (path ++ "." ++ field)
  | .string text => parseIntegerText text (path ++ "." ++ field)
  | _ => fail (path ++ "." ++ field ++ " must be an integer")

def requireI32 (object : JsonValue) (field path : String) : Except Text ℤ := do
  let value ← requireI64 object field path
  if FitsInt32 value then pure value
  else fail (path ++ "." ++ field ++ " is outside int32 range")

def requireBool (object : JsonValue) (field path : String) : Except Text Bool := do
  match ← requireField object field path with
  | .bool value => pure value
  | _ => fail (path ++ "." ++ field ++ " must be a boolean")

def requireEnvelope (payload : JsonValue) : Except Text CommandEnvelope := do
  match ← requireField payload "envelope" "payload" with
  | .object members =>
    let requestId ← requireString (.object members) "request_id" "payload.envelope"
    let idempotencyKey ← requireString (.object members) "idempotency_key" "payload.envelope"
    let userId ← requireI64 (.object members) "user_id" "payload.envelope"
    let replyPartition ← requireI32 (.object members) "reply_partition" "payload.envelope"
    pure ⟨requestId, idempotencyKey, userId, replyPartition⟩
  | _ => fail "payload.envelope must be an object"

def parseLongOrShort (value : Text) (path : String) : Except Text AdapterSide :=
  if value = ascii "LONG" then .ok .long
  else if value = ascii "SHORT" then .ok .short
  else fail (path ++ " must be LONG or SHORT")

def parsePlaceSide (value : Text) : Except Text AdapterSide := parseLongOrShort value "payload.side"

def parsePositionSide (value : Text) : Except Text AdapterSide :=
  parseLongOrShort value "payload.position_side"

def parseOrderType (value : Text) : Except Text AdapterOrderType :=
  if value = ascii "LIMIT" then .ok .limit
  else if value = ascii "MARKET" then .ok .market
  else fail "payload.order_type must be LIMIT or MARKET"

def parseTimeInForce (value : Text) : Except Text AdapterTimeInForce :=
  if value = ascii "GTC" then .ok .gtc
  else if value = ascii "IOC" then .ok .ioc
  else if value = ascii "FOK" then .ok .fok
  else if value = ascii "POST_ONLY" ∨ value = ascii "PO" then .ok .postOnly
  else fail "payload.time_in_force must be GTC, IOC, FOK, POST_ONLY, or PO"

def optionalTimeInForce (payload : JsonValue) : Except Text AdapterTimeInForce :=
  match payload.find (ascii "time_in_force") with
  | none => .ok .gtc
  | some .null => .ok .gtc
  | some (.string text) =>
    if text = [] then fail "payload.time_in_force must be a non-empty string"
    else parseTimeInForce text
  | some _ => fail "payload.time_in_force must be a non-empty string"

end Fields

section Inputs

def parsePlaceOrder (message : ProtocolMessage) : Except Text PlaceOrderInput := do
  if message.type ≠ ascii "PlaceOrder" then fail "expected PlaceOrder message"
  else
    let payload := message.payload
    let inputId ← optionalPayloadString message "input_id"
    let envelope ← requireEnvelope payload
    let orderId ← requireI64 payload "order_id" "payload"
    let reservationId ← requirePayloadString message "reservation_id"
    let marketId ← requireI64 payload "market_id" "payload"
    let _marketName ← requirePayloadString message "market_name"
    let side ← parsePlaceSide (← requirePayloadString message "side")
    let orderType ← parseOrderType (← requirePayloadString message "order_type")
    let timeInForce ← optionalTimeInForce payload
    let price ← requireI64 payload "price" "payload"
    let quantity ← requireI64 payload "quantity" "payload"
    let reduceOnly ← requireBool payload "reduce_only" "payload"
    let marginAsset ← requirePayloadString message "margin_asset"
    let reservedMarginAmount ← requireI64 payload "reserved_margin_amount" "payload"
    let leverage ← requireI32 payload "leverage" "payload"
    pure ⟨inputId, envelope, orderId, reservationId, marketId, side, orderType, timeInForce, price,
      quantity, reduceOnly, marginAsset, reservedMarginAmount, leverage⟩

def parseCancelOrder (message : ProtocolMessage) : Except Text CancelOrderInput := do
  if message.type ≠ ascii "CancelOrder" then fail "expected CancelOrder message"
  else
    let payload := message.payload
    let inputId ← optionalPayloadString message "input_id"
    let envelope ← requireEnvelope payload
    let marketId ← requireI64 payload "market_id" "payload"
    let orderId ← requireI64 payload "order_id" "payload"
    pure ⟨inputId, envelope, marketId, orderId⟩

def parseLiquidatePosition (message : ProtocolMessage) : Except Text LiquidatePositionInput := do
  if message.type ≠ ascii "LiquidatePosition" then fail "expected LiquidatePosition message"
  else
    let payload := message.payload
    let inputId ← optionalPayloadString message "input_id"
    let envelope ← requireEnvelope payload
    let liquidationId ← requirePayloadString message "liquidation_id"
    let marketId ← requireI64 payload "market_id" "payload"
    let _marketName ← requirePayloadString message "market_name"
    let liquidatedUserId ← requireI64 payload "liquidated_user_id" "payload"
    let positionSide ← parsePositionSide (← requirePayloadString message "position_side")
    let quantity ← requireI64 payload "quantity" "payload"
    let price ← requireI64 payload "price" "payload"
    let _requestSource ← optionalPayloadString message "request_source"
    pure ⟨inputId, envelope, liquidationId, marketId, liquidatedUserId, positionSide, quantity,
      price⟩

def parseMarkPriceUpdated (message : ProtocolMessage) : Except Text MarkPriceUpdatedInput := do
  if message.type ≠ ascii "MarkPriceUpdated" then fail "expected MarkPriceUpdated message"
  else
    let payload := message.payload
    let inputId ← optionalPayloadString message "input_id"
    let marketId ← requireI64 payload "market_id" "payload"
    let markPrice ← requireI64 payload "mark_price" "payload"
    let indexPrice ← requireI64 payload "index_price" "payload"
    let sourceTimestampMs ← requireI64 payload "source_timestamp_ms" "payload"
    let publishedAtMs ← requireI64 payload "published_at_ms" "payload"
    let validUntilMs ← requireI64 payload "valid_until_ms" "payload"
    let sourceSequence ← requireI64 payload "source_sequence" "payload"
    let sourceStatus ← requirePayloadString message "source_status"
    pure ⟨inputId, marketId, markPrice, indexPrice, sourceTimestampMs, publishedAtMs, validUntilMs,
      sourceSequence, sourceStatus⟩

def parseFundingRateUpdated (message : ProtocolMessage) : Except Text FundingRateUpdatedInput := do
  if message.type ≠ ascii "FundingRateUpdated" then fail "expected FundingRateUpdated message"
  else
    let payload := message.payload
    let inputId ← optionalPayloadString message "input_id"
    let marketId ← requireI64 payload "market_id" "payload"
    let fundingIntervalId ← requirePayloadString message "funding_interval_id"
    let rate ← requireI64 payload "rate" "payload"
    let rateScale ← requireI64 payload "rate_scale" "payload"
    let intervalStartMs ← requireI64 payload "interval_start_ms" "payload"
    let intervalEndMs ← requireI64 payload "interval_end_ms" "payload"
    let sourceTimestampMs ← requireI64 payload "source_timestamp_ms" "payload"
    if rateScale ≤ 0 then fail "payload.rate_scale must be greater than zero"
    else if intervalEndMs ≤ intervalStartMs then
      fail "payload.interval_end_ms must be greater than interval_start_ms"
    else pure ⟨inputId, marketId, fundingIntervalId, rate, rateScale, intervalStartMs,
      intervalEndMs, sourceTimestampMs⟩

def parseFundingSettlementTick (message : ProtocolMessage) :
    Except Text FundingSettlementTickInput := do
  if message.type ≠ ascii "FundingSettlementTick" then fail "expected FundingSettlementTick message"
  else
    let payload := message.payload
    let inputId ← optionalPayloadString message "input_id"
    let marketId ← requireI64 payload "market_id" "payload"
    let fundingIntervalId ← requirePayloadString message "funding_interval_id"
    let settleAtMs ← requireI64 payload "settle_at_ms" "payload"
    pure ⟨inputId, marketId, fundingIntervalId, settleAtMs⟩

/-- What `EngineInputParser::parse` makes of a protocol message. -/
def parseInputMessage (message : ProtocolMessage) : Except Text ParsedEngineInput :=
  if message.type = ascii "PlaceOrder" then .placeOrder <$> parsePlaceOrder message
  else if message.type = ascii "CancelOrder" then .cancelOrder <$> parseCancelOrder message
  else if message.type = ascii "LiquidatePosition" then
    .liquidatePosition <$> parseLiquidatePosition message
  else if message.type = ascii "MarkPriceUpdated" then
    .markPriceUpdated <$> parseMarkPriceUpdated message
  else if message.type = ascii "FundingRateUpdated" then
    .fundingRateUpdated <$> parseFundingRateUpdated message
  else if message.type = ascii "FundingSettlementTick" then
    .fundingSettlementTick <$> parseFundingSettlementTick message
  else .error (ascii "unsupported engine input type '" ++ message.type ++ ascii "'")

/-- `EngineInputParser::parse`. -/
def parseEngineInput (rawJson : Text) : Except Text ParsedEngineInput :=
  match parseProtocolMessage rawJson with
  | .error error => .error (ascii "failed to parse engine input: " ++ error)
  | .ok message => parseInputMessage message

end Inputs
end PerpexEngine
