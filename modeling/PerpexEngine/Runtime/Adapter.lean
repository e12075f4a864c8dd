import PerpexEngine.Core.EngineCore
import PerpexEngine.Lib.Program
import PerpexEngine.Runtime.Outputs
import Mathlib.Data.Int.Init

/-! From adapter inputs to core commands: hashed ids, range checks, order metadata, and the
sequence numbers of the markets. -/
namespace PerpexEngine

def fnvOffsetBasis : ℕ := 14695981039346656037
def fnvPrime : ℕ := 1099511628211

def stableStringId (value : Text) : ℕ :=
  let hash := value.foldl (fun hash c => (hash ^^^ c.toNat) * fnvPrime % 2 ^ 64) fnvOffsetBasis
  if hash = 0 then 1 else hash

def requireNonEmpty (value : Text) (fieldName : String) : Except Text Unit :=
  if value.isEmpty then throw (ascii fieldName ++ ascii " must not be empty") else pure ()

def toCoreSymbolId (marketId : MarketId) : Except Text SymbolId :=
  if marketId ≤ 0 ∨ 2 ^ 32 - 1 < marketId then
    throw (ascii "market_id is outside the core SymbolId range")
  else pure marketId.toNat

def toCoreUserId (userId : AdapterUserId) : Except Text UserId :=
  if userId < 0 then throw (ascii "user_id is outside the core UserId range")
  else pure userId.toNat

def toCoreOrderId (orderId : AdapterOrderId) : Except Text OrderId :=
  if orderId ≤ 0 then throw (ascii "order_id must be positive") else pure orderId.toNat

/-- `Price::from_ticks` of an integer read as an `int64_t`. -/
def Price.fromTicks (ticks : ℤ) : Price where
  ticks := ticks.bmod (2 ^ 64)
  inRange := by
    have hlow := Int.le_bmod (x := ticks) (m := 2 ^ 64) (by decide)
    have hhigh := Int.bmod_lt (x := ticks) (m := 2 ^ 64) (by decide)
    omega

def toCorePrice (price : AdapterPrice) (orderType : AdapterOrderType) : Except Text Price :=
  if price < 0 then throw (ascii "price must not be negative")
  else if orderType = .limit ∧ price = 0 then throw (ascii "limit order price must be positive")
  else pure (Price.fromTicks price)

def toCoreQuantity (quantity : AdapterQuantity) : Except Text Quantity :=
  if quantity ≤ 0 then throw (ascii "quantity must be positive")
  else pure (Quantity.ofLots quantity.toNat)

def toCoreSide : AdapterSide → Side
  | .long => .buy
  | .short => .sell

def toCoreOrderType : AdapterOrderType → OrderType
  | .limit => .limit
  | .market => .market

def toCoreTimeInForce : AdapterTimeInForce → TimeInForce
  | .gtc => .gtc
  | .ioc => .ioc
  | .fok => .fok
  | .postOnly => .po

def validateEnvelope (envelope : CommandEnvelope) : Except Text Unit := do
  requireNonEmpty envelope.requestId "request_id"
  requireNonEmpty envelope.idempotencyKey "idempotency_key"
  let _ ← toCoreUserId envelope.userId

def commandIdFromRequestId (requestId : Text) : Except Text CommandId := do
  requireNonEmpty requestId "request_id"
  pure (stableStringId requestId)

def clientOrderIdFromIdempotencyKey (idempotencyKey : Text) : Except Text ClientOrderId := do
  requireNonEmpty idempotencyKey "idempotency_key"
  pure (stableStringId idempotencyKey)

/-- The command for the core and the metadata to record. -/
def mapPlaceOrderToCore (input : PlaceOrderInput) (receivedSequence : EngineSequence) :
    Except Text (PlaceOrderCommand × OrderMetadata) := do
  validateEnvelope input.envelope
  requireNonEmpty input.reservationId "reservation_id"
  let commandId ← commandIdFromRequestId input.envelope.requestId
  let clientOrderId ← clientOrderIdFromIdempotencyKey input.envelope.idempotencyKey
  let orderId ← toCoreOrderId input.orderId
  let userId ← toCoreUserId input.envelope.userId
  let symbolId ← toCoreSymbolId input.marketId
  let price ← toCorePrice input.price input.orderType
  let quantity ← toCoreQuantity input.quantity
  pure (
    { commandId := commandId
      clientOrderId := clientOrderId
      orderId := orderId
      userId := userId
      symbolId := symbolId
      side := toCoreSide input.side
      orderType := toCoreOrderType input.orderType
      timeInForce := toCoreTimeInForce input.timeInForce
      price := price
      quantity := quantity
      receivedSequence := receivedSequence },
    { orderId := orderId
      marketId := input.marketId
      userId := input.envelope.userId
      side := input.side
      originalQuantity := input.quantity
      remainingQuantity := input.quantity
      reduceOnly := input.reduceOnly
      marginAsset := input.marginAsset
      reservedMarginAmount := input.reservedMarginAmount
      remainingReservedMargin := input.reservedMarginAmount
      leverage := input.leverage
      reservationId := input.reservationId
      placeRequestId := input.envelope.requestId
      placeIdempotencyKey := input.envelope.idempotencyKey
      placeInputId := input.inputId
      replyPartition := input.envelope.replyPartition
      coreClientOrderId := clientOrderId
      corePlaceCommandId := commandId })

def mapCancelOrderToCore (input : CancelOrderInput) (receivedSequence : EngineSequence) :
    Except Text CancelOrderCommand := do
  validateEnvelope input.envelope
  let commandId ← commandIdFromRequestId input.envelope.requestId
  let userId ← toCoreUserId input.envelope.userId
  let symbolId ← toCoreSymbolId input.marketId
  let orderId ← toCoreOrderId input.orderId
  let clientOrderId ← clientOrderIdFromIdempotencyKey input.envelope.idempotencyKey
  pure
    { commandId := commandId
      userId := userId
      symbolId := symbolId
      orderId := orderId
      clientOrderId := clientOrderId
      receivedSequence := receivedSequence }

abbrev OrderMetadataStore := Std.ExtTreeMap OrderId OrderMetadata

structure MarketSequenceGenerator where
  firstSequence : EngineSequence
  nextByMarket : Std.ExtTreeMap MarketId EngineSequence

namespace MarketSequenceGenerator

def new (firstSequence : EngineSequence) : MarketSequenceGenerator :=
  ⟨if firstSequence = 0 then 1 else firstSequence, ∅⟩

/-- The number the next event of a market gets. -/
def peek (g : MarketSequenceGenerator) (marketId : MarketId) : EngineSequence :=
  g.nextByMarket.getD marketId g.firstSequence

/-- The generator after `next(market_id)` has drawn a number. -/
def advance (g : MarketSequenceGenerator) (marketId : MarketId) : MarketSequenceGenerator :=
  { g with nextByMarket := g.nextByMarket.insert marketId (g.peek marketId + 1) }

def restore (g : MarketSequenceGenerator) (marketId : MarketId) (nextSequence : EngineSequence) :
    Except Text MarketSequenceGenerator :=
  if marketId ≤ 0 then throw (ascii "market_id must be positive")
  else if nextSequence = 0 then throw (ascii "next_sequence must be positive")
  else pure { g with nextByMarket := g.nextByMarket.insert marketId nextSequence }

end MarketSequenceGenerator
end PerpexEngine
