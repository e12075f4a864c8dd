import Mathlib.Algebra.Ring.Int.Defs
import Mathlib.Algebra.Ring.Nat

/-! Identifiers, fixed-point values and the records of the matching core. Identifiers and
counters are natural numbers; prices and quantities carry the range of their machine word. -/
namespace PerpexEngine

abbrev SymbolId := ℕ
abbrev UserId := ℕ
abbrev OrderId := ℕ
abbrev ClientOrderId := ℕ
abbrev CommandId := ℕ
abbrev TradeId := ℕ
abbrev EventId := ℕ
abbrev EngineSequence := ℕ

/-- Addresses of heap-allocated orders and price levels. -/
abbrev OrderPtr := ℕ
abbrev LevelPtr := ℕ

inductive Side where
  | buy
  | sell
deriving DecidableEq, Repr, Inhabited

inductive OrderType where
  | limit
  | market
deriving DecidableEq, Repr

inductive TimeInForce where
  | gtc
  | ioc
  | fok
  | po
deriving DecidableEq, Repr

inductive RejectReason where
  | invalidSymbol
  | invalidPrice
  | invalidQuantity
  | duplicateCommand
  | duplicateOrder
  | orderNotFound
  | wouldSelfTrade
  | marketClosed
  | insufficientBalanceLiquidity
deriving DecidableEq, Repr

def Side.opposite : Side → Side
  | .buy => .sell
  | .sell => .buy

@[simp] theorem Side.opposite_opposite (s : Side) : s.opposite.opposite = s := by cases s <;> rfl

/-- Raw ticks in an `int64_t`. -/
@[ext] structure Price where
  ticks : ℤ
  inRange : -2 ^ 63 ≤ ticks ∧ ticks < 2 ^ 63
deriving DecidableEq, Repr

namespace Price

def isValid (p : Price) : Bool := 0 < p.ticks
def max : Price := ⟨2 ^ 63 - 1, by decide⟩
def min : Price := ⟨-2 ^ 63, by decide⟩
def zero : Price := ⟨0, by decide⟩

instance : Inhabited Price := ⟨zero⟩

end Price

/-- Raw lots in a `uint64_t`; sums and differences wrap. -/
@[ext] structure Quantity where
  lots : ℕ
  inRange : lots < 2 ^ 64
deriving DecidableEq, Repr

namespace Quantity

def ofLots (n : ℕ) : Quantity := ⟨n % 2 ^ 64, Nat.mod_lt _ (by decide)⟩
def zero : Quantity := ⟨0, by decide⟩
def isZero (q : Quantity) : Bool := q.lots == 0
def isValid (q : Quantity) : Bool := 0 < q.lots
def addLots (q r : Quantity) : Quantity := ofLots (q.lots + r.lots)
def subtractLots (q r : Quantity) : Quantity := ofLots (q.lots + (2 ^ 64 - r.lots))

/-- The difference, stopped at zero instead of wrapping. -/
def decrease (q r : Quantity) : Quantity :=
  if q.lots ≤ r.lots then zero else q.subtractLots r

def min (a b : Quantity) : Quantity := if a.lots < b.lots then a else b

instance : Inhabited Quantity := ⟨zero⟩

@[simp] theorem lots_zero : zero.lots = 0 := rfl

theorem lots_ofLots {n : ℕ} (h : n < 2 ^ 64) : (ofLots n).lots = n := Nat.mod_eq_of_lt h

@[simp] theorem ofLots_lots (q : Quantity) : ofLots q.lots = q := Quantity.ext (lots_ofLots q.inRange)

@[simp] theorem isZero_iff (q : Quantity) : q.isZero = true ↔ q.lots = 0 := by simp [isZero]

@[simp] theorem isZero_eq_false (q : Quantity) : q.isZero = false ↔ 0 < q.lots := by
  simp [isZero, Nat.pos_iff_ne_zero]

theorem lots_addLots (q r : Quantity) : (q.addLots r).lots = (q.lots + r.lots) % 2 ^ 64 := rfl

theorem lots_subtractLots {q r : Quantity} (h : r.lots ≤ q.lots) :
    (q.subtractLots r).lots = q.lots - r.lots := by
  have hq := q.inRange
  have hr := r.inRange
  change (q.lots + (2 ^ 64 - r.lots)) % 2 ^ 64 = q.lots - r.lots
  omega

theorem lots_decrease (q r : Quantity) : (q.decrease r).lots = q.lots - r.lots := by
  rw [decrease]
  split
  case isTrue h => rw [lots_zero, Nat.sub_eq_zero_of_le h]
  case isFalse h => exact lots_subtractLots (by omega)

@[simp] theorem decrease_zero (q : Quantity) : q.decrease zero = q := by
  ext
  rw [lots_decrease, lots_zero, Nat.sub_zero]

theorem lots_min (a b : Quantity) : (a.min b).lots = Min.min a.lots b.lots := by
  unfold min
  split <;> omega

theorem min_lots_le_left (a b : Quantity) : (a.min b).lots ≤ a.lots := by
  rw [lots_min]
  omega

theorem min_lots_le_right (a b : Quantity) : (a.min b).lots ≤ b.lots := by
  rw [lots_min]
  omega

end Quantity

structure SymbolConfig where
  symbolId : SymbolId
  baseAssetId : ℕ
  quoteAssetId : ℕ
  tickSize : Price
  lotSize : Quantity
  minQuantity : Quantity
  maxQuantity : Quantity
  minPrice : Price
  maxPrice : Price
  ringCapacityTicks : ℕ
  thresholdPercentage : ℕ
  initialBaseTick : ℤ
  priceScale : ℕ
  quantityScale : ℕ
  makerFeeRate : ℕ
  takerFeeRate : ℕ
  tradingEnabled : Bool
deriving DecidableEq, Repr

def validateSymbolPrice (price : Price) (config : SymbolConfig) : Bool :=
  price.isValid && 0 < config.tickSize.ticks && config.minPrice.ticks ≤ price.ticks &&
    price.ticks ≤ config.maxPrice.ticks && price.ticks.tmod config.tickSize.ticks = 0

def validateSymbolQuantity (quantity : Quantity) (config : SymbolConfig) : Bool :=
  quantity.isValid && 0 < config.lotSize.lots && config.minQuantity.lots ≤ quantity.lots &&
    quantity.lots ≤ config.maxQuantity.lots && quantity.lots % config.lotSize.lots = 0

structure PlaceOrderCommand where
  commandId : CommandId
  clientOrderId : ClientOrderId
  orderId : OrderId
  userId : UserId
  symbolId : SymbolId
  side : Side
  orderType : OrderType
  timeInForce : TimeInForce
  price : Price
  quantity : Quantity
  receivedSequence : EngineSequence
deriving DecidableEq, Repr

structure CancelOrderCommand where
  commandId : CommandId
  userId : UserId
  symbolId : SymbolId
  orderId : OrderId
  clientOrderId : ClientOrderId
  receivedSequence : EngineSequence
deriving DecidableEq, Repr

/-- The tagged command; `malformed` is a kind whose payload is absent. -/
inductive EngineCommand where
  | placeOrder (place : PlaceOrderCommand)
  | cancelOrder (cancel : CancelOrderCommand)
  | malformed
deriving DecidableEq, Repr

structure OrderAccepted where
  eventId : EventId
  sequence : EngineSequence
  orderId : OrderId
  clientOrderId : ClientOrderId
  userId : UserId
  symbolId : SymbolId
  side : Side
  price : Price
  quantity : Quantity
deriving DecidableEq, Repr

structure OrderRejected where
  eventId : EventId
  sequence : EngineSequence
  commandId : CommandId
  orderId : Option OrderId
  userId : UserId
  symbolId : SymbolId
  reason : RejectReason
deriving DecidableEq, Repr

structure TradeExecuted where
  eventId : EventId
  sequence : EngineSequence
  tradeId : TradeId
  symbolId : SymbolId
  makerOrderId : OrderId
  takerOrderId : OrderId
  price : Price
  quantity : Quantity
deriving DecidableEq, Repr

structure OrderPartial where
  eventId : EventId
  sequence : EngineSequence
  orderId : OrderId
  filledQuantity : Quantity
  remainingQuantity : Quantity
deriving DecidableEq, Repr

structure OrderFilled where
  eventId : EventId
  sequence : EngineSequence
  orderId : OrderId
deriving DecidableEq, Repr

structure OrderCancelled where
  eventId : EventId
  sequence : EngineSequence
  orderId : OrderId
  releasedQuantity : Quantity
deriving DecidableEq, Repr

structure OrderBookDelta where
  eventId : EventId
  sequence : EngineSequence
  symbolId : SymbolId
  side : Side
  price : Price
  totalQuantityAtPrice : Quantity
deriving DecidableEq, Repr

inductive EngineEvent where
  | orderAccepted (e : OrderAccepted)
  | orderRejected (e : OrderRejected)
  | tradeExecuted (e : TradeExecuted)
  | orderPartial (e : OrderPartial)
  | orderFilled (e : OrderFilled)
  | orderCancelled (e : OrderCancelled)
  | orderBookDelta (e : OrderBookDelta)
deriving DecidableEq, Repr

def EngineEvent.sequence : EngineEvent → EngineSequence
  | orderAccepted e => e.sequence
  | orderRejected e => e.sequence
  | tradeExecuted e => e.sequence
  | orderPartial e => e.sequence
  | orderFilled e => e.sequence
  | orderCancelled e => e.sequence
  | orderBookDelta e => e.sequence

structure OrderSnapshot where
  orderId : OrderId
  clientOrderId : ClientOrderId
  userId : UserId
  symbolId : SymbolId
  side : Side
  price : Price
  originalQuantity : Quantity
  remainingQuantity : Quantity
  sequenceAccepted : EngineSequence
deriving DecidableEq, Repr

/-- A resting or incoming order: its data and its intrusive links. -/
structure Order extends OrderSnapshot where
  previousOrder : Option OrderPtr
  nextOrder : Option OrderPtr
  priceLevel : Option LevelPtr
deriving DecidableEq, Repr

namespace OrderSnapshot

def isFilled (o : OrderSnapshot) : Bool := o.remainingQuantity.isZero

def reduce (o : OrderSnapshot) (quantity : Quantity) : OrderSnapshot :=
  { o with remainingQuantity := o.remainingQuantity.subtractLots quantity }

def filledQuantity (o : OrderSnapshot) : Quantity :=
  o.originalQuantity.subtractLots o.remainingQuantity

end OrderSnapshot

namespace Order

def reduce (o : Order) (quantity : Quantity) : Order :=
  { o with remainingQuantity := o.remainingQuantity.subtractLots quantity }

def detachLinks (o : Order) : Order :=
  { o with previousOrder := none, nextOrder := none, priceLevel := none }

def setNext (o : Order) (next : Option OrderPtr) : Order := { o with nextOrder := next }

def setPrevious (o : Order) (previous : Option OrderPtr) : Order :=
  { o with previousOrder := previous }

/-- `restore_order`: the links start out null. -/
def ofSnapshot (s : OrderSnapshot) : Order :=
  { s with previousOrder := none, nextOrder := none, priceLevel := none }

@[simp] theorem reduce_toOrderSnapshot (o : Order) (q : Quantity) :
    (o.reduce q).toOrderSnapshot = o.toOrderSnapshot.reduce q := rfl

@[simp] theorem detachLinks_toOrderSnapshot (o : Order) :
    o.detachLinks.toOrderSnapshot = o.toOrderSnapshot := rfl

@[simp] theorem ofSnapshot_toOrderSnapshot (s : OrderSnapshot) :
    (ofSnapshot s).toOrderSnapshot = s := rfl

end Order

structure PriceLevel where
  price : Price
  totalQuantity : Quantity
  head : Option OrderPtr
  tail : Option OrderPtr
  orderCount : ℕ
deriving DecidableEq, Repr

namespace PriceLevel

def new (price : Price) : PriceLevel := ⟨price, .zero, none, none, 0⟩
def isEmpty (l : PriceLevel) : Bool := l.head.isNone

def increaseTotal (l : PriceLevel) (quantity : Quantity) : PriceLevel :=
  { l with totalQuantity := l.totalQuantity.addLots quantity }

def decreaseTotal (l : PriceLevel) (quantity : Quantity) : PriceLevel :=
  { l with totalQuantity := l.totalQuantity.decrease quantity }

end PriceLevel

structure PriceLevelSnapshot where
  price : Price
  totalQuantity : Quantity
  orderIds : List OrderId
deriving DecidableEq, Repr

end PerpexEngine
