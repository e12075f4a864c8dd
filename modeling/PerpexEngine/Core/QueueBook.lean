import PerpexEngine.Core.EngineCore
import PerpexEngine.Core.SideStorage

/-! The book without pointers: each side is the list of its levels, best price first, and each
level the list of its orders in arrival order. It follows the code in every run, also past a
wrapped level total, where a level can be dropped while orders still point to it. -/
namespace PerpexEngine
open OrderBook

structure LevelQueue where
  price : Price
  totalQuantity : Quantity
  orders : List OrderSnapshot
deriving DecidableEq

/-- `detached` holds the orders whose level was dropped under them. -/
structure QueueBook where
  symbolConfig : SymbolConfig
  bids : List LevelQueue
  asks : List LevelQueue
  detached : List OrderSnapshot
deriving DecidableEq

/-- Levels by price and total alone. -/
def levelTotals (levels : List LevelQueue) : List (Price × Quantity) :=
  levels.map fun l => (l.price, l.totalQuantity)

def ordersOf (levels : List LevelQueue) : List OrderSnapshot := levels.flatMap (·.orders)

/-- The front level stays while it has orders and a positive total. -/
def settleFront (l : LevelQueue) (levels : List LevelQueue) :
    List LevelQueue × List OrderSnapshot :=
  if l.orders.isEmpty || l.totalQuantity.isZero then (levels, l.orders) else (l :: levels, [])

/-- The order joins the queue of its price, at its place among the levels. -/
def insertOrder (side : Side) (o : OrderSnapshot) : List LevelQueue → List LevelQueue
  | [] => [⟨o.price, Quantity.zero.addLots o.remainingQuantity, [o]⟩]
  | l :: levels =>
    if side.rank o.price < side.rank l.price then
      ⟨o.price, Quantity.zero.addLots o.remainingQuantity, [o]⟩ :: l :: levels
    else if side.rank o.price = side.rank l.price then
      ⟨l.price, l.totalQuantity.addLots o.remainingQuantity, l.orders ++ [o]⟩ :: levels
    else l :: insertOrder side o levels

def LevelQueue.hasOrder (l : LevelQueue) (orderId : OrderId) : Bool :=
  l.orders.any fun o => o.orderId = orderId

/-- The level without one of its orders. -/
def LevelQueue.without (l : LevelQueue) (o : OrderSnapshot) : LevelQueue :=
  ⟨l.price, l.totalQuantity.decrease o.remainingQuantity,
    l.orders.filter fun x => x.orderId ≠ o.orderId⟩

def takeOrder (o : OrderSnapshot) : List LevelQueue → List LevelQueue × List OrderSnapshot
  | [] => ([], [])
  | l :: levels =>
    if l.hasOrder o.orderId then settleFront (l.without o) levels
    else
      let (rest, dropped) := takeOrder o levels
      (l :: rest, dropped)

/-- The total of the level that holds an order, zero for a detached one. -/
def totalHolding (orderId : OrderId) (levels : List LevelQueue) : Quantity :=
  match levels.find? (·.hasOrder orderId) with
  | some l => l.totalQuantity
  | none => .zero

namespace QueueBook

def new (config : SymbolConfig) : QueueBook := ⟨config, [], [], []⟩

def levels (book : QueueBook) : Side → List LevelQueue
  | .buy => book.bids
  | .sell => book.asks

def setLevels (book : QueueBook) (side : Side) (levels : List LevelQueue) : QueueBook :=
  match side with
  | .buy => { book with bids := levels }
  | .sell => { book with asks := levels }

def activeOrders (book : QueueBook) : List OrderSnapshot :=
  ordersOf book.bids ++ ordersOf book.asks ++ book.detached

def lookup (book : QueueBook) (orderId : OrderId) : Option OrderSnapshot :=
  book.activeOrders.find? fun o => o.orderId = orderId

def lookupClient (book : QueueBook) (clientOrderId : ClientOrderId) : Option OrderSnapshot :=
  book.activeOrders.find? fun o => o.clientOrderId = clientOrderId

def priceCrosses (side : Side) (levels : List LevelQueue) (incomingPrice : Price) : Bool :=
  match levels with
  | [] => false
  | l :: _ => crossesLevel side incomingPrice l.price

structure MatchState where
  book : QueueBook
  incoming : OrderSnapshot
  sequenceGenerator : SequenceGenerator

/-- The front level after a fill of its front order. -/
def afterFill (l : LevelQueue) (maker : OrderSnapshot) (queue : List OrderSnapshot)
    (fillQuantity : Quantity) : LevelQueue :=
  let maker' := maker.reduce fillQuantity
  ⟨l.price, l.totalQuantity.decrease fillQuantity,
    if maker'.isFilled then queue else maker' :: queue⟩

/-- Puts a level back at the front of its side, or drops it. -/
def putFront (book : QueueBook) (side : Side) (l : LevelQueue) (levels : List LevelQueue) :
    QueueBook :=
  let (levels, dropped) := settleFront l levels
  { book.setLevels side levels with detached := book.detached ++ dropped }

/-- One fill against the front order of the front level. -/
def matchStep (s : MatchState) : Option (List EngineEvent × MatchState) :=
  let side := s.incoming.side.opposite
  if s.incoming.isFilled then none
  else
    match s.book.levels side with
    | [] => none
    | l :: levels =>
      match l.orders with
      | [] => none
      | maker :: queue =>
        if !crossesLevel side s.incoming.price l.price then none
        else
          let fillQuantity := s.incoming.remainingQuantity.min maker.remainingQuantity
          let (events, g) := fillEvents s.sequenceGenerator s.book.symbolConfig.symbolId
            maker s.incoming fillQuantity (l.totalQuantity.decrease fillQuantity)
          some (events, ⟨s.book.putFront side (afterFill l maker queue fillQuantity) levels,
            s.incoming.reduce fillQuantity, g⟩)

def matchLoop : ℕ → MatchState → List EngineEvent × MatchState
  | 0, s => ([], s)
  | rounds + 1, s =>
    match matchStep s with
    | none => ([], s)
    | some (events, s) =>
      let (rest, s) := matchLoop rounds s
      (events ++ rest, s)

def matchIncomingOrder (s : MatchState) : List EngineEvent × MatchState :=
  matchLoop ((ordersOf (s.book.levels s.incoming.side.opposite)).length + 1) s

def restOrder (book : QueueBook) (o : OrderSnapshot) : QueueBook :=
  book.setLevels o.side (insertOrder o.side o (book.levels o.side))

def placeRejection (book : QueueBook) (command : PlaceOrderCommand) : Option RejectReason :=
  let side := command.side.opposite
  let opposite := book.levels side
  if (book.lookup command.orderId).isSome || (book.lookupClient command.clientOrderId).isSome then
    some .duplicateOrder
  else if !book.symbolConfig.tradingEnabled then some .marketClosed
  else if !validateSymbolQuantity command.quantity book.symbolConfig then some .invalidQuantity
  else if command.orderType = .limit && !validateSymbolPrice command.price book.symbolConfig then
    some .invalidPrice
  else if command.timeInForce = .po && priceCrosses side opposite command.price then
    some .invalidPrice
  else if command.timeInForce = .fok &&
      crossingLots side (matchingPriceForCommand command) command.quantity.lots 0
        (levelTotals opposite) < command.quantity.lots then some .insufficientBalanceLiquidity
  else none

def processPlace (book : QueueBook) (command : PlaceOrderCommand) (g : SequenceGenerator) :
    List EngineEvent × QueueBook × SequenceGenerator :=
  match book.placeRejection command with
  | some reason =>
    ([makeRejection g command.commandId (optionalOrderId command.orderId) command.userId
      command.symbolId reason], book, g.nextEvent)
  | none =>
    let (matchEvents, s) :=
      matchIncomingOrder ⟨book, incomingOrder command g.nextSequence, g.nextEvent⟩
    let events := acceptedEvent command g :: matchEvents
    if canRest command && !s.incoming.isFilled then
      let book := s.book.restOrder { s.incoming with price := command.price }
      let g := s.sequenceGenerator
      (events ++ [.orderBookDelta ⟨g.nextEventId, g.nextSequence, command.symbolId, command.side,
        command.price, totalHolding command.orderId (book.levels command.side)⟩], book, g.nextEvent)
    else (events, s.book, s.sequenceGenerator)

/-- The book without an order, wherever it stands. -/
def releaseOrder (book : QueueBook) (o : OrderSnapshot) : QueueBook :=
  let (levels, dropped) := takeOrder o (book.levels o.side)
  let detached := book.detached.filter fun x => x.orderId ≠ o.orderId
  { book.setLevels o.side levels with detached := detached ++ dropped }

def cancelOrder (book : QueueBook) (o : OrderSnapshot) (g : SequenceGenerator) :
    List EngineEvent × QueueBook × SequenceGenerator :=
  let total := totalAfterCancel (totalHolding o.orderId (book.levels o.side)) o.remainingQuantity
  let g' := g.nextEvent
  ([.orderCancelled ⟨g.nextEventId, g.nextSequence, o.orderId, o.remainingQuantity⟩,
    .orderBookDelta ⟨g'.nextEventId, g'.nextSequence, book.symbolConfig.symbolId, o.side, o.price,
      total⟩], book.releaseOrder o, g'.nextEvent)

def cancelTarget (book : QueueBook) (command : CancelOrderCommand) : OrderId :=
  if command.orderId = 0 then ((book.lookupClient command.clientOrderId).map (·.orderId)).getD 0
  else command.orderId

def processCancel (book : QueueBook) (command : CancelOrderCommand) (g : SequenceGenerator) :
    List EngineEvent × QueueBook × SequenceGenerator :=
  let target := book.cancelTarget command
  match (book.lookup target).filter fun o => o.userId = command.userId with
  | some o => book.cancelOrder o g
  | none => ([makeRejection g command.commandId (optionalOrderId target) command.userId
      command.symbolId .orderNotFound], book, g.nextEvent)

instance : MatchingBook QueueBook := ⟨.new, processPlace, processCancel⟩

end QueueBook
end PerpexEngine
