import PerpexEngine.Core.SideBook
import Mathlib.Data.List.Sort

/-! The order book: validation, matching, resting and cancelling. -/
namespace PerpexEngine

structure SequenceGenerator where
  nextSequence : EngineSequence
  nextTradeId : TradeId
  nextEventId : EventId
deriving DecidableEq, Repr

namespace SequenceGenerator

def new : SequenceGenerator := ⟨1, 1, 1⟩

/-- `next_event_id()` and `next_sequence()`; every event draws both. -/
def nextEvent (g : SequenceGenerator) : SequenceGenerator :=
  { g with nextEventId := g.nextEventId + 1, nextSequence := g.nextSequence + 1 }

/-- `next_trade_id()`. -/
def nextTrade (g : SequenceGenerator) : SequenceGenerator :=
  { g with nextTradeId := g.nextTradeId + 1 }

end SequenceGenerator

def optionalOrderId (orderId : OrderId) : Option OrderId :=
  if orderId = 0 then none else some orderId

def makeRejection (g : SequenceGenerator) (commandId : CommandId) (orderId : Option OrderId)
    (userId : UserId) (symbolId : SymbolId) (reason : RejectReason) : EngineEvent :=
  .orderRejected ⟨g.nextEventId, g.nextSequence, commandId, orderId, userId, symbolId, reason⟩

def matchingPriceForCommand (command : PlaceOrderCommand) : Price :=
  match command.orderType with
  | .market =>
    match command.side with
    | .buy => .max
    | .sell => .min
  | .limit => command.price

/-- The order on the stack of `process_place` before matching. -/
def incomingOrder (command : PlaceOrderCommand) (acceptedSequence : EngineSequence) :
    OrderSnapshot where
  orderId := command.orderId
  clientOrderId := command.clientOrderId
  userId := command.userId
  symbolId := command.symbolId
  side := command.side
  price := matchingPriceForCommand command
  originalQuantity := command.quantity
  remainingQuantity := command.quantity
  sequenceAccepted := acceptedSequence

def acceptedEvent (command : PlaceOrderCommand) (g : SequenceGenerator) : EngineEvent :=
  .orderAccepted ⟨g.nextEventId, g.nextSequence, command.orderId, command.clientOrderId,
    command.userId, command.symbolId, command.side, command.price, command.quantity⟩

def canRest (command : PlaceOrderCommand) : Bool :=
  command.orderType = .limit && (command.timeInForce = .gtc || command.timeInForce = .po)

/-- The `OrderFilled` or `OrderPartial` event of an order that has just been reduced. -/
def fillStatusEvent (g : SequenceGenerator) (order : OrderSnapshot) : EngineEvent :=
  if order.isFilled then .orderFilled ⟨g.nextEventId, g.nextSequence, order.orderId⟩
  else .orderPartial ⟨g.nextEventId, g.nextSequence, order.orderId, order.filledQuantity,
    order.remainingQuantity⟩

/-- The four events of one fill, for the maker and the incoming order as they stood before it. -/
def fillEvents (g : SequenceGenerator) (symbolId : SymbolId) (maker incoming : OrderSnapshot)
    (fillQuantity totalAtPrice : Quantity) : List EngineEvent × SequenceGenerator :=
  let g1 := g.nextEvent.nextTrade
  let g2 := g1.nextEvent
  let g3 := g2.nextEvent
  ([.tradeExecuted ⟨g.nextEventId, g.nextSequence, g.nextTradeId, symbolId, maker.orderId,
      incoming.orderId, maker.price, fillQuantity⟩,
    fillStatusEvent g1 (maker.reduce fillQuantity),
    fillStatusEvent g2 (incoming.reduce fillQuantity),
    .orderBookDelta ⟨g3.nextEventId, g3.nextSequence, symbolId, maker.side, maker.price,
      totalAtPrice⟩], g3.nextEvent)

structure OrderBook where
  symbolConfig : SymbolConfig
  bids : SideBook
  asks : SideBook
  orderById : Std.ExtTreeMap OrderId OrderPtr
  clientOrderIdToOrderId : Std.ExtTreeMap ClientOrderId OrderId
  lastTradePrice : Option Price
  orders : Heap Order

namespace OrderBook

def new (config : SymbolConfig) : OrderBook where
  symbolConfig := config
  bids := .new .buy config.tickSize.ticks config.initialBaseTick config.ringCapacityTicks
  asks := .new .sell config.tickSize.ticks config.initialBaseTick config.ringCapacityTicks
  orderById := ∅
  clientOrderIdToOrderId := ∅
  lastTradePrice := none
  orders := .empty

def bookForSide (book : OrderBook) : Side → SideBook
  | .buy => book.bids
  | .sell => book.asks

def setBookForSide (book : OrderBook) (side : Side) (sideBook : SideBook) : OrderBook :=
  match side with
  | .buy => { book with bids := sideBook }
  | .sell => { book with asks := sideBook }

def opposingBook (book : OrderBook) (incomingSide : Side) : SideBook :=
  book.bookForSide incomingSide.opposite

def findOrder (book : OrderBook) (orderId : OrderId) : Option OrderPtr := book.orderById[orderId]?

def hasOrder (book : OrderBook) (orderId : OrderId) : Bool := (book.findOrder orderId).isSome

def storedLevels (sideBook : SideBook) : List LevelPtr :=
  sideBook.ringPriceLadder.slots.toList.filterMap id ++
    sideBook.farPriceMap.levels.toList.map (·.2)

/-- `std::sort` from the best price of the side. -/
def sortFromBest {α : Type} (side : Side) (price : α → Price) (xs : List α) : List α :=
  match side with
  | .buy => xs.insertionSort fun a b => (price b).ticks ≤ (price a).ticks
  | .sell => xs.insertionSort fun a b => (price a).ticks ≤ (price b).ticks

def activeLevelsSorted (sideBook : SideBook) : List PriceLevel :=
  sortFromBest sideBook.side PriceLevel.price
    (((storedLevels sideBook).filterMap sideBook.levels.read).filter fun level => !level.isEmpty)

/-- The loop of `available_crossing_lots` from `total` on. -/
def crossingLots (side : Side) (incomingPrice : Price) (stopAtLots : ℕ) :
    ℕ → List (Price × Quantity) → ℕ
  | total, [] => total
  | total, (price, quantity) :: levels =>
    if !crossesLevel side incomingPrice price then total
    else if 2 ^ 64 - 1 - total < quantity.lots then 2 ^ 64 - 1
    else
      let total := total + quantity.lots
      if stopAtLots ≤ total then total
      else crossingLots side incomingPrice stopAtLots total levels

def availableCrossingLots (sideBook : SideBook) (incomingPrice : Price) (stopAtLots : ℕ) : ℕ :=
  crossingLots sideBook.side incomingPrice stopAtLots 0
    ((activeLevelsSorted sideBook).map fun level => (level.price, level.totalQuantity))

/-- Unregisters an order, takes it off its side and deletes it. -/
def releaseOrder (book : OrderBook) (side : Side) (order : OrderPtr) (o : OrderSnapshot) :
    OrderBook :=
  let (sideBook, orders) := (book.bookForSide side).removeOrder book.orders order
  { book.setBookForSide side sideBook with
    orderById := book.orderById.erase o.orderId
    clientOrderIdToOrderId := book.clientOrderIdToOrderId.erase o.clientOrderId
    orders := orders.free order }

/-- The state of the matching loop. -/
structure MatchState where
  book : OrderBook
  incoming : OrderSnapshot
  sequenceGenerator : SequenceGenerator

/-- The total of a level reached through an order's pointer, zero when there is none. -/
def totalAtLevel (sideBook : SideBook) (level : Option LevelPtr) : Quantity :=
  match level.bind sideBook.levels.read with
  | some l => l.totalQuantity
  | none => .zero

/-- One round of the matching loop; `none` is the `break` or a filled incoming order. -/
def matchStep (s : MatchState) : Option (List EngineEvent × MatchState) :=
  let side := s.incoming.side.opposite
  let opposite := s.book.bookForSide side
  if s.incoming.isFilled then none
  else
    match opposite.bestOrder with
    | none => none
    | some maker =>
      if !opposite.priceCrosses s.incoming.price then none
      else
        match s.book.orders.read maker with
        | none => none
        | some m =>
          let fillQuantity := s.incoming.remainingQuantity.min m.remainingQuantity
          let orders := s.book.orders.modify maker (·.reduce fillQuantity)
          let levels := match m.priceLevel with
            | some level => opposite.levels.modify level (·.decreaseTotal fillQuantity)
            | none => opposite.levels
          let opposite := { opposite with levels := levels }
          let totalAtPrice := totalAtLevel opposite m.priceLevel
          let book := { s.book.setBookForSide side opposite with
            orders := orders
            lastTradePrice := some m.price }
          let book :=
            if (m.reduce fillQuantity).isFilled then
              book.releaseOrder side maker m.toOrderSnapshot
            else book.setBookForSide side (opposite.updateAfterFillOrCancel m.priceLevel)
          let (events, g) := fillEvents s.sequenceGenerator s.book.symbolConfig.symbolId
            m.toOrderSnapshot s.incoming fillQuantity totalAtPrice
          some (events, ⟨book, s.incoming.reduce fillQuantity, g⟩)

/-- The matching loop; every round but the last removes a registered order or ends the loop. -/
def matchLoop : ℕ → MatchState → List EngineEvent × MatchState
  | 0, s => ([], s)
  | rounds + 1, s =>
    match matchStep s with
    | none => ([], s)
    | some (events, s) =>
      let (rest, s) := matchLoop rounds s
      (events ++ rest, s)

def matchIncomingOrder (s : MatchState) : List EngineEvent × MatchState :=
  matchLoop (s.book.orderById.size + 1) s

def insertRemainingAsResting (book : OrderBook) (order : OrderPtr) : OrderBook :=
  match book.orders.read order with
  | none => book
  | some o =>
    let (sideBook, orders) := (book.bookForSide o.side).insertRestingOrder book.orders order
    { book.setBookForSide o.side sideBook with
      orderById := book.orderById.insert o.orderId order
      clientOrderIdToOrderId := book.clientOrderIdToOrderId.insert o.clientOrderId o.orderId
      orders := orders }

/-- The order's data in a fresh cell, then on its side of the book. -/
def restOrder (book : OrderBook) (o : OrderSnapshot) : OrderBook :=
  insertRemainingAsResting { book with orders := book.orders.alloc (.ofSnapshot o) }
    book.orders.next

/-- The total shown by the delta of a freshly rested order. -/
def restedTotal (book : OrderBook) (side : Side) (order : OrderPtr) : Quantity :=
  totalAtLevel (book.bookForSide side) ((book.orders.read order).bind (·.priceLevel))

/-- The guards of `process_place`, in order. -/
def placeRejection (book : OrderBook) (command : PlaceOrderCommand) : Option RejectReason :=
  let opposite := book.opposingBook command.side
  if book.hasOrder command.orderId ||
      book.clientOrderIdToOrderId.contains command.clientOrderId then some .duplicateOrder
  else if !book.symbolConfig.tradingEnabled then some .marketClosed
  else if !validateSymbolQuantity command.quantity book.symbolConfig then some .invalidQuantity
  else if command.orderType = .limit && !validateSymbolPrice command.price book.symbolConfig then
    some .invalidPrice
  else if command.timeInForce = .po && opposite.priceCrosses command.price then some .invalidPrice
  else if command.timeInForce = .fok &&
      availableCrossingLots opposite (matchingPriceForCommand command) command.quantity.lots <
        command.quantity.lots then some .insufficientBalanceLiquidity
  else none

def processPlace (book : OrderBook) (command : PlaceOrderCommand) (g : SequenceGenerator) :
    List EngineEvent × OrderBook × SequenceGenerator :=
  match book.placeRejection command with
  | some reason =>
    ([makeRejection g command.commandId (optionalOrderId command.orderId) command.userId
      command.symbolId reason], book, g.nextEvent)
  | none =>
    let (matchEvents, s) :=
      matchIncomingOrder ⟨book, incomingOrder command g.nextSequence, g.nextEvent⟩
    let events := acceptedEvent command g :: matchEvents
    if canRest command && !s.incoming.isFilled then
      let resting := s.book.orders.next
      let book := s.book.restOrder { s.incoming with price := command.price }
      let g := s.sequenceGenerator
      (events ++ [.orderBookDelta ⟨g.nextEventId, g.nextSequence, command.symbolId, command.side,
        command.price, book.restedTotal command.side resting⟩], book, g.nextEvent)
    else (events, s.book, s.sequenceGenerator)

/-- What the level of a cancelled order holds afterwards. -/
def totalAfterCancel (total released : Quantity) : Quantity :=
  if released.lots < total.lots then total.subtractLots released else .zero

/-- The order behind an id, with its address. -/
def lookup (book : OrderBook) (orderId : OrderId) : Option (OrderPtr × Order) :=
  (book.findOrder orderId).bind fun p => (book.orders.read p).map (p, ·)

def cancelExistingOrder (book : OrderBook) (orderId : OrderId) (g : SequenceGenerator) :
    List EngineEvent × OrderBook × SequenceGenerator :=
  match book.lookup orderId with
  | none =>
    ([makeRejection g 0 (optionalOrderId orderId) 0 book.symbolConfig.symbolId .orderNotFound],
      book, g.nextEvent)
  | some (order, o) =>
    let total := totalAfterCancel (totalAtLevel (book.bookForSide o.side) o.priceLevel)
      o.remainingQuantity
    let g' := g.nextEvent
    ([.orderCancelled ⟨g.nextEventId, g.nextSequence, orderId, o.remainingQuantity⟩,
      .orderBookDelta ⟨g'.nextEventId, g'.nextSequence, book.symbolConfig.symbolId, o.side,
        o.price, total⟩], book.releaseOrder o.side order o.toOrderSnapshot, g'.nextEvent)

/-- The id to cancel: the given one, or the one behind the client id. -/
def cancelTarget (book : OrderBook) (command : CancelOrderCommand) : OrderId :=
  if command.orderId = 0 then (book.clientOrderIdToOrderId[command.clientOrderId]?).getD 0
  else command.orderId

def processCancel (book : OrderBook) (command : CancelOrderCommand) (g : SequenceGenerator) :
    List EngineEvent × OrderBook × SequenceGenerator :=
  let target := book.cancelTarget command
  if (book.lookup target).any fun entry => entry.2.userId = command.userId then
    book.cancelExistingOrder target g
  else ([makeRejection g command.commandId (optionalOrderId target) command.userId
    command.symbolId .orderNotFound], book, g.nextEvent)

end OrderBook
end PerpexEngine
