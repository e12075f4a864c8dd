import PerpexEngine.Core.EngineCore
import PerpexEngine.Core.SideStorage

/-! What a book is for: each side is one list of resting orders, best price first and in order of
acceptance within a price, and an incoming order is matched by walking the other side's list. -/
namespace PerpexEngine

/-- The worst price an order accepts; a market order accepts every price. -/
def limitOf (command : PlaceOrderCommand) : Option Price :=
  match command.orderType with
  | .market => none
  | .limit => some command.price

/-- The resting price is as good as the limit, for an order that takes from `restingSide`. -/
def crosses (restingSide : Side) (limit : Option Price) (restingPrice : Price) : Bool :=
  match limit with
  | none => true
  | some limit => crossesLevel restingSide limit restingPrice

/-- What rests at one price. -/
def restingTotal (price : Price) (orders : List OrderSnapshot) : ℕ :=
  ((orders.filter (·.price = price)).map (·.remainingQuantity.lots)).sum

/-- What a walk can take. -/
def crossingTotal (side : Side) (limit : Option Price) (orders : List OrderSnapshot) : ℕ :=
  ((orders.takeWhile (crosses side limit ·.price)).map (·.remainingQuantity.lots)).sum

/-- The order takes its place behind everything of its price or better. -/
def insertByPriceTime (side : Side) (o : OrderSnapshot) :
    List OrderSnapshot → List OrderSnapshot
  | [] => [o]
  | r :: rs =>
    if side.rank o.price < side.rank r.price then o :: r :: rs else r :: insertByPriceTime side o rs

/-- The outcome of a walk. -/
structure Walk where
  events : List EngineEvent
  resting : List OrderSnapshot
  incoming : OrderSnapshot
  sequenceGenerator : SequenceGenerator

/-- The front order is filled against the incoming one, at its own price and for the smaller of
the two remainders, until the incoming order is filled or the front order does not cross. -/
def walk (symbolId : SymbolId) (side : Side) (limit : Option Price) :
    List OrderSnapshot → OrderSnapshot → SequenceGenerator → Walk
  | [], incoming, g => ⟨[], [], incoming, g⟩
  | maker :: rest, incoming, g =>
    if incoming.isFilled || !crosses side limit maker.price then ⟨[], maker :: rest, incoming, g⟩
    else
      let fillQuantity := incoming.remainingQuantity.min maker.remainingQuantity
      let maker' := maker.reduce fillQuantity
      let total := restingTotal maker.price (maker' :: rest)
      let (events, g) := fillEvents g symbolId maker incoming fillQuantity (.ofLots total)
      let incoming := incoming.reduce fillQuantity
      if maker'.isFilled then
        let next := walk symbolId side limit rest incoming g
        { next with events := events ++ next.events }
      else ⟨events, maker' :: rest, incoming, g⟩

structure PriceTimeBook where
  symbolConfig : SymbolConfig
  bids : List OrderSnapshot
  asks : List OrderSnapshot

namespace PriceTimeBook

def new (config : SymbolConfig) : PriceTimeBook := ⟨config, [], []⟩

def resting (book : PriceTimeBook) : Side → List OrderSnapshot
  | .buy => book.bids
  | .sell => book.asks

def setResting (book : PriceTimeBook) (side : Side) (orders : List OrderSnapshot) :
    PriceTimeBook :=
  match side with
  | .buy => { book with bids := orders }
  | .sell => { book with asks := orders }

def lookup (book : PriceTimeBook) (orderId : OrderId) : Option OrderSnapshot :=
  (book.bids ++ book.asks).find? fun o => o.orderId = orderId

def lookupClient (book : PriceTimeBook) (clientOrderId : ClientOrderId) : Option OrderSnapshot :=
  (book.bids ++ book.asks).find? fun o => o.clientOrderId = clientOrderId

def placeRejection (book : PriceTimeBook) (command : PlaceOrderCommand) : Option RejectReason :=
  let side := command.side.opposite
  let opposite := book.resting side
  if (book.lookup command.orderId).isSome || (book.lookupClient command.clientOrderId).isSome then
    some .duplicateOrder
  else if !book.symbolConfig.tradingEnabled then some .marketClosed
  else if !validateSymbolQuantity command.quantity book.symbolConfig then some .invalidQuantity
  else if command.orderType = .limit && !validateSymbolPrice command.price book.symbolConfig then
    some .invalidPrice
  else if command.timeInForce = .po && (opposite.head?.any fun o =>
      crosses side (some command.price) o.price) then some .invalidPrice
  else if command.timeInForce = .fok &&
      crossingTotal side (limitOf command) opposite < command.quantity.lots then
    some .insufficientBalanceLiquidity
  else none

def processPlace (book : PriceTimeBook) (command : PlaceOrderCommand) (g : SequenceGenerator) :
    List EngineEvent × PriceTimeBook × SequenceGenerator :=
  let side := command.side.opposite
  match book.placeRejection command with
  | some reason =>
    ([makeRejection g command.commandId (optionalOrderId command.orderId) command.userId
      command.symbolId reason], book, g.nextEvent)
  | none =>
    let w := walk book.symbolConfig.symbolId side (limitOf command) (book.resting side)
      (incomingOrder command g.nextSequence) g.nextEvent
    let events := acceptedEvent command g :: w.events
    let book := book.setResting side w.resting
    let g := w.sequenceGenerator
    if canRest command && !w.incoming.isFilled then
      let resting := insertByPriceTime command.side { w.incoming with price := command.price }
        (book.resting command.side)
      (events ++ [.orderBookDelta ⟨g.nextEventId, g.nextSequence, command.symbolId, command.side,
        command.price, .ofLots (restingTotal command.price resting)⟩],
        book.setResting command.side resting, g.nextEvent)
    else (events, book, g)

def cancelOrder (book : PriceTimeBook) (o : OrderSnapshot) (g : SequenceGenerator) :
    List EngineEvent × PriceTimeBook × SequenceGenerator :=
  let resting := (book.resting o.side).filter fun r => r.orderId ≠ o.orderId
  let g' := g.nextEvent
  ([.orderCancelled ⟨g.nextEventId, g.nextSequence, o.orderId, o.remainingQuantity⟩,
    .orderBookDelta ⟨g'.nextEventId, g'.nextSequence, book.symbolConfig.symbolId, o.side, o.price,
      .ofLots (restingTotal o.price resting)⟩], book.setResting o.side resting, g'.nextEvent)

def cancelTarget (book : PriceTimeBook) (command : CancelOrderCommand) : OrderId :=
  if command.orderId = 0 then ((book.lookupClient command.clientOrderId).map (·.orderId)).getD 0
  else command.orderId

def processCancel (book : PriceTimeBook) (command : CancelOrderCommand) (g : SequenceGenerator) :
    List EngineEvent × PriceTimeBook × SequenceGenerator :=
  let target := book.cancelTarget command
  match (book.lookup target).filter fun o => o.userId = command.userId with
  | some o => book.cancelOrder o g
  | none => ([makeRejection g command.commandId (optionalOrderId target) command.userId
      command.symbolId .orderNotFound], book, g.nextEvent)

instance : MatchingBook PriceTimeBook := ⟨.new, processPlace, processCancel⟩

/-- No price holds more than a 64-bit total can say. -/
def Fits (book : PriceTimeBook) : Prop :=
  ∀ side price, restingTotal price (book.resting side) < 2 ^ 64

end PriceTimeBook
end PerpexEngine
