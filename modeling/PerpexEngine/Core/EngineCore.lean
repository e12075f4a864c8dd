import PerpexEngine.Core.OrderBook

/-! The matching core: books by symbol, command idempotency, snapshot and restore. -/
namespace PerpexEngine

structure CommandResultSummary where
  commandId : CommandId
  accepted : Bool
  orderId : Option OrderId
  rejectReason : Option RejectReason
  sequence : EngineSequence
deriving DecidableEq, Repr

/-- Also the type of its own snapshot, which copies the three tables. -/
structure IdempotencyIndex where
  processedCommandIds : Std.ExtTreeMap CommandId CommandResultSummary
  clientOrderIdToOrderId : Std.ExtTreeMap ClientOrderId OrderId
  orderIds : Std.ExtTreeSet OrderId

namespace IdempotencyIndex

def empty : IdempotencyIndex := ⟨∅, ∅, ∅⟩

def hasCommand (index : IdempotencyIndex) (commandId : CommandId) : Bool :=
  index.processedCommandIds.contains commandId

def hasOrderId (index : IdempotencyIndex) (orderId : OrderId) : Bool :=
  index.orderIds.contains orderId

def hasClientOrderId (index : IdempotencyIndex) (clientOrderId : ClientOrderId) : Bool :=
  index.clientOrderIdToOrderId.contains clientOrderId

def recordCommand (index : IdempotencyIndex) (summary : CommandResultSummary) :
    IdempotencyIndex :=
  { index with
    processedCommandIds := index.processedCommandIds.insert summary.commandId summary }

/-- `record_order_id` and `record_client_order_id`, made together on acceptance. -/
def recordOrder (index : IdempotencyIndex) (orderId : OrderId) (clientOrderId : ClientOrderId) :
    IdempotencyIndex :=
  { index with
    orderIds := index.orderIds.insert orderId
    clientOrderIdToOrderId := index.clientOrderIdToOrderId.insert clientOrderId orderId }

end IdempotencyIndex

/-- `validate_place_order`; `none` is a valid command. -/
def validatePlaceOrder (command : PlaceOrderCommand) (config : SymbolConfig)
    (index : IdempotencyIndex) : Option RejectReason :=
  if index.hasCommand command.commandId then some .duplicateCommand
  else if index.hasOrderId command.orderId || index.hasClientOrderId command.clientOrderId then
    some .duplicateOrder
  else if !config.tradingEnabled then some .marketClosed
  else if !validateSymbolQuantity command.quantity config then some .invalidQuantity
  else if command.orderType = .limit && !validateSymbolPrice command.price config then
    some .invalidPrice
  else none

/-- `validate_cancel_order` accepts everything. -/
def validateCancelOrder (_ : CancelOrderCommand) (_ : SymbolConfig) : Option RejectReason := none

def rejectedReason (events : List EngineEvent) : Option RejectReason :=
  events.findSome? fun
    | .orderRejected e => some e.reason
    | _ => none

def hasEventOrderAccepted (events : List EngineEvent) : Bool :=
  events.any fun
    | .orderAccepted _ => true
    | _ => false

def hasEventOrderCancelled (events : List EngineEvent) : Bool :=
  events.any fun
    | .orderCancelled _ => true
    | _ => false

def commandSummary (commandId : CommandId) (accepted : Bool) (orderId : Option OrderId)
    (rejectReason : Option RejectReason) (events : List EngineEvent) : CommandResultSummary :=
  ⟨commandId, accepted, orderId, rejectReason, (events.head?.map EngineEvent.sequence).getD 0⟩

structure OrderBookSnapshot where
  symbolId : SymbolId
  symbolConfig : SymbolConfig
  bidLevels : List PriceLevelSnapshot
  askLevels : List PriceLevelSnapshot
  activeOrders : List OrderSnapshot
  clientOrderIdToOrderId : Std.ExtTreeMap ClientOrderId OrderId

structure EngineSnapshot where
  symbolSnapshots : List OrderBookSnapshot
  sequenceState : SequenceGenerator
  idempotencyState : IdempotencyIndex

/-- What the core asks of the book of a symbol. -/
class MatchingBook (Book : Type) where
  new : SymbolConfig → Book
  processPlace : Book → PlaceOrderCommand → SequenceGenerator →
    List EngineEvent × Book × SequenceGenerator
  processCancel : Book → CancelOrderCommand → SequenceGenerator →
    List EngineEvent × Book × SequenceGenerator

instance : MatchingBook OrderBook := ⟨.new, OrderBook.processPlace, OrderBook.processCancel⟩

/-- The core of the source is `EngineCore OrderBook`. -/
structure EngineCore (Book : Type) where
  orderBooks : Std.ExtTreeMap SymbolId Book
  symbolConfigs : Std.ExtTreeMap SymbolId SymbolConfig
  sequenceGenerator : SequenceGenerator
  idempotencyIndex : IdempotencyIndex

namespace EngineCore

section Commands
variable {Book : Type} [MatchingBook Book]

def empty : EngineCore Book := ⟨∅, ∅, .new, .empty⟩

def getOrderBook (core : EngineCore Book) (symbolId : SymbolId) : Option Book :=
  core.orderBooks[symbolId]?

def addSymbol (core : EngineCore Book) (config : SymbolConfig) : EngineCore Book :=
  { core with
    symbolConfigs := core.symbolConfigs.insert config.symbolId config
    orderBooks := core.orderBooks.insert config.symbolId (MatchingBook.new config) }

/-- A rejection made by the core itself; `record` is false for a repeated command id. -/
def reject (core : EngineCore Book) (commandId : CommandId) (orderId : OrderId) (userId : UserId)
    (symbolId : SymbolId) (reason : RejectReason) (record : Bool) :
    List EngineEvent × EngineCore Book :=
  let g := core.sequenceGenerator
  let events := [makeRejection g commandId (optionalOrderId orderId) userId symbolId reason]
  let summary := commandSummary commandId false (optionalOrderId orderId) (some reason) events
  (events, { core with
    sequenceGenerator := g.nextEvent
    idempotencyIndex := if record then core.idempotencyIndex.recordCommand summary
      else core.idempotencyIndex })

/-- The bookkeeping after a book has handled a command. -/
def finish (core : EngineCore Book) (symbolId : SymbolId) (commandId : CommandId) (orderId : OrderId)
    (accepted : Bool) (index : IdempotencyIndex)
    (result : List EngineEvent × Book × SequenceGenerator) : List EngineEvent × EngineCore Book :=
  let (events, book, g) := result
  let summary := commandSummary commandId accepted (optionalOrderId orderId)
    (rejectedReason events) events
  (events, { core with
    orderBooks := core.orderBooks.insert symbolId book
    sequenceGenerator := g
    idempotencyIndex := index.recordCommand summary })

def processPlaceOrder (core : EngineCore Book) (place : PlaceOrderCommand) :
    List EngineEvent × EngineCore Book :=
  let reject := core.reject place.commandId place.orderId place.userId place.symbolId
  if core.idempotencyIndex.hasCommand place.commandId then reject .duplicateCommand false
  else
    match core.symbolConfigs[place.symbolId]?, core.orderBooks[place.symbolId]? with
    | some config, some book =>
      match validatePlaceOrder place config core.idempotencyIndex with
      | some reason => reject reason true
      | none =>
        let result := MatchingBook.processPlace book place core.sequenceGenerator
        let accepted := hasEventOrderAccepted result.1
        let index := if accepted
          then core.idempotencyIndex.recordOrder place.orderId place.clientOrderId
          else core.idempotencyIndex
        core.finish place.symbolId place.commandId place.orderId accepted index result
    | _, _ => reject .invalidSymbol true

def processCancelOrder (core : EngineCore Book) (cancel : CancelOrderCommand) :
    List EngineEvent × EngineCore Book :=
  let reject := core.reject cancel.commandId cancel.orderId cancel.userId cancel.symbolId
  if core.idempotencyIndex.hasCommand cancel.commandId then reject .duplicateCommand false
  else
    match core.symbolConfigs[cancel.symbolId]?, core.orderBooks[cancel.symbolId]? with
    | some config, some book =>
      match validateCancelOrder cancel config with
      | some reason => reject reason true
      | none =>
        let result := MatchingBook.processCancel book cancel core.sequenceGenerator
        core.finish cancel.symbolId cancel.commandId cancel.orderId
          (hasEventOrderCancelled result.1) core.idempotencyIndex result
    | _, _ => reject .invalidSymbol true

def process (core : EngineCore Book) : EngineCommand → List EngineEvent × EngineCore Book
  | .placeOrder place => core.processPlaceOrder place
  | .cancelOrder cancel => core.processCancelOrder cancel
  | .malformed =>
    let g := core.sequenceGenerator
    ([makeRejection g 0 none 0 0 .invalidSymbol], { core with sequenceGenerator := g.nextEvent })

/-- The events of a run of commands, one list for each, and the core at its end. -/
def run (core : EngineCore Book) : List EngineCommand → List (List EngineEvent) × EngineCore Book
  | [] => ([], core)
  | command :: commands =>
    let (events, core) := core.process command
    let (rest, core) := run core commands
    (events :: rest, core)

end Commands

/-- The walk over `nextOrder` from the head of a level, at most `steps` orders. -/
def walkOrders (orders : Heap Order) : ℕ → Option OrderPtr → List OrderSnapshot
  | 0, _ => []
  | _, none => []
  | steps + 1, some p =>
    match orders.read p with
    | none => []
    | some o => o.toOrderSnapshot :: walkOrders orders steps o.nextOrder

/-- `append_level_snapshot`; an empty level gives nothing. -/
def levelSnapshot (orders : Heap Order) (level : PriceLevel) : Option PriceLevelSnapshot :=
  if level.isEmpty then none
  else some ⟨level.price, level.totalQuantity,
    (walkOrders orders orders.next level.head).map (·.orderId)⟩

def sideSnapshots (orders : Heap Order) (sideBook : SideBook) : List PriceLevelSnapshot :=
  OrderBook.sortFromBest sideBook.side PriceLevelSnapshot.price
    ((OrderBook.storedLevels sideBook).filterMap fun p =>
      (sideBook.levels.read p).bind (levelSnapshot orders))

def bookSnapshot (symbolId : SymbolId) (book : OrderBook) : OrderBookSnapshot where
  symbolId := symbolId
  symbolConfig := book.symbolConfig
  bidLevels := sideSnapshots book.orders book.bids
  askLevels := sideSnapshots book.orders book.asks
  activeOrders := (book.orderById.toList.filterMap fun entry =>
    (book.orders.read entry.2).map (·.toOrderSnapshot)).insertionSort
      fun a b => a.orderId ≤ b.orderId
  clientOrderIdToOrderId := book.clientOrderIdToOrderId

def snapshot (core : EngineCore OrderBook) : EngineSnapshot where
  symbolSnapshots := (core.orderBooks.toList.map fun entry =>
    bookSnapshot entry.1 entry.2).insertionSort fun a b => a.symbolId ≤ b.symbolId
  sequenceState := core.sequenceGenerator
  idempotencyState := core.idempotencyIndex

def restoreBook (s : OrderBookSnapshot) : OrderBook :=
  { s.activeOrders.foldl OrderBook.restOrder (.new s.symbolConfig) with
    clientOrderIdToOrderId := s.clientOrderIdToOrderId }

/-- One round of the restore loop; `emplace` keeps the book of an earlier round. -/
def restoreSymbol (core : EngineCore OrderBook) (s : OrderBookSnapshot) : EngineCore OrderBook :=
  { core with
    symbolConfigs := core.symbolConfigs.insert s.symbolId s.symbolConfig
    orderBooks := core.orderBooks.insertIfNew s.symbolId (restoreBook s) }

/-- What `restore` makes of a snapshot whose ladders can all be built. -/
def restore (s : EngineSnapshot) : EngineCore OrderBook :=
  s.symbolSnapshots.foldl restoreSymbol ⟨∅, ∅, s.sequenceState, s.idempotencyState⟩

/-- The constructor of a ladder throws above `std::vector<std::unique_ptr<PriceLevel>>::max_size`. -/
def ladderFits (capacity : ℕ) : Bool := capacity ≤ (2 ^ 63 - 1) / 8

/-- The restore loop, and whether it got through: the config of a symbol is there before its ladders
are built. -/
def restoreSymbols (fits : ℕ → Bool) (core : EngineCore OrderBook) :
    List OrderBookSnapshot → Bool × EngineCore OrderBook
  | [] => (true, core)
  | s :: symbols =>
    if fits s.symbolConfig.ringCapacityTicks then
      restoreSymbols fits (core.restoreSymbol s) symbols
    else
      (false, { core with symbolConfigs := core.symbolConfigs.insert s.symbolId s.symbolConfig })

/-- `restore`, where some ladders may not fit: everything the core held before is dropped. -/
def restoreWithin (fits : ℕ → Bool) (s : EngineSnapshot) : Bool × EngineCore OrderBook :=
  restoreSymbols fits ⟨∅, ∅, s.sequenceState, s.idempotencyState⟩ s.symbolSnapshots

theorem restoreWithin_of_fits {fits : ℕ → Bool} {s : EngineSnapshot}
    (h : ∀ symbol ∈ s.symbolSnapshots, fits symbol.symbolConfig.ringCapacityTicks = true) :
    restoreWithin fits s = (true, restore s) := by
  unfold restoreWithin restore
  generalize (⟨∅, ∅, s.sequenceState, s.idempotencyState⟩ : EngineCore OrderBook) = core
  generalize s.symbolSnapshots = symbols at h
  induction symbols generalizing core with
  | nil => rfl
  | cons symbol symbols ih =>
    unfold restoreSymbols
    rw [if_pos (h symbol List.mem_cons_self)]
    exact ih _ fun other hother => h other (List.mem_cons_of_mem _ hother)

theorem restoreWithin_true (s : EngineSnapshot) :
    restoreWithin (fun _ => true) s = (true, restore s) := restoreWithin_of_fits fun _ _ => rfl

end EngineCore
end PerpexEngine
