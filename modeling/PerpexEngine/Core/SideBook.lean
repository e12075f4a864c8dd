import PerpexEngine.Core.RingPriceLadder

/-! One side of a book: levels in the ring or the far map, and a pointer to the best level.
The orders live in the heap of the book, which every operation threads through. -/
namespace PerpexEngine

/-- The order's side of `PriceLevel::push_back`: its links, and the link of the old tail. -/
def linkBack (orders : Heap Order) (level : LevelPtr) (tail : Option OrderPtr)
    (order : OrderPtr) : Heap Order :=
  let orders := orders.modify order fun o =>
    { o with nextOrder := none, previousOrder := tail, priceLevel := some level }
  match tail with
  | some tail => orders.modify tail (·.setNext (some order))
  | none => orders

/-- The level's side of `PriceLevel::push_back`. -/
def PriceLevel.pushBack (level : PriceLevel) (order : OrderPtr) (remaining : Quantity) :
    PriceLevel :=
  PriceLevel.increaseTotal { level with
    head := if level.tail.isSome then level.head else some order
    tail := some order
    orderCount := level.orderCount + 1 } remaining

/-- The order's side of `remove_order`: its neighbours are joined, its own links cleared. -/
def unlinkOrder (orders : Heap Order) (order : OrderPtr) (o : Order) : Heap Order :=
  let orders := match o.previousOrder with
    | some previous => orders.modify previous (·.setNext o.nextOrder)
    | none => orders
  let orders := match o.nextOrder with
    | some next => orders.modify next (·.setPrevious o.previousOrder)
    | none => orders
  orders.modify order Order.detachLinks

/-- The level's side of `remove_order`. -/
def PriceLevel.unlink (level : PriceLevel) (o : Order) : PriceLevel :=
  PriceLevel.decreaseTotal { level with
    head := if o.previousOrder.isSome then level.head else o.nextOrder
    tail := if o.nextOrder.isSome then level.tail else o.previousOrder
    orderCount := level.orderCount - 1 } o.remainingQuantity

def isBetterPrice (side : Side) (candidate current : Price) : Bool :=
  match side with
  | .buy => current.ticks < candidate.ticks
  | .sell => candidate.ticks < current.ticks

def crossesLevel (restingSide : Side) (incomingPrice restingPrice : Price) : Bool :=
  match restingSide with
  | .sell => restingPrice.ticks ≤ incomingPrice.ticks
  | .buy => incomingPrice.ticks ≤ restingPrice.ticks

structure SideBook where
  side : Side
  ringPriceLadder : RingPriceLadder
  farPriceMap : FarPriceMap
  cachedBestLevel : Option LevelPtr
  levels : Heap PriceLevel

namespace SideBook

def new (side : Side) (tickSizeTicks baseTick : ℤ) (capacity : ℕ) : SideBook where
  side := side
  ringPriceLadder := .new side tickSizeTicks baseTick capacity
  farPriceMap := .new side
  cachedBestLevel := none
  levels := .empty

def getOrCreateLevelForPrice (book : SideBook) (price : Price) : Option LevelPtr × SideBook :=
  let ladderTick := priceToLadderTick price book.ringPriceLadder.tickSizeTicks
  if book.ringPriceLadder.containsTick ladderTick then
    let (level, ladder, levels) := book.ringPriceLadder.getOrCreateLevel book.levels price
    (level, { book with ringPriceLadder := ladder, levels := levels })
  else
    let (level, far, levels) := book.farPriceMap.getOrCreateLevel book.levels price
    (some level, { book with farPriceMap := far, levels := levels })

/-- `cachedBestLevel->empty()`. -/
def cachedIsEmpty (book : SideBook) : Bool :=
  match book.cachedBestLevel.bind book.levels.read with
  | some level => level.isEmpty
  | none => true

def refreshCachedBest (book : SideBook) : SideBook :=
  let (ringBest, ladder) := book.ringPriceLadder.bestLevel
  let book := { book with ringPriceLadder := ladder }
  let farBest := book.farPriceMap.bestLevel book.levels
  match ringBest, farBest with
  | none, _ => { book with cachedBestLevel := farBest }
  | some _, none => { book with cachedBestLevel := ringBest }
  | some ring, some far =>
    let ringWins := match book.levels.read ring, book.levels.read far with
      | some r, some f => isBetterPrice book.side r.price f.price
      | _, _ => false
    { book with cachedBestLevel := if ringWins then ringBest else farBest }

/-- Adds the order to its level; a strictly better price becomes the cached best. -/
def insertRestingOrder (book : SideBook) (orders : Heap Order) (order : OrderPtr) :
    SideBook × Heap Order :=
  match orders.read order with
  | none => (book, orders)
  | some o =>
    match book.getOrCreateLevelForPrice o.price with
    | (none, book) => (book, orders)
    | (some levelPtr, book) =>
      match book.levels.read levelPtr with
      | none => (book, orders)
      | some level =>
        let orders := linkBack orders levelPtr level.tail order
        let levels := book.levels.modify levelPtr (·.pushBack order o.remainingQuantity)
        let better := match book.cachedBestLevel.bind levels.read with
          | none => true
          | some best => isBetterPrice book.side level.price best.price
        ({ book with
          levels := levels
          cachedBestLevel := if better then some levelPtr else book.cachedBestLevel }, orders)

def bestLevel (book : SideBook) : Option LevelPtr :=
  if book.cachedIsEmpty then none else book.cachedBestLevel

def bestOrder (book : SideBook) : Option OrderPtr :=
  (book.bestLevel.bind book.levels.read).bind (·.head)

def priceCrosses (book : SideBook) (incomingPrice : Price) : Bool :=
  match book.bestLevel.bind book.levels.read with
  | none => false
  | some level => crossesLevel book.side incomingPrice level.price

/-- Drops a level that is empty or whose total is zero, from the store that holds it. -/
def dropIfDone (book : SideBook) (levelPtr : LevelPtr) (level : PriceLevel) : SideBook :=
  if level.isEmpty || level.totalQuantity.isZero then
    if book.ringPriceLadder.getLevel level.price = some levelPtr then
      let (ladder, levels) := book.ringPriceLadder.removeLevelIfEmpty book.levels level.price
      { book with ringPriceLadder := ladder, levels := levels }
    else
      let (far, levels) := book.farPriceMap.removeLevelIfEmpty book.levels level.price
      { book with farPriceMap := far, levels := levels }
  else book

def updateAfterFillOrCancel (book : SideBook) (priceLevel : Option LevelPtr) : SideBook :=
  match priceLevel with
  | none => book
  | some levelPtr =>
    match book.levels.read levelPtr with
    | none => book
    | some level =>
      let wasCachedBest := book.cachedBestLevel = some levelPtr
      let book := book.dropIfDone levelPtr level
      if wasCachedBest || book.cachedBestLevel.isNone || book.cachedIsEmpty then
        book.refreshCachedBest
      else book

/-- Takes the order out of its level's list. The level of an order can be gone only after a
level total has wrapped; the writes through the dead address are then without effect. -/
def removeOrder (book : SideBook) (orders : Heap Order) (order : OrderPtr) :
    SideBook × Heap Order :=
  match orders.read order with
  | none => (book, orders)
  | some o =>
    match o.priceLevel with
    | none => (book, orders)
    | some levelPtr =>
      let book := { book with levels := book.levels.modify levelPtr (·.unlink o) }
      (book.updateAfterFillOrCancel (some levelPtr), unlinkOrder orders order o)

end SideBook
end PerpexEngine
