import PerpexEngine.Core.SnapshotOrder
import PerpexEngine.Core.TimeInForce

/-! What the guards of the core let in, and what an order that passed them meets first. -/
namespace PerpexEngine

/-- The guards of the core and those of the book let the order in. -/
def EngineCore.Admits (core : EngineCore OrderBook) (command : PlaceOrderCommand) : Prop :=
  ∃ config book, core.symbolConfigs[command.symbolId]? = some config ∧
    core.orderBooks[command.symbolId]? = some book ∧
    validatePlaceOrder command config core.idempotencyIndex = none ∧
    book.placeRejection command = none

section Admits
variable {core : EngineCore OrderBook} {command : PlaceOrderCommand}

theorem EngineCore.process_of_admits {config : SymbolConfig} {book : OrderBook}
    (hconfig : core.symbolConfigs[command.symbolId]? = some config)
    (hbook : core.orderBooks[command.symbolId]? = some book)
    (hvalid : validatePlaceOrder command config core.idempotencyIndex = none) :
    (core.process (.placeOrder command)).1 =
      (book.processPlace command core.sequenceGenerator).1 := by
  have hfresh : core.idempotencyIndex.hasCommand command.commandId = false := by
    cases hseen : core.idempotencyIndex.hasCommand command.commandId with
    | false => rfl
    | true => simp [validatePlaceOrder, hseen] at hvalid
  change (core.processPlaceOrder command).1 = _
  unfold EngineCore.processPlaceOrder
  simp only [hfresh, Bool.false_eq_true, ↓reduceIte, hconfig, hbook, hvalid]
  rfl

/-- An order that is not let in is rejected. -/
theorem EngineCore.process_of_not_admits (h : ¬core.Admits command) :
    ∃ e, (core.process (.placeOrder command)).1 = [.orderRejected e] := by
  change ∃ e, (core.processPlaceOrder command).1 = [.orderRejected e]
  rcases core.processPlaceOrder_outcome command with ⟨reason, record, heq⟩ |
    ⟨config, book, hconfig, hbook, hvalid, heq⟩
  · rw [heq]
    exact ⟨_, rfl⟩
  · cases hrejection : book.placeRejection command with
    | none => exact absurd ⟨config, book, hconfig, hbook, hvalid, hrejection⟩ h
    | some reason =>
      rw [heq]
      change ∃ e, (book.processPlace command core.sequenceGenerator).1 = [.orderRejected e]
      unfold OrderBook.processPlace
      rw [hrejection]
      exact ⟨_, rfl⟩

end Admits

/-- The orders queued at the best price of a side. -/
def OrderBook.bestOrders (book : OrderBook) (side : Side) : List OrderSnapshot :=
  (book.restingOrders side).filter fun o => (book.bookForSide side).bestPrice = some o.price

section FirstTrade
variable {book : OrderBook} {q : QueueBook} {command : PlaceOrderCommand}

theorem Refines.bestOrders (h : Refines book q) {side : Side} {l : LevelQueue}
    {levels : List LevelQueue} (hlevels : q.levels side = l :: levels) {maker : OrderSnapshot}
    (hmaker : maker ∈ l.orders) : maker ∈ book.bestOrders side ∧ maker ∈ book.registered := by
  have hmem : l ∈ q.levels side := hlevels ▸ List.mem_cons_self
  refine ⟨List.mem_filter.2 ⟨?_, ?_⟩, ?_⟩
  · rw [h.restingOrders, hlevels]
    exact (sublist_ordersOf List.mem_cons_self).subset hmaker
  · rw [decide_eq_true_eq, h.bestPrice, hlevels, h.rep.sorted.prices side l hmem maker hmaker]
    rfl
  · exact (h.rep.registered_perm h.ok.toKeyed).mem_iff.2 (QueueBook.mem_active_of_level hmem hmaker)

theorem Refines.priceCrosses_of_bestPrice (h : Refines book q) {side : Side} {best : Price}
    (hbest : (book.bookForSide side).bestPrice = some best) (price : Price) :
    (book.bookForSide side).priceCrosses price = crossesLevel side price best := by
  rw [h.bestPrice] at hbest
  rw [h.rep.priceCrosses]
  cases hlevels : q.levels side with
  | nil =>
    rw [hlevels] at hbest
    cases hbest
  | cons l levels =>
    rw [hlevels] at hbest
    cases hbest
    rfl

/-- An order that the book takes trades first with an order of the best level, if that crosses. -/
theorem Refines.first_trade (h : Refines book q) (haccepted : book.placeRejection command = none)
    (hcross : (book.opposingBook command.side).priceCrosses (matchingPriceForCommand command) = true)
    (g : SequenceGenerator) : ∃ maker ∈ book.bestOrders command.side.opposite,
      maker ∈ book.registered ∧ ∃ trade rest,
        tradesOf (book.processPlace command g).1 = trade :: rest ∧
          trade.makerOrderId = maker.orderId ∧ 0 < trade.quantity.lots := by
  have hquantity : 0 < command.quantity.lots := by
    have hvalid := (OrderBook.admits_of_placeRejection haccepted).quantity
    simp only [validateSymbolQuantity, Quantity.isValid, Bool.and_eq_true,
      decide_eq_true_eq] at hvalid
    exact hvalid.1.1.1.1
  have hopen : (incomingOrder command g.nextSequence).isFilled = false :=
    QueueBook.isFilled_eq_false.2 hquantity
  obtain ⟨hevents, -, -⟩ := h.processPlace command g
  rw [OrderBook.opposingBook, h.rep.priceCrosses] at hcross
  have hmatch : ∃ maker ∈ book.bestOrders command.side.opposite, maker ∈ book.registered ∧
      ∃ trade rest, tradesOf (QueueBook.matchIncomingOrder
        ⟨q, incomingOrder command g.nextSequence, g.nextEvent⟩).1 = trade :: rest ∧
          trade.makerOrderId = maker.orderId ∧ 0 < trade.quantity.lots := by
    unfold QueueBook.matchIncomingOrder
    cases hstep : QueueBook.matchStep
        ⟨q, incomingOrder command g.nextSequence, g.nextEvent⟩ with
    | none =>
      have hnone := QueueBook.uncrossed_of_matchStep h.rep.sorted hstep hopen
      cases hlevels : q.levels command.side.opposite with
      | nil =>
        rw [hlevels] at hcross
        cases hcross
      | cons l levels =>
        rw [hlevels] at hcross
        have hbest := hnone l (hlevels ▸ List.mem_cons_self)
        exact absurd hcross (by rw [Bool.not_eq_true]; exact hbest)
    | some r =>
      obtain ⟨events, s'⟩ := r
      obtain ⟨l, levels, maker, queue, hfront, horders, -, -, hfill, -, -⟩ :=
        QueueBook.matchStep_cases hstep
      have hfront : q.levels command.side.opposite = l :: levels := hfront
      have hmaker : maker ∈ l.orders := horders ▸ List.mem_cons_self
      obtain ⟨hbest, hregistered⟩ := h.bestOrders hfront hmaker
      have hpositive := h.ok.positive maker
        ((h.rep.registered_perm h.ok.toKeyed).mem_iff.1 hregistered)
      have htrades := congrArg tradesOf (congrArg Prod.fst hfill)
      rw [tradesOf_fillEvents] at htrades
      rw [QueueBook.matchLoop_of_some hstep]
      refine ⟨maker, hbest, hregistered, ?_⟩
      rw [tradesOf_append, ← htrades]
      refine ⟨_, _, rfl, rfl, ?_⟩
      dsimp only
      rw [Quantity.lots_min]
      exact lt_min hquantity hpositive
  obtain ⟨maker, hmaker, hregistered, trade, rest, htrades, hid, hlots⟩ := hmatch
  refine ⟨maker, hmaker, hregistered, trade, ?_⟩
  rw [hevents, QueueBook.processPlace, ← h.rep.placeRejection, haccepted]
  dsimp only
  split
  · rw [← List.singleton_append, tradesOf_append, tradesOf_append, htrades]
    exact ⟨_, rfl, hid, hlots⟩
  · exact ⟨rest, htrades, hid, hlots⟩

end FirstTrade
end PerpexEngine
