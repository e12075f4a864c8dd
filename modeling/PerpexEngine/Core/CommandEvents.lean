import PerpexEngine.Core.CoreSimulation

/-! What the events of one command look like: one answer, and for an accepted order its fills, whose
trades are numbered one by one. -/
namespace PerpexEngine

def tradesOf (events : List EngineEvent) : List TradeExecuted :=
  events.filterMap fun
    | .tradeExecuted trade => some trade
    | _ => none

@[simp] theorem tradesOf_append (xs ys : List EngineEvent) :
    tradesOf (xs ++ ys) = tradesOf xs ++ tradesOf ys := List.filterMap_append

/-- An event that accepts or rejects a command, or reports its cancellation. -/
def EngineEvent.isAnswer : EngineEvent → Bool
  | .orderAccepted _ => true
  | .orderRejected _ => true
  | .orderCancelled _ => true
  | _ => false

theorem fillStatusEvent_isAnswer (g : SequenceGenerator) (order : OrderSnapshot) :
    (fillStatusEvent g order).isAnswer = false := by
  unfold fillStatusEvent
  split_ifs <;> rfl

/-- One fill is one trade, at the price of the maker. -/
theorem tradesOf_fillEvents (g : SequenceGenerator) (symbolId : SymbolId)
    (maker incoming : OrderSnapshot) (fillQuantity total : Quantity) :
    tradesOf (fillEvents g symbolId maker incoming fillQuantity total).1 =
      [⟨g.nextEventId, g.nextSequence, g.nextTradeId, symbolId, maker.orderId, incoming.orderId,
        maker.price, fillQuantity⟩] := by
  have hstatus : ∀ (g : SequenceGenerator) (order : OrderSnapshot),
      tradesOf [fillStatusEvent g order] = [] := by
    intro g order
    unfold fillStatusEvent
    split_ifs <;> rfl
  have hsplit : ∀ a b c d : EngineEvent, tradesOf [a, b, c, d] =
      tradesOf [a] ++ tradesOf [b] ++ tradesOf [c] ++ tradesOf [d] := by
    intro a b c d
    simp only [← tradesOf_append, List.cons_append, List.nil_append]
  unfold fillEvents
  rw [hsplit, hstatus, hstatus]
  rfl

/-- Events without an answer, whose trades take the next trade ids and have one taker. -/
structure FillsOf (takerOrderId : OrderId) (g : SequenceGenerator) (events : List EngineEvent)
    (g' : SequenceGenerator) : Prop where
  noAnswer : ∀ e ∈ events, e.isAnswer = false
  tradeIds : (tradesOf events).map (·.tradeId) =
    List.range' g.nextTradeId (tradesOf events).length
  nextTradeId : g'.nextTradeId = g.nextTradeId + (tradesOf events).length
  taker : ∀ trade ∈ tradesOf events, trade.takerOrderId = takerOrderId

namespace FillsOf
variable {takerOrderId : OrderId} {g g' g'' : SequenceGenerator} {xs ys : List EngineEvent}

theorem nil : FillsOf takerOrderId g [] g where
  noAnswer _ h := absurd h List.not_mem_nil
  tradeIds := rfl
  nextTradeId := rfl
  taker _ h := absurd h List.not_mem_nil

theorem delta (d : OrderBookDelta) (h : g'.nextTradeId = g.nextTradeId) :
    FillsOf takerOrderId g [.orderBookDelta d] g' where
  noAnswer e he := by
    rw [List.mem_singleton.1 he]
    rfl
  tradeIds := rfl
  nextTradeId := h
  taker _ h := absurd h List.not_mem_nil

theorem append (h : FillsOf takerOrderId g xs g') (h' : FillsOf takerOrderId g' ys g'') :
    FillsOf takerOrderId g (xs ++ ys) g'' where
  noAnswer e he := by
    rcases List.mem_append.1 he with he | he
    · exact h.noAnswer e he
    · exact h'.noAnswer e he
  tradeIds := by
    rw [tradesOf_append, List.map_append, List.length_append, ← List.range'_append_1, h.tradeIds,
      h'.tradeIds, h.nextTradeId]
  nextTradeId := by
    rw [tradesOf_append, List.length_append, h'.nextTradeId, h.nextTradeId, Nat.add_assoc]
  taker trade ht := by
    rw [tradesOf_append] at ht
    rcases List.mem_append.1 ht with ht | ht
    · exact h.taker trade ht
    · exact h'.taker trade ht

theorem fill (g : SequenceGenerator) (symbolId : SymbolId) (maker incoming : OrderSnapshot)
    (fillQuantity total : Quantity) : FillsOf incoming.orderId g
      (fillEvents g symbolId maker incoming fillQuantity total).1
      (fillEvents g symbolId maker incoming fillQuantity total).2 := by
  have htrades := tradesOf_fillEvents g symbolId maker incoming fillQuantity total
  refine ⟨fun e he => ?_, by rw [htrades]; rfl, by rw [htrades]; rfl, fun trade ht => ?_⟩
  · simp only [fillEvents, List.mem_cons, List.not_mem_nil, or_false] at he
    rcases he with rfl | rfl | rfl | rfl
    · rfl
    · exact fillStatusEvent_isAnswer _ _
    · exact fillStatusEvent_isAnswer _ _
    · rfl
  · rw [htrades, List.mem_singleton] at ht
    rw [ht]

end FillsOf

namespace OrderBook

theorem matchStep_fills {s s' : MatchState} {events : List EngineEvent}
    (h : matchStep s = some (events, s')) :
    FillsOf s.incoming.orderId s.sequenceGenerator events s'.sequenceGenerator ∧
      s'.incoming.orderId = s.incoming.orderId := by
  unfold matchStep at h
  dsimp only at h
  split at h
  · cases h
  · split at h
    · cases h
    · split at h
      · cases h
      · split at h
        · cases h
        · cases h
          exact ⟨FillsOf.fill _ _ _ _ _ _, rfl⟩

theorem matchLoop_fills (n : ℕ) (s : MatchState) :
    FillsOf s.incoming.orderId s.sequenceGenerator (matchLoop n s).1
      (matchLoop n s).2.sequenceGenerator := by
  induction n generalizing s with
  | zero => exact FillsOf.nil
  | succ n ih =>
    unfold matchLoop
    cases h : matchStep s with
    | none => exact FillsOf.nil
    | some r =>
      obtain ⟨events, s'⟩ := r
      obtain ⟨hfills, hid⟩ := matchStep_fills h
      have hrest := ih s'
      rw [hid] at hrest
      exact hfills.append hrest

end OrderBook

/-- The events of placing an order, from one counter state to the next. -/
inductive PlaceEvents (orderId : OrderId) (g : SequenceGenerator) :
    List EngineEvent → SequenceGenerator → Prop
  | rejected (e : OrderRejected) {g' : SequenceGenerator} (h : g'.nextTradeId = g.nextTradeId) :
    PlaceEvents orderId g [.orderRejected e] g'
  | accepted (e : OrderAccepted) {fills : List EngineEvent} {g' : SequenceGenerator}
    (h : FillsOf orderId g fills g') : PlaceEvents orderId g (.orderAccepted e :: fills) g'

/-- The events of cancelling an order. -/
inductive CancelEvents (g : SequenceGenerator) : List EngineEvent → SequenceGenerator → Prop
  | rejected (e : OrderRejected) {g' : SequenceGenerator} (h : g'.nextTradeId = g.nextTradeId) :
    CancelEvents g [.orderRejected e] g'
  | cancelled (e : OrderCancelled) (d : OrderBookDelta) {g' : SequenceGenerator}
    (h : g'.nextTradeId = g.nextTradeId) : CancelEvents g [.orderCancelled e, .orderBookDelta d] g'

namespace OrderBook

theorem processPlace_events (book : OrderBook) (command : PlaceOrderCommand)
    (g : SequenceGenerator) : PlaceEvents command.orderId g (book.processPlace command g).1
      (book.processPlace command g).2.2 := by
  unfold processPlace
  split
  · exact .rejected _ rfl
  · have hfills := matchLoop_fills (book.orderById.size + 1)
      ⟨book, incomingOrder command g.nextSequence, g.nextEvent⟩
    unfold matchIncomingOrder
    dsimp only at hfills ⊢
    generalize matchLoop _ _ = r at hfills ⊢
    split_ifs
    · have hall : ∀ d : OrderBookDelta, FillsOf command.orderId g (r.1 ++ [.orderBookDelta d])
          r.2.sequenceGenerator.nextEvent := by
        intro d
        have hlast : FillsOf command.orderId r.2.sequenceGenerator [.orderBookDelta d]
          r.2.sequenceGenerator.nextEvent := .delta d rfl
        have h := hfills.append hlast
        exact ⟨h.noAnswer, h.tradeIds, h.nextTradeId, h.taker⟩
      exact .accepted _ (hall _)
    · exact .accepted _ ⟨hfills.noAnswer, hfills.tradeIds, hfills.nextTradeId, hfills.taker⟩

theorem processCancel_events (book : OrderBook) (command : CancelOrderCommand)
    (g : SequenceGenerator) : CancelEvents g (book.processCancel command g).1
      (book.processCancel command g).2.2 := by
  unfold processCancel
  dsimp only
  split_ifs
  · unfold cancelExistingOrder
    split
    · exact .rejected _ rfl
    · exact .cancelled _ _ rfl
  · exact .rejected _ rfl

end OrderBook

namespace EngineCore

theorem placeOrder_events (core : EngineCore OrderBook) (place : PlaceOrderCommand) :
    PlaceEvents place.orderId core.sequenceGenerator (core.process (.placeOrder place)).1
      (core.process (.placeOrder place)).2.sequenceGenerator := by
  simp only [process]
  rcases core.processPlaceOrder_outcome place with ⟨reason, record, heq⟩ |
    ⟨config, book, -, -, -, heq⟩
  · rw [heq]
    exact .rejected _ rfl
  · rw [heq]
    exact book.processPlace_events place core.sequenceGenerator

theorem cancelOrder_events (core : EngineCore OrderBook) (cancel : CancelOrderCommand) :
    CancelEvents core.sequenceGenerator (core.process (.cancelOrder cancel)).1
      (core.process (.cancelOrder cancel)).2.sequenceGenerator := by
  simp only [process]
  rcases core.processCancelOrder_cases cancel with ⟨reason, record, heq⟩ |
    ⟨config, book, accepted, -, -, heq⟩
  · rw [heq]
    exact .rejected _ rfl
  · rw [heq]
    exact book.processCancel_events cancel core.sequenceGenerator

end EngineCore
end PerpexEngine
