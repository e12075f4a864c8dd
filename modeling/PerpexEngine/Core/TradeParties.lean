import PerpexEngine.Core.AccountRuns
import PerpexEngine.Core.CommandEvents

/-! No order trades against itself: the maker of a trade was in the book, where the taker's id was
not. -/
namespace PerpexEngine

namespace QueueBook
variable {s s' : MatchState} {events : List EngineEvent}

theorem fillEvents_maker (g : SequenceGenerator) (symbolId : SymbolId)
    (maker incoming : OrderSnapshot) (fillQuantity total : Quantity) :
    ∀ trade ∈ tradesOf (fillEvents g symbolId maker incoming fillQuantity total).1,
      trade.makerOrderId = maker.orderId := by
  have hstatus : ∀ (g : SequenceGenerator) (order : OrderSnapshot) (trade : TradeExecuted),
      fillStatusEvent g order ≠ .tradeExecuted trade := by
    intro g order trade
    unfold fillStatusEvent
    split_ifs <;> nofun
  intro trade htrade
  unfold tradesOf fillEvents at htrade
  rw [List.mem_filterMap] at htrade
  obtain ⟨e, he, heq⟩ := htrade
  simp only [List.mem_cons, List.not_mem_nil, or_false] at he
  rcases he with rfl | rfl | rfl | rfl
  · cases heq
    rfl
  · split at heq
    · rename_i hstatus'
      exact absurd hstatus' (hstatus _ _ _)
    · cases heq
  · split at heq
    · rename_i hstatus'
      exact absurd hstatus' (hstatus _ _ _)
    · cases heq
  · cases heq

/-- The makers of a match are orders of the book as it was. -/
theorem matchLoop_makers (n : ℕ) (s : MatchState) : ∀ trade ∈ tradesOf (matchLoop n s).1,
    trade.makerOrderId ∈ s.book.activeOrders.map (·.orderId) := by
  induction n generalizing s with
  | zero => exact fun _ h => absurd h List.not_mem_nil
  | succ n ih =>
    unfold matchLoop
    cases hstep : matchStep s with
    | none => exact fun _ h => absurd h List.not_mem_nil
    | some r =>
      obtain ⟨events, s'⟩ := r
      obtain ⟨maker, others, total, hactive, -, -, -, hevents, -⟩ := matchStep_active hstep
      intro trade htrade
      rw [tradesOf_append] at htrade
      rcases List.mem_append.1 htrade with htrade | htrade
      · have hfirst := congrArg Prod.fst hevents
        dsimp only at hfirst
        rw [← hfirst] at htrade
        rw [fillEvents_maker _ _ _ _ _ _ trade htrade]
        exact List.mem_map_of_mem (hactive.mem_iff.2 List.mem_cons_self)
      · exact matchStep_subset (·.orderId) (fun _ _ => rfl) hstep _ (ih s' trade htrade)

theorem processPlace_makers (book : QueueBook) (command : PlaceOrderCommand)
    (g : SequenceGenerator) : ∀ trade ∈ tradesOf (book.processPlace command g).1,
      trade.makerOrderId ≠ command.orderId := by
  rw [QueueBook.processPlace]
  cases hr : book.placeRejection command with
  | some reason => exact fun _ h => absurd h List.not_mem_nil
  | none =>
    obtain ⟨hid, -⟩ := placeRejection_fresh hr
    have hmakers := matchLoop_makers ((ordersOf (book.levels
      (incomingOrder command g.nextSequence).side.opposite)).length + 1)
      ⟨book, incomingOrder command g.nextSequence, g.nextEvent⟩
    unfold matchIncomingOrder
    dsimp only at hmakers ⊢
    generalize matchLoop _ _ = r at hmakers ⊢
    have hfresh : ∀ trade ∈ tradesOf r.1, trade.makerOrderId ≠ command.orderId := by
      intro trade htrade heq
      obtain ⟨maker, hmaker, hmakerId⟩ := List.mem_map.1 (hmakers trade htrade)
      exact hid maker hmaker (hmakerId.trans heq)
    split_ifs
    · intro trade htrade
      dsimp only at htrade
      rw [tradesOf_append] at htrade
      rcases List.mem_append.1 htrade with htrade | htrade
      · exact hfresh trade htrade
      · exact absurd htrade List.not_mem_nil
    · exact hfresh

end QueueBook

/-- The trades of a placed order are between that order and others. -/
theorem Tracks.parties {core : EngineCore OrderBook} {queues : EngineCore QueueBook}
    (h : Tracks core queues) (place : PlaceOrderCommand) :
    ∀ trade ∈ tradesOf (core.process (.placeOrder place)).1,
      trade.makerOrderId ≠ place.orderId := by
  rw [(h.rel.process Refines.simulation (.placeOrder place) fun _ _ _ => trivial).1]
  simp only [EngineCore.process]
  rcases queues.processPlaceOrder_outcome place with ⟨reason, record, heq⟩ |
    ⟨config, book, -, -, -, heq⟩
  · rw [heq]
    exact fun _ h => absurd h List.not_mem_nil
  · rw [heq]
    exact book.processPlace_makers place queues.sequenceGenerator

/-- Both parties of every trade of a placed order are known, and they are two. -/
theorem Tracks.trade_parties {core : EngineCore OrderBook} {queues : EngineCore QueueBook}
    (h : Tracks core queues) (place : PlaceOrderCommand) :
    ∀ trade ∈ tradesOf (core.process (.placeOrder place)).1,
      trade.makerOrderId ≠ trade.takerOrderId := by
  intro trade htrade
  have htaker : trade.takerOrderId = place.orderId := by
    have hevents := core.placeOrder_events place
    generalize (core.process (.placeOrder place)).1 = events at htrade hevents
    cases hevents with
    | rejected e _ => cases htrade
    | accepted e hfills => exact hfills.taker trade htrade
  rw [htaker]
  exact h.parties place trade htrade

end PerpexEngine
