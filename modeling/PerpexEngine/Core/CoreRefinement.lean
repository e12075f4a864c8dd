import PerpexEngine.Core.MatchRefinement
import PerpexEngine.Core.SideListing
import PerpexEngine.Core.CoreSimulation

/-! Commands on the pointer book are commands on the level queues, and so are whole runs. -/
namespace PerpexEngine
open LinkedQueue

/-- The pointer book represents level queues that satisfy their invariant. -/
structure Refines (book : OrderBook) (q : QueueBook) : Prop where
  rep : BookRep book q
  ok : q.Ok

namespace BookRep
variable {book : OrderBook} {q : QueueBook} {p : OrderPtr} {o : Order}

theorem availableCrossingLots (h : BookRep book q) (side : Side) (price : Price) (stopAtLots : ℕ) :
    OrderBook.availableCrossingLots (book.bookForSide side) price stopAtLots =
      OrderBook.crossingLots side price stopAtLots 0 (levelTotals (q.levels side)) := by
  obtain ⟨queue, view, hok, hview⟩ := h.sides side
  rw [OrderBook.availableCrossingLots, hok.activeLevelsSorted, h.side_eq, hview]

/-- The guards decide alike. -/
theorem placeRejection (h : BookRep book q) (command : PlaceOrderCommand) :
    book.placeRejection command = q.placeRejection command := by
  simp only [OrderBook.placeRejection, QueueBook.placeRejection, OrderBook.opposingBook,
    h.hasOrder, h.hasClient, h.priceCrosses, h.availableCrossingLots, h.config]

theorem restedTotal (h : BookRep book q) (ho : book.orders.read p = some o) :
    book.restedTotal o.side p = totalHolding o.orderId (q.levels o.side) := by
  rw [OrderBook.restedTotal, ho, Option.bind_some, h.totalAtLevel ho]

end BookRep

namespace Refines
variable {book : OrderBook} {q : QueueBook}

theorem new (config : SymbolConfig) : Refines (OrderBook.new config) (QueueBook.new config) :=
  ⟨BookRep.new config, QueueBook.Ok.new config⟩

theorem canRest_aligned {command : PlaceOrderCommand} (hrej : q.placeRejection command = none)
    (hrest : canRest command = true) :
    Aligned q.symbolConfig.tickSize.ticks command.price := by
  rw [canRest, Bool.and_eq_true] at hrest
  rw [QueueBook.placeRejection] at hrej
  split_ifs at hrej with _ _ _ hprice
  rw [hrest.1, Bool.true_and, Bool.not_eq_true', Bool.not_eq_false] at hprice
  exact validateSymbolPrice_aligned hprice

theorem matchIncomingOrder_symbolConfig (s : QueueBook.MatchState) :
    (QueueBook.matchIncomingOrder s).2.book.symbolConfig = s.book.symbolConfig := by
  refine QueueBook.matchLoop_induction
    (P := fun t => t.book.symbolConfig = s.book.symbolConfig) (fun t _ t' ht hstep => ?_) _ s rfl
  obtain ⟨_, _, _, _, _, _, _, _, _, hbook, _⟩ := QueueBook.matchStep_cases hstep
  rw [hbook, ← ht, QueueBook.putFront]
  cases t.incoming.side.opposite <;> rfl

/-- Placing an order gives the same events and counters on both books. -/
theorem processPlace (h : Refines book q) (command : PlaceOrderCommand) (g : SequenceGenerator) :
    SameResult Refines (book.processPlace command g) (q.processPlace command g) := by
  have hok := h.ok.processPlace command g
  rw [SameResult]
  rw [QueueBook.processPlace] at hok ⊢
  rw [OrderBook.processPlace, h.rep.placeRejection]
  cases hr : q.placeRejection command with
  | some reason => exact ⟨rfl, h, rfl⟩
  | none =>
    have hstart : MatchRep ⟨book, incomingOrder command g.nextSequence, g.nextEvent⟩
        ⟨q, incomingOrder command g.nextSequence, g.nextEvent⟩ := ⟨h.rep, h.ok, rfl, rfl⟩
    obtain ⟨hevents, hend⟩ := hstart.matchIncomingOrder
    obtain ⟨hid, hclient⟩ := QueueBook.placeRejection_fresh hr
    have hids := QueueBook.matchLoop_subset (·.orderId) (fun _ _ => rfl)
      ((ordersOf (q.levels command.side.opposite)).length + 1)
      ⟨q, incomingOrder command g.nextSequence, g.nextEvent⟩
    have hclients := QueueBook.matchLoop_subset (·.clientOrderId) (fun _ _ => rfl)
      ((ordersOf (q.levels command.side.opposite)).length + 1)
      ⟨q, incomingOrder command g.nextSequence, g.nextEvent⟩
    obtain ⟨rem, hinc⟩ := QueueBook.matchLoop_incoming
      ((ordersOf (q.levels command.side.opposite)).length + 1)
      ⟨q, incomingOrder command g.nextSequence, g.nextEvent⟩
    have hconfig := matchIncomingOrder_symbolConfig
      ⟨q, incomingOrder command g.nextSequence, g.nextEvent⟩
    change QueueBook.MatchState.incoming (QueueBook.matchIncomingOrder _).2 = _ at hinc
    change ∀ k ∈ (QueueBook.matchIncomingOrder _).2.book.activeOrders.map _, _ at hids hclients
    rw [hr] at hok
    simp only at hok ⊢
    generalize hm : QueueBook.matchIncomingOrder
      ⟨q, incomingOrder command g.nextSequence, g.nextEvent⟩ = m at *
    generalize hm' : OrderBook.matchIncomingOrder
      ⟨book, incomingOrder command g.nextSequence, g.nextEvent⟩ = m' at *
    obtain ⟨matchEvents, t⟩ := m
    obtain ⟨matchEvents', s⟩ := m'
    obtain ⟨hrep, hmok, hincoming, hgen⟩ := hend
    dsimp only at *
    rw [hevents, hincoming, hgen]
    split_ifs at hok ⊢ with hrest
    · rw [Bool.and_eq_true] at hrest
      have halign : Aligned s.book.symbolConfig.tickSize.ticks command.price := by
        rw [← hrep.config, hconfig]
        exact canRest_aligned hr hrest.1
      have hside : t.incoming.side = command.side := by rw [hinc]; rfl
      have hid' : t.incoming.orderId = command.orderId := by rw [hinc]; rfl
      have hclient' : t.incoming.clientOrderId = command.clientOrderId := by rw [hinc]; rfl
      obtain ⟨hrested, o, ho, hox⟩ := hrep.restOrder
        (x := { t.incoming with price := command.price }) halign
        (fun r hr' heq => by
          obtain ⟨r', hr'', heq'⟩ := List.mem_map.1 (hids _ (List.mem_map_of_mem hr'))
          exact hid r' hr'' (heq'.trans (heq.trans hid')))
        (fun r hr' heq => by
          obtain ⟨r', hr'', heq'⟩ := List.mem_map.1 (hclients _ (List.mem_map_of_mem hr'))
          exact hclient r' hr'' (heq'.trans (heq.trans hclient')))
      have htotal := hrested.restedTotal ho
      have hoside : o.side = command.side := (congrArg OrderSnapshot.side hox).trans hside
      have hoid : o.orderId = command.orderId := (congrArg OrderSnapshot.orderId hox).trans hid'
      rw [hoside, hoid] at htotal
      rw [htotal]
      exact ⟨rfl, ⟨hrested, hok⟩, rfl⟩
    · exact ⟨rfl, ⟨hrep, hok⟩, rfl⟩

/-- Cancelling an order gives the same events and counters on both books. -/
theorem processCancel (h : Refines book q) (command : CancelOrderCommand)
    (g : SequenceGenerator) :
    SameResult Refines (book.processCancel command g) (q.processCancel command g) := by
  have hok := h.ok.processCancel command g
  have htarget : book.cancelTarget command = q.cancelTarget command := by
    rw [OrderBook.cancelTarget, QueueBook.cancelTarget, h.rep.getClient h.ok.toKeyed]
  have hlookup := h.rep.lookup_eq h.ok.toKeyed (q.cancelTarget command)
  rw [SameResult]
  simp only [OrderBook.processCancel, QueueBook.processCancel, htarget] at hok ⊢
  cases hf : book.lookup (q.cancelTarget command) with
  | none =>
    rw [hf, Option.map_none] at hlookup
    rw [← hlookup]
    exact ⟨rfl, h, rfl⟩
  | some entry =>
    obtain ⟨p, o⟩ := entry
    rw [hf, Option.map_some] at hlookup
    obtain ⟨ho, hid⟩ := h.rep.lookup_some hf
    rw [← hlookup] at hok ⊢
    by_cases huser : o.userId = command.userId
    · simp only [Option.any_some, huser, decide_true, ↓reduceIte, Option.filter_some] at hok ⊢
      rw [OrderBook.cancelExistingOrder, hf]
      refine ⟨?_, ⟨h.rep.releaseOrder h.ok.toKeyed ho, hok⟩, rfl⟩
      simp only [QueueBook.cancelOrder, h.rep.totalAtLevel ho, h.rep.config, hid]
    · simp only [Option.any_some, huser, decide_false, Bool.false_eq_true, ↓reduceIte,
        Option.filter_some]
      exact ⟨trivial, h, trivial⟩

/-- The level queues follow the code in every run, whatever the quantities. -/
theorem simulation : Simulation Refines fun _ => True where
  new := new
  place command g h _ := h.processPlace command g
  cancel command g h _ := h.processCancel command g

end Refines
end PerpexEngine
