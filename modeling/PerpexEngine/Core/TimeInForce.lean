import PerpexEngine.Core.CommandEvents
import PerpexEngine.Core.Depth
import PerpexEngine.Core.Uncrossed

/-! Fill-or-kill orders trade their whole quantity or nothing; a post-only order trades nothing
unless it is a market order, whose own price says nothing about the prices it accepts. -/
namespace PerpexEngine
open LinkedQueue

/-- What the trades of a command move. -/
def tradedLots (events : List EngineEvent) : ℕ := ((tradesOf events).map (·.quantity.lots)).sum

@[simp] theorem tradedLots_nil : tradedLots [] = 0 := rfl

@[simp] theorem tradedLots_append (xs ys : List EngineEvent) :
    tradedLots (xs ++ ys) = tradedLots xs + tradedLots ys := by
  simp [tradedLots]

theorem tradedLots_fillEvents (g : SequenceGenerator) (symbolId : SymbolId)
    (maker incoming : OrderSnapshot) (fillQuantity total : Quantity) :
    tradedLots (fillEvents g symbolId maker incoming fillQuantity total).1 = fillQuantity.lots := by
  rw [tradedLots, tradesOf_fillEvents]
  simp

namespace OrderBook

/-- What rests on the other side at prices that the order accepts. -/
def crossingQuantity (book : OrderBook) (command : PlaceOrderCommand) : ℕ :=
  lotsOf (book.registered.filter fun o => o.side = command.side.opposite &&
    crossesLevel command.side.opposite (matchingPriceForCommand command) o.price)

/-- The guards of `process_place` that do not look at liquidity. -/
structure Admits (book : OrderBook) (command : PlaceOrderCommand) : Prop where
  orderId : book.hasOrder command.orderId = false
  clientOrderId : book.clientOrderIdToOrderId.contains command.clientOrderId = false
  open_ : book.symbolConfig.tradingEnabled = true
  quantity : validateSymbolQuantity command.quantity book.symbolConfig = true
  price : command.orderType = .limit → validateSymbolPrice command.price book.symbolConfig = true

end OrderBook

section Walk
variable {side : Side} {limit : Option Price} {xs : List OrderSnapshot}

/-- A walk takes what it can, up to what the incoming order lacks. -/
theorem tradedLots_walk (symbolId : SymbolId) (side : Side) (limit : Option Price)
    (xs : List OrderSnapshot) (incoming : OrderSnapshot) (g : SequenceGenerator) :
    tradedLots (walk symbolId side limit xs incoming g).events =
      min incoming.remainingQuantity.lots (crossingTotal side limit xs) := by
  induction xs generalizing incoming g with
  | nil => simp [walk, crossingTotal]
  | cons maker rest ih =>
    have hmin := Quantity.lots_min incoming.remainingQuantity maker.remainingQuantity
    have hmaker := @QueueBook.reduce_lots maker _
      (Quantity.min_lots_le_right incoming.remainingQuantity maker.remainingQuantity)
    have hincoming := @QueueBook.reduce_lots incoming _
      (Quantity.min_lots_le_left incoming.remainingQuantity maker.remainingQuantity)
    unfold walk
    split_ifs with hstop
    · rw [Bool.or_eq_true, Bool.not_eq_true', QueueBook.isFilled_iff] at hstop
      rcases hstop with hfilled | hcross
      · rw [hfilled, Nat.zero_min]
        rfl
      · simp [crossingTotal, hcross]
    · rw [Bool.or_eq_true, not_or, Bool.not_eq_true, Bool.not_eq_true, Bool.not_eq_false',
        QueueBook.isFilled_eq_false] at hstop
      have htotal : crossingTotal side limit (maker :: rest) =
          maker.remainingQuantity.lots + crossingTotal side limit rest := by
        simp [crossingTotal, hstop.2]
      dsimp only
      split_ifs with hfilled
      · rw [QueueBook.isFilled_iff] at hfilled
        rw [tradedLots_append, tradedLots_fillEvents, ih, htotal, hincoming]
        omega
      · rw [Bool.not_eq_true, QueueBook.isFilled_eq_false] at hfilled
        rw [tradedLots_fillEvents, htotal]
        omega

/-- In a list by rank, what crosses stands in front. -/
theorem crossingTotal_eq_filter
    (h : xs.Pairwise fun a b => side.rank a.price ≤ side.rank b.price) :
    crossingTotal side limit xs = lotsOf (xs.filter (crosses side limit ·.price)) := by
  have hmono : ∀ a b : OrderSnapshot, side.rank a.price ≤ side.rank b.price →
      crosses side limit b.price = true → crosses side limit a.price = true := by
    intro a b hle hb
    cases limit with
    | none => rfl
    | some limit => exact (crossesLevel_iff _ _ _).2 (hle.trans ((crossesLevel_iff _ _ _).1 hb))
  induction xs with
  | nil => rfl
  | cons x xs ih =>
    obtain ⟨hx, hxs⟩ := List.pairwise_cons.1 h
    cases hcross : crosses side limit x.price with
    | true =>
      have htail := ih hxs
      unfold crossingTotal at htail ⊢
      simp only [List.takeWhile_cons, List.filter_cons, hcross, ↓reduceIte, List.map_cons,
        List.sum_cons, lotsOf_cons]
      rw [htail]
    | false =>
      have hnone : (x :: xs).filter (crosses side limit ·.price) = [] := by
        rw [List.filter_eq_nil_iff]
        intro a ha hcrosses
        rcases List.mem_cons.1 ha with rfl | ha
        · simp [hcross] at hcrosses
        · simp [hmono x a (hx a ha) hcrosses] at hcross
      rw [hnone]
      simp [crossingTotal, hcross]

theorem SortedLevels.pairwise_rank {levels : List LevelQueue} (h : SortedLevels side levels) :
    (ordersOf levels).Pairwise fun a b => side.rank a.price ≤ side.rank b.price := by
  induction levels with
  | nil => exact .nil
  | cons l levels ih =>
    have hl := h.prices l List.mem_cons_self
    rw [ordersOf_cons, List.pairwise_append]
    refine ⟨List.pairwise_of_forall_mem_list fun a ha b hb => ?_, ih h.tail, fun a ha b hb => ?_⟩
    · rw [hl a ha, hl b hb]
    · rw [hl a ha]
      exact (h.rank_lt hb).le

end Walk

/-- The lists of orders that level queues stand for. -/
def QueueBook.flatten (q : QueueBook) : PriceTimeBook :=
  ⟨q.symbolConfig, ordersOf q.bids, ordersOf q.asks⟩

theorem QueueBook.flattens (q : QueueBook) : Flattens q q.flatten where
  config := rfl
  resting side := by cases side <;> rfl

/-- While the totals fit, every book reached is described by a naive one. -/
theorem Reachable.shows {core : EngineCore OrderBook}
    (h : Reachable (EngineCore.AllBooks OrderBook.TotalsFit) core) {id : SymbolId}
    {book : OrderBook} (hbook : core.getOrderBook id = some book) :
    ∃ n, Shows book n := by
  obtain ⟨queues, hq, hwhole⟩ := h.whole
  have hrel := hq.rel.books id
  have hlive := hq.live id
  have hw := hwhole id
  unfold EngineCore.getOrderBook at hbook
  rw [hbook] at hrel
  generalize queues.orderBooks[id]? = theirs at hrel hlive hw
  cases hrel with
  | @some _ q href =>
    exact ⟨q.flatten, q, href, ⟨href.ok, (hlive q rfl).totals, hw q rfl, href.rep.sorted⟩,
      q.flattens⟩

section Outcomes
variable {book : OrderBook} {command : PlaceOrderCommand}

/-- Behind the plain guards come the two on liquidity. -/
theorem OrderBook.Admits.placeRejection (h : book.Admits command) :
    book.placeRejection command =
      if command.timeInForce = .po && (book.opposingBook command.side).priceCrosses command.price
      then some .invalidPrice
      else if command.timeInForce = .fok &&
        OrderBook.availableCrossingLots (book.opposingBook command.side)
          (matchingPriceForCommand command) command.quantity.lots < command.quantity.lots
      then some .insufficientBalanceLiquidity
      else none := by
  have hprice : (command.orderType = .limit &&
      !validateSymbolPrice command.price book.symbolConfig) = false := by
    cases htype : command.orderType with
    | limit => simp [h.price htype]
    | market => rfl
  simp [OrderBook.placeRejection, h.orderId, h.clientOrderId, h.open_, h.quantity, hprice]

/-- Every guard passed includes the plain ones. -/
theorem OrderBook.admits_of_placeRejection (h : book.placeRejection command = none) :
    book.Admits command := by
  unfold OrderBook.placeRejection at h
  dsimp only at h
  split at h
  · cases h
  · split at h
    · cases h
    · split at h
      · cases h
      · split at h
        · cases h
        · rename_i hfresh hopen hquantity hprice
          simp only [Bool.or_eq_true, not_or, Bool.not_eq_true] at hfresh
          exact ⟨hfresh.1, hfresh.2, by simpa using hopen, by simpa using hquantity,
            fun hlimit => by simpa [hlimit] using hprice⟩

/-- What the naive book can trade is what the registered orders offer. -/
theorem Shows.crossingTotal {n : PriceTimeBook} (h : Shows book n) (command : PlaceOrderCommand) :
    crossingTotal command.side.opposite (limitOf command) (n.resting command.side.opposite) =
      book.crossingQuantity command := by
  obtain ⟨q, href, hq, hflat⟩ := h
  have hsorted := hq.sorted.sortedLevels command.side.opposite
  have hperm := ((href.rep.registered_perm hq.ok.toKeyed).filter
    fun r => decide (r.side = command.side.opposite)).trans
      (QueueBook.ordersOf_levels_perm hq.ok.toKeyed hq.whole.detached command.side.opposite).symm
  rw [hflat.resting, crossingTotal_eq_filter hsorted.pairwise_rank, OrderBook.crossingQuantity]
  have hpred : ∀ r ∈ ordersOf (q.levels command.side.opposite),
      crosses command.side.opposite (limitOf command) r.price =
        crossesLevel command.side.opposite (matchingPriceForCommand command) r.price :=
    fun r _ => crosses_limitOf command r.price
  rw [List.filter_congr hpred]
  have hfilter := (hperm.filter fun r => crossesLevel command.side.opposite
    (matchingPriceForCommand command) r.price).map (·.remainingQuantity.lots)
  rw [List.filter_filter] at hfilter
  simp only [Bool.and_comm (crossesLevel _ _ _)] at hfilter
  exact hfilter.sum_nat.symm

/-- An order that does not rest trades the smaller of its quantity and what crosses. -/
theorem Shows.tradedLots_processPlace {n : PriceTimeBook} (h : Shows book n)
    (haccepted : book.placeRejection command = none) (hrest : canRest command = false)
    (g : SequenceGenerator) :
    tradedLots (book.processPlace command g).1 =
      min command.quantity.lots (book.crossingQuantity command) := by
  rw [← h.crossingTotal]
  obtain ⟨q, href, hq, hflat⟩ := h
  obtain ⟨hevents, -, -⟩ := href.processPlace command g
  obtain ⟨events, t, hmatch, hwalk, -⟩ := hflat.match_ hq command g
  have htraded := tradedLots_walk n.symbolConfig.symbolId command.side.opposite (limitOf command)
    (n.resting command.side.opposite) (incomingOrder command g.nextSequence) g.nextEvent
  rw [hwalk] at htraded
  rw [hevents, QueueBook.processPlace, ← href.rep.placeRejection, haccepted, hmatch]
  simp only [hrest, Bool.false_and, Bool.false_eq_true, ↓reduceIte]
  exact htraded

/-- A fill-or-kill order is rejected, leaving its book as it was, or trades its whole quantity; with
the other guards passed, it is rejected if and only if too little crosses. -/
theorem fillOrKill_trades_all_or_nothing {core : EngineCore OrderBook}
    (h : Reachable (EngineCore.AllBooks OrderBook.TotalsFit) core) {id : SymbolId}
    (hbook : core.getOrderBook id = some book) (hfok : command.timeInForce = .fok)
    (g : SequenceGenerator) :
    let result := book.processPlace command g
    ((∃ e, result.1 = [.orderRejected e]) ∧ result.2.1 = book ∨
        tradedLots result.1 = command.quantity.lots) ∧
      (book.Admits command → ((∃ e, result.1 = [.orderRejected e]) ↔
        book.crossingQuantity command < command.quantity.lots)) := by
  obtain ⟨n, hshows⟩ := h.shows hbook
  have hrest : canRest command = false := by simp [canRest, hfok]
  have hcross : OrderBook.availableCrossingLots (book.opposingBook command.side)
      (matchingPriceForCommand command) command.quantity.lots < command.quantity.lots ↔
        book.crossingQuantity command < command.quantity.lots := by
    rw [← hshows.crossingTotal]
    obtain ⟨q, href, hq, hflat⟩ := hshows
    rw [OrderBook.opposingBook, href.rep.availableCrossingLots,
      crossingLots_lt (crosses_limitOf command) (hq.sorted.sortedLevels _)
        (fun l hl => hq.total hl) command.quantity.inRange, hflat.resting, Nat.zero_add]
  have hdecides : book.Admits command → ((book.placeRejection command).isSome ↔
      book.crossingQuantity command < command.quantity.lots) := by
    intro hadmits
    rw [hadmits.placeRejection, ← hcross]
    simp [hfok]
  cases hrejection : book.placeRejection command with
  | some reason =>
    have hresult : book.processPlace command g = ([makeRejection g command.commandId
        (optionalOrderId command.orderId) command.userId command.symbolId reason], book,
          g.nextEvent) := by
      rw [OrderBook.processPlace, hrejection]
    rw [hresult]
    refine ⟨Or.inl ⟨⟨_, rfl⟩, rfl⟩, fun hadmits => ?_⟩
    rw [← hdecides hadmits, hrejection]
    exact ⟨fun _ => rfl, fun _ => ⟨_, rfl⟩⟩
  | none =>
    have hadmits := OrderBook.admits_of_placeRejection hrejection
    have henough : ¬book.crossingQuantity command < command.quantity.lots := by
      rw [← hdecides hadmits, hrejection]
      exact Bool.false_ne_true
    have htraded := hshows.tradedLots_processPlace hrejection hrest g
    rw [Nat.min_eq_left (not_lt.1 henough)] at htraded
    refine ⟨Or.inr htraded, fun _ => ⟨?_, fun hless => absurd hless henough⟩⟩
    rintro ⟨e, he⟩
    rw [OrderBook.processPlace, hrejection] at he
    dsimp only at he
    split at he <;> cases he

/-- Buys from both asks of the sample book, or nothing. -/
def sampleFillOrKill : PlaceOrderCommand :=
  ⟨9, 9, 9, 7, 1, .buy, .limit, .fok, ⟨200, by decide⟩, .ofLots 12, 0⟩

theorem fillOrKill_trades_all_or_nothing_sample :
    ∃ book, (sampleCore 4).getOrderBook 1 = some book ∧
      ((∃ e, (book.processPlace sampleFillOrKill .new).1 = [.orderRejected e]) ∧
          (book.processPlace sampleFillOrKill .new).2.1 = book ∨
        tradedLots (book.processPlace sampleFillOrKill .new).1 = 12) := by
  have hsome : ((sampleCore 4).getOrderBook 1).isSome := by decide +kernel
  obtain ⟨book, hbook⟩ := Option.isSome_iff_exists.1 hsome
  exact ⟨book, hbook, (fillOrKill_trades_all_or_nothing sampleCore_reachable hbook rfl .new).1⟩

/-- An accepted order trades nothing if and only if its matching price crosses nothing. -/
theorem Refines.tradesOf_processPlace {q : QueueBook} (h : Refines book q)
    (haccepted : book.placeRejection command = none) (g : SequenceGenerator) :
    tradesOf (book.processPlace command g).1 = [] ↔
      (book.opposingBook command.side).priceCrosses (matchingPriceForCommand command) = false := by
  have hquantity : 0 < command.quantity.lots := by
    have hvalid := (OrderBook.admits_of_placeRejection haccepted).quantity
    simp only [validateSymbolQuantity, Quantity.isValid, Bool.and_eq_true,
      decide_eq_true_eq] at hvalid
    exact hvalid.1.1.1.1
  obtain ⟨hevents, -, -⟩ := h.processPlace command g
  have hsorted := h.rep.sorted.sortedLevels command.side.opposite
  rw [hevents, OrderBook.opposingBook, h.rep.priceCrosses, QueueBook.processPlace,
    ← h.rep.placeRejection, haccepted]
  have hopen : (incomingOrder command g.nextSequence).isFilled = false :=
    QueueBook.isFilled_eq_false.2 hquantity
  have hmatch : tradesOf (QueueBook.matchIncomingOrder
      ⟨q, incomingOrder command g.nextSequence, g.nextEvent⟩).1 = [] ↔
        QueueBook.priceCrosses command.side.opposite (q.levels command.side.opposite)
          (matchingPriceForCommand command) = false := by
    generalize hs : (⟨q, incomingOrder command g.nextSequence, g.nextEvent⟩ :
      QueueBook.MatchState) = s
    have hlevels : s.book.levels s.incoming.side.opposite = q.levels command.side.opposite := by
      rw [← hs]
      rfl
    unfold QueueBook.matchIncomingOrder
    cases hstep : QueueBook.matchStep s with
    | none =>
      have hnone := QueueBook.uncrossed_of_matchStep (by rw [← hs]; exact h.rep.sorted) hstep
        (by rw [← hs]; exact hopen)
      rw [hlevels] at hnone
      rw [QueueBook.matchLoop_of_none hstep, ← hs] at *
      refine ⟨fun _ => ?_, fun _ => rfl⟩
      cases hq : q.levels command.side.opposite with
      | nil => rfl
      | cons l levels => exact hnone l (by rw [hq]; exact List.mem_cons_self)
    | some r =>
      obtain ⟨events, s'⟩ := r
      obtain ⟨l, levels, maker, queue, hfront, -, -, hcross, hfill, -, -⟩ :=
        QueueBook.matchStep_cases hstep
      have htrades := congrArg tradesOf (congrArg Prod.fst hfill)
      rw [tradesOf_fillEvents] at htrades
      rw [QueueBook.matchLoop_of_some hstep, ← hlevels, hfront]
      refine ⟨fun hnil => ?_, fun hcrosses => ?_⟩
      · rw [tradesOf_append, ← htrades] at hnil
        cases hnil
      · rw [← hs] at hcross
        change crossesLevel _ _ _ = false at hcrosses
        exact absurd hcross (by rw [Bool.not_eq_true]; exact hcrosses)
  rw [← hmatch]
  dsimp only
  split
  · rw [← List.singleton_append, tradesOf_append, tradesOf_append]
    simp [tradesOf, acceptedEvent]
  · rfl

/-- A post-only order takes liquidity exactly where it is an admitted market order, something rests
on the other side and its own price does not cross that. -/
theorem postOnly_takes_nothing_iff {Good : EngineCore OrderBook → Prop}
    {core : EngineCore OrderBook} (h : Reachable Good core) {id : SymbolId}
    (hbook : core.getOrderBook id = some book) (hpo : command.timeInForce = .po)
    (g : SequenceGenerator) :
    tradesOf (book.processPlace command g).1 = [] ↔
      ¬(command.orderType = .market ∧ book.Admits command ∧
        (book.opposingBook command.side).bestPrice ≠ none ∧
        (book.opposingBook command.side).priceCrosses command.price = false) := by
  obtain ⟨queues, hq⟩ := h.tracks
  have hrel := hq.rel.books id
  unfold EngineCore.getOrderBook at hbook
  rw [hbook] at hrel
  generalize queues.orderBooks[id]? = theirs at hrel
  cases hrel with
  | @some _ q href =>
    cases hrejection : book.placeRejection command with
    | some reason =>
      rw [OrderBook.processPlace, hrejection]
      refine ⟨fun _ => ?_, fun _ => rfl⟩
      rintro ⟨-, hadmits, -, hcross⟩
      rw [hadmits.placeRejection] at hrejection
      simp [hpo, hcross] at hrejection
    | none =>
      have hadmits := OrderBook.admits_of_placeRejection hrejection
      have hcross : (book.opposingBook command.side).priceCrosses command.price = false := by
        rw [hadmits.placeRejection, hpo] at hrejection
        cases hcrosses : (book.opposingBook command.side).priceCrosses command.price with
        | false => rfl
        | true => simp [hcrosses] at hrejection
      rw [href.tradesOf_processPlace hrejection]
      cases htype : command.orderType with
      | limit => simp [matchingPriceForCommand, htype, hcross]
      | market =>
        have hlimit := crosses_limitOf command
        unfold limitOf at hlimit
        rw [htype] at hlimit
        have hbest := href.bestPrice command.side.opposite
        have hprice := href.rep.priceCrosses command.side.opposite (matchingPriceForCommand command)
        rw [← OrderBook.opposingBook] at hbest hprice
        rw [hprice, hbest]
        simp only [hadmits, hcross, and_true, true_and, not_not]
        cases q.levels command.side.opposite with
        | nil => simp [QueueBook.priceCrosses]
        | cons l levels => simp [QueueBook.priceCrosses, ← hlimit, crosses]

/-- A post-only market order to buy; its price field is zero. -/
def samplePostOnly : PlaceOrderCommand :=
  ⟨9, 9, 9, 7, 1, .buy, .market, .po, .zero, .ofLots 5, 0⟩

theorem postOnly_takes_nothing_iff_sample :
    ∃ book, (sampleCore 4).getOrderBook 1 = some book ∧
      (tradesOf (book.processPlace samplePostOnly .new).1 = [] ↔
        ¬(samplePostOnly.orderType = .market ∧ book.Admits samplePostOnly ∧
          (book.opposingBook .buy).bestPrice ≠ none ∧
          (book.opposingBook .buy).priceCrosses .zero = false)) := by
  have hsome : ((sampleCore 4).getOrderBook 1).isSome := by decide +kernel
  obtain ⟨book, hbook⟩ := Option.isSome_iff_exists.1 hsome
  exact ⟨book, hbook, postOnly_takes_nothing_iff sampleCore_reachable hbook rfl .new⟩

/-- The order takes from the best ask of a reachable book. -/
theorem postOnly_market_order_takes :
    Reachable (EngineCore.AllBooks OrderBook.TotalsFit) (sampleCore 4) ∧
      ∃ book, (sampleCore 4).getOrderBook 1 = some book ∧ samplePostOnly.timeInForce = .po ∧
        tradesOf (book.processPlace samplePostOnly .new).1 ≠ [] := by
  have htakes : ((sampleCore 4).getOrderBook 1).any
      (fun book => decide (tradesOf (book.processPlace samplePostOnly .new).1 ≠ [])) = true := by
    decide +kernel
  obtain ⟨book, hbook, hnot⟩ := (Option.any_eq_true _ _).1 htakes
  exact ⟨sampleCore_reachable, book, hbook, rfl, of_decide_eq_true hnot⟩

end Outcomes

end PerpexEngine
