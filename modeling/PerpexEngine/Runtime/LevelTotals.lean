import PerpexEngine.Core.Admission
import PerpexEngine.Runtime.LiquidationProgress

/-! When the totals of the price levels stay true: as long as what comes to rest at a price leaves
its total within its word. -/
namespace PerpexEngine

/-- What orders hold on one side at one price. -/
def restingAt (side : Side) (price : Price) (orders : List OrderSnapshot) : ℕ :=
  restingTotal price (orders.filter (·.side = side))

section Resting
variable {side : Side} {price : Price} {xs ys : List OrderSnapshot}

theorem restingAt_cons (x : OrderSnapshot) : restingAt side price (x :: xs) =
    (if x.side = side ∧ x.price = price then x.remainingQuantity.lots else 0) +
      restingAt side price xs := by
  unfold restingAt
  by_cases hside : x.side = side <;> simp [hside, restingTotal_cons]

theorem restingAt_append : restingAt side price (xs ++ ys) =
    restingAt side price xs + restingAt side price ys := by
  unfold restingAt
  rw [List.filter_append, restingTotal_append]

theorem restingAt_perm (h : xs.Perm ys) : restingAt side price xs = restingAt side price ys :=
  restingTotal_perm (h.filter _)

theorem restingAt_filter_le (p : OrderSnapshot → Bool) :
    restingAt side price (xs.filter p) ≤ restingAt side price xs := by
  induction xs with
  | nil => exact le_rfl
  | cons x xs ih =>
    rw [List.filter_cons]
    split_ifs
    · rw [restingAt_cons, restingAt_cons]
      exact Nat.add_le_add_left ih _
    · rw [restingAt_cons]
      exact ih.trans (Nat.le_add_left _ _)

end Resting

namespace QueueBook
variable {s s' : MatchState} {events : List EngineEvent} {side : Side} {price : Price}

/-- Matching only takes away. -/
theorem restingAt_matchStep (h : matchStep s = some (events, s')) :
    restingAt side price s'.book.activeOrders ≤ restingAt side price s.book.activeOrders := by
  obtain ⟨maker, others, total, hbefore, -, hafter, -, -, -⟩ := matchStep_active h
  have hlots := reduce_lots (Quantity.min_lots_le_right s.incoming.remainingQuantity
    maker.remainingQuantity)
  rw [restingAt_perm hbefore, restingAt_perm hafter, restingAt_append, restingAt_cons]
  refine Nat.add_le_add_right ?_ _
  split
  · exact Nat.zero_le _
  · rw [restingAt_cons]
    change (if maker.side = side ∧ maker.price = price then _ else 0) + 0 ≤ _
    split
    · rw [hlots]
      exact Nat.sub_le _ _
    · exact le_rfl

theorem restingAt_matchLoop (n : ℕ) (s : MatchState) :
    restingAt side price (matchLoop n s).2.book.activeOrders ≤
      restingAt side price s.book.activeOrders :=
  matchLoop_induction
    (P := fun t => restingAt side price t.book.activeOrders ≤
      restingAt side price s.book.activeOrders)
    (fun _ _ _ h hs => (restingAt_matchStep hs).trans h) n s le_rfl

/-- What an incoming order has left is what it came with less its trades. -/
theorem remaining_matchLoop (n : ℕ) (s : MatchState) :
    tradedLots (matchLoop n s).1 + (matchLoop n s).2.incoming.remainingQuantity.lots =
      s.incoming.remainingQuantity.lots := by
  induction n generalizing s with
  | zero => exact Nat.zero_add _
  | succ n ih =>
    cases hs : matchStep s with
    | none =>
      rw [matchLoop_of_none hs]
      exact Nat.zero_add _
    | some r =>
      obtain ⟨events, t⟩ := r
      obtain ⟨maker, others, total, -, -, -, -, hevents, hincoming⟩ := matchStep_active hs
      have hle := Quantity.min_lots_le_left s.incoming.remainingQuantity maker.remainingQuantity
      have htraded := tradedLots_fillEvents s.sequenceGenerator s.book.symbolConfig.symbolId maker
        s.incoming (s.incoming.remainingQuantity.min maker.remainingQuantity) total
      rw [hevents] at htraded
      rw [matchLoop_of_some hs, tradedLots_append, Nat.add_assoc, ih t, htraded, hincoming,
        reduce_lots hle]
      exact Nat.add_sub_cancel' hle

/-- What an order leaves of itself in the book, if it may rest there. -/
def leftover (book : QueueBook) (command : PlaceOrderCommand) : ℕ :=
  command.quantity.lots - crossingTotal command.side.opposite (limitOf command)
    (ordersOf (book.levels command.side.opposite))

/-- A placed order adds what it leaves at its own price, and nothing elsewhere. -/
theorem restingAt_processPlace {book : QueueBook} (h : book.Exact) (command : PlaceOrderCommand)
    (g : SequenceGenerator) :
    restingAt side price (book.processPlace command g).2.1.activeOrders ≤
      restingAt side price book.activeOrders +
        if book.placeRejection command = none ∧ canRest command = true ∧ command.side = side ∧
          command.price = price then book.leftover command else 0 := by
  unfold processPlace
  cases hrejected : book.placeRejection command with
  | some reason => exact Nat.le_add_right _ _
  | none =>
    obtain ⟨events, t, hmatch, hwalk, -, hside, -⟩ := book.flattens.match_ h command g
    have hbefore := @restingAt_matchLoop side price ((ordersOf (book.levels (incomingOrder command
      g.nextSequence).side.opposite)).length + 1)
      ⟨book, incomingOrder command g.nextSequence, g.nextEvent⟩
    have hremaining := remaining_matchLoop ((ordersOf (book.levels (incomingOrder command
      g.nextSequence).side.opposite)).length + 1)
      ⟨book, incomingOrder command g.nextSequence, g.nextEvent⟩
    have htraded := tradedLots_walk book.flatten.symbolConfig.symbolId command.side.opposite
      (limitOf command) (book.flatten.resting command.side.opposite)
      (incomingOrder command g.nextSequence) g.nextEvent
    rw [hwalk] at htraded
    unfold matchIncomingOrder at hmatch
    rw [hmatch] at hbefore hremaining
    have hflat : book.flatten.resting command.side.opposite =
        ordersOf (book.levels command.side.opposite) := book.flattens.resting _
    rw [hflat] at htraded
    have hleft : t.incoming.remainingQuantity.lots = book.leftover command := by
      have hquantity : (incomingOrder command g.nextSequence).remainingQuantity.lots =
        command.quantity.lots := rfl
      unfold leftover
      dsimp only at htraded hremaining
      omega
    dsimp only [matchIncomingOrder]
    rw [hmatch]
    dsimp only at hbefore ⊢
    have hshare : ∀ x : ℕ, x ≤ restingAt side price book.activeOrders →
        x ≤ restingAt side price book.activeOrders +
          if none = (none : Option RejectReason) ∧ canRest command = true ∧ command.side = side ∧
            command.price = price then book.leftover command else 0 :=
      fun x hx => hx.trans (Nat.le_add_right _ _)
    by_cases hrests : (canRest command && !t.incoming.isFilled) = true
    · rw [if_pos hrests]
      dsimp only
      rw [restingAt_perm (restOrder_perm _ _), restingAt_cons]
      dsimp only
      rw [hside, hleft, Nat.add_comm]
      have hmay : canRest command = true := (Bool.and_eq_true _ _ ▸ hrests).1
      simp only [hmay, true_and]
      exact Nat.add_le_add_right hbefore _
    · rw [if_neg hrests]
      exact hshare _ hbefore

/-- A cancel only takes away. -/
theorem restingAt_processCancel {book : QueueBook} (h : book.Keyed) (command : CancelOrderCommand)
    (g : SequenceGenerator) :
    restingAt side price (book.processCancel command g).2.1.activeOrders ≤
      restingAt side price book.activeOrders := by
  unfold processCancel
  dsimp only
  cases hfound : (book.lookup (book.cancelTarget command)).filter
      fun o => o.userId = command.userId with
  | none => exact le_rfl
  | some o =>
    obtain ⟨hx, -⟩ := h.lookup_eq_some.1 (Option.filter_eq_some_iff.1 hfound).1
    change restingAt side price (book.releaseOrder o).activeOrders ≤ _
    rw [restingAt_perm (h.releaseOrder_perm hx)]
    exact restingAt_filter_le _

end QueueBook
/-- What a placed order would leave at its price still fits the total of a level. -/
def OrderBook.RestFits (book : OrderBook) (command : PlaceOrderCommand) : Prop :=
  restingAt command.side command.price book.registered +
    (command.quantity.lots - book.crossingQuantity command) < 2 ^ 64

/-- The step brings no order to rest that the total of its level has no room for. -/
def CoreStep.Fits (core : EngineCore OrderBook) : CoreStep → Prop
  | .process (.placeOrder place) => core.Admits place → canRest place = true →
    ∀ book, core.orderBooks[place.symbolId]? = some book → book.RestFits place
  | _ => True

/-- The cores reached by steps that fit the core they are taken in. -/
inductive ReachableByFits : EngineCore OrderBook → Prop where
  | empty : ReachableByFits .empty
  | step {core : EngineCore OrderBook} (s : CoreStep) (h : ReachableByFits core)
      (hfits : s.Fits core) : ReachableByFits (core.step s)

section Fits
variable {core : EngineCore OrderBook} {queues : EngineCore QueueBook}

/-- No price of the queues holds more than a 64-bit total can say. -/
def QueueBook.RestingFits (q : QueueBook) : Prop :=
  ∀ side price, restingAt side price q.activeOrders < 2 ^ 64

theorem Refines.totalsFit_iff {book : OrderBook} {q : QueueBook} (h : Refines book q) :
    book.TotalsFit ↔ q.RestingFits := by
  have hperm := h.rep.registered_perm h.ok.toKeyed
  refine forall₂_congr fun side price => ?_
  rw [← restingAt_perm hperm]
  rfl

theorem Tracks.totalsFit_iff (h : Tracks core queues) :
    core.AllBooks OrderBook.TotalsFit ↔ queues.AllBooks QueueBook.RestingFits := by
  constructor
  · intro hfits id q hq
    have hrel := h.rel.books id
    rw [hq] at hrel
    generalize hbook : core.orderBooks[id]? = mine at hrel
    cases hrel with
    | some href => exact href.totalsFit_iff.1 (hfits id _ hbook)
  · intro hfits id book hbook
    have hrel := h.rel.books id
    rw [hbook] at hrel
    generalize hq : queues.orderBooks[id]? = theirs at hrel
    cases hrel with
    | some href => exact href.totalsFit_iff.2 (hfits id _ hq)

/-- What the code and its queues say of the room for an order. -/
theorem Refines.restFits_iff {book : OrderBook} {q : QueueBook} (h : Refines book q)
    (hq : q.Exact) (command : PlaceOrderCommand) : book.RestFits command ↔
      restingAt command.side command.price q.activeOrders + q.leftover command < 2 ^ 64 := by
  have hshows : Shows book q.flatten := ⟨q, h, hq, q.flattens⟩
  have hcrossing := hshows.crossingTotal command
  rw [q.flattens.resting] at hcrossing
  unfold OrderBook.RestFits QueueBook.leftover
  rw [hcrossing, restingAt_perm (h.rep.registered_perm h.ok.toKeyed)]

theorem restingFits_place (h : Tracks core queues) (hwhole : queues.AllBooks QueueBook.Whole)
    (hfits : queues.AllBooks QueueBook.RestingFits) (place : PlaceOrderCommand)
    (hstep : CoreStep.Fits core (.process (.placeOrder place))) :
    (queues.process (.placeOrder place)).2.AllBooks QueueBook.RestingFits := by
  simp only [EngineCore.process]
  rcases queues.processPlaceOrder_outcome place with ⟨reason, record, heq⟩ |
    ⟨config, q, hconfig, hq, hvalid, heq⟩
  · rw [heq]
    exact hfits
  · rw [heq]
    intro id q' hq'
    simp only [EngineCore.finish, Std.ExtTreeMap.getElem?_insert] at hq'
    split at hq'
    · cases hq'
      intro side price
      have hrel := h.rel.books place.symbolId
      rw [hq] at hrel
      generalize hbook : core.orderBooks[place.symbolId]? = mine at hrel
      cases hrel with
      | @some book _ href =>
        have hexact : q.Exact :=
          ⟨href.ok, (h.live _ q hq).totals, hwhole _ q hq, href.rep.sorted⟩
        refine (QueueBook.restingAt_processPlace hexact place _).trans_lt ?_
        split
        · rename_i hrests
          obtain ⟨haccepted, hmay, rfl, rfl⟩ := hrests
          have hadmits : core.Admits place := by
            refine ⟨config, book, h.rel.symbolConfigs ▸ hconfig, hbook,
              h.rel.idempotencyIndex ▸ hvalid, ?_⟩
            rw [href.rep.placeRejection]
            exact haccepted
          exact (href.restFits_iff hexact place).1 (hstep hadmits hmay book hbook)
        · exact hfits _ q hq side price
    · exact hfits id q' hq'

theorem restingFits_cancel (h : Tracks core queues)
    (hfits : queues.AllBooks QueueBook.RestingFits) (cancel : CancelOrderCommand) :
    (queues.process (.cancelOrder cancel)).2.AllBooks QueueBook.RestingFits := by
  simp only [EngineCore.process]
  rcases queues.processCancelOrder_cases cancel with ⟨reason, record, heq⟩ |
    ⟨config, q, accepted, -, hq, heq⟩
  · rw [heq]
    exact hfits
  · rw [heq]
    refine @BookInvariant.insert _ (fun _ => QueueBook.RestingFits) .new _ hfits _ _
      (fun side price => ?_)
    exact (QueueBook.restingAt_processCancel (h.live _ q hq).ok.toKeyed cancel _).trans_lt
      (hfits _ q hq side price)

theorem restingFits_restarted (hfits : queues.AllBooks QueueBook.RestingFits) :
    queues.restarted.AllBooks QueueBook.RestingFits := by
  intro id q' hq'
  rw [EngineCore.restarted, Std.ExtTreeMap.getElem?_map] at hq'
  obtain ⟨q, hq, rfl⟩ := Option.map_eq_some_iff.1 hq'
  intro side price
  rw [restingAt_perm q.reinserted_perm]
  exact hfits id q hq side price

/-- A step that fits keeps every total within its word. -/
theorem Tracks.totalsFit_step (h : Tracks core queues) (hwhole : queues.AllBooks QueueBook.Whole)
    (hfits : core.AllBooks OrderBook.TotalsFit) (s : CoreStep) (hstep : s.Fits core) :
    (core.step s).AllBooks OrderBook.TotalsFit := by
  have hqueues := h.totalsFit_iff.1 hfits
  cases s with
  | addSymbol config =>
    refine (h.addSymbol config).totalsFit_iff.2
      (@BookInvariant.insert _ (fun _ => QueueBook.RestingFits) .new _ hqueues _ _ ?_)
    exact fun side price => Nat.two_pow_pos 64
  | restart => exact h.restart.totalsFit_iff.2 (restingFits_restarted hqueues)
  | process command =>
    refine (h.process command).totalsFit_iff.2 ?_
    cases command with
    | malformed => exact hqueues
    | placeOrder place => exact restingFits_place h hwhole hqueues place hstep
    | cancelOrder cancel => exact restingFits_cancel h hqueues cancel

theorem ReachableByFits.reachable (h : ReachableByFits core) :
    Reachable (EngineCore.AllBooks OrderBook.TotalsFit) core := by
  induction h with
  | empty => exact .empty
  | step s _ hfits ih =>
    obtain ⟨queues, htracks, hwhole⟩ := ih.whole
    refine .step s ih (htracks.totalsFit_step hwhole ?_ s hfits)
    cases ih with
    | empty => exact BookInvariant.empty fun _ => OrderBook.TotalsFit
    | step _ _ hgood => exact hgood

/-- Every level shows what its orders have left, and never nothing, as long as every order that the
core lets rest fits the total of its level. -/
theorem level_totals_true (h : ReachableByFits core) : core.AllBooks fun book =>
    ∀ side, ∀ lp ∈ OrderBook.storedLevels (book.bookForSide side), ∃ level chain,
      (book.bookForSide side).levels.read lp = some level ∧ LevelChain book.orders level chain ∧
        level.totalQuantity.lots =
          ((chain.filterMap book.orders.read).map (·.remainingQuantity.lots)).sum ∧
        0 < level.totalQuantity.lots := by
  intro id book hbook side lp hlp
  have hconsistent := reachable_books_consistent h.reachable id book hbook
  obtain ⟨level, chain, hlevel, hchain, horders⟩ := (hconsistent.sides side).levels lp hlp
  refine ⟨level, chain, hlevel, hchain, hchain.total, ?_⟩
  cases chain with
  | nil => exact absurd rfl hchain.nonempty
  | cons p chain =>
    obtain ⟨o, ho, -⟩ := horders p List.mem_cons_self
    have hpositive := hconsistent.positive p o ho
    rw [hchain.total, List.filterMap_cons_some ho, List.map_cons, List.sum_cons]
    omega

end Fits

instance (book : OrderBook) (command : PlaceOrderCommand) : Decidable (book.RestFits command) :=
  inferInstanceAs (Decidable (_ < _))

theorem CoreStep.fits_of_check {core : EngineCore OrderBook} {place : PlaceOrderCommand}
    (h : (core.orderBooks[place.symbolId]?.all fun book => decide (book.RestFits place)) = true) :
    CoreStep.Fits core (.process (.placeOrder place)) := by
  intro _ _ book hbook
  rw [hbook] at h
  exact of_decide_eq_true h

theorem level_totals_true_sample : (sampleCore 4).orderBooks.contains 1 = true ∧
    (sampleCore 4).AllBooks fun book =>
      ∀ side, ∀ lp ∈ OrderBook.storedLevels (book.bookForSide side), ∃ level chain,
        (book.bookForSide side).levels.read lp = some level ∧
          LevelChain book.orders level chain ∧
          level.totalQuantity.lots =
            ((chain.filterMap book.orders.read).map (·.remainingQuantity.lots)).sum ∧
          0 < level.totalQuantity.lots := by
  have h1 : ReachableByFits (sampleCore 1) := .step (.addSymbol sampleConfig) .empty trivial
  have h2 : ReachableByFits (sampleCore 2) :=
    .step (.process (sampleOrder 1 .sell 100 10)) h1 (CoreStep.fits_of_check (by decide +kernel))
  have h3 : ReachableByFits (sampleCore 3) :=
    .step (.process (sampleOrder 2 .sell 200 5)) h2 (CoreStep.fits_of_check (by decide +kernel))
  exact ⟨by decide +kernel, level_totals_true (.step .restart h3 trivial)⟩

/-- A market that takes any quantity. -/
def sampleVastConfig : SymbolConfig :=
  { sampleConfig with maxQuantity := .ofLots (2 ^ 63 - 1) }

def sampleVastOrder (n : ℕ) (quantity : Fin (2 ^ 63)) : RuntimeStep :=
  .input ⟨engineInputTopic, 0, n⟩ (.ok ⟨.placeOrder
    { inputId := some (ascii "in-" ++ decimal n)
      envelope := sampleEnvelope n 31
      orderId := n
      reservationId := ascii "res-" ++ decimal n
      marketId := 1
      side := .long
      orderType := .limit
      timeInForce := .gtc
      price := 100
      quantity := quantity.val
      reduceOnly := false
      marginAsset := ascii "USDC"
      reservedMarginAmount := 100
      leverage := 10 }, by
    have hquantity := quantity.isLt
    unfold ParsedEngineInput.WellFormed FitsInt64
    dsimp only
    omega⟩) .live

@[irreducible] def sampleVast : EngineRuntime :=
  ((EngineRuntime.new { sampleRuntimeConfig with symbols := [sampleVastConfig] }).run
    [sampleVastOrder 1 ⟨2 ^ 63 - 1, by decide⟩, sampleVastOrder 2 ⟨2 ^ 63 - 1, by decide⟩,
      sampleVastOrder 3 ⟨2, by decide⟩]).2

/-- A check of the level that stands best. -/
def OrderBook.bestLevelShows (book : OrderBook) (side : Side) (total resting : ℕ) : Bool :=
  (book.bookForSide side).bestLevel.any fun lp =>
    ((book.bookForSide side).levels.read lp).any fun level =>
      level.totalQuantity.lots == total && restingAt side level.price book.registered == resting

/-- Three bids at one price make its level show nothing, though they hold more than any word. -/
theorem level_total_wraps : sampleVastConfig.Loadable ∧ ∃ book lp level,
    sampleVast.core.orderBooks[(1 : SymbolId)]? = some book ∧
      (book.bookForSide .buy).bestLevel = some lp ∧
        (book.bookForSide .buy).levels.read lp = some level ∧ level.totalQuantity.lots = 0 ∧
          restingAt .buy level.price book.registered = 2 ^ 64 := by
  refine ⟨⟨by decide, by decide, by decide, by decide, by decide, by decide, by decide⟩, ?_⟩
  have hshows : (sampleVast.core.orderBooks[(1 : SymbolId)]?.any fun book =>
      book.bestLevelShows .buy 0 (2 ^ 64)) = true := by decide +kernel
  generalize sampleVast = rt at hshows ⊢
  obtain ⟨book, hbook, hbest⟩ := (Option.any_eq_true _ _).1 hshows
  obtain ⟨lp, hlp, hread⟩ := (Option.any_eq_true _ _).1 hbest
  obtain ⟨level, hlevel, htotals⟩ := (Option.any_eq_true _ _).1 hread
  rw [Bool.and_eq_true, beq_iff_eq, beq_iff_eq] at htotals
  exact ⟨book, lp, level, hbook, hlp, hlevel, htotals⟩

end PerpexEngine
