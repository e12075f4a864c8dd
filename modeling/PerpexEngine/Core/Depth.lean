import PerpexEngine.Core.SnapshotOrder

/-! Folding the book deltas of a run gives the aggregated depth of every book. -/
namespace PerpexEngine

/-- Lots by side and price; no entry where nothing rests. -/
abbrev Depth := Side → Price → Option ℕ

/-- The entry for a total; zero deletes it. -/
def depthEntry (lots : ℕ) : Option ℕ := if lots = 0 then none else some lots

/-- One event on the depth of one symbol. -/
def applyDelta (symbolId : SymbolId) (depth : Depth) : EngineEvent → Depth
  | .orderBookDelta e =>
    if e.symbolId = symbolId then
      fun side price => if side = e.side ∧ price = e.price then depthEntry e.totalQuantityAtPrice.lots
        else depth side price
    else depth
  | _ => depth

def depthAfter (symbolId : SymbolId) (events : List EngineEvent) : Depth :=
  events.foldl (applyDelta symbolId) fun _ _ => none

/-- The aggregated depth of lists of resting orders. -/
def depthOf (resting : Side → List OrderSnapshot) : Depth :=
  fun side price => depthEntry (restingTotal price (resting side))

theorem restingTotal_cons (price : Price) (x : OrderSnapshot) (xs : List OrderSnapshot) :
    restingTotal price (x :: xs) =
      (if x.price = price then x.remainingQuantity.lots else 0) + restingTotal price xs := by
  unfold restingTotal
  by_cases h : x.price = price <;> simp [h]

theorem applyDelta_other {symbolId : SymbolId} {events : List EngineEvent} (depth : Depth)
    (h : ∀ e ∈ events, ∀ d, e = .orderBookDelta d → d.symbolId ≠ symbolId) :
    events.foldl (applyDelta symbolId) depth = depth := by
  induction events generalizing depth with
  | nil => rfl
  | cons e events ih =>
    have hstep : applyDelta symbolId depth e = depth := by
      cases e <;> simp only [applyDelta]
      rename_i d
      exact if_neg (h _ List.mem_cons_self d rfl)
    rw [List.foldl_cons, hstep]
    exact ih depth fun e he => h e (List.mem_cons_of_mem _ he)

theorem fillStatusEvent_delta {g : SequenceGenerator} {o : OrderSnapshot} {d : OrderBookDelta} :
    fillStatusEvent g o ≠ .orderBookDelta d := by
  unfold fillStatusEvent
  split_ifs <;> simp

/-- The four events of a fill carry one delta. -/
theorem foldl_fillEvents (symbolId : SymbolId) (depth : Depth) (g : SequenceGenerator)
    (maker incoming : OrderSnapshot) (fillQuantity total : Quantity) :
    (fillEvents g symbolId maker incoming fillQuantity total).1.foldl (applyDelta symbolId) depth =
      fun side price => if side = maker.side ∧ price = maker.price then depthEntry total.lots
        else depth side price := by
  have hstatus : ∀ depth g o, applyDelta symbolId depth (fillStatusEvent g o) = depth := by
    intro depth g o
    unfold fillStatusEvent
    split_ifs <;> rfl
  simp only [fillEvents, List.foldl_cons, List.foldl_nil, hstatus]
  simp [applyDelta]

section Walk
variable {symbolId : SymbolId} {side : Side} {limit : Option Price} {xs : List OrderSnapshot}

/-- The deltas of a walk follow the list it eats from. -/
theorem depth_walk (incoming : OrderSnapshot) (g : SequenceGenerator) {depth : Depth}
    (hdepth : ∀ price, depth side price = depthEntry (restingTotal price xs))
    (hside : ∀ r ∈ xs, r.side = side) (hfits : ∀ price, restingTotal price xs < 2 ^ 64) :
    ∀ s price, (walk symbolId side limit xs incoming g).events.foldl (applyDelta symbolId) depth
      s price = if s = side then depthEntry (restingTotal price
        (walk symbolId side limit xs incoming g).resting) else depth s price := by
  induction xs generalizing incoming g depth with
  | nil =>
    intro s price
    unfold walk
    split_ifs with hs
    · rw [hs]
      exact hdepth price
    · rfl
  | cons maker rest ih =>
    unfold walk
    split_ifs with hstop
    · intro s price
      split_ifs with hs
      · rw [hs]
        exact hdepth price
      · rfl
    · generalize hf : incoming.remainingQuantity.min maker.remainingQuantity = f
      have hle : f.lots ≤ maker.remainingQuantity.lots := by
        rw [← hf]
        exact Quantity.min_lots_le_right _ _
      have hmaker : maker.side = side := hside maker List.mem_cons_self
      have hprice : (maker.reduce f).price = maker.price := rfl
      have hlots : (maker.reduce f).remainingQuantity.lots =
          maker.remainingQuantity.lots - f.lots := Quantity.lots_subtractLots hle
      have htotal : restingTotal maker.price (maker.reduce f :: rest) < 2 ^ 64 := by
        have h := hfits maker.price
        rw [restingTotal_cons, if_pos rfl] at h
        rw [restingTotal_cons, if_pos hprice, hlots]
        omega
      have hfold := foldl_fillEvents symbolId depth g maker incoming f
        (.ofLots (restingTotal maker.price (maker.reduce f :: rest)))
      rw [Quantity.lots_ofLots htotal] at hfold
      have hnext : ∀ price, (if side = maker.side ∧ price = maker.price then
          depthEntry (restingTotal maker.price (maker.reduce f :: rest))
          else depth side price) = depthEntry (restingTotal price (maker.reduce f :: rest)) := by
        intro price
        split_ifs with h
        · rw [h.2]
        · have hne : maker.price ≠ price := fun heq => h ⟨hmaker.symm, heq.symm⟩
          rw [hdepth, restingTotal_cons, restingTotal_cons, if_neg hne]
          exact congrArg depthEntry (congrArg (· + _) (if_neg hne).symm)
      dsimp only
      split_ifs with hfilled
      · have hzero : (maker.reduce f).remainingQuantity.lots = 0 :=
          QueueBook.isFilled_iff.1 hfilled
        have hrest : ∀ price, restingTotal price (maker.reduce f :: rest) =
            restingTotal price rest := by
          intro price
          rw [restingTotal_cons, hzero]
          split_ifs <;> exact Nat.zero_add _
        have hdepth' := fun price => (hnext price).trans (congrArg depthEntry (hrest price))
        have hfits' : ∀ price, restingTotal price rest < 2 ^ 64 := by
          intro price
          have h := hfits price
          rw [restingTotal_cons] at h
          omega
        intro s price
        rw [List.foldl_append, hfold, ih (incoming.reduce f) (fillEvents g symbolId maker incoming f
          (.ofLots (restingTotal maker.price (maker.reduce f :: rest)))).2 hdepth'
          (fun r hr => hside r (List.mem_cons_of_mem _ hr)) hfits']
        split_ifs with hs h
        · rfl
        · exact absurd (h.1.trans hmaker) hs
        · rfl
      · intro s price
        rw [hfold]
        by_cases hs : s = side
        · rw [hs, if_pos rfl]
          exact hnext price
        · rw [if_neg hs]
          exact if_neg fun h => hs (h.1.trans hmaker)

end Walk

/-- The naive book as its own lists show it to be in every run. -/
structure PriceTimeBook.Tidy (n : PriceTimeBook) : Prop where
  sided : ∀ side, ∀ r ∈ n.resting side, r.side = side
  ids : ∀ side, ((n.resting side).map (·.orderId)).Nodup
  fits : n.Fits

theorem Shows.tidy {book : OrderBook} {n : PriceTimeBook} (h : Shows book n) : n.Tidy := by
  obtain ⟨q, -, hq, hflat⟩ := h
  refine ⟨fun side r hr => ?_, fun side => ?_, fun side price => ?_⟩
  · rw [hflat.resting] at hr
    exact hq.ok.sided side r hr
  · have hids := ((QueueBook.activeOrders_perm q side).map (·.orderId)).nodup_iff.1 hq.ok.ids
    rw [List.map_append, List.nodup_append] at hids
    rw [hflat.resting]
    exact hids.1
  · rw [hflat.resting]
    exact hq.restingTotal_lt side price

/-- Every delta of these events is about the symbol. -/
def DeltasOf (symbolId : SymbolId) (events : List EngineEvent) : Prop :=
  ∀ e ∈ events, ∀ d, e = .orderBookDelta d → d.symbolId = symbolId

theorem DeltasOf.append {symbolId : SymbolId} {xs ys : List EngineEvent} (hx : DeltasOf symbolId xs)
    (hy : DeltasOf symbolId ys) : DeltasOf symbolId (xs ++ ys) := by
  intro e he
  rcases List.mem_append.1 he with he | he
  · exact hx e he
  · exact hy e he

theorem deltasOf_fillEvents (symbolId : SymbolId) (g : SequenceGenerator)
    (maker incoming : OrderSnapshot) (fillQuantity total : Quantity) :
    DeltasOf symbolId (fillEvents g symbolId maker incoming fillQuantity total).1 := by
  intro e he d hd
  subst hd
  simp only [fillEvents, List.mem_cons, List.not_mem_nil, or_false, reduceCtorEq, false_or,
    EngineEvent.orderBookDelta.injEq] at he
  rcases he with he | he | he
  · exact absurd he.symm fillStatusEvent_delta
  · exact absurd he.symm fillStatusEvent_delta
  · rw [he]

theorem deltasOf_walk (symbolId : SymbolId) (side : Side) (limit : Option Price)
    (xs : List OrderSnapshot) (incoming : OrderSnapshot) (g : SequenceGenerator) :
    DeltasOf symbolId (walk symbolId side limit xs incoming g).events := by
  induction xs generalizing incoming g with
  | nil => intro e he; cases he
  | cons maker rest ih =>
    unfold walk
    split_ifs
    · intro e he; cases he
    · dsimp only
      split_ifs
      · exact (deltasOf_fillEvents _ _ _ _ _ _).append (ih _ _)
      · exact deltasOf_fillEvents _ _ _ _ _ _

theorem restingTotal_insertByPriceTime (side : Side) (x : OrderSnapshot) (price : Price)
    (xs : List OrderSnapshot) :
    restingTotal price (insertByPriceTime side x xs) = restingTotal price (x :: xs) := by
  induction xs with
  | nil => rfl
  | cons r xs ih =>
    unfold insertByPriceTime
    split_ifs
    · rfl
    · rw [restingTotal_cons, ih]
      simp only [restingTotal_cons]
      omega

namespace PriceTimeBook
variable {n : PriceTimeBook} {depth : Depth}

@[simp] theorem resting_setResting (n : PriceTimeBook) (side s : Side)
    (orders : List OrderSnapshot) :
    (n.setResting side orders).resting s = if s = side then orders else n.resting s := by
  cases side <;> cases s <;> rfl

theorem symbolConfig_setResting (n : PriceTimeBook) (side : Side) (orders : List OrderSnapshot) :
    (n.setResting side orders).symbolConfig = n.symbolConfig := by
  cases side <;> rfl

theorem symbolConfig_processPlace (n : PriceTimeBook) (command : PlaceOrderCommand)
    (g : SequenceGenerator) : (n.processPlace command g).2.1.symbolConfig = n.symbolConfig := by
  unfold processPlace
  cases n.placeRejection command with
  | some reason => rfl
  | none =>
    dsimp only
    split_ifs <;> simp only [symbolConfig_setResting]

theorem symbolConfig_processCancel (n : PriceTimeBook) (command : CancelOrderCommand)
    (g : SequenceGenerator) : (n.processCancel command g).2.1.symbolConfig = n.symbolConfig := by
  unfold processCancel
  dsimp only
  split
  · exact n.symbolConfig_setResting _ _
  · rfl

theorem Fits.processCancel (h : n.Fits) (command : CancelOrderCommand) (g : SequenceGenerator) :
    (n.processCancel command g).2.1.Fits := by
  unfold PriceTimeBook.processCancel
  dsimp only
  split
  · rename_i o _
    intro side price
    unfold cancelOrder
    dsimp only
    rw [resting_setResting]
    split_ifs with hs
    · refine lt_of_le_of_lt ?_ (h o.side price)
      unfold restingTotal
      rw [List.filter_comm]
      exact lotsOf_filter_le _ _
    · exact h side price
  · exact h

/-- Placing an order moves the depth as its deltas say. -/
theorem Tidy.depth_processPlace (h : n.Tidy) (command : PlaceOrderCommand) (g : SequenceGenerator)
    (hsymbol : command.symbolId = n.symbolConfig.symbolId)
    (hpost : (n.processPlace command g).2.1.Fits) :
    (n.processPlace command g).1.foldl (applyDelta command.symbolId) (depthOf n.resting) =
        depthOf (n.processPlace command g).2.1.resting ∧
      DeltasOf command.symbolId (n.processPlace command g).1 := by
  unfold processPlace at hpost ⊢
  cases hr : n.placeRejection command with
  | some reason =>
    refine ⟨rfl, fun e he d hd => ?_⟩
    rw [List.mem_singleton.1 he] at hd
    cases hd
  | none =>
    rw [hr] at hpost
    have hwalk := @depth_walk command.symbolId command.side.opposite (limitOf command)
      (n.resting command.side.opposite) (incomingOrder command g.nextSequence) g.nextEvent
      (depthOf n.resting) (fun _ => rfl) (h.sided command.side.opposite)
      (fun price => h.fits _ price)
    have hdeltas := deltasOf_walk command.symbolId command.side.opposite (limitOf command)
      (n.resting command.side.opposite) (incomingOrder command g.nextSequence) g.nextEvent
    have haccepted : DeltasOf command.symbolId [acceptedEvent command g] := by
      intro e he d hd
      rw [List.mem_singleton.1 he] at hd
      cases hd
    rw [← hsymbol] at hpost ⊢
    dsimp only at hpost ⊢
    generalize walk command.symbolId command.side.opposite (limitOf command)
      (n.resting command.side.opposite) (incomingOrder command g.nextSequence) g.nextEvent =
        w at *
    have hmatched : (acceptedEvent command g :: w.events).foldl (applyDelta command.symbolId)
        (depthOf n.resting) = depthOf (n.setResting command.side.opposite w.resting).resting := by
      funext s price
      rw [List.foldl_cons]
      change w.events.foldl (applyDelta command.symbolId) (depthOf n.resting) s price = _
      rw [hwalk]
      simp only [depthOf, resting_setResting]
      split_ifs <;> rfl
    split_ifs at hpost ⊢
    · generalize hx : ({ w.incoming with price := command.price } : OrderSnapshot) = x at hpost ⊢
      have hxprice : x.price = command.price := by rw [← hx]
      refine ⟨?_, (haccepted.append hdeltas).append ?_⟩
      · have hlots := hpost command.side command.price
        rw [resting_setResting, if_pos rfl] at hlots
        rw [List.foldl_append, hmatched]
        funext s price
        simp only [List.foldl_cons, List.foldl_nil, applyDelta, ↓reduceIte,
          Quantity.lots_ofLots hlots]
        by_cases hs : s = command.side
        · by_cases hprice : price = command.price
          · rw [if_pos ⟨hs, hprice⟩, hs, hprice]
            simp only [depthOf, resting_setResting, ↓reduceIte]
          · rw [if_neg fun h => hprice h.2]
            simp only [depthOf, resting_setResting, hs, ↓reduceIte,
              restingTotal_insertByPriceTime, restingTotal_cons]
            have hne : ¬x.price = price := fun h => hprice (h.symm.trans hxprice)
            rw [if_neg hne, Nat.zero_add]
        · rw [if_neg fun h => hs h.1]
          simp only [depthOf, resting_setResting, hs, ↓reduceIte]
      · intro e he d hd
        rw [List.mem_singleton.1 he] at hd
        cases hd
        rfl
    · exact ⟨hmatched, haccepted.append hdeltas⟩

theorem mem_active_of_cancel {command : CancelOrderCommand} {o : OrderSnapshot}
    (ho : (n.lookup (n.cancelTarget command)).filter (fun o => o.userId = command.userId) = some o)
    (h : n.Tidy) : o ∈ n.resting o.side := by
  have hmem := List.mem_of_find?_eq_some (Option.filter_eq_some_iff.1 ho).1
  rcases List.mem_append.1 hmem with hmem | hmem
  · rw [h.sided .buy o hmem]
    exact hmem
  · rw [h.sided .sell o hmem]
    exact hmem

/-- Cancelling an order moves the depth as its delta says. -/
theorem Tidy.depth_processCancel (h : n.Tidy) (command : CancelOrderCommand) (g : SequenceGenerator)
    (hsymbol : command.symbolId = n.symbolConfig.symbolId) :
    (n.processCancel command g).1.foldl (applyDelta command.symbolId) (depthOf n.resting) =
        depthOf (n.processCancel command g).2.1.resting ∧
      DeltasOf command.symbolId (n.processCancel command g).1 := by
  unfold processCancel
  dsimp only
  cases ho : (n.lookup (n.cancelTarget command)).filter fun o => o.userId = command.userId with
  | none =>
    refine ⟨rfl, fun e he d hd => ?_⟩
    rw [List.mem_singleton.1 he] at hd
    cases hd
  | some o =>
    have hmem := mem_active_of_cancel ho h
    have hle : restingTotal o.price ((n.resting o.side).filter fun r => r.orderId ≠ o.orderId) <
        2 ^ 64 := by
      refine lt_of_le_of_lt ?_ (h.fits o.side o.price)
      unfold restingTotal
      rw [List.filter_comm]
      exact lotsOf_filter_le _ _
    have hother : ∀ price, price ≠ o.price →
        restingTotal price ((n.resting o.side).filter fun r => r.orderId ≠ o.orderId) =
          restingTotal price (n.resting o.side) := by
      intro price hprice
      unfold restingTotal
      rw [List.filter_filter]
      refine congrArg (fun l => (List.map _ l).sum) (List.filter_congr fun r hr => ?_)
      by_cases hrp : r.price = price
      · have hne : r.orderId ≠ o.orderId := by
          intro heq
          have hro : r = o := List.inj_on_of_nodup_map (h.ids o.side) hr hmem heq
          exact hprice (hrp.symm.trans (congrArg _ hro))
        simp [hrp, hne]
      · simp [hrp]
    unfold cancelOrder
    dsimp only
    constructor
    · funext s price
      simp only [List.foldl_cons, List.foldl_nil, applyDelta, hsymbol, ↓reduceIte,
        Quantity.lots_ofLots hle]
      by_cases hs : s = o.side
      · by_cases hprice : price = o.price
        · rw [if_pos ⟨hs, hprice⟩, hs, hprice]
          simp only [depthOf, resting_setResting, ↓reduceIte]
        · rw [if_neg fun h => hprice h.2]
          simp only [depthOf, resting_setResting, hs, ↓reduceIte, hother price hprice]
      · rw [if_neg fun h => hs h.1]
        simp only [depthOf, resting_setResting, hs, ↓reduceIte]
    · intro e he d hd
      rw [hsymbol]
      subst hd
      simp only [List.mem_cons, List.not_mem_nil, or_false, reduceCtorEq, false_or,
        EngineEvent.orderBookDelta.injEq] at he
      rw [he]

end PriceTimeBook

/-- What the deltas of a history say about every book of a core. -/
def ShowsDepth (core : EngineCore PriceTimeBook) (history : List EngineEvent) : Prop :=
  ∀ (id : SymbolId) n, core.orderBooks[id]? = some n →
    n.symbolConfig.symbolId = id ∧ depthAfter id history = depthOf n.resting

namespace ShowsDepth
variable {core : EngineCore PriceTimeBook} {history events : List EngineEvent}

/-- Events without deltas change no depth. -/
theorem quiet (h : ShowsDepth core history)
    (hquiet : ∀ e ∈ events, ∀ d, e ≠ .orderBookDelta d) : ShowsDepth core (history ++ events) := by
  intro id n hn
  obtain ⟨hsymbol, hdepth⟩ := h id n hn
  refine ⟨hsymbol, ?_⟩
  unfold depthAfter at hdepth ⊢
  rw [List.foldl_append, hdepth]
  exact applyDelta_other _ fun e he d hd => absurd hd (hquiet e he d)

/-- The events of one book change the depth of that book alone. -/
theorem finish (h : ShowsDepth core history) {symbolId : SymbolId} {n : PriceTimeBook}
    (hn : core.orderBooks[symbolId]? = some n) (commandId : CommandId) (orderId : OrderId)
    (accepted : Bool) (index : IdempotencyIndex)
    {r : List EngineEvent × PriceTimeBook × SequenceGenerator}
    (hconfig : r.2.1.symbolConfig = n.symbolConfig)
    (hdepth : r.1.foldl (applyDelta symbolId) (depthOf n.resting) = depthOf r.2.1.resting)
    (hdeltas : DeltasOf symbolId r.1) :
    ShowsDepth (core.finish symbolId commandId orderId accepted index r).2
      (history ++ (core.finish symbolId commandId orderId accepted index r).1) := by
  intro id a ha
  simp only [EngineCore.finish, Std.ExtTreeMap.getElem?_insert] at ha ⊢
  split_ifs at ha with hid
  · rw [Std.LawfulEqCmp.compare_eq_iff_eq] at hid
    subst hid
    obtain ⟨hsymbol, hbefore⟩ := h symbolId n hn
    rw [← Option.some.inj ha]
    refine ⟨hconfig ▸ hsymbol, ?_⟩
    unfold depthAfter at hbefore ⊢
    rw [List.foldl_append, hbefore, hdepth]
  · obtain ⟨hsymbol, hbefore⟩ := h id a ha
    refine ⟨hsymbol, ?_⟩
    unfold depthAfter at hbefore ⊢
    rw [List.foldl_append, hbefore]
    refine applyDelta_other _ fun e he d hd heq => hid ?_
    rw [Std.LawfulEqCmp.compare_eq_iff_eq, ← hdeltas e he d hd, heq]

theorem process (h : ShowsDepth core history) (htidy : core.AllBooks PriceTimeBook.Tidy)
    (command : EngineCommand) (hfits : (core.process command).2.AllBooks PriceTimeBook.Fits) :
    ShowsDepth (core.process command).2 (history ++ (core.process command).1) := by
  cases command with
  | malformed =>
    refine h.quiet fun e he d => ?_
    rw [List.mem_singleton.1 he]
    exact EngineEvent.noConfusion
  | placeOrder place =>
    simp only [EngineCore.process] at hfits ⊢
    rcases core.processPlaceOrder_cases place with ⟨reason, record, heq⟩ |
      ⟨config, n, accepted, index, -, hn, -, heq⟩
    · rw [heq]
      refine h.quiet fun e he d => ?_
      rw [List.mem_singleton.1 he]
      exact EngineEvent.noConfusion
    · rw [heq] at hfits ⊢
      obtain ⟨hdepth, hdeltas⟩ := (htidy _ n hn).depth_processPlace place core.sequenceGenerator
        (h _ n hn).1.symm (hfits place.symbolId _ (by
          simp only [EngineCore.finish, Std.ExtTreeMap.getElem?_insert_self]
          rfl))
      exact h.finish hn _ _ _ _ (n.symbolConfig_processPlace place _) hdepth hdeltas
  | cancelOrder cancel =>
    simp only [EngineCore.process] at hfits ⊢
    rcases core.processCancelOrder_cases cancel with ⟨reason, record, heq⟩ |
      ⟨config, n, accepted, -, hn, heq⟩
    · rw [heq]
      refine h.quiet fun e he d => ?_
      rw [List.mem_singleton.1 he]
      exact EngineEvent.noConfusion
    · rw [heq] at hfits ⊢
      obtain ⟨hdepth, hdeltas⟩ := (htidy _ n hn).depth_processCancel cancel
        core.sequenceGenerator (h _ n hn).1.symm
      exact h.finish hn _ _ _ _ (n.symbolConfig_processCancel cancel _) hdepth hdeltas

end ShowsDepth

theorem Shows.fits_processPlace {book : OrderBook} {n : PriceTimeBook} (h : Shows book n)
    (command : PlaceOrderCommand) (g : SequenceGenerator)
    (hfits : (book.processPlace command g).2.1.TotalsFit) :
    (n.processPlace command g).2.1.Fits := by
  obtain ⟨q, href, hq, hflat⟩ := h
  obtain ⟨-, hpost, -⟩ := href.processPlace command g
  intro side price
  rw [(hflat.processPlace hq command g).resting]
  exact hpost.rep.sorted.restingTotal_lt (hpost.fitsLevels hfits) side price

/-- Totals that fit on the code fit on its naive description, one command further. -/
theorem CoreRel.fits_process {core : EngineCore OrderBook} {naive : EngineCore PriceTimeBook}
    (h : CoreRel Shows core naive) (command : EngineCommand)
    (hfits : (core.process command).2.AllBooks OrderBook.TotalsFit) :
    (naive.process command).2.AllBooks PriceTimeBook.Fits := by
  have hold : ∀ (id : SymbolId) n, naive.orderBooks[id]? = some n → n.Fits := by
    intro id n hn
    have hrel := h.books id
    rw [hn] at hrel
    generalize core.orderBooks[id]? = mine at hrel
    cases hrel with
    | some hshows => exact hshows.tidy.fits
  cases command with
  | malformed => exact hold
  | cancelOrder cancel =>
    simp only [EngineCore.process]
    rcases naive.processCancelOrder_cases cancel with ⟨reason, record, heq⟩ |
      ⟨config, n, accepted, -, hn, heq⟩
    · rw [heq]
      exact hold
    · rw [heq]
      exact @BookInvariant.insert PriceTimeBook (fun _ => PriceTimeBook.Fits)
        naive.sequenceGenerator naive.orderBooks hold _ _ ((hold _ n hn).processCancel cancel _)
  | placeOrder place =>
    have hbook := h.books place.symbolId
    simp only [EngineCore.process, EngineCore.processPlaceOrder, h.idempotencyIndex,
      h.symbolConfigs] at hfits ⊢
    split_ifs at hfits ⊢ with hdup
    · exact hold
    · cases hconfig : naive.symbolConfigs[place.symbolId]? with
      | none => exact hold
      | some config =>
        rw [hconfig] at hfits
        generalize core.orderBooks[place.symbolId]? = mine at hbook hfits
        generalize naive.orderBooks[place.symbolId]? = theirs at hbook ⊢
        cases hbook with
        | none => exact hold
        | some hshows =>
          cases hvalid : validatePlaceOrder place config naive.idempotencyIndex with
          | some reason =>
            simp only [hvalid]
            exact hold
          | none =>
            simp only [hvalid] at hfits ⊢
            have hpost := hfits place.symbolId _ (by
              simp only [EngineCore.finish, Std.ExtTreeMap.getElem?_insert_self]
              rfl)
            rw [h.sequenceGenerator] at hpost
            exact @BookInvariant.insert PriceTimeBook (fun _ => PriceTimeBook.Fits)
              naive.sequenceGenerator naive.orderBooks hold _ _ (hshows.fits_processPlace place _ hpost)

/-- The code, its naive description and the deltas of both, command by command. -/
theorem CoreRel.run_showsDepth {core : EngineCore OrderBook} {naive : EngineCore PriceTimeBook}
    {history : List EngineEvent} (h : CoreRel Shows core naive) (hd : ShowsDepth naive history)
    (commands : List EngineCommand)
    (hfits : ∀ n, (core.run (commands.take n)).2.AllBooks OrderBook.TotalsFit) :
    CoreRel Shows (core.run commands).2 (naive.run commands).2 ∧
      ShowsDepth (naive.run commands).2 (history ++ (core.run commands).1.flatten) := by
  induction commands generalizing core naive history with
  | nil =>
    refine ⟨h, ?_⟩
    simp only [EngineCore.run, List.flatten_nil, List.append_nil]
    exact hd
  | cons command commands ih =>
    have hnaive := h.fits_process command (hfits 1)
    obtain ⟨hevents, hrel⟩ := h.process Shows.simulation command hnaive
    have htidy : naive.AllBooks PriceTimeBook.Tidy := by
      intro id n hn
      have hbook := h.books id
      rw [hn] at hbook
      generalize core.orderBooks[id]? = mine at hbook
      cases hbook with
      | some hshows => exact hshows.tidy
    have hdepth := hd.process htidy command hnaive
    rw [← hevents] at hdepth
    simp only [EngineCore.run, List.flatten_cons, ← List.append_assoc]
    exact ih hrel hdepth fun n => hfits (n + 1)

/-- A core with its symbols added, before any command. -/
def coreOf {B : Type} [MatchingBook B] (configs : List SymbolConfig) : EngineCore B :=
  configs.foldl EngineCore.addSymbol .empty

theorem coreOf_start (configs : List SymbolConfig) :
    CoreRel Shows (coreOf configs) (coreOf configs) ∧ ShowsDepth (coreOf configs) [] := by
  have hfold : ∀ (core : EngineCore OrderBook) (naive : EngineCore PriceTimeBook),
      CoreRel Shows core naive → ShowsDepth naive [] →
        CoreRel Shows (configs.foldl EngineCore.addSymbol core)
          (configs.foldl EngineCore.addSymbol naive) ∧
            ShowsDepth (configs.foldl EngineCore.addSymbol naive) [] := by
    induction configs with
    | nil => exact fun _ _ h hd => ⟨h, hd⟩
    | cons config configs ih =>
      intro core naive h hd
      refine ih _ _ (h.addSymbol Shows.simulation config) fun id n hn => ?_
      simp only [EngineCore.addSymbol, Std.ExtTreeMap.getElem?_insert] at hn
      split_ifs at hn with hid
      · rw [← Option.some.inj hn]
        refine ⟨Std.LawfulEqCmp.compare_eq_iff_eq.1 hid, ?_⟩
        funext side price
        cases side <;> rfl
      · exact hd id n hn
  refine hfold _ _ CoreRel.empty fun id n hn => ?_
  simp [EngineCore.empty] at hn

theorem Shows.depthOf_registered {book : OrderBook} {n : PriceTimeBook} (h : Shows book n) :
    depthOf n.resting = depthOf fun side => book.registered.filter (·.side = side) := by
  obtain ⟨q, href, hq, hflat⟩ := h
  funext side price
  have hperm := (href.rep.registered_perm hq.ok.toKeyed).filter fun r => decide (r.side = side)
  simp only [depthOf, hflat.resting, restingTotal_perm
    ((QueueBook.ordersOf_levels_perm hq.ok.toKeyed hq.whole.detached side).trans hperm.symm)]

/-- After every command of a run in which no resting total overflows, the deltas emitted so far
fold to the depth of every book. -/
theorem deltas_fold_to_depth (configs : List SymbolConfig) (commands : List EngineCommand)
    (hfits : ∀ n, ((coreOf configs).run (commands.take n)).2.AllBooks OrderBook.TotalsFit)
    (n : ℕ) (id : SymbolId) (book : OrderBook)
    (hbook : ((coreOf configs).run (commands.take n)).2.getOrderBook id = some book) :
    depthAfter id ((coreOf (B := OrderBook) configs).run (commands.take n)).1.flatten =
      depthOf fun side => book.registered.filter (·.side = side) := by
  obtain ⟨hrel, hdepth⟩ := coreOf_start configs
  obtain ⟨hend, hshown⟩ := hrel.run_showsDepth hdepth (commands.take n) fun m => by
    rw [List.take_take]
    exact hfits _
  have hb := hend.books id
  unfold EngineCore.getOrderBook at hbook
  rw [hbook] at hb
  generalize hn : ((coreOf configs : EngineCore PriceTimeBook).run
    (commands.take n)).2.orderBooks[id]? = theirs at hb
  cases hb with
  | some hshows =>
    rw [← hshows.depthOf_registered, ← (hshown id _ hn).2]
    rfl

theorem deltas_fold_to_depth_sample :
    ∃ book : OrderBook, ((coreOf [sampleConfig]).run sampleCommands).2.getOrderBook 1 = some book ∧
      depthAfter 1 ((coreOf (B := OrderBook) [sampleConfig]).run sampleCommands).1.flatten =
        (depthOf fun side => book.registered.filter (·.side = side)) ∧
      depthAfter 1 ((coreOf (B := OrderBook) [sampleConfig]).run sampleCommands).1.flatten .sell
        ⟨200, by decide⟩ = some 3 := by
  have hfits : ∀ n, ((coreOf [sampleConfig]).run (sampleCommands.take n)).2.AllBooks
      OrderBook.TotalsFit := by
    intro n
    apply allBooks_totalsFit_of_check
    rcases n with _ | _ | _ | n
    · decide +kernel
    · decide +kernel
    · decide +kernel
    · rw [List.take_of_length_le (by simp [sampleCommands])]
      decide +kernel
  obtain ⟨book, hbook⟩ := Option.isSome_iff_exists.1 (by decide +kernel :
    (((coreOf (B := OrderBook) [sampleConfig]).run sampleCommands).2.getOrderBook 1).isSome = true)
  exact ⟨book, hbook, deltas_fold_to_depth [sampleConfig] sampleCommands hfits 3 1 book hbook,
    by decide +kernel⟩

end PerpexEngine
