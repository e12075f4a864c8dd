import PerpexEngine.Core.PriceTimeRefinement

/-! Whole runs of the core against the naive price-time book. -/
namespace PerpexEngine

/-- Better price first, and the lower stamp first within a price. -/
def Before (stamp : OrderSnapshot → ℕ) (side : Side) (a b : OrderSnapshot) : Prop :=
  side.rank a.price < side.rank b.price ∨ a.price = b.price ∧ stamp a < stamp b

/-- What decides the place of an order in the list. -/
def placeOf (o : OrderSnapshot) : Price × EngineSequence := (o.price, o.sequenceAccepted)

section Lists
variable {stamp : OrderSnapshot → ℕ} {side : Side} {xs ys : List OrderSnapshot}
  {x : OrderSnapshot}

/-- Only prices and acceptance matter for the order of a list. -/
theorem pairwise_before_of_sublist (h : xs.Pairwise (Before (·.sequenceAccepted) side))
    (hsub : (ys.map placeOf).Sublist (xs.map placeOf)) :
    ys.Pairwise (Before (·.sequenceAccepted) side) := by
  have hmap : (xs.map placeOf).Pairwise fun a b =>
      side.rank a.1 < side.rank b.1 ∨ a.1 = b.1 ∧ a.2 < b.2 := List.pairwise_map.2 h
  have hmap' := List.Pairwise.sublist hsub hmap
  rw [List.pairwise_map] at hmap'
  exact hmap'

theorem accepted_lt_of_sublist {n : EngineSequence} (h : ∀ r ∈ xs, r.sequenceAccepted < n)
    (hsub : (ys.map placeOf).Sublist (xs.map placeOf)) : ∀ r ∈ ys, r.sequenceAccepted < n := by
  intro r hr
  obtain ⟨r', hr', heq⟩ := List.mem_map.1 (hsub.subset (List.mem_map_of_mem hr))
  rw [← (Prod.mk.inj heq).2]
  exact h r' hr'

theorem mem_insertByPriceTime {r : OrderSnapshot} :
    r ∈ insertByPriceTime side x xs ↔ r = x ∨ r ∈ xs := by
  induction xs with
  | nil => simp [insertByPriceTime]
  | cons a xs ih =>
    rw [insertByPriceTime]
    split_ifs
    · simp
    · rw [List.mem_cons, ih, List.mem_cons]
      tauto

/-- An order with the highest stamp takes its place by price and stamp. -/
theorem pairwise_before_insert (h : xs.Pairwise (Before stamp side))
    (hx : ∀ r ∈ xs, stamp r < stamp x) :
    (insertByPriceTime side x xs).Pairwise (Before stamp side) := by
  induction xs with
  | nil => exact List.pairwise_singleton _ _
  | cons a xs ih =>
    obtain ⟨ha, hxs⟩ := List.pairwise_cons.1 h
    rw [insertByPriceTime]
    split_ifs with hlt
    · refine List.pairwise_cons.2 ⟨fun r hr => Or.inl ?_, h⟩
      rcases List.mem_cons.1 hr with rfl | hr
      · exact hlt
      · rcases ha r hr with hr | hr
        · exact hlt.trans hr
        · rwa [← hr.1]
    · refine List.pairwise_cons.2 ⟨fun r hr => ?_, ih hxs fun r hr =>
        hx r (List.mem_cons_of_mem _ hr)⟩
      rcases mem_insertByPriceTime.1 hr with rfl | hr
      · rcases lt_or_eq_of_le (not_lt.1 hlt) with hlt' | heq
        · exact Or.inl hlt'
        · exact Or.inr ⟨side.rank_inj.1 heq, hx a List.mem_cons_self⟩
      · exact ha r hr

/-- A walk takes orders off the front and leaves the places of the others. -/
theorem walk_places (symbolId : SymbolId) (limit : Option Price) (incoming : OrderSnapshot)
    (g : SequenceGenerator) : ((walk symbolId side limit xs incoming g).resting.map placeOf).Sublist
      (xs.map placeOf) ∧
      (walk symbolId side limit xs incoming g).incoming.sequenceAccepted =
        incoming.sequenceAccepted ∧
      g.nextSequence ≤ (walk symbolId side limit xs incoming g).sequenceGenerator.nextSequence := by
  induction xs generalizing incoming g with
  | nil => exact ⟨.refl _, rfl, le_rfl⟩
  | cons maker rest ih =>
    rw [walk]
    split_ifs with hstop
    · exact ⟨.refl _, rfl, le_rfl⟩
    · obtain ⟨hsub, hinc, hgen⟩ := ih
        (incoming.reduce (incoming.remainingQuantity.min maker.remainingQuantity))
        (fillEvents g symbolId maker incoming
          (incoming.remainingQuantity.min maker.remainingQuantity) (.ofLots (restingTotal maker.price
            (maker.reduce (incoming.remainingQuantity.min maker.remainingQuantity) :: rest)))).2
      have hlater : g.nextSequence ≤ (fillEvents g symbolId maker incoming
          (incoming.remainingQuantity.min maker.remainingQuantity) (.ofLots (restingTotal maker.price
            (maker.reduce (incoming.remainingQuantity.min maker.remainingQuantity) ::
              rest)))).2.nextSequence := Nat.le_add_right g.nextSequence 4
      dsimp only
      split_ifs
      · exact ⟨hsub.cons _, hinc, hlater.trans hgen⟩
      · exact ⟨.refl _, rfl, hlater⟩

end Lists

/-- Both sides of the naive book stand in priority order. -/
def Prioritised (g : SequenceGenerator) (book : PriceTimeBook) : Prop :=
  ∀ side, (book.resting side).Pairwise (Before (·.sequenceAccepted) side) ∧
    ∀ r ∈ book.resting side, r.sequenceAccepted < g.nextSequence

namespace Prioritised
variable {g g' : SequenceGenerator} {book : PriceTimeBook}

/-- Replacing the list of one side by one in priority order. -/
theorem set (h : Prioritised g book) (hle : g.nextSequence ≤ g'.nextSequence) {side : Side}
    {orders : List OrderSnapshot} (horders : orders.Pairwise (Before (·.sequenceAccepted) side))
    (haccepted : ∀ r ∈ orders, r.sequenceAccepted < g'.nextSequence) :
    Prioritised g' (book.setResting side orders) := by
  refine forall_side side ?_ ?_
  · cases side <;> exact ⟨horders, haccepted⟩
  · obtain ⟨hother, hseq⟩ := h side.opposite
    cases side <;> exact ⟨hother, fun r hr => (hseq r hr).trans_le hle⟩

theorem later (hle : g.nextSequence ≤ g'.nextSequence) (h : Prioritised g book) :
    Prioritised g' book :=
  fun side => ⟨(h side).1, fun r hr => ((h side).2 r hr).trans_le hle⟩

theorem processPlace (h : Prioritised g book) (command : PlaceOrderCommand) :
    Prioritised (book.processPlace command g).2.2 (book.processPlace command g).2.1 ∧
      g.nextSequence ≤ (book.processPlace command g).2.2.nextSequence := by
  rw [PriceTimeBook.processPlace]
  cases book.placeRejection command with
  | some reason => exact ⟨h.later (Nat.le_succ _), Nat.le_succ _⟩
  | none =>
    obtain ⟨hsub, hinc, hgen⟩ := @walk_places command.side.opposite
      (book.resting command.side.opposite) book.symbolConfig.symbolId (limitOf command)
      (incomingOrder command g.nextSequence) g.nextEvent
    dsimp only
    generalize walk book.symbolConfig.symbolId command.side.opposite (limitOf command)
      (book.resting command.side.opposite) (incomingOrder command g.nextSequence) g.nextEvent =
        w at *
    have hlt : g.nextSequence < w.sequenceGenerator.nextSequence := hgen
    obtain ⟨hbefore, haccepted⟩ := h command.side.opposite
    have hwalked : Prioritised w.sequenceGenerator
        (book.setResting command.side.opposite w.resting) :=
      h.set hlt.le (pairwise_before_of_sublist hbefore hsub) fun r hr =>
        (accepted_lt_of_sublist haccepted hsub r hr).trans hlt
    split_ifs
    · have hsame : (book.setResting command.side.opposite w.resting).resting command.side =
          book.resting command.side := by cases command.side <;> rfl
      have hseq : ∀ r ∈ book.resting command.side, r.sequenceAccepted < w.incoming.sequenceAccepted := by
        rw [hinc]
        exact (h command.side).2
      rw [hsame]
      refine ⟨hwalked.set (Nat.le_succ _) (pairwise_before_insert (h command.side).1 hseq) ?_,
        hlt.le.trans (Nat.le_succ _)⟩
      intro r hr
      have hown : w.incoming.sequenceAccepted = g.nextSequence := hinc
      refine Nat.lt_succ_of_le (le_trans ?_ hlt.le)
      rcases mem_insertByPriceTime.1 hr with rfl | hr
      · exact hown.le
      · exact ((h command.side).2 r hr).le
    · exact ⟨hwalked, hlt.le⟩

theorem processCancel (h : Prioritised g book) (command : CancelOrderCommand) :
    Prioritised (book.processCancel command g).2.2 (book.processCancel command g).2.1 ∧
      g.nextSequence ≤ (book.processCancel command g).2.2.nextSequence := by
  simp only [PriceTimeBook.processCancel]
  split
  · rename_i o _
    have hle : g.nextSequence ≤ g.nextEvent.nextEvent.nextSequence :=
      (Nat.le_succ _).trans (Nat.le_succ _)
    obtain ⟨hbefore, haccepted⟩ := h o.side
    refine ⟨h.set hle (hbefore.sublist List.filter_sublist) fun r hr => ?_, hle⟩
    exact (haccepted r (List.mem_of_mem_filter hr)).trans_le hle
  · exact ⟨h.later (Nat.le_succ _), Nat.le_succ _⟩

theorem invariant : BookInvariant Prioritised fun _ => True where
  new g config side := by cases side <;> exact ⟨.nil, by simp [MatchingBook.new,
    PriceTimeBook.new, PriceTimeBook.resting]⟩
  nextEvent h := h.later (Nat.le_succ _)
  place command h _ := ⟨(h.processPlace command).1, fun _ ha => ha.later (h.processPlace command).2⟩
  cancel command h _ :=
    ⟨(h.processCancel command).1, fun _ ha => ha.later (h.processCancel command).2⟩

end Prioritised

/-- The resting orders of a side as the code lists them: its levels from the best price on, each
followed from its head. -/
def OrderBook.restingOrders (book : OrderBook) (side : Side) : List OrderSnapshot :=
  (activeLevelsSorted (book.bookForSide side)).flatMap fun level =>
    EngineCore.walkOrders book.orders book.orders.next level.head

theorem SideOk.restingOrders {book : OrderBook} {side : Side} {queue : Queues}
    {view : List (LevelPtr × LevelQueue)}
    (h : SideOk (book.bookForSide side) book.orders queue view) :
    book.restingOrders side = ordersOf (view.map (·.2)) := by
  rw [OrderBook.restingOrders, h.activeLevelsSorted_eq, List.flatMap_map, ordersOf,
    List.flatMap_map]
  refine List.flatMap_congr fun x hx => ?_
  obtain ⟨l, -, hr⟩ := h.rep x.1 x.2 hx
  exact walkOrders_eq (h.linked x.1) hr.records (h.length_le x.1)

theorem Shows.restingOrders {book : OrderBook} {n : PriceTimeBook} (h : Shows book n)
    (side : Side) : book.restingOrders side = n.resting side := by
  obtain ⟨q, href, hq, hflat⟩ := h
  obtain ⟨queue, view, hok, hview⟩ := href.rep.sides side
  rw [hok.restingOrders, hflat.resting, hview]

/-- The core of the source and the core of naive books, with one symbol added. -/
def codeCore (config : SymbolConfig) : EngineCore OrderBook := EngineCore.empty.addSymbol config

def naiveCore (config : SymbolConfig) : EngineCore PriceTimeBook :=
  EngineCore.empty.addSymbol config

/-- After every command of every run in which the resting totals fit their word, both cores have
given the same events and show the same resting orders, in priority order. -/
theorem code_behaves_as_priceTimeBook (config : SymbolConfig) (commands : List EngineCommand)
    (hfits : ∀ n, ((naiveCore config).run (commands.take n)).2.AllBooks PriceTimeBook.Fits) :
    ((codeCore config).run commands).1 = ((naiveCore config).run commands).1 ∧
      ∀ n id, Option.Rel
        (fun (book : OrderBook) (naive : PriceTimeBook) => ∀ side,
          book.restingOrders side = naive.resting side ∧
            (naive.resting side).Pairwise (Before (·.sequenceAccepted) side))
        (((codeCore config).run (commands.take n)).2.getOrderBook id)
        (((naiveCore config).run (commands.take n)).2.getOrderBook id) := by
  have hstart : CoreRel Shows (codeCore config) (naiveCore config) :=
    CoreRel.empty.addSymbol Shows.simulation config
  refine ⟨(hstart.run Shows.simulation commands hfits).1, fun n id => ?_⟩
  have hrun := hstart.run Shows.simulation (commands.take n) fun m => by
    rw [List.take_take]
    exact hfits _
  have hprioritised := Prioritised.invariant.run
    (Prioritised.invariant.addSymbol (BookInvariant.empty _) config) (commands.take n)
    (fun _ _ _ _ => trivial) id
  have hbooks := hrun.2.books id
  simp only [EngineCore.getOrderBook]
  change ∀ b, ((naiveCore config).run (commands.take n)).2.orderBooks[id]? = some b → _
    at hprioritised
  generalize ((codeCore config).run (commands.take n)).2.orderBooks[id]? = mine at *
  generalize ((naiveCore config).run (commands.take n)).2.orderBooks[id]? = theirs at *
  cases hbooks with
  | none => exact .none
  | some h => exact .some fun side => ⟨h.restingOrders side, (hprioritised _ rfl side).1⟩

theorem restingTotal_le (price : Price) (xs : List OrderSnapshot) :
    restingTotal price xs ≤ lotsOf xs := by
  induction xs with
  | nil => exact le_rfl
  | cons x xs ih =>
    rw [restingTotal] at ih ⊢
    rw [List.filter_cons, lotsOf_cons]
    split_ifs
    · rw [List.map_cons, List.sum_cons]
      omega
    · omega

/-- A check of one state that implies `Fits` for all its books. -/
def fitsCheck (core : EngineCore PriceTimeBook) : Bool :=
  core.orderBooks.toList.all fun entry =>
    lotsOf entry.2.bids < 2 ^ 64 && lotsOf entry.2.asks < 2 ^ 64

theorem allBooks_fits_of_check {core : EngineCore PriceTimeBook} (h : fitsCheck core = true) :
    core.AllBooks PriceTimeBook.Fits := by
  intro id b hb side price
  have hcheck := List.all_eq_true.1 h (id, b)
    (Std.ExtTreeMap.mem_toList_iff_getElem?_eq_some.2 hb)
  rw [Bool.and_eq_true, decide_eq_true_eq, decide_eq_true_eq] at hcheck
  cases side with
  | buy => exact (restingTotal_le _ _).trans_lt hcheck.1
  | sell => exact (restingTotal_le _ _).trans_lt hcheck.2

/-- A market with tick and lot size one, its ring over the ticks from 90 to 105. -/
def sampleConfig : SymbolConfig where
  symbolId := 1
  baseAssetId := 1
  quoteAssetId := 2
  tickSize := ⟨1, by decide⟩
  lotSize := ⟨1, by decide⟩
  minQuantity := ⟨1, by decide⟩
  maxQuantity := ⟨1000, by decide⟩
  minPrice := ⟨1, by decide⟩
  maxPrice := ⟨1000, by decide⟩
  ringCapacityTicks := 16
  thresholdPercentage := 10
  initialBaseTick := 90
  priceScale := 1
  quantityScale := 1
  makerFeeRate := 0
  takerFeeRate := 0
  tradingEnabled := true

/-- A limit order of user 7 that rests what it cannot trade. -/
def sampleOrder (id : ℕ) (side : Side) (price quantity : ℕ) : EngineCommand :=
  .placeOrder ⟨id, id, id, 7, 1, side, .limit, .gtc, ⟨price % 2 ^ 32, by omega⟩, .ofLots quantity, 0⟩

/-- Two resting asks, one of them outside the ring, and a bid that takes from both. -/
def sampleCommands : List EngineCommand :=
  [sampleOrder 1 .sell 100 10, sampleOrder 2 .sell 200 5, sampleOrder 3 .buy 200 12]

theorem code_behaves_as_priceTimeBook_sample :
    ((codeCore sampleConfig).run sampleCommands).1 =
      ((naiveCore sampleConfig).run sampleCommands).1 := by
  refine (code_behaves_as_priceTimeBook sampleConfig sampleCommands fun n => ?_).1
  apply allBooks_fits_of_check
  rcases n with _ | _ | _ | n
  · decide +kernel
  · decide +kernel
  · decide +kernel
  · rw [List.take_of_length_le (by simp [sampleCommands])]
    decide +kernel

end PerpexEngine
