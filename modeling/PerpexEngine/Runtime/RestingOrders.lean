import PerpexEngine.Runtime.EventNumbers
import PerpexEngine.Runtime.OrderlyRuns

/-! Resting orders and their metadata, in every reachable state. -/
namespace PerpexEngine

/-- The only entry of an order, and one that agrees with it. -/
structure FiledAs (store : OrderMetadataStore) (symbolId : SymbolId) (order : OrderSnapshot)
    (metadata : OrderMetadata) : Prop where
  found : store[order.orderId]? = some metadata
  only : ∀ (id : OrderId) other, store[id]? = some other → other.orderId = order.orderId →
    id = order.orderId
  describes : metadata.Describes symbolId 0 order

theorem EngineRuntime.InLockstep.filedAs {rt : EngineRuntime} (h : rt.InLockstep)
    {symbolId : SymbolId} {book : OrderBook} (hbook : rt.core.orderBooks[symbolId]? = some book)
    {order : OrderSnapshot} (horder : order ∈ book.registered) :
    ∃ metadata, FiledAs rt.ledger.metadataStore symbolId order metadata ∧
      metadata.MarginSound := by
  obtain ⟨queues, htracks, hlock⟩ := h
  have hrel := htracks.rel.books symbolId
  rw [hbook] at hrel
  generalize hq : queues.orderBooks[symbolId]? = theirs at hrel
  cases hrel with
  | some href =>
    have hqueued := (href.rep.registered_perm href.ok.toKeyed).mem_iff.1 horder
    obtain ⟨m, hm, hdescribes⟩ := hlock.described symbolId _ hq order hqueued
    refine ⟨m, ⟨hm, fun id other hother hid => ?_, hdescribes⟩, (hlock.filed _ m hm).2.2.1⟩
    exact (hlock.filed id other hother).1.symm.trans hid

/-- In every reachable state every resting order has one entry, which says the same of it; what is
left of its reserved margin is at most what was reserved, and nothing negative is left of a
reservation that was not. -/
theorem resting_orders_filed (config : EngineRuntimeConfig) (steps : List RuntimeStep)
    {symbolId : SymbolId} {book : OrderBook}
    (hbook : ((EngineRuntime.new config).run steps).2.core.orderBooks[symbolId]? = some book)
    {order : OrderSnapshot} (horder : order ∈ book.registered) :
    ∃ metadata, FiledAs ((EngineRuntime.new config).run steps).2.ledger.metadataStore symbolId order
        metadata ∧
      (0 ≤ metadata.reservedMarginAmount → 0 ≤ metadata.remainingReservedMargin) ∧
      (0 < metadata.reservedMarginAmount →
        metadata.remainingReservedMargin ≤ metadata.reservedMarginAmount) := by
  obtain ⟨m, hfiled, hsound⟩ :=
    (reachable_accounted config steps).lockstep.filedAs hbook horder
  exact ⟨m, hfiled, hsound.nonneg, hsound.reserved⟩

/-- The order of a book that has just one. -/
theorem exists_registered {β : Type} {core : EngineCore OrderBook} {symbolId : SymbolId}
    {f : OrderSnapshot → β} {x : β}
    (h : (core.orderBooks[symbolId]?.map fun book => book.registered.map f) = some [x]) :
    ∃ book order, core.orderBooks[symbolId]? = some book ∧ order ∈ book.registered ∧
      f order = x := by
  obtain ⟨book, hbook, hids⟩ := Option.map_eq_some_iff.1 h
  obtain ⟨order, horder, hx⟩ := List.mem_map.1 (hids ▸ List.mem_singleton_self x)
  exact ⟨book, order, hbook, horder, hx⟩

theorem resting_orders_filed_sample : ∃ metadata : OrderMetadata,
    ((EngineRuntime.new sampleRuntimeConfig).run sampleRuntimeSteps).2.ledger.metadataStore[
      (1 : OrderId)]? = some metadata ∧ metadata.remainingQuantity = 6 := by
  have hbook : (((EngineRuntime.new sampleRuntimeConfig).run
      sampleRuntimeSteps).2.core.orderBooks[(1 : SymbolId)]?.map fun book =>
        book.registered.map fun o => (o.orderId, o.remainingQuantity.lots)) = some [(1, 6)] := by
    decide +kernel
  obtain ⟨book, order, hbook, horder, hpair⟩ := exists_registered hbook
  obtain ⟨m, hfiled, -⟩ := resting_orders_filed sampleRuntimeConfig sampleRuntimeSteps hbook horder
  have hid : order.orderId = 1 := congrArg Prod.fst hpair
  have hlots : order.remainingQuantity.lots = 6 := congrArg Prod.snd hpair
  refine ⟨m, hid ▸ hfiled.found, ?_⟩
  rw [hfiled.describes.remaining, hlots]
  rfl

/-- An order that reserves a negative amount. -/
def sampleOwing : RuntimeStep :=
  .input ⟨engineInputTopic, 0, 1⟩ (.ok ⟨.placeOrder
    { inputId := none
      envelope := sampleEnvelope 1 11
      orderId := 1
      reservationId := ascii "res-1"
      marketId := 1
      side := .long
      orderType := .limit
      timeInForce := .gtc
      price := 100
      quantity := 10
      reduceOnly := false
      marginAsset := ascii "USDC"
      reservedMarginAmount := -5
      leverage := 10 }, by
    unfold ParsedEngineInput.WellFormed FitsInt64
    decide⟩) .live

/-- The order rests, and what is left of its reserved margin is negative. -/
theorem resting_order_owes_margin : ∃ book order,
    ((EngineRuntime.new sampleRuntimeConfig).run [sampleOwing]).2.core.orderBooks[
      (1 : SymbolId)]? = some book ∧ order ∈ book.registered ∧
    ∀ metadata, FiledAs ((EngineRuntime.new sampleRuntimeConfig).run
      [sampleOwing]).2.ledger.metadataStore 1 order metadata →
        ¬0 ≤ metadata.remainingReservedMargin := by
  have hbook : (((EngineRuntime.new sampleRuntimeConfig).run
      [sampleOwing]).2.core.orderBooks[(1 : SymbolId)]?.map fun book =>
        book.registered.map (·.orderId)) = some [1] := by decide +kernel
  have hleft : (((EngineRuntime.new sampleRuntimeConfig).run
      [sampleOwing]).2.ledger.metadataStore[(1 : OrderId)]?.map
        (·.remainingReservedMargin)) = some (-5) := by decide +kernel
  obtain ⟨book, order, hbook, horder, hid⟩ := exists_registered hbook
  refine ⟨book, order, hbook, horder, fun metadata hfiled => ?_⟩
  rw [← hid, hfiled.found] at hleft
  have howed : metadata.remainingReservedMargin = -5 := Option.some.inj hleft
  rw [howed]
  decide

end PerpexEngine
