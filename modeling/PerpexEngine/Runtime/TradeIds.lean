import Mathlib.Order.CompletePartialOrder
import PerpexEngine.Runtime.Duplicates
import PerpexEngine.Runtime.LiquidationLog
import PerpexEngine.Runtime.Settlements
import Mathlib.Data.List.Dedup

/-! Which trade ids one step of the runtime takes: the next ones of the counter for the book, and a
hash for each rank of a liquidation that deleverages. -/
namespace PerpexEngine
open Program

section SettledIn

/-- Events whose book trades take increasing ids from `lo` on and below `hi`, and whose ADL fills
are all different and go under these liquidation ids. -/
structure SettledIn (lo hi : TradeId) (ids : Set Text) (events : List EngineEventRecord) : Prop where
  le : lo ≤ hi
  increasing : (bookTradeIdsIn events).Pairwise (· < ·)
  bounds : ∀ id ∈ bookTradeIdsIn events, lo ≤ id ∧ id < hi
  hashed : ∀ p ∈ tradesIn events, ∀ d, p.deleveraging = some d →
    p.tradeId = adlTradeId d.adlId ∧ 0 ≤ d.rank ∧ d.liquidationId ∈ ids
  nodup : (deleveragingsIn events).Nodup
  matched : Matched events

variable {lo mid hi : TradeId} {ids ids' : Set Text} {events : List EngineEventRecord}

theorem bookTradeIdsIn_of_book (h : deleveragingsIn events = []) :
    bookTradeIdsIn events = (tradesIn events).map (·.tradeId) := by
  unfold bookTradeIdsIn
  rw [List.filter_eq_self.2]
  intro p hp
  rw [Option.isNone_iff_eq_none]
  by_contra hne
  obtain ⟨d, hd⟩ := Option.ne_none_iff_exists'.1 hne
  have hmem : d ∈ deleveragingsIn events := mem_deleveragingsIn.2 ⟨p, hp, hd⟩
  rw [h] at hmem
  cases hmem

theorem SettledIn.under (h : SettledIn lo hi ids events) {d : Deleveraging}
    (hd : d ∈ deleveragingsIn events) : 0 ≤ d.rank ∧ d.liquidationId ∈ ids := by
  obtain ⟨p, hp, hpd⟩ := mem_deleveragingsIn.1 hd
  exact (h.hashed p hp d hpd).2

theorem SettledIn.of_booked {trades : List TradeExecuted} (h : Booked trades events)
    (hids : trades.map (·.tradeId) = List.range' lo trades.length) :
    SettledIn lo (lo + trades.length) ∅ events := by
  have hbook : bookTradeIdsIn events = List.range' lo trades.length := by
    rw [bookTradeIdsIn_of_book h.book, h.ids, hids]
  refine ⟨Nat.le_add_right _ _, ?_, ?_, ?_, ?_, h.matched⟩
  · rw [hbook]
    exact List.pairwise_lt_range'
  · intro id hid
    rw [hbook] at hid
    exact List.mem_range'_1.1 hid
  · intro p hp d hd
    have hmem : d ∈ deleveragingsIn events := mem_deleveragingsIn.2 ⟨p, hp, hd⟩
    rw [h.book] at hmem
    cases hmem
  · rw [h.book]
    exact List.nodup_nil

/-- The counter may have moved on since. -/
theorem SettledIn.upTo {hi' : TradeId} (h : SettledIn lo hi ids events) (hle : hi ≤ hi') :
    SettledIn lo hi' ids events where
  le := h.le.trans hle
  increasing := h.increasing
  bounds id hid := ⟨(h.bounds id hid).1, (h.bounds id hid).2.trans_le hle⟩
  hashed := h.hashed
  nodup := h.nodup
  matched := h.matched

theorem SettledIn.of_quiet (h : Quiet events) (hle : lo ≤ hi) : SettledIn lo hi ∅ events := by
  have hbooked : SettledIn lo (lo + 0) ∅ events := SettledIn.of_booked h.booked rfl
  exact hbooked.upTo hle

theorem SettledIn.of_deleveraged {liquidationId : Text} {rank : ℤ}
    (h : Deleveraged liquidationId rank events) (hrank : 0 ≤ rank) :
    SettledIn lo lo {liquidationId} events := by
  have hbook : bookTradeIdsIn events = [] := by
    unfold bookTradeIdsIn
    rw [List.map_eq_nil_iff, List.filter_eq_nil_iff]
    intro p hp
    obtain ⟨d, hd, -⟩ := h.all p hp
    rw [hd]
    exact Bool.false_ne_true
  refine ⟨le_rfl, ?_, ?_, ?_, h.nodup, h.matched⟩
  · rw [hbook]
    exact List.Pairwise.nil
  · intro id hid
    rw [hbook] at hid
    cases hid
  · intro p hp d hd
    obtain ⟨d', hd', hid, hl, hle⟩ := h.all p hp
    rw [hd] at hd'
    cases hd'
    exact ⟨hid, hrank.trans hle, hl⟩

theorem SettledIn.mono (h : SettledIn lo hi ids events) (hsub : ids ⊆ ids') :
    SettledIn lo hi ids' events :=
  ⟨h.le, h.increasing, h.bounds, fun p hp d hd => ⟨(h.hashed p hp d hd).1, (h.hashed p hp d hd).2.1,
    hsub (h.hashed p hp d hd).2.2⟩, h.nodup, h.matched⟩

/-- One after the other, where the deleveraging of the second is not that of the first. -/
theorem SettledIn.append {more : List EngineEventRecord} (h : SettledIn lo mid ids events)
    (h' : SettledIn mid hi ids' more)
    (hapart : ∀ d ∈ deleveragingsIn events, d ∉ deleveragingsIn more) :
    SettledIn lo hi (ids ∪ ids') (events ++ more) where
  le := h.le.trans h'.le
  increasing := by
    rw [bookTradeIdsIn_append, List.pairwise_append]
    exact ⟨h.increasing, h'.increasing, fun id hid id' hid' =>
      (h.bounds id hid).2.trans_le (h'.bounds id' hid').1⟩
  bounds id hid := by
    rw [bookTradeIdsIn_append] at hid
    rcases List.mem_append.1 hid with hid | hid
    · exact ⟨(h.bounds id hid).1, (h.bounds id hid).2.trans_le h'.le⟩
    · exact ⟨h.le.trans (h'.bounds id hid).1, (h'.bounds id hid).2⟩
  hashed p hp d hd := by
    rw [tradesIn_append] at hp
    rcases List.mem_append.1 hp with hp | hp
    · obtain ⟨hid, hrank, hl⟩ := h.hashed p hp d hd
      exact ⟨hid, hrank, Or.inl hl⟩
    · obtain ⟨hid, hrank, hl⟩ := h'.hashed p hp d hd
      exact ⟨hid, hrank, Or.inr hl⟩
  nodup := by
    rw [deleveragingsIn_append, List.nodup_append]
    refine ⟨h.nodup, h'.nodup, ?_⟩
    rintro d hd _ hd' rfl
    exact hapart d hd hd'
  matched := h.matched.append h'.matched

/-- Different liquidation ids keep the deleveraging apart. -/
theorem SettledIn.appendUnder {more : List EngineEventRecord} (h : SettledIn lo mid ids events)
    (h' : SettledIn mid hi ids' more) (hdisjoint : Disjoint ids ids') :
    SettledIn lo hi (ids ∪ ids') (events ++ more) :=
  h.append h' fun _ hd hd' => Set.disjoint_left.1 hdisjoint (h.under hd).2 (h'.under hd').2

/-- Hashes keep the ADL fills of these events apart from each other and from the trades of the
book. -/
structure HashesApart (events : List EngineEventRecord) : Prop where
  adl : ∀ d ∈ deleveragingsIn events, ∀ d' ∈ deleveragingsIn events,
    adlTradeId d.adlId = adlTradeId d'.adlId → d.adlId = d'.adlId
  book : ∀ d ∈ deleveragingsIn events, adlTradeId d.adlId ∉ bookTradeIdsIn events

/-- No two trades of the events have the same id. -/
theorem SettledIn.tradeIds_nodup (h : SettledIn lo hi ids events) (hhash : HashesApart events) :
    ((tradesIn events).map (·.tradeId)).Nodup := by
  have hbook : ((tradesIn events).filter (·.deleveraging.isNone)).Pairwise
      fun p q => p.tradeId ≠ q.tradeId :=
    (List.pairwise_map.1 h.increasing).imp fun hlt => hlt.ne
  have hadl : (tradesIn events).Pairwise fun p q => ∀ d ∈ p.deleveraging, ∀ d' ∈ q.deleveraging,
      d ≠ d' := List.pairwise_filterMap.1 h.nodup
  have hbookAll : (tradesIn events).Pairwise fun p q => p.deleveraging.isNone = true →
      q.deleveraging.isNone = true → p.tradeId ≠ q.tradeId := List.pairwise_filter.1 hbook
  rw [List.Nodup, List.pairwise_map]
  refine (hadl.and hbookAll).imp_of_mem ?_
  rintro p q hp hq ⟨hne, hbookNe⟩ heq
  cases hpd : p.deleveraging with
  | none =>
    cases hqd : q.deleveraging with
    | none => exact hbookNe (by rw [hpd]; rfl) (by rw [hqd]; rfl) heq
    | some d =>
      apply hhash.book d (mem_deleveragingsIn.2 ⟨q, hq, hqd⟩)
      rw [← (h.hashed q hq d hqd).1, ← heq]
      exact List.mem_map_of_mem (List.mem_filter.2 ⟨hp, by rw [hpd]; rfl⟩)
  | some d =>
    obtain ⟨hid, hrank, -⟩ := h.hashed p hp d hpd
    cases hqd : q.deleveraging with
    | none =>
      apply hhash.book d (mem_deleveragingsIn.2 ⟨p, hp, hpd⟩)
      rw [← hid, heq]
      exact List.mem_map_of_mem (List.mem_filter.2 ⟨hq, by rw [hqd]; rfl⟩)
    | some d' =>
      obtain ⟨hid', hrank', -⟩ := h.hashed q hq d' hqd
      have hadlId := hhash.adl d (mem_deleveragingsIn.2 ⟨p, hp, hpd⟩) d'
        (mem_deleveragingsIn.2 ⟨q, hq, hqd⟩) (by rw [← hid, ← hid', heq])
      obtain ⟨hl, hr, hu⟩ := adlIdFor_inj hrank hrank' hadlId
      apply hne d hpd d' hqd
      cases d
      cases d'
      rw [Deleveraging.mk.injEq]
      exact ⟨hl, hr, hu⟩

end SettledIn

section Sound

/-- Trades of the core that take the ids from `lo` to `hi`, each between two orders. -/
structure Traded (lo hi : TradeId) (events : List EngineEvent) : Prop where
  ids : (tradesOf events).map (·.tradeId) = List.range' lo (tradesOf events).length
  hi : hi = lo + (tradesOf events).length
  parties : ∀ trade ∈ tradesOf events, trade.makerOrderId ≠ trade.takerOrderId

theorem Traded.of_none {lo hi : TradeId} {events : List EngineEvent} (h : tradesOf events = [])
    (hhi : hi = lo) : Traded lo hi events where
  ids := by
    rw [h]
    rfl
  hi := by
    rw [h]
    exact hhi
  parties trade ht := by
    rw [h] at ht
    cases ht

theorem Tracks.traded {core : EngineCore OrderBook} {queues : EngineCore QueueBook}
    (h : Tracks core queues) (command : EngineCommand) :
    Traded core.sequenceGenerator.nextTradeId
      (core.process command).2.sequenceGenerator.nextTradeId (core.process command).1 := by
  cases command with
  | malformed => exact .of_none rfl rfl
  | placeOrder place =>
    have hparties := h.trade_parties place
    have hevents := core.placeOrder_events place
    generalize (core.process (.placeOrder place)).1 = events at hparties hevents ⊢
    cases hevents with
    | rejected e hsame => exact .of_none rfl hsame
    | accepted e hfills => exact ⟨hfills.tradeIds, hfills.nextTradeId, hparties⟩
  | cancelOrder cancel =>
    have hevents := core.cancelOrder_events cancel
    generalize (core.process (.cancelOrder cancel)).1 = events at hevents ⊢
    cases hevents with
    | rejected e hsame => exact .of_none rfl hsame
    | cancelled e d hsame => exact .of_none rfl hsame

namespace EngineRuntime

def nextTradeId (rt : EngineRuntime) : TradeId := rt.core.sequenceGenerator.nextTradeId

/-- The metadata is stored under the ids of its orders, and the core is one that a run reaches. -/
structure Sound (rt : EngineRuntime) : Prop where
  keyed : rt.ledger.Keyed
  tracked : ∃ queues, Tracks rt.core queues

theorem Sound.of_eq {rt rt' : EngineRuntime} (h : rt.Sound) (hledger : rt'.ledger = rt.ledger)
    (hcore : rt'.core = rt.core) : rt'.Sound := by
  obtain ⟨hkeyed, htracked⟩ := h
  rw [← hledger] at hkeyed
  rw [← hcore] at htracked
  exact ⟨hkeyed, htracked⟩

theorem sound_new (config : EngineRuntimeConfig) : (EngineRuntime.new config).Sound where
  keyed orderId metadata h := by
    have hnone : (EngineRuntime.new config).ledger.metadataStore[orderId]? = none :=
      Std.ExtTreeMap.getElem?_empty
    rw [hnone] at h
    cases h
  tracked := by
    have hfold : ∀ (configs : List SymbolConfig) (core : EngineCore OrderBook)
        (queues : EngineCore QueueBook), Tracks core queues →
        ∃ queues, Tracks (configs.foldl EngineCore.addSymbol core) queues := by
      intro configs
      induction configs with
      | nil => exact fun _ queues h => ⟨queues, h⟩
      | cons c configs ih => exact fun _ _ h => ih _ _ (h.addSymbol c)
    have hempty := Tracks.empty
    let g : SequenceGenerator := { SequenceGenerator.new with nextTradeId := config.firstTradeId }
    exact hfold config.symbols { EngineCore.empty with sequenceGenerator := g }
      { EngineCore.empty with sequenceGenerator := g }
      ⟨⟨hempty.rel.books, hempty.rel.symbolConfigs, rfl, hempty.rel.idempotencyIndex⟩,
        hempty.live, hempty.configs⟩

/-- Soundness is kept, and the counter of the trades only goes up. -/
def KeepsSound (rt : EngineRuntime) (_ : List EngineEventRecord) (rt' : EngineRuntime) : Prop :=
  rt.Sound → rt'.Sound ∧ rt.nextTradeId ≤ rt'.nextTradeId

theorem soundRule : RunRule (fun _ => True) KeepsSound where
  nothing _ h := ⟨h, le_rfl⟩
  append h h' hs := ⟨(h' (h hs).1).1, (h hs).2.trans (h' (h hs).1).2⟩
  core rt command h := by
    obtain ⟨queues, hq⟩ := h.tracked
    refine ⟨⟨h.keyed, _, hq.process command⟩, ?_⟩
    have hhi := (hq.traded command).hi
    exact le_of_le_of_eq (Nat.le_add_right _ _) hhi.symm
  ledger rt :=
    { nothing := fun _ h => ⟨h, le_rfl⟩
      append := fun h h' hs => ⟨(h' (h hs).1).1, le_rfl⟩
      clock := fun _ h => ⟨⟨h.keyed, h.tracked⟩, le_rfl⟩
      event := fun _ _ _ h => ⟨⟨h.keyed, h.tracked⟩, le_rfl⟩
      metadata := fun _ _ hmove h => ⟨⟨keyed_move h.keyed hmove, h.tracked⟩, le_rfl⟩
      fill := fun _ _ _ _ _ h => ⟨⟨h.keyed, h.tracked⟩, le_rfl⟩ }
  inputId rt inputId _ h := by
    cases inputId <;> exact ⟨⟨h.keyed, h.tracked⟩, le_rfl⟩
  idempotencyKey _ _ _ h := ⟨⟨h.keyed, h.tracked⟩, le_rfl⟩
  markPrice rt input h := by
    unfold EngineRuntime.afterMarkPrice
    rw [updateRiskStates_eq]
    exact ⟨⟨h.keyed, h.tracked⟩, le_rfl⟩
  fundingRate _ _ h := ⟨⟨h.keyed, h.tracked⟩, le_rfl⟩
  funding rt input funding h := by
    unfold EngineRuntime.afterFunding
    rw [updateRiskStates_eq]
    exact ⟨⟨h.keyed, h.tracked⟩, le_rfl⟩
  settled _ _ h := ⟨⟨h.keyed, h.tracked⟩, le_rfl⟩
  restart rt config _ h := by
    obtain ⟨queues, hq⟩ := h.tracked
    obtain ⟨-, -, hgen, -⟩ := rt.core.restore_snapshot
    refine ⟨⟨h.keyed, _, hq.restart⟩, ?_⟩
    unfold nextTradeId restarted
    rw [hgen]

end EngineRuntime

end Sound

section Programs
variable {σ α : Type} {rt : EngineRuntime} {core : EngineCore OrderBook} {P : α → Prop}

/-- The ledger is keyed and the core stays what it is. -/
def OnCore (core : EngineCore OrderBook) (rt : EngineRuntime) : Prop :=
  rt.ledger.Keyed ∧ rt.core = core

theorem yields_withLedger {m : LedgerM α} (hm : Yields Ledger.Keyed P m) :
    Yields (OnCore core) P (withLedger m) :=
  hm.zoom (fun _ h => h.1) fun _ _ h hs => ⟨hs, h.2⟩

theorem yields_withPending (pending : Option OrderMetadata) {m : TranslateM α}
    (hm : Yields (fun s : TranslationState => s.ledger.Keyed) P m) :
    Yields Ledger.Keyed (fun r => P r.1) (withPending pending m) := by
  have hpair : Yields (fun s : TranslationState => s.ledger.Keyed) (fun r => P r.1)
      (do
        let a ← m
        let state ← get
        pure (a, state.pending) : TranslateM (α × Option OrderMetadata)) :=
    hm.bind fun a ha => .get fun s hs => ⟨ha, hs⟩
  exact hpair.zoom (fun _ h => h) fun _ _ _ hs => hs

theorem yields_makeRuntimeMarketEvent (record : InboundEngineRecord)
    (inputId requestId : Option Text) (marketId : MarketId) {payload : EventPayload}
    (htrade : payload.trade? = none) (hdelta : payload.accountDeltaId? = none) :
    Yields Ledger.Keyed (fun a => Quiet a.events)
      (makeRuntimeMarketEvent record inputId requestId marketId payload) := by
  refine yields_of_emits ((keyedRule ∅).makeRuntimeMarketEvent _ _ _ _ _) fun l => ?_
  unfold makeRuntimeMarketEvent
  rw [ensures_map]
  refine (ensures_makeMarketEvent l marketId _ _ payload).mono ?_ fun _ _ => trivial
  rintro e _ ⟨-, -, rfl, -⟩
  constructor
  · unfold tradesIn
    simp [htrade]
  · unfold accountDeltaIdsIn
    simp [hdelta]

theorem yields_cleanup (coreEvents : List EngineEvent) : Yields Ledger.Keyed (fun _ => True)
    (modifyMetadata (cleanupCompletedOrderMetadata coreEvents)) :=
  yields_of_emits ((keyedRule ∅).fills.cleanup coreEvents) fun _ => trivial

/-- A program on the core as it is leaves the runtime sound. -/
theorem ensures_of_onCore {m : RuntimeM α} (hm : Yields (OnCore rt.core) P m) (hs : rt.Sound) :
    Ensures m rt (fun a t => P a ∧ t.Sound ∧ t.nextTradeId = rt.nextTradeId) fun _ => True := by
  refine (hm rt ⟨hs.keyed, rfl⟩).mono ?_ fun _ _ => trivial
  rintro a t ⟨ha, hkeyed, hcore⟩
  have htracked := hs.tracked
  refine ⟨ha, ⟨hkeyed, ?_⟩, ?_⟩
  · rw [hcore]
    exact htracked
  · unfold EngineRuntime.nextTradeId
    rw [hcore]

end Programs

section Liquidation
variable {rt : EngineRuntime} {lo hi : TradeId}

/-- The runtime is sound, and since the counter stood at `lo` these events were settled. -/
structure SettledAt (lo : TradeId) (ids : Set Text) (events : List EngineEventRecord)
    (rt : EngineRuntime) : Prop where
  sound : rt.Sound
  settled : SettledIn lo rt.nextTradeId ids events

theorem SettledAt.mono {ids ids' : Set Text} {events : List EngineEventRecord}
    (h : SettledAt lo ids events rt) (hsub : ids ⊆ ids') : SettledAt lo ids' events rt :=
  ⟨h.sound, h.settled.mono hsub⟩

theorem SettledAt.nothing (hs : rt.Sound) (ids : Set Text) :
    SettledAt rt.nextTradeId ids [] rt :=
  ⟨hs, (SettledIn.of_quiet .nil le_rfl).mono (Set.empty_subset _)⟩

theorem SettledAt.append {ids ids' : Set Text} {events more : List EngineEventRecord}
    {rt' : EngineRuntime} (h : SettledAt lo ids events rt)
    (h' : SettledAt rt.nextTradeId ids' more rt') (hdisjoint : Disjoint ids ids') :
    SettledAt lo (ids ∪ ids') (events ++ more) rt' :=
  ⟨h'.sound, h.settled.appendUnder h'.settled hdisjoint⟩

theorem yields_makeLiquidationEvent {core : EngineCore OrderBook} (record : InboundEngineRecord)
    (input : LiquidatePositionInput) {payload : EventPayload} (htrade : payload.trade? = none)
    (hdelta : payload.accountDeltaId? = none) : Yields (OnCore core) (fun a => Quiet a.events)
      (makeLiquidationEvent record input payload) :=
  yields_withLedger (yields_makeRuntimeMarketEvent record _ _ _ htrade hdelta)

theorem yields_liquidateAgainstBook {core : EngineCore OrderBook} (record : InboundEngineRecord)
    (input : LiquidatePositionInput) (context : EngineEventTranslationContext)
    (hadl : context.adl = none) (metadata : OrderMetadata) {coreEvents : Option (List EngineEvent)}
    (htraded : Traded lo hi (coreEvents.getD [])) : Yields (OnCore core)
      (fun r => Booked (tradesOf (coreEvents.getD [])) r.1.events)
      (liquidateAgainstBook record input context metadata coreEvents) := by
  apply Yields.get
  intro rt hrt
  cases coreEvents with
  | none => exact ⟨Quiet.nil.booked, hrt⟩
  | some coreEvents =>
    refine ((yields_withLedger (yields_withPending _ (yields_translate context rt.markPrices hadl
      coreEvents htraded.parties))).bind fun a ha => ?_) rt hrt
    exact (yields_withLedger (yields_cleanup coreEvents)).bind fun _ _ => .pure ha

/-- A liquidation that goes ahead: the trades of the book, then the ADL fills. -/
theorem yields_runLiquidation {core : EngineCore OrderBook} (record : InboundEngineRecord)
    (input : LiquidatePositionInput) (orderId : AdapterOrderId) (metadata : OrderMetadata)
    {coreEvents : Option (List EngineEvent)} (htraded : Traded lo hi (coreEvents.getD []))
    (price : AdapterPrice) (previousPosition : IsolatedPositionState)
    (previousRisk : IsolatedRiskState) : Yields (OnCore core)
      (fun a => SettledIn lo hi {input.liquidationId} a.events)
      (runLiquidation record input (liquidationContext record input orderId) metadata coreEvents
        price previousPosition previousRisk) := by
  refine (yields_makeLiquidationEvent record input rfl rfl).bind fun started hstarted => ?_
  refine (yields_liquidateAgainstBook record input _ rfl metadata htraded).bind
    fun booked hbooked => ?_
  apply Yields.get
  intro rt hrt
  have hadl : Yields (OnCore core) (fun a => Deleveraged input.liquidationId 1 a.events)
      (emitWhen (0 < min ((booked.2.map (·.remainingQuantity)).getD 0)
        (openQuantity rt.ledger ⟨input.liquidatedUserId, input.marketId⟩))
        (Prod.fst <$> withLedger (withPending booked.2 (appendAdlFills
          (liquidationContext record input orderId) rt.markPrices input
          (min ((booked.2.map (·.remainingQuantity)).getD 0)
            (openQuantity rt.ledger ⟨input.liquidatedUserId, input.marketId⟩)) price)))) := by
    refine yields_emitWhen _ ?_ (.of_quiet .nil)
    exact (yields_withLedger (yields_withPending _
      (yields_appendAdlFills _ rt.markPrices input price rfl rfl _))).map fun _ h => h
  refine (hadl.bind fun deleveraged hdeleveraged => .get fun rt hrt => ?_) rt hrt
  refine ((yields_makeLiquidationEvent record input rfl rfl).bind
    fun completed hcompleted => .pure ?_) rt hrt
  have hbook := (SettledIn.of_quiet hstarted le_rfl).appendUnder
    (SettledIn.of_booked hbooked htraded.ids) (Set.disjoint_empty _)
  have hadlSettled := hbook.appendUnder (SettledIn.of_deleveraged hdeleveraged Int.one_nonneg)
    (by rw [Set.empty_union]; exact Set.empty_disjoint _)
  have hall := hadlSettled.appendUnder (SettledIn.of_quiet hcompleted le_rfl) (Set.disjoint_empty _)
  rw [Set.empty_union, Set.empty_union, Set.union_empty, ← htraded.hi] at hall
  exact hall

theorem ensures_askBook (hasCrossingLiquidity : Bool) (command : PlaceOrderCommand) :
    Ensures (askBook hasCrossingLiquidity command) rt
      (fun coreEvents t => coreEvents = (if hasCrossingLiquidity = true
        then some (rt.core.process (.placeOrder command)).1 else none) ∧ t.ledger = rt.ledger)
      fun _ => True := by
  unfold askBook
  apply ensures_ite.2
  refine ⟨fun h => ?_, fun h => ?_⟩
  · rw [ensures_map, ensures_processCore, if_pos h]
    exact ⟨rfl, rfl⟩
  · rw [ensures_pure, if_neg h]
    exact ⟨rfl, rfl⟩

theorem askBook_traded (hs : rt.Sound) (hasCrossingLiquidity : Bool)
    (command : PlaceOrderCommand) : Ensures (askBook hasCrossingLiquidity command) rt
      (fun coreEvents t => t.Sound ∧
        Traded rt.nextTradeId t.nextTradeId (coreEvents.getD [])) fun _ => True := by
  unfold askBook
  apply ensures_ite.2
  refine ⟨fun _ => ?_, fun _ => ⟨hs, .of_none rfl rfl⟩⟩
  rw [ensures_map, ensures_processCore]
  obtain ⟨queues, hq⟩ := hs.tracked
  exact ⟨⟨hs.keyed, _, hq.process _⟩, hq.traded _⟩

/-- Whether `execute_liquidation` carries a liquidation out, rather than turn it away. -/
def EngineRuntime.carriesOut (rt : EngineRuntime) (record : InboundEngineRecord)
    (input : LiquidatePositionInput) : Bool :=
  match rt.ledger.positions[(⟨input.liquidatedUserId, input.marketId⟩ : PositionRiskKey)]? with
  | none => false
  | some position =>
    let quantity := liquidationQuantity input position
    let price := liquidationPrice input position rt.markPrices
    (liquidationRejectionReason input rt.ledger).isNone && 0 < quantity && 0 < price &&
      match liquidationOrderId input.liquidationId with
      | .error _ => false
      | .ok orderId =>
        match mapPlaceOrderToCore (syntheticLiquidationOrder input position orderId quantity price)
          (receivedSequence record) with
        | .error _ => false
        | .ok mapped =>
          0 < totalAdlAvailable quantity (adlCandidatesFor input position rt.ledger) 0 ||
            (crossingLiquidityExists rt.core input.marketId
                (liquidationOrderSide position.signedQuantity) price &&
              hasTradeExecuted (rt.core.process (.placeOrder mapped.1)).1)

theorem EngineRuntime.carriesOut_of {record : InboundEngineRecord} {input : LiquidatePositionInput}
    {position : IsolatedPositionState} {orderId : AdapterOrderId}
    {mapped : PlaceOrderCommand × OrderMetadata}
    (hposition : rt.ledger.positions[(⟨input.liquidatedUserId, input.marketId⟩ :
      PositionRiskKey)]? = some position)
    (hreason : liquidationRejectionReason input rt.ledger = none)
    (hquantity : 0 < liquidationQuantity input position)
    (hprice : 0 < liquidationPrice input position rt.markPrices)
    (horder : liquidationOrderId input.liquidationId = .ok orderId)
    (hmapped : mapPlaceOrderToCore (syntheticLiquidationOrder input position orderId
      (liquidationQuantity input position) (liquidationPrice input position rt.markPrices))
      (receivedSequence record) = .ok mapped)
    (hliquidity : 0 < totalAdlAvailable (liquidationQuantity input position)
        (adlCandidatesFor input position rt.ledger) 0 ∨
      (crossingLiquidityExists rt.core input.marketId (liquidationOrderSide position.signedQuantity)
          (liquidationPrice input position rt.markPrices) = true ∧
        hasTradeExecuted (rt.core.process (.placeOrder mapped.1)).1 = true)) :
    rt.carriesOut record input = true := by
  unfold carriesOut
  simp only [hposition, hreason, hquantity, hprice, horder, hmapped]
  rcases hliquidity with hadl | ⟨hcrossing, htraded⟩
  · simp [hadl]
  · simp [hcrossing, htraded]

/-- The ids of those of the calls that were carried out. -/
def liquidatedUnder (calls : List LiquidationCall) : List Text :=
  (calls.filter fun call => call.before.carriesOut call.record call.input).map
    (·.input.liquidationId)

theorem liquidatedUnder_append (calls more : List LiquidationCall) :
    liquidatedUnder (calls ++ more) = liquidatedUnder calls ++ liquidatedUnder more := by
  unfold liquidatedUnder
  rw [List.filter_append, List.map_append]

/-- What a liquidation settles goes under its own id, and there is nothing to settle unless it is
carried out. -/
theorem executeLiquidation_settled (hs : rt.Sound) (record : InboundEngineRecord)
    (input : LiquidatePositionInput) (emitReplies : Bool) :
    Ensures (executeLiquidation record input emitReplies) rt
      (fun a t => SettledAt rt.nextTradeId
        { id | rt.carriesOut record input = true ∧ id = input.liquidationId } a.events t)
      fun _ => True := by
  have hnothing : ∀ {events : List EngineEventRecord} {ids : Set Text}, events = [] →
      SettledAt rt.nextTradeId ids events rt := by
    rintro _ _ rfl
    exact .nothing hs _
  have hreply : ∀ reply, (replyIf emitReplies reply).events = [] := by
    intro reply
    unfold replyIf
    split_ifs <;> rfl
  unfold executeLiquidation
  rw [ensures_bind, ensures_get]
  dsimp only
  split
  · exact hnothing (hreply _)
  · rename_i hreason
    split
    · rename_i position risk hposition hrisk
      apply ensures_ite.2
      refine ⟨fun _ => hnothing (hreply _), fun hguard => ?_⟩
      push Not at hguard
      obtain ⟨hquantity, hprice, hsome⟩ := hguard
      rw [ensures_bind, ensures_liftExcept]
      refine ⟨fun orderId horder => ?_, fun _ _ => trivial⟩
      rw [ensures_bind, ensures_liftExcept]
      refine ⟨fun mapped hmapped => ?_, fun _ _ => trivial⟩
      apply ensures_bind.2
      refine ((ensures_askBook _ _).and (askBook_traded hs _ _)).mono ?_ fun _ _ => trivial
      rintro coreEvents t ⟨⟨hevents, -⟩, hsound, htraded⟩
      apply ensures_ite.2
      refine ⟨fun hnone => ?_, fun hgoes => ?_⟩
      · rw [ensures_pure, hreply]
        exact ⟨hsound, (SettledIn.of_quiet .nil (htraded.hi ▸ Nat.le_add_right _ _)).mono
          (Set.empty_subset _)⟩
      · have hcarried : rt.carriesOut record input = true := by
          refine EngineRuntime.carriesOut_of hposition hreason hquantity hprice horder hmapped ?_
          by_cases hcrossing : crossingLiquidityExists rt.core input.marketId
            (liquidationOrderSide position.signedQuantity)
            (liquidationPrice input position rt.markPrices) = true
          · rw [hevents, if_pos hcrossing] at hgoes
            by_contra hnone
            push Not at hnone
            obtain ⟨hadl, htrade⟩ := hnone
            exact hgoes ⟨hcrossing, Bool.eq_false_of_not_eq_true (htrade hcrossing), hadl⟩
          · exact Or.inl (hsome (Bool.eq_false_of_not_eq_true hcrossing))
        apply ensures_bind.2
        refine (ensures_of_onCore (yields_runLiquidation record input orderId mapped.2 htraded _ _ _)
          hsound).mono ?_ fun _ _ => trivial
        rintro result u ⟨hsettled, hsound', hnext⟩
        have hevents : (result.repliesIf emitReplies).events = result.events := by
          unfold EngineProcessResult.repliesIf
          split_ifs <;> rfl
        rw [ensures_pure, hevents]
        refine ⟨hsound', ?_⟩
        rw [hnext]
        exact hsettled.mono fun id hid => ⟨hcarried, hid⟩
    · trivial

end Liquidation

section Logged
variable {o o' o'' : LoggedRuntime} {ids ids' : Set Text}
  {events more : List EngineEventRecord} {α β : Type}

/-- What was settled since `o` went under these ids, by liquidations that were carried out. -/
def SettledSince (o : LoggedRuntime) (ids : Set Text) (events : List EngineEventRecord)
    (o' : LoggedRuntime) : Prop :=
  ∃ calls, o'.calls = o.calls ++ calls ∧ SettledAt o.runtime.nextTradeId
    (ids ∩ { id | id ∈ liquidatedUnder calls }) events o'.runtime

theorem SettledSince.sound (h : SettledSince o ids events o') : o'.runtime.Sound := by
  obtain ⟨calls, -, hsettled⟩ := h
  exact hsettled.sound

theorem SettledSince.mono (h : SettledSince o ids events o') (hsub : ids ⊆ ids') :
    SettledSince o ids' events o' := by
  obtain ⟨calls, hcalls, hsettled⟩ := h
  exact ⟨calls, hcalls, hsettled.mono (Set.inter_subset_inter_left _ hsub)⟩

/-- Nothing but the runtime has changed. -/
theorem SettledSince.of_settledAt {rt : EngineRuntime}
    (h : SettledAt o.runtime.nextTradeId ∅ events rt) :
    SettledSince o ids events { o with runtime := rt } :=
  ⟨[], (List.append_nil _).symm, h.mono (Set.empty_subset _)⟩

theorem SettledSince.nothing (hs : o.runtime.Sound) (ids : Set Text) : SettledSince o ids [] o :=
  .of_settledAt (SettledAt.nothing hs ∅)

theorem SettledSince.append (h : SettledSince o ids events o') (h' : SettledSince o' ids' more o'')
    (hdisjoint : Disjoint ids ids') : SettledSince o (ids ∪ ids') (events ++ more) o'' := by
  obtain ⟨calls, hcalls, hsettled⟩ := h
  obtain ⟨calls', hcalls', hsettled'⟩ := h'
  refine ⟨calls ++ calls', by rw [hcalls', hcalls, List.append_assoc], ?_⟩
  refine (hsettled.append hsettled' (hdisjoint.mono Set.inter_subset_left
    Set.inter_subset_left)).mono ?_
  rintro id (⟨hid, hcarried⟩ | ⟨hid, hcarried⟩)
  · refine ⟨Or.inl hid, ?_⟩
    rw [Set.mem_ofPred_eq, liquidatedUnder_append]
    exact List.mem_append_left _ hcarried
  · refine ⟨Or.inr hid, ?_⟩
    rw [Set.mem_ofPred_eq, liquidatedUnder_append]
    exact List.mem_append_right _ hcarried

theorem ensures_unlogged (ids : Set Text) {m : RuntimeM α} {out : α → List EngineEventRecord}
    (h : Ensures m o.runtime (fun a t => SettledAt o.runtime.nextTradeId ∅ (out a) t)
      fun _ => True) :
    Ensures (unlogged m) o (fun a o' => SettledSince o ids (out a) o') fun _ => True := by
  unfold unlogged
  rw [ensures_zoom]
  exact h.mono (fun _ _ ha => .of_settledAt ha) fun _ h => h

theorem ensures_unlogged_get {f : EngineRuntime → LoggedM α} {Q : α → LoggedRuntime → Prop}
    {E : LoggedRuntime → Prop} :
    Ensures (unlogged get >>= f) o Q E ↔ Ensures (f o.runtime) o Q E := ensures_bind

theorem logLiquidation_settled (hs : o.runtime.Sound) (record : InboundEngineRecord)
    (input : LiquidatePositionInput) (emitReplies : Bool) :
    Ensures (logLiquidation record input emitReplies) o
      (fun a o' => SettledSince o {input.liquidationId} a.events o') fun _ => True := by
  have hcall := executeLiquidation_settled hs record input emitReplies
  unfold logLiquidation
  rw [ensures_bind, ensures_get]
  dsimp only
  rw [ensures_bind, ensures_set, ensures_liftExcept]
  refine ⟨fun result hresult => ?_, fun _ _ => trivial⟩
  refine ⟨[o.runtime.liquidation record input emitReplies], rfl, ?_⟩
  refine (hcall.returned (Prod.ext hresult rfl)).mono ?_
  rintro id ⟨hcarried, rfl⟩
  refine ⟨rfl, ?_⟩
  unfold liquidatedUnder
  rw [Set.mem_ofPred_eq, List.filter_singleton]
  have hbefore : (o.runtime.liquidation record input emitReplies).before.carriesOut
      (o.runtime.liquidation record input emitReplies).record
      (o.runtime.liquidation record input emitReplies).input = true := hcarried
  rw [hbefore]
  exact List.mem_singleton_self _

end Logged

section Automatic
variable {o o' o'' : LoggedRuntime} (source : InboundEngineRecord)
  (sourceInputId : Option Text)

/-- The ids of the automatic liquidations that a record sets off, by market and attempt. -/
def automaticIds (attempts : Set (MarketId × ℕ)) : Set Text :=
  { id | ∃ key attempt, (key.marketId, attempt) ∈ attempts ∧
    id = automaticLiquidationId source sourceInputId key attempt }

theorem automaticIds_mono {A B : Set (MarketId × ℕ)} (h : A ⊆ B) :
    automaticIds source sourceInputId A ⊆ automaticIds source sourceInputId B := by
  rintro _ ⟨key, attempt, hmem, rfl⟩
  exact ⟨key, attempt, h hmem, rfl⟩

theorem automaticLiquidationId_inj {key key' : PositionRiskKey} {attempt attempt' : ℕ}
    (h : automaticLiquidationId source sourceInputId key attempt =
      automaticLiquidationId source sourceInputId key' attempt') :
    key.marketId = key'.marketId ∧ attempt = attempt' := by
  have hdash : ascii "-" = [45] := by decide +kernel
  have hcut : ∀ tail tail' : Text, text key.marketId ++ 45 :: (text key.userId ++ 45 ::
      (text source.partition ++ 45 :: (text source.offset ++ 45 :: tail))) =
      text key'.marketId ++ 45 :: (text key'.userId ++ 45 ::
        (text source.partition ++ 45 :: (text source.offset ++ 45 :: tail'))) →
      key.marketId = key'.marketId ∧ tail = tail' := by
    intro tail tail' heq
    obtain ⟨hmarket, h₁⟩ := text_cut heq
    obtain ⟨-, h₂⟩ := text_cut h₁
    obtain ⟨-, h₃⟩ := text_cut h₂
    obtain ⟨-, h₄⟩ := text_cut h₃
    exact ⟨hmarket, h₄⟩
  unfold automaticLiquidationId at h
  cases sourceInputId with
  | none =>
    simp only [hdash, List.append_assoc, List.singleton_append] at h
    obtain ⟨hmarket, hlast⟩ := hcut _ _ (List.append_cancel_left h)
    exact ⟨hmarket, Int.ofNat.inj (text_injective hlast)⟩
  | some inputId =>
    simp only [hdash, List.append_assoc, List.singleton_append] at h
    obtain ⟨hmarket, hlast⟩ := hcut _ _ (List.append_cancel_left h)
    exact ⟨hmarket, Int.ofNat.inj (text_cut hlast).1⟩

theorem automaticIds_disjoint {A B : Set (MarketId × ℕ)} (h : Disjoint A B) :
    Disjoint (automaticIds source sourceInputId A) (automaticIds source sourceInputId B) := by
  rw [Set.disjoint_left] at h ⊢
  rintro _ ⟨key, attempt, hmem, rfl⟩ ⟨key', attempt', hmem', heq⟩
  obtain ⟨hmarket, rfl⟩ := automaticLiquidationId_inj source sourceInputId heq
  rw [← hmarket] at hmem'
  exact h hmem hmem'

/-- Some automatic liquidations, then others. -/
theorem SettledSince.appendAutomatic {A B C : Set (MarketId × ℕ)}
    {events more : List EngineEventRecord}
    (h : SettledSince o (automaticIds source sourceInputId A) events o')
    (h' : SettledSince o' (automaticIds source sourceInputId B) more o'')
    (hdisjoint : Disjoint A B) (hsub : A ∪ B ⊆ C) :
    SettledSince o (automaticIds source sourceInputId C) (events ++ more) o'' := by
  refine (h.append h' (automaticIds_disjoint source sourceInputId hdisjoint)).mono ?_
  rintro _ (hid | hid)
  · exact automaticIds_mono source sourceInputId (Set.subset_union_left.trans hsub) hid
  · exact automaticIds_mono source sourceInputId (Set.subset_union_right.trans hsub) hid

/-- The attempts of a market after the first `a`, up to the `b`-th. -/
def attemptsBetween (marketId : MarketId) (a b : ℕ) : Set (MarketId × ℕ) :=
  { x | x.1 = marketId ∧ a < x.2 ∧ x.2 ≤ b }

/-- Later attempts are others. -/
theorem attemptsBetween_disjoint {marketId : MarketId} {a b : ℕ} {A : Set (MarketId × ℕ)}
    (h : ∀ x ∈ A, b < x.2) : Disjoint (attemptsBetween marketId a b) A := by
  rw [Set.disjoint_left]
  rintro x ⟨-, -, hto⟩ hx
  exact absurd ((h x hx).trans_le hto) (lt_irrefl _)

theorem logCandidates_settled {marketId : MarketId}
    (candidates : List AutomaticLiquidationCandidate)
    (hmarket : ∀ c ∈ candidates, c.key.marketId = marketId) (progress : LiquidationAttempts)
    (hs : o.runtime.Sound) : Ensures (logCandidates source sourceInputId candidates progress) o
      (fun r o' => progress.attempts ≤ r.2.2.attempts ∧ SettledSince o
        (automaticIds source sourceInputId
          (attemptsBetween marketId progress.attempts r.2.2.attempts)) r.1.events o')
      fun _ => True := by
  induction candidates generalizing o progress with
  | nil => exact ⟨le_rfl, .nothing hs _⟩
  | cons candidate candidates ih =>
    unfold logCandidates
    apply ensures_ite.2
    refine ⟨fun _ => ⟨le_rfl, .nothing hs _⟩, fun _ => ?_⟩
    apply ensures_bind.2
    refine (logLiquidation_settled hs source _ false).mono ?_ fun _ _ => trivial
    intro execution t hexecution
    have hfirst : SettledSince o (automaticIds source sourceInputId
        (attemptsBetween marketId progress.attempts (progress.attempts + 1)))
        execution.events t := by
      apply hexecution.mono
      rintro _ rfl
      exact ⟨candidate.key, progress.attempts + 1,
        ⟨hmarket _ List.mem_cons_self, Nat.lt_succ_self _, le_rfl⟩, rfl⟩
    apply ensures_ite.2
    refine ⟨fun _ => ?_, fun _ => ⟨Nat.le_succ _, hfirst⟩⟩
    apply ensures_bind.2
    refine (ih (fun c hc => hmarket c (List.mem_cons_of_mem _ hc)) _ hfirst.sound).mono ?_
      fun _ _ => trivial
    rintro ⟨rest, shouldRescan, progress'⟩ u ⟨hle, hrest⟩
    refine ⟨(Nat.le_succ _).trans hle, ?_⟩
    refine hfirst.appendAutomatic source sourceInputId hrest
      (attemptsBetween_disjoint fun x hx => hx.2.1) ?_
    rintro x (⟨hm, hfrom, hto⟩ | ⟨hm, hfrom, hto⟩)
    · exact ⟨hm, hfrom, hto.trans hle⟩
    · exact ⟨hm, (Nat.lt_succ_self _).trans hfrom, hto⟩

theorem automaticLiquidationCandidatesFor_market (marketId : MarketId) (ledger : Ledger)
    (attempted : List PositionRiskKey) :
    ∀ c ∈ automaticLiquidationCandidatesFor marketId ledger attempted,
      c.key.marketId = marketId := by
  intro c hc
  unfold automaticLiquidationCandidatesFor at hc
  rw [List.mem_insertionSort, List.mem_filterMap] at hc
  obtain ⟨⟨key, risk⟩, -, heq⟩ := hc
  dsimp only at heq
  split at heq
  · cases heq
  · rename_i hkey
    split at heq
    · cases heq
    · split at heq
      · cases heq
      · cases heq
        by_contra hne
        exact hkey (Or.inl hne)

theorem logRounds_settled (marketId : MarketId) (rounds : ℕ)
    (progress : LiquidationAttempts) (hs : o.runtime.Sound) :
    Ensures (logRounds source sourceInputId marketId rounds progress) o
      (fun a o' => SettledSince o (automaticIds source sourceInputId
        { x | x.1 = marketId ∧ progress.attempts < x.2 }) a.events o') fun _ => True := by
  induction rounds generalizing o progress with
  | zero => exact SettledSince.nothing hs _
  | succ rounds ih =>
    unfold logRounds
    apply ensures_ite.2
    refine ⟨fun _ => SettledSince.nothing hs _, fun _ => ?_⟩
    rw [ensures_unlogged_get]
    apply ensures_ite.2
    refine ⟨fun _ => SettledSince.nothing hs _, fun _ => ?_⟩
    apply ensures_bind.2
    refine (logCandidates_settled source sourceInputId _
      (automaticLiquidationCandidatesFor_market _ _ _) progress hs).mono ?_ fun _ _ => trivial
    rintro ⟨result, shouldRescan, progress'⟩ t ⟨hle, hresult⟩
    apply ensures_ite.2
    refine ⟨fun _ => ?_, fun _ => hresult.mono (automaticIds_mono _ _ fun x hx => ⟨hx.1, hx.2.1⟩)⟩
    apply ensures_bind.2
    refine (ih progress' hresult.sound).mono ?_ fun _ _ => trivial
    intro rest u hrest
    refine hresult.appendAutomatic source sourceInputId hrest
      (attemptsBetween_disjoint fun x hx => hx.2) ?_
    rintro x (⟨hm, hfrom, -⟩ | ⟨hm, hfrom⟩)
    · exact ⟨hm, hfrom⟩
    · exact ⟨hm, hle.trans_lt hfrom⟩

/-- What a trigger settles in one market goes under the automatic ids of that market. -/
theorem logLiquidationsForMarket_settled (marketId : MarketId) (hs : o.runtime.Sound) :
    Ensures (logLiquidationsForMarket marketId source sourceInputId) o
      (fun a o' => SettledSince o (automaticIds source sourceInputId
        { x | x.1 = marketId }) a.events o') fun _ => True :=
  (logRounds_settled source sourceInputId marketId _ _ hs).mono
    (fun _ _ h => h.mono (automaticIds_mono _ _ fun _ hx => hx.1)) fun _ h => h

theorem logMarkets_settled (markets : List MarketId) (hnodup : markets.Nodup)
    (hs : o.runtime.Sound) : Ensures (logMarkets source sourceInputId markets) o
      (fun a o' => SettledSince o (automaticIds source sourceInputId
        { x | x.1 ∈ markets }) a.events o') fun _ => True := by
  induction markets generalizing o with
  | nil => exact SettledSince.nothing hs _
  | cons marketId markets ih =>
    obtain ⟨hnew, hrest⟩ := List.nodup_cons.1 hnodup
    apply ensures_bind.2
    refine (logLiquidationsForMarket_settled source sourceInputId marketId hs).mono ?_
      fun _ _ => trivial
    intro first t hfirst
    apply ensures_bind.2
    refine (ih hrest hfirst.sound).mono ?_ fun _ _ => trivial
    intro rest u hsettled
    refine hfirst.appendAutomatic source sourceInputId hsettled ?_ ?_
    · rw [Set.disjoint_left]
      intro x hx hmem
      have hmarket : x.1 = marketId := hx
      apply hnew
      rw [← hmarket]
      exact hmem
    · rintro x (hx | hx)
      · exact List.mem_cons.2 (Or.inl hx)
      · exact List.mem_cons_of_mem _ hx

theorem logAllLiquidations_settled (hs : o.runtime.Sound) :
    Ensures (logAllLiquidations source sourceInputId) o
      (fun a o' => SettledSince o (automaticIds source sourceInputId Set.univ) a.events o')
      fun _ => True := by
  unfold logAllLiquidations
  rw [ensures_unlogged_get]
  have hnodup : (liquidatableMarkets o.runtime.ledger).Nodup :=
    ((List.perm_insertionSort _ _).nodup_iff).2 (List.nodup_dedup _)
  exact (logMarkets_settled source sourceInputId _ hnodup hs).mono
    (fun _ _ h => h.mono (automaticIds_mono _ _ (Set.subset_univ _))) fun _ h => h

end Automatic
end PerpexEngine
