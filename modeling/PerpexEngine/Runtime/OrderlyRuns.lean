import PerpexEngine.Runtime.LiquidationTransfers
import PerpexEngine.Runtime.LogRules

/-! Whole runs keep books and metadata in lock step, and the positions of every market in balance. -/
namespace PerpexEngine
open Program

/-- A market that the adapter lets through to the core. -/
def Tradable (marketId : MarketId) : Prop := 0 < marketId ∧ marketId ≤ 2 ^ 32 - 1

/-- The positions of every market add up to zero, over any users that include all with one. -/
def Balanced (signed : PositionRiskKey → ℤ) : Prop :=
  ∀ (marketId : MarketId) (users : Finset AdapterUserId),
    (∀ user, signed ⟨user, marketId⟩ ≠ 0 → user ∈ users) →
      ∑ user ∈ users, signed ⟨user, marketId⟩ = 0

section Balance
variable {signed : PositionRiskKey → ℤ} {ts : List (Transfer PositionRiskKey)} {marketId : MarketId}

theorem balanced_zero : Balanced fun _ => 0 := fun _ _ _ => Finset.sum_const_zero

theorem WithinMarket.untouched (h : WithinMarket marketId ts) {key : PositionRiskKey}
    (hother : key.marketId ≠ marketId) : Transfer.settle signed ts key = signed key :=
  Transfer.settle_untouched fun t ht => by
    obtain ⟨⟨hsource, -⟩, htarget, -⟩ := h t ht
    exact ⟨fun heq => hother (heq ▸ hsource), fun heq => hother (heq ▸ htarget)⟩

/-- The users that transfers name. -/
def partiesOf (ts : List (Transfer PositionRiskKey)) : Finset AdapterUserId :=
  (ts.flatMap fun t => [t.source.userId, t.target.userId]).toFinset

theorem mem_partiesOf {t : Transfer PositionRiskKey} (ht : t ∈ ts) :
    t.source.userId ∈ partiesOf ts ∧ t.target.userId ∈ partiesOf ts := by
  simp only [partiesOf, List.mem_toFinset, List.mem_flatMap]
  exact ⟨⟨t, ht, List.mem_cons_self⟩, t, ht, List.mem_cons_of_mem _ List.mem_cons_self⟩

theorem sum_market (users : Finset AdapterUserId) (signed : PositionRiskKey → ℤ) :
    ∑ key ∈ users.image (fun user => (⟨user, marketId⟩ : PositionRiskKey)), signed key =
      ∑ user ∈ users, signed ⟨user, marketId⟩ :=
  Finset.sum_image fun _ _ _ _ heq => congrArg PositionRiskKey.userId heq

/-- Transfers within one market keep the balance of all. -/
theorem Balanced.settle (h : Balanced signed) (hts : WithinMarket marketId ts) :
    Balanced (Transfer.settle signed ts) := by
  intro m users husers
  by_cases hm : m = marketId
  · subst hm
    have hkept : ∀ user, user ∉ partiesOf ts →
        Transfer.settle signed ts ⟨user, m⟩ = signed ⟨user, m⟩ := fun user huser =>
      Transfer.settle_untouched fun t ht =>
        ⟨fun heq => huser (by simpa [heq] using (mem_partiesOf ht).1),
          fun heq => huser (by simpa [heq] using (mem_partiesOf ht).2)⟩
    have hbefore : ∑ user ∈ users ∪ partiesOf ts, signed ⟨user, m⟩ = 0 := by
      apply h
      intro user hopen
      by_cases hparty : user ∈ partiesOf ts
      · exact Finset.mem_union_right _ hparty
      · exact Finset.mem_union_left _ (husers user (by rw [hkept user hparty]; exact hopen))
    have hsum : ∑ user ∈ users ∪ partiesOf ts, Transfer.settle signed ts ⟨user, m⟩ = 0 := by
      rw [← sum_market, Transfer.sum_settle, sum_market, hbefore]
      intro t ht
      obtain ⟨⟨hsource, -⟩, htarget, -⟩ := hts t ht
      obtain ⟨hsource', htarget'⟩ := mem_partiesOf ht
      refine ⟨Finset.mem_image.2 ⟨_, Finset.mem_union_right _ hsource', ?_⟩,
        Finset.mem_image.2 ⟨_, Finset.mem_union_right _ htarget', ?_⟩⟩
      · rw [← hsource]
      · rw [← htarget]
    rw [← hsum]
    refine Finset.sum_subset Finset.subset_union_left fun user _ hnot => ?_
    by_contra hopen
    exact hnot (husers user hopen)
  · have hsame : ∀ user, Transfer.settle signed ts ⟨user, m⟩ = signed ⟨user, m⟩ :=
      fun user => hts.untouched hm
    simp only [hsame] at husers ⊢
    exact h m users husers

end Balance
section Lockstep
variable {queues : EngineCore QueueBook} {store : OrderMetadataStore} {core : EngineCore OrderBook}

/-- Reinserted queues hold the same orders. -/
theorem Lockstep.restarted (h : Lockstep queues store) (htracks : Tracks core queues) :
    Lockstep queues.restarted store := by
  have hbook : ∀ {id : SymbolId} {q : QueueBook}, queues.restarted.orderBooks[id]? = some q →
      ∃ book, queues.orderBooks[id]? = some book ∧ book.reinserted = q := by
    intro id q hq
    rw [EngineCore.restarted, Std.ExtTreeMap.getElem?_map] at hq
    exact Option.map_eq_some_iff.1 hq
  constructor
  · exact fun id q hq => (htracks.restart.live id q hq).ok
  · intro id q hq
    obtain ⟨book, hb, rfl⟩ := hbook hq
    rw [QueueBook.symbolConfig_reinserted]
    exact h.symbols id book hb
  · intro id q hq r hr
    obtain ⟨book, hb, rfl⟩ := hbook hq
    exact h.described id book hb r ((QueueBook.reinserted_perm book).mem_iff.1 hr)
  · exact h.filed

/-- A core without orders, beside a store without entries. -/
structure Unused (core : EngineCore OrderBook) (queues : EngineCore QueueBook) : Prop where
  tracks : Tracks core queues
  symbols : ∀ (id : SymbolId) q, queues.orderBooks[id]? = some q →
    q.symbolConfig.symbolId = id ∧ q.activeOrders = []

theorem Unused.addSymbol {core : EngineCore OrderBook} {queues : EngineCore QueueBook}
    (h : Unused core queues) (config : SymbolConfig) :
    Unused (core.addSymbol config) (queues.addSymbol config) where
  tracks := h.tracks.addSymbol config
  symbols id q hq := by
    simp only [EngineCore.addSymbol, Std.ExtTreeMap.getElem?_insert] at hq
    split_ifs at hq with hid
    · cases hq
      exact ⟨Std.LawfulEqCmp.compare_eq_iff_eq.1 hid, rfl⟩
    · exact h.symbols id q hq

namespace EngineRuntime.InLockstep
variable {rt : EngineRuntime}

theorem restarted (h : rt.InLockstep) (config : EngineRuntimeConfig) :
    (rt.restarted config).InLockstep := by
  obtain ⟨queues, htracks, hlock⟩ := h
  exact ⟨_, htracks.restart, hlock.restarted htracks⟩

theorem new (config : EngineRuntimeConfig) : (EngineRuntime.new config).InLockstep := by
  have hfold : ∀ (configs : List SymbolConfig) (core : EngineCore OrderBook)
      (queues : EngineCore QueueBook), Unused core queues →
      ∃ queues', Unused (configs.foldl EngineCore.addSymbol core) queues' := by
    intro configs
    induction configs with
    | nil => exact fun core queues h => ⟨queues, h⟩
    | cons config configs ih => exact fun core queues h => ih _ _ (h.addSymbol config)
  have hempty : ∀ id : SymbolId,
      (EngineCore.empty : EngineCore QueueBook).orderBooks[id]? = none :=
    fun _ => Std.ExtTreeMap.getElem?_empty
  obtain ⟨queues, hunused⟩ := hfold config.symbols
    { EngineCore.empty with sequenceGenerator := { SequenceGenerator.new with
      nextTradeId := config.firstTradeId } }
    { EngineCore.empty with sequenceGenerator := { SequenceGenerator.new with
      nextTradeId := config.firstTradeId } }
    ⟨⟨⟨Tracks.empty.rel.books, Tracks.empty.rel.symbolConfigs, rfl,
      Tracks.empty.rel.idempotencyIndex⟩, Tracks.empty.live, Tracks.empty.configs⟩,
      fun id q hq => absurd hq (by rw [hempty]; exact nofun)⟩
  refine ⟨queues, hunused.tracks, fun id q hq => (hunused.tracks.live id q hq).ok,
    fun id q hq => (hunused.symbols id q hq).1, fun id q hq r hr => ?_, fun id m hm => ?_⟩
  · rw [(hunused.symbols id q hq).2] at hr
    cases hr
  · cases Std.ExtTreeMap.getElem?_empty.symm.trans hm

end EngineRuntime.InLockstep
end Lockstep
section Operations
variable {rt rt' : EngineRuntime} {record : InboundEngineRecord}

/-- A cancelled order leaves book and store together. -/
theorem EngineRuntime.InLockstep.cancelOnBook (h : rt.InLockstep) (input : CancelOrderInput)
    (markPrices : MarkPrices) : Ensures (cancelOnBook record input markPrices) rt
      (fun _ after => after.InLockstep ∧ after.ledger.signed = rt.ledger.signed)
      fun after => after = rt := by
  unfold PerpexEngine.cancelOnBook
  rw [ensures_bind, ensures_liftExcept]
  refine ⟨fun command hcommand => ?_, fun _ _ => rfl⟩
  obtain ⟨hmarket, hsymbol⟩ : (0 < input.marketId ∧ input.marketId ≤ 2 ^ 32 - 1) ∧
      command.symbolId = input.marketId.toNat := by
    unfold mapCancelOrderToCore at hcommand
    simp only [bind_eq_ok, toCoreSymbolId_eq_ok, pure_eq_ok] at hcommand
    obtain ⟨_, -, _, -, _, -, _, ⟨hmarket, rfl⟩, _, -, _, -, rfl⟩ := hcommand
    exact ⟨hmarket, rfl⟩
  have hpositive : 0 < command.symbolId := by
    rw [hsymbol]
    exact Int.lt_toNat.2 hmarket.1
  obtain ⟨queues, htracks, hlock⟩ := h
  have hevents := htracks.events (.cancelOrder command)
  have hnext := htracks.process (.cancelOrder command)
  have hmarketed : (rt.ledger.holdings none).Marketed :=
    ⟨fun id m hm => (hlock.filed id m hm).2.1, nofun⟩
  rw [ensures_bind, ensures_processCore, ensures_bind]
  unfold withLedger
  rw [ensures_zoom, hevents]
  have htranslate : ∀ events : List EngineEvent, (∀ e ∈ events, e.Marketed) →
      tradesOf events = [] → ∀ store : OrderMetadataStore,
      cleanupCompletedOrderMetadata events rt.ledger.metadataStore = store →
      Lockstep (queues.process (.cancelOrder command)).2 store →
      Ensures (withPending none (translate (cancelContext record input) markPrices events))
        rt.ledger (fun r l => Ensures (do
          zoom EngineRuntime.ledger (fun rt l => { rt with ledger := l })
            (modifyMetadata (cleanupCompletedOrderMetadata events))
          pure r.1) { rt with core := (rt.core.process (.cancelOrder command)).2, ledger := l }
          (fun _ after => after.InLockstep ∧ after.ledger.signed = rt.ledger.signed)
          fun after => after = rt) fun _ => False := by
    intro events hmarkets hnone store hstore hlock'
    refine (ensures_translate hmarketed hmarket.1 hmarkets).mono ?_ fun _ h => h
    rintro ⟨result, pending⟩ l ⟨hsettled, -⟩
    rw [Holdings.settle_of_no_trades hnone] at hsettled
    have hsame : l.metadataStore = rt.ledger.metadataStore := congrArg Holdings.store hsettled
    rw [ensures_bind, ensures_zoom, ensures_modifyMetadata]
    refine ⟨⟨_, hnext, ?_⟩, congrArg Holdings.signed hsettled⟩
    dsimp only
    rw [hsame, hstore]
    exact hlock'
  rcases hlock.cancel command with ⟨e, hrejected, hlock'⟩ | ⟨c, d, hcancelled, hdelta, hlock'⟩
  · rw [hrejected]
    refine (htranslate [.orderRejected e] (fun e' he' => ?_) rfl _ rfl hlock').mono
      (fun _ _ h => h) fun _ h => h.elim
    rw [List.mem_singleton.1 he']
    trivial
  · rw [hcancelled]
    refine (htranslate [.orderCancelled c, .orderBookDelta d] (fun e' he' => ?_) rfl _ rfl
      hlock').mono (fun _ _ h => h) fun _ h => h.elim
    rcases List.mem_cons.1 he' with rfl | he'
    · trivial
    · rw [List.mem_singleton.1 he']
      exact hpositive.trans_eq hdelta.symm

/-- What a placement comes to in terms of positions: trades within a market that can trade. -/
theorem EngineRuntime.InLockstep.placeOnBook_transfers (h : rt.InLockstep) {input : PlaceOrderInput}
    {capped : AdapterQuantity} (hfits : FitsInt64 input.quantity)
    (hcapped : checkReduceOnlyOrder input rt.ledger = .ok capped) :
    Ensures (PerpexEngine.placeOnBook record input capped) rt
      (fun _ after => after.InLockstep ∧ ∃ ts, Tradable input.marketId ∧
        WithinMarket input.marketId ts ∧
        after.ledger.signed = Transfer.settle rt.ledger.signed ts)
      fun after => after = rt := by
  have hmarket : (coreInputOf input capped).marketId = input.marketId := by
    unfold coreInputOf
    split_ifs <;> rfl
  have hmapped : Ensures (PerpexEngine.placeOnBook record input capped) rt
      (fun _ _ => Tradable input.marketId) fun _ => True := by
    unfold PerpexEngine.placeOnBook
    rw [ensures_bind, ensures_liftExcept]
    refine ⟨fun mapped hmapped => Ensures.always fun _ _ => ?_, fun _ _ => trivial⟩
    obtain ⟨hm, -⟩ := mapPlaceOrderToCore_eq_ok.1 hmapped
    exact hmarket ▸ hm.market
  refine ((h.placeOnBook record (fun _ => hfits) hcapped).and hmapped).mono ?_ fun _ h => h.1
  rintro ⟨result, events⟩ after ⟨⟨hlock, hplaces⟩, htradable⟩
  refine ⟨hlock, ?_⟩
  cases hplaces with
  | rejected store signed rests expired =>
    exact ⟨[], htradable, fun _ h => absurd h List.not_mem_nil, signed⟩
  | @accepted place p ts _ _ takes orderId ioc core signed store expired =>
    exact ⟨ts, htradable, hmarket ▸ takes.within, signed⟩

/-- Books, metadata and positions as they are between two requests. -/
structure EngineRuntime.Accounted (rt : EngineRuntime) : Prop extends rt.Orderly where
  markets : ∀ key, rt.ledger.signed key ≠ 0 → Tradable key.marketId
  balanced : Balanced rt.ledger.signed

namespace EngineRuntime.Accounted

theorem frame (h : rt.Accounted) (hsame : rt.SameBooks rt') : rt'.Accounted := by
  have hsigned : rt'.ledger.signed = rt.ledger.signed := by
    unfold Ledger.signed
    rw [hsame.positions]
  refine ⟨⟨h.lockstep.of_eq hsame.core hsame.metadataStore, fun key hopen => ?_⟩, fun key hopen => ?_,
    hsigned ▸ h.balanced⟩
  · exact h.users key (hsigned ▸ hopen)
  · exact h.markets key (hsigned ▸ hopen)

theorem transfers (h : rt.Accounted) {marketId : MarketId} {ts : List (Transfer PositionRiskKey)}
    (hlock : rt'.InLockstep) (hwithin : WithinMarket marketId ts) (hmarket : Tradable marketId)
    (hsigned : rt'.ledger.signed = Transfer.settle rt.ledger.signed ts) : rt'.Accounted := by
  refine ⟨⟨hlock, usersTrade_settle h.users hsigned hwithin.users⟩, fun key hopen => ?_, ?_⟩
  · by_cases hkey : key.marketId = marketId
    · exact hkey ▸ hmarket
    · rw [hsigned, hwithin.untouched hkey] at hopen
      exact h.markets key hopen
  · rw [hsigned]
    exact h.balanced.settle hwithin

theorem new (config : EngineRuntimeConfig) : (EngineRuntime.new config).Accounted := by
  have hflat : ∀ key, (EngineRuntime.new config).ledger.signed key = 0 := by
    intro key
    have hnone : (EngineRuntime.new config).ledger.positions[key]? = none :=
      Std.ExtTreeMap.getElem?_empty
    unfold Ledger.signed signedAt
    rw [hnone]
  refine ⟨⟨.new config, fun key hopen => absurd (hflat key) hopen⟩,
    fun key hopen => absurd (hflat key) hopen, ?_⟩
  rw [funext hflat]
  exact balanced_zero

end EngineRuntime.Accounted

theorem withinMarket_adlTransfers {side : AdapterSide} {key : PositionRiskKey} (hkey : 0 ≤ key.userId)
    {fills : List (AdapterUserId × ℤ)} (hfills : ∀ fill ∈ fills, 0 ≤ fill.1) :
    WithinMarket key.marketId (adlTransfers side key fills) := by
  intro t ht
  obtain ⟨fill, hfill, rfl⟩ := List.mem_map.1 ht
  have hwithin : WithinMarket key.marketId
      [takerTransfer side key ⟨fill.1, key.marketId⟩ fill.2] :=
    withinMarket_takerTransfer ⟨rfl, hkey⟩ ⟨rfl, hfills fill hfill⟩
  exact hwithin _ List.mem_cons_self

/-- A liquidation of nothing moves nothing. -/
theorem LiquidationMoves.eq_of_flat {input : LiquidatePositionInput}
    {before after : PositionRiskKey → ℤ} {trades : List (Transfer PositionRiskKey)}
    {fills : List (AdapterUserId × ℤ)} (h : LiquidationMoves input before after trades fills)
    (hflat : before input.key = 0) : after = before := by
  have hnonneg : ∀ t ∈ trades, 0 ≤ t.amount := by
    have htaken := h.taken
    intro t ht
    unfold TakenBy at htaken
    split at htaken <;> exact (htaken t ht).2
  have hbooked := h.booked
  rw [hflat] at hbooked
  have htrades : ∀ t ∈ trades, t.amount = 0 := by
    intro t ht
    have hle : t.amount ≤ Transfer.total trades := by
      apply List.single_le_sum _ _ (List.mem_map_of_mem ht)
      intro amount hamount
      obtain ⟨u, hu, rfl⟩ := List.mem_map.1 hamount
      exact hnonneg u hu
    exact le_antisymm (hle.trans hbooked) (hnonneg t ht)
  have hleft := h.left
  rw [Transfer.settle_of_zero htrades, hflat] at hleft
  have hfills : ∀ fill ∈ fills, fill.2 = 0 := by
    intro fill hfill
    have hle : fill.2 ≤ (fills.map (·.2)).sum := by
      apply List.single_le_sum _ _ (List.mem_map_of_mem hfill)
      intro amount hamount
      obtain ⟨u, hu, rfl⟩ := List.mem_map.1 hamount
      exact h.amounts u hu
    exact le_antisymm (hle.trans hleft) (h.amounts fill hfill)
  rw [h.signed]
  apply Transfer.settle_of_zero
  intro t ht
  rcases List.mem_append.1 ht with ht | ht
  · exact htrades t ht
  · obtain ⟨fill, hfill, rfl⟩ := List.mem_map.1 ht
    unfold takerTransfer
    split <;> exact hfills fill hfill

theorem EngineRuntime.Accounted.moves (h : rt.Accounted) {input : LiquidatePositionInput}
    {trades : List (Transfer PositionRiskKey)} {fills : List (AdapterUserId × ℤ)}
    (horderly : rt'.Orderly)
    (hmoves : LiquidationMoves input rt.ledger.signed rt'.ledger.signed trades fills) :
    rt'.Accounted := by
  by_cases hflat : rt.ledger.signed input.key = 0
  · have hsame := hmoves.eq_of_flat hflat
    exact ⟨horderly, hsame ▸ h.markets, hsame ▸ h.balanced⟩
  · refine h.transfers horderly.lockstep (hmoves.within.append ?_) (h.markets _ hflat) hmoves.signed
    exact withinMarket_adlTransfers (h.users _ hflat) fun fill hfill => (hmoves.users fill hfill).2

/-- A liquidation that found the runtime accounted for. -/
structure LiquidationCall.Regular (call : LiquidationCall) : Prop where
  before : call.before.Accounted
  made : call = call.before.liquidation call.record call.input call.emitReplies

/-- Everything is accounted for, and was at the start of each liquidation. -/
structure LoggedRuntime.Accounted (o : LoggedRuntime) : Prop where
  runtime : o.runtime.Accounted
  calls : ∀ call ∈ o.calls, call.Regular

theorem accountedRule : LogRule LoggedRuntime.Accounted where
  frame o rt hsame h := ⟨h.runtime.frame hsame, h.calls⟩
  place o record input capped hfits hcapped h := by
    refine (h.runtime.lockstep.placeOnBook_transfers hfits hcapped).mono ?_ ?_
    · rintro _ rt ⟨hlock, ts, hmarket, hwithin, hsigned⟩
      exact ⟨h.runtime.transfers hlock hwithin hmarket hsigned, h.calls⟩
    · rintro _ rfl
      exact h
  cancel o record input markPrices h := by
    refine (h.runtime.lockstep.cancelOnBook input markPrices).mono ?_ ?_
    · rintro _ rt ⟨hlock, hsigned⟩
      exact ⟨⟨⟨hlock, fun key hopen => h.runtime.users key (hsigned ▸ hopen)⟩,
        fun key hopen => h.runtime.markets key (hsigned ▸ hopen), hsigned ▸ h.runtime.balanced⟩,
          h.calls⟩
    · rintro _ rfl
      exact h
  liquidate o record input emitReplies h := by
    have hafter : (o.runtime.liquidation record input emitReplies).after.Accounted := by
      refine Ensures.whatever ((executeLiquidation_moves h.runtime.toOrderly record input
        emitReplies).mono ?_ ?_)
      · rintro _ rt ⟨horderly, trades, hmoves⟩
        exact h.runtime.moves horderly hmoves
      · rintro rt ⟨horderly, trades, fills, hmoves⟩
        exact h.runtime.moves horderly hmoves
    refine ⟨hafter, fun call hcall => ?_⟩
    rcases List.mem_append.1 hcall with hcall | hcall
    · exact h.calls call hcall
    · rw [List.mem_singleton.1 hcall]
      exact ⟨h.runtime, rfl⟩
  restart o config h :=
    ⟨⟨⟨h.runtime.lockstep.restarted config, h.runtime.users⟩, h.runtime.markets,
      h.runtime.balanced⟩, h.calls⟩

/-- A new engine beside an empty log. -/
def LoggedRuntime.new (config : EngineRuntimeConfig) : LoggedRuntime := ⟨.new config, []⟩

/-- In every run all is accounted for, also whenever a liquidation starts. -/
theorem accounted_run (config : EngineRuntimeConfig) (steps : List RuntimeStep) :
    ((LoggedRuntime.new config).run steps).Accounted :=
  accountedRule.run (positive_new config) ⟨.new config, fun _ h => absurd h List.not_mem_nil⟩ steps

theorem reachable_accounted (config : EngineRuntimeConfig) (steps : List RuntimeStep) :
    ((EngineRuntime.new config).run steps).2.Accounted := by
  have h := (accounted_run config steps).runtime
  rw [LoggedRuntime.runtime_run] at h
  exact h

end Operations
end PerpexEngine
