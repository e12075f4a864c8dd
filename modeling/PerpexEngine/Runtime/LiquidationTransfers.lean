import PerpexEngine.Runtime.Deleveraging

/-! A liquidation as transfers: what it trades against the book, then what it deleverages. -/
namespace PerpexEngine
open Program

/-- What holds of a runtime before and after every request. -/
structure EngineRuntime.Orderly (rt : EngineRuntime) : Prop where
  lockstep : rt.InLockstep
  users : rt.ledger.UsersTrade

/-- The transfers of a liquidation: those of its order against the book come first, those of its
ADL fills follow. -/
structure LiquidationMoves (input : LiquidatePositionInput) (before after : PositionRiskKey → ℤ)
    (trades : List (Transfer PositionRiskKey)) (fills : List (AdapterUserId × ℤ)) : Prop where
  signed : after = Transfer.settle before (trades ++
    adlTransfers (liquidationOrderSide (before input.key)) input.key fills)
  taken : TakenBy (liquidationOrderSide (before input.key)) input.key trades
  within : WithinMarket input.marketId trades
  booked : Transfer.total trades ≤ absQuantity (before input.key)
  amounts : ∀ fill ∈ fills, 0 ≤ fill.2
  left : (fills.map (·.2)).sum ≤ absQuantity (Transfer.settle before trades input.key)
  users : ∀ fill ∈ fills, fill.1 ≠ input.liquidatedUserId ∧ 0 ≤ fill.1
  facing : ∀ fill ∈ fills, Facing (oppositeSide (liquidationOrderSide (before input.key)))
    (after ⟨fill.1, input.marketId⟩)

theorem LiquidationMoves.nothing (input : LiquidatePositionInput)
    (before : PositionRiskKey → ℤ) : LiquidationMoves input before before [] [] where
  signed := rfl
  taken := .nil
  within _ h := absurd h List.not_mem_nil
  booked := by
    unfold absQuantity
    simp only [Transfer.total_nil]
    split_ifs <;> omega
  amounts _ h := absurd h List.not_mem_nil
  left := by
    unfold absQuantity
    simp only [List.map_nil, List.sum_nil, Transfer.settle_nil]
    split_ifs <;> omega
  users _ h := absurd h List.not_mem_nil
  facing _ h := absurd h List.not_mem_nil

section Signed
variable {before : PositionRiskKey → ℤ} {ts : List (Transfer PositionRiskKey)} {side : AdapterSide}
  {key : PositionRiskKey} {ledger ledger' : Ledger}

/-- Trades of an order that reduces a position, of no more than it, leave the position facing it. -/
theorem TakenBy.facing (h : TakenBy side key ts) (hfacing : Facing side (before key))
    (hfits : Transfer.total ts ≤ absQuantity (before key)) :
    Facing side (Transfer.settle before ts key) := by
  unfold absQuantity at hfits
  unfold Facing at *
  cases side with
  | long =>
    have hsource := (Transfer.Into.swap h).settle_source fun k => -before k
    rw [Transfer.settle_swap, Transfer.total_swap] at hsource
    dsimp only at hsource hfacing ⊢
    split_ifs at hfits <;> omega
  | short =>
    have hsource := Transfer.From.settle_source h before
    dsimp only at hfacing ⊢
    split_ifs at hfits <;> omega

/-- Transfers between users that trade give positions to such users only. -/
theorem usersTrade_settle (h : ledger.UsersTrade)
    (hsigned : ledger'.signed = Transfer.settle ledger.signed ts)
    (husers : ∀ t ∈ ts, 0 ≤ t.source.userId ∧ 0 ≤ t.target.userId) : ledger'.UsersTrade := by
  intro key hkey
  by_contra hnegative
  refine hkey ?_
  rw [hsigned, Transfer.settle_untouched fun t ht => ?_]
  · by_contra hopen
    exact hnegative (h key hopen)
  · obtain ⟨hsource, htarget⟩ := husers t ht
    exact ⟨fun heq => hnegative (heq ▸ hsource), fun heq => hnegative (heq ▸ htarget)⟩

theorem WithinMarket.users {marketId : MarketId} (h : WithinMarket marketId ts) :
    ∀ t ∈ ts, 0 ≤ t.source.userId ∧ 0 ≤ t.target.userId :=
  fun t ht => ⟨(h t ht).1.2, (h t ht).2.2⟩

end Signed

/-- Without trades the holdings stay. -/
theorem Holdings.settle_of_no_trades {h : Holdings} {events : List EngineEvent}
    (hnone : tradesOf events = []) : h.settle events = h := by
  induction events with
  | nil => rfl
  | cons e events ih =>
    rw [Holdings.settle_cons]
    cases e with
    | tradeExecuted t => cases hnone
    | _ => exact ih hnone

theorem hasTradeExecuted_eq_false {events : List EngineEvent} :
    hasTradeExecuted events = false ↔ tradesOf events = [] := by
  induction events with
  | nil => exact ⟨fun _ => rfl, fun _ => rfl⟩
  | cons e events ih =>
    cases e with
    | tradeExecuted t => exact ⟨nofun, nofun⟩
    | _ => exact ih

namespace EngineRuntime.InLockstep
variable {rt rt' : EngineRuntime}

theorem of_eq (h : rt.InLockstep) (hcore : rt'.core = rt.core)
    (hstore : rt'.ledger.metadataStore = rt.ledger.metadataStore) : rt'.InLockstep := by
  obtain ⟨queues, htracks, hlock⟩ := h
  exact ⟨queues, hcore ▸ htracks, hstore ▸ hlock⟩

end EngineRuntime.InLockstep

/-- What the book phase of a liquidation leaves. -/
structure BookPhase (order : PlaceOrderInput) (coreEvents : Option (List EngineEvent))
    (before : Ledger) (r : EngineProcessResult × Option OrderMetadata) (rt' : EngineRuntime)
    (p : OrderMetadata) (ts : List (Transfer PositionRiskKey)) : Prop where
  pending : r.2 = some p
  continues : (mappedMetadata order).Continues p
  remaining : p.remainingQuantity = order.quantity - Transfer.total ts
  signed : rt'.ledger.signed = Transfer.settle before.signed ts
  taken : TakenBy order.side order.key ts
  within : WithinMarket order.marketId ts
  fits : Transfer.total ts ≤ order.quantity
  trades : ts = transfersOf order.side order.key before.metadataStore
    (tradesOf (coreEvents.getD []))
  lockstep : rt'.InLockstep
  deleveraged : projected EventPayload.deleveraged? r.1.events = []

section BookPhase
variable {rt₀ rt : EngineRuntime} {order : PlaceOrderInput} {seq : EngineSequence}
  {record : InboundEngineRecord} {input : LiquidatePositionInput}
  {context : EngineEventTranslationContext} {coreEvents : Option (List EngineEvent)}

/-- The book phase: the core was not asked, or has processed the order of the liquidation. -/
theorem liquidateAgainstBook_moves (h : rt₀.InLockstep) (hm : order.Mappable)
    (hioc : canRest (mappedCommand order seq) = false) (hcontext : 0 < context.marketId)
    (hbook : context.adl = none)
    (hstore : rt.ledger.metadataStore = rt₀.ledger.metadataStore)
    (hsigned : rt.ledger.signed = rt₀.ledger.signed)
    (hcore : coreEvents = none ∧ rt.core = rt₀.core ∨
      coreEvents = some (rt₀.core.process (.placeOrder (mappedCommand order seq))).1 ∧
        rt.core = (rt₀.core.process (.placeOrder (mappedCommand order seq))).2) :
    Ensures (liquidateAgainstBook record input context (mappedMetadata order) coreEvents) rt
      (fun r rt' => ∃ p ts, BookPhase order coreEvents rt₀.ledger r rt' p ts) fun _ => False := by
  have hasked : mappedMetadata order = askedMetadata order order.quantity := rfl
  unfold liquidateAgainstBook
  rw [ensures_bind, ensures_get]
  rcases hcore with ⟨rfl, hcore⟩ | ⟨rfl, hcore⟩
  · refine ⟨_, [], rfl, .refl _, ?_, hsigned, .nil, fun _ h => absurd h List.not_mem_nil, ?_, rfl,
      h.of_eq hcore hstore, rfl⟩
    · exact (sub_zero _).symm
    · exact hm.quantity.le
  · have hholdings : rt.ledger.holdings (some (mappedMetadata order)) =
        rt₀.ledger.holdings (some (askedMetadata order order.quantity)) := by
      unfold Ledger.holdings
      rw [hstore, hsigned, hasked]
    have hmarketed : (rt.ledger.holdings (some (mappedMetadata order))).Marketed := by
      rw [hholdings]
      refine h.marketed fun p hp => ?_
      cases hp
      exact hm.market.1
    have hnone : ∀ trades, projectedFills EventPayload.deleveraged? context trades = [] := by
      intro trades
      unfold projectedFills
      split_ifs
      · rw [List.filterMap_eq_nil_iff]
        intro trade _
        unfold liquidationExecutedPayload
        rw [hbook]
        rfl
      · rfl
    dsimp only
    rw [ensures_bind]
    unfold withLedger
    rw [ensures_zoom]
    rcases h.place hm (le_refl _) seq with ⟨e, hrejected, -, hlock⟩ | ⟨p, ts, ht⟩
    · rw [hrejected]
      refine (@ensures_translate rt.ledger rt.markPrices [.orderRejected e] context _ hmarketed
        hcontext fun e' he' => ?_).mono ?_ fun _ h => h
      · rw [List.mem_singleton.1 he']
        trivial
      · rintro ⟨translated, pending⟩ l ⟨hsettled, -, hdeleveraged⟩
        rw [Holdings.settle_of_no_trades rfl] at hsettled
        rw [ensures_bind, ensures_zoom, ensures_modifyMetadata, ensures_pure]
        have hstore' : l.metadataStore = rt.ledger.metadataStore :=
          congrArg Holdings.store hsettled
        have hsigned' : l.signed = rt.ledger.signed := congrArg Holdings.signed hsettled
        refine ⟨_, [], congrArg Holdings.pending hsettled, .refl _, (sub_zero _).symm,
          hsigned'.trans hsigned, .nil, fun _ h => absurd h List.not_mem_nil, hm.quantity.le, rfl,
          hlock _ hcore (hstore'.trans hstore), ?_⟩
        rw [hdeleveraged, hnone]
    · refine (@ensures_translate rt.ledger rt.markPrices _ context _ hmarketed hcontext
        ht.marketed).mono ?_ fun _ h => h
      rintro ⟨translated, pending⟩ l ⟨hsettled, -, hdeleveraged⟩
      rw [hholdings] at hsettled
      rw [ensures_bind, ensures_zoom, ensures_modifyMetadata, ensures_pure]
      have hpending : pending = some p := (congrArg Holdings.pending hsettled).trans ht.pending
      have hsigned' : l.signed = Transfer.settle rt₀.ledger.signed ts :=
        (congrArg Holdings.signed hsettled).trans ht.signed
      have hstore' : l.metadataStore = _ := congrArg Holdings.store hsettled
      have hlookup : ∀ id : OrderId, (cleanupCompletedOrderMetadata (rt₀.core.process (.placeOrder
          (mappedCommand order seq))).1 l.metadataStore)[id]? =
          if id ∈ closedIds (rt₀.core.process (.placeOrder (mappedCommand order seq))).1 then none
          else ((rt₀.ledger.holdings (some (askedMetadata order order.quantity))).settle
            (rt₀.core.process (.placeOrder (mappedCommand order seq))).1).store[id]? := by
        intro id
        rw [getElem?_cleanup, hstore']
      refine ⟨p, ts, hpending, ht.continues, ht.remaining, hsigned', ht.taken, ht.within, ht.fits,
        ht.trades, ht.lockstep _ hcore (fun id hne hopen => ?_) (fun hrest => ?_)
          fun id m hfound => ?_, ?_⟩
      · exact (hlookup id).trans (if_neg hopen)
      · rw [hioc] at hrest
        cases hrest
      · have hfound := (hlookup id).symm.trans hfound
        split_ifs at hfound
        exact Or.inl hfound
      · rw [hdeleveraged, hnone]

end BookPhase
section Phases
variable {rt₀ rt : EngineRuntime} {order : PlaceOrderInput} {seq : EngineSequence}
  {record : InboundEngineRecord} {input : LiquidatePositionInput}

theorem openQuantity_eq (ledger : Ledger) (key : PositionRiskKey) :
    openQuantity ledger key = absQuantity (ledger.signed key) := by
  unfold openQuantity Ledger.signed signedAt
  cases ledger.positions[key]? <;> rfl

/-- The events that frame a liquidation touch neither positions nor metadata. -/
theorem makeLiquidationEvent_frame (hmarket : 0 < input.marketId) {payload : EventPayload}
    (hpayload : payload.deleveraged? = none) :
    Ensures (makeLiquidationEvent record input payload) rt
      (fun r rt' => rt'.core = rt.core ∧ rt'.ledger.metadataStore = rt.ledger.metadataStore ∧
        rt'.ledger.positions = rt.ledger.positions ∧
        projected EventPayload.deleveraged? r.events = []) fun _ => False := by
  unfold makeLiquidationEvent withLedger makeRuntimeMarketEvent
  rw [ensures_zoom, ensures_map]
  refine (ensures_makeMarketEvent _ _ _ _ _).mono ?_ fun _ h => absurd h.1 (not_le.2 hmarket)
  rintro e _ ⟨-, -, rfl, rfl⟩
  refine ⟨rfl, rfl, rfl, ?_⟩
  unfold projected
  simp [hpayload]

/-- The order of a liquidation: for the position, on the side that reduces it, of at most its
size. -/
structure LiquidationOrder (input : LiquidatePositionInput) (before : PositionRiskKey → ℤ)
    (order : PlaceOrderInput) : Prop where
  key : order.key = input.key
  side : order.side = liquidationOrderSide (before input.key)
  fits : order.quantity ≤ absQuantity (before input.key)

theorem LiquidationOrder.market {before : PositionRiskKey → ℤ}
    (h : LiquidationOrder input before order) : order.marketId = input.marketId :=
  congrArg PositionRiskKey.marketId h.key

variable {coreEvents : Option (List EngineEvent)} {r : EngineProcessResult × Option OrderMetadata}
  {p : OrderMetadata} {ts : List (Transfer PositionRiskKey)}

theorem BookPhase.facing (hbook : BookPhase order coreEvents rt₀.ledger r rt p ts)
    (horder : LiquidationOrder input rt₀.ledger.signed order) :
    Facing (liquidationOrderSide (rt₀.ledger.signed input.key)) (rt.ledger.signed input.key) := by
  rw [hbook.signed]
  refine TakenBy.facing ?_ (facing_liquidationOrderSide _) (hbook.fits.trans horder.fits)
  rw [← horder.side, ← horder.key]
  exact hbook.taken

/-- A liquidation that ends with its book phase. -/
theorem BookPhase.moves (hbook : BookPhase order coreEvents rt₀.ledger r rt p ts)
    (horder : LiquidationOrder input rt₀.ledger.signed order) :
    LiquidationMoves input rt₀.ledger.signed rt.ledger.signed ts [] where
  signed := by
    rw [hbook.signed]
    exact congrArg _ (List.append_nil ts).symm
  taken := by
    rw [← horder.side, ← horder.key]
    exact hbook.taken
  within := horder.market ▸ hbook.within
  booked := hbook.fits.trans horder.fits
  amounts _ h := absurd h List.not_mem_nil
  left := by
    unfold absQuantity
    simp only [List.map_nil, List.sum_nil]
    split_ifs <;> omega
  users _ h := absurd h List.not_mem_nil
  facing _ h := absurd h List.not_mem_nil

/-- A liquidation that goes on to deleverage. -/
theorem BookPhase.deleverages (hbook : BookPhase order coreEvents rt₀.ledger r rt p ts)
    (horder : LiquidationOrder input rt₀.ledger.signed order) (husers : rt.ledger.UsersTrade)
    {limit : ℤ} (hlimit : limit ≤ openQuantity rt.ledger input.key)
    {fills : List (AdapterUserId × ℤ)} {state' : TranslationState}
    (h : Deleverages (liquidationOrderSide (rt₀.ledger.signed input.key)) input.key
      (adlCandidatesAt input rt.ledger) limit ⟨rt.ledger, some p⟩ fills state') :
    LiquidationMoves input rt₀.ledger.signed state'.ledger.signed ts fills := by
  have hmoves := hbook.moves horder
  have hcounterparty : ∀ fill ∈ fills, ∃ c ∈ adlCandidatesAt input rt.ledger,
      c.Faces (liquidationOrderSide (rt₀.ledger.signed input.key)) input.key rt.ledger.signed ∧
        c.key = ⟨fill.1, input.marketId⟩ := by
    intro fill hfill
    obtain ⟨c, hc, huser⟩ := h.users fill hfill
    have hfaces := faces_adlCandidatesAt (hbook.facing horder) hc
    refine ⟨c, hc, hfaces, ?_⟩
    rw [← huser]
    exact congrArg (PositionRiskKey.mk c.key.userId) hfaces.market
  constructor
  · rw [h.signed, Transfer.settle_append, ← hbook.signed]
  · exact hmoves.taken
  · exact hmoves.within
  · exact hmoves.booked
  · exact h.amounts
  · rw [← hbook.signed, ← openQuantity_eq]
    exact h.total.trans hlimit
  · intro fill hfill
    obtain ⟨c, -, hfaces, hkey⟩ := hcounterparty fill hfill
    have huser := hfaces.user
    have hopen := husers _ hfaces.open
    rw [hkey] at huser hopen
    exact ⟨huser, hopen⟩
  · intro fill hfill
    obtain ⟨c, hc, -, hkey⟩ := hcounterparty fill hfill
    exact hkey ▸ h.facing c hc

theorem LiquidationMoves.usersTrade {ledger ledger' : Ledger} {fills : List (AdapterUserId × ℤ)}
    (h : LiquidationMoves input ledger.signed ledger'.signed ts fills) (husers : ledger.UsersTrade)
    (hown : 0 ≤ input.liquidatedUserId) : ledger'.UsersTrade := by
  refine usersTrade_settle husers h.signed fun t ht => ?_
  rcases List.mem_append.1 ht with ht | ht
  · exact h.within.users t ht
  · obtain ⟨fill, hfill, rfl⟩ := List.mem_map.1 ht
    obtain ⟨-, huser⟩ := h.users fill hfill
    unfold takerTransfer
    cases liquidationOrderSide (ledger.signed input.key)
    · exact ⟨huser, hown⟩
    · exact ⟨hown, huser⟩

/-- Both phases of a liquidation that goes ahead. -/
theorem runLiquidation_moves (h : rt₀.Orderly) (hm : order.Mappable)
    (hioc : canRest (mappedCommand order seq) = false)
    (horder : LiquidationOrder input rt₀.ledger.signed order) (orderId : AdapterOrderId)
    (hstore : rt.ledger.metadataStore = rt₀.ledger.metadataStore)
    (hpositions : rt.ledger.positions = rt₀.ledger.positions)
    (hcore : coreEvents = none ∧ rt.core = rt₀.core ∨
      coreEvents = some (rt₀.core.process (.placeOrder (mappedCommand order seq))).1 ∧
        rt.core = (rt₀.core.process (.placeOrder (mappedCommand order seq))).2)
    (price : AdapterPrice) (previousPosition : IsolatedPositionState)
    (previousRisk : IsolatedRiskState) :
    Ensures (runLiquidation record input (liquidationContext record input orderId)
        (mappedMetadata order) coreEvents price previousPosition previousRisk) rt
      (fun r after => after.Orderly ∧ LiquidationMoves input rt₀.ledger.signed after.ledger.signed
        (transfersOf order.side order.key rt₀.ledger.metadataStore (tradesOf (coreEvents.getD [])))
        (projected EventPayload.deleveraged? r.events))
      fun after => after.Orderly ∧ ∃ fills, LiquidationMoves input rt₀.ledger.signed
        after.ledger.signed (transfersOf order.side order.key rt₀.ledger.metadataStore
          (tradesOf (coreEvents.getD []))) fills := by
  have hmarket : 0 < input.marketId ∧ input.marketId ≤ 2 ^ 32 - 1 := horder.market ▸ hm.market
  have hown : 0 ≤ input.liquidatedUserId := by
    have huser : order.envelope.userId = input.liquidatedUserId :=
      congrArg PositionRiskKey.userId horder.key
    exact huser ▸ hm.userId
  unfold runLiquidation
  dsimp only
  rw [ensures_bind]
  refine (makeLiquidationEvent_frame hmarket.1 rfl).mono ?_ fun _ h => h.elim
  rintro started rt₁ ⟨hcore₁, hstore₁, hpositions₁, hstarted⟩
  have hsigned₁ : rt₁.ledger.signed = rt₀.ledger.signed := by
    unfold Ledger.signed
    rw [hpositions₁, hpositions]
  rw [ensures_bind]
  refine (liquidateAgainstBook_moves h.lockstep hm hioc hmarket.1 rfl (hstore₁.trans hstore)
    hsigned₁ (hcore₁.symm ▸ hcore)).mono ?_ fun _ h => h.elim
  rintro ⟨booked, pending⟩ rt₂ ⟨p, ts, hbook⟩
  have hpending : pending = some p := hbook.pending
  subst hpending
  have hmoves := hbook.moves horder
  have husers := hmoves.usersTrade h.users hown
  rw [← hbook.trades]
  dsimp only
  rw [ensures_bind, ensures_get, ensures_bind]
  -- what follows the ADL fills only adds the last event
  have hlast : ∀ (deleveraged : EngineProcessResult) (rt₃ : EngineRuntime)
      (fills : List (AdapterUserId × ℤ)), rt₃.InLockstep →
      projected EventPayload.deleveraged? deleveraged.events = fills →
      LiquidationMoves input rt₀.ledger.signed rt₃.ledger.signed ts fills →
      Ensures (do
        let rt ← get
        let completed ← makeLiquidationEvent record input (.liquidationCompleted
          (liquidationCompletedPayload input (openQuantity rt.ledger input.key)))
        pure (started ++ booked ++ deleveraged ++ completed)) rt₃
        (fun r after => after.Orderly ∧ LiquidationMoves input rt₀.ledger.signed
          after.ledger.signed ts (projected EventPayload.deleveraged? r.events))
        fun after => after.Orderly ∧ ∃ fills, LiquidationMoves input rt₀.ledger.signed
          after.ledger.signed ts fills := by
    intro deleveraged rt₃ fills hlock hfills hmoves₃
    rw [ensures_bind, ensures_get, ensures_bind]
    refine (makeLiquidationEvent_frame hmarket.1 rfl).mono ?_ fun _ h => h.elim
    rintro completed after ⟨hcore', hstore', hpositions', hcompleted⟩
    have hsigned' : after.ledger.signed = rt₃.ledger.signed := by
      unfold Ledger.signed
      rw [hpositions']
    have hmoves' : LiquidationMoves input rt₀.ledger.signed after.ledger.signed ts fills :=
      hsigned' ▸ hmoves₃
    refine ⟨⟨hlock.of_eq hcore' hstore', hmoves'.usersTrade h.users hown⟩, ?_⟩
    have hprojected : projected EventPayload.deleveraged?
        (started ++ booked ++ deleveraged ++ completed).events = fills := by
      simp [hstarted, hbook.deleveraged, hfills, hcompleted]
    rw [hprojected]
    exact hmoves'
  unfold emitWhen
  apply ensures_ite.2
  refine ⟨fun hleft => ?_, fun _ => hlast .new rt₂ [] hbook.lockstep rfl hmoves⟩
  have hsame : p.marketId = order.marketId ∧ p.side = order.side ∧ p.key = order.key := by
    rw [hbook.continues]
    exact ⟨rfl, rfl, rfl⟩
  have hadl := @appendAdlFills_deleverages (liquidationContext record input orderId) rt₂.markPrices
    input price _ rfl hmarket _ hleft.le ⟨rt₂.ledger, some p⟩
    ⟨p, rfl, hsame.2.1.trans horder.side, hsame.2.2.trans horder.key⟩ (hbook.facing horder)
  have hlimit : ∀ {fills : List (AdapterUserId × ℤ)} {state' : TranslationState},
      Deleverages (liquidationOrderSide (rt₀.ledger.signed input.key)) input.key
        (adlCandidatesAt input rt₂.ledger) (min (((some p).map (·.remainingQuantity)).getD 0)
          (openQuantity rt₂.ledger ⟨input.liquidatedUserId, input.marketId⟩))
        ⟨rt₂.ledger, some p⟩ fills state' →
      LiquidationMoves input rt₀.ledger.signed state'.ledger.signed ts fills :=
    fun h => hbook.deleverages horder husers (min_le_right _ _) h
  unfold withLedger withPending
  rw [ensures_map, ensures_zoom, ensures_zoom, ensures_bind]
  refine hadl.mono (fun deleveraged state' h' => ?_) fun state' ⟨fills, h'⟩ => ?_
  · exact hlast deleveraged _ _ (hbook.lockstep.of_eq rfl h'.store) rfl (hlimit h')
  · exact ⟨⟨hbook.lockstep.of_eq rfl h'.store, (hlimit h').usersTrade h.users hown⟩, fills,
      hlimit h'⟩

end Phases
section Execute
variable {rt : EngineRuntime} {record : InboundEngineRecord} {input : LiquidatePositionInput}
  {position : IsolatedPositionState}

theorem signed_of_position {ledger : Ledger} {key : PositionRiskKey}
    (hposition : ledger.positions[key]? = some position) :
    ledger.signed key = position.signedQuantity := by
  unfold Ledger.signed signedAt
  rw [hposition]

theorem syntheticLiquidationOrder_liquidates
    (hposition : rt.ledger.positions[input.key]? = some position) (orderId : AdapterOrderId)
    (price : AdapterPrice) : LiquidationOrder input rt.ledger.signed
      (syntheticLiquidationOrder input position orderId (liquidationQuantity input position)
        price) where
  key := rfl
  side := by rw [signed_of_position hposition]; rfl
  fits := by
    rw [signed_of_position hposition]
    change liquidationQuantity input position ≤ _
    unfold liquidationQuantity
    dsimp only
    split_ifs
    · exact le_refl _
    · exact min_le_right _ _

/-- A core that took an order without trading has the books it had. -/
theorem EngineRuntime.InLockstep.untraded (h : rt.InLockstep) {order : PlaceOrderInput}
    (hm : order.Mappable) {seq : EngineSequence}
    (hioc : canRest (mappedCommand order seq) = false)
    (hnone : tradesOf (rt.core.process (.placeOrder (mappedCommand order seq))).1 = []) :
    EngineRuntime.InLockstep
      { rt with core := (rt.core.process (.placeOrder (mappedCommand order seq))).2 } := by
  rcases h.place hm (le_refl _) seq with ⟨e, -, -, hlock⟩ | ⟨p, ts, ht⟩
  · exact hlock _ rfl rfl
  · refine ht.lockstep _ rfl (fun id _ _ => ?_) (fun hrest => ?_) fun id m hfound => ?_
    · rw [Holdings.settle_of_no_trades hnone]
      rfl
    · rw [hioc] at hrest
      cases hrest
    · rw [Holdings.settle_of_no_trades hnone]
      exact Or.inl hfound

/-- Every liquidation is such transfers, also one that throws on its way. -/
theorem executeLiquidation_moves (h : rt.Orderly) (record : InboundEngineRecord)
    (input : LiquidatePositionInput) (emitReplies : Bool) :
    Ensures (executeLiquidation record input emitReplies) rt
      (fun r after => after.Orderly ∧ ∃ trades, LiquidationMoves input rt.ledger.signed
        after.ledger.signed trades (projected EventPayload.deleveraged? r.events))
      fun after => after.Orderly ∧ ∃ trades fills, LiquidationMoves input rt.ledger.signed
        after.ledger.signed trades fills := by
  have hreply : ∀ reply, (replyIf emitReplies reply).events = [] := by
    intro reply
    unfold replyIf
    split_ifs <;> rfl
  have hreplies : ∀ result : EngineProcessResult,
      (result.repliesIf emitReplies).events = result.events := by
    intro result
    unfold EngineProcessResult.repliesIf
    split_ifs <;> rfl
  have hunmoved : ∀ (reply : EngineReply) (core : EngineCore OrderBook),
      EngineRuntime.InLockstep { rt with core := core } →
      EngineRuntime.Orderly { rt with core := core } ∧ ∃ trades,
        LiquidationMoves input rt.ledger.signed rt.ledger.signed trades
          (projected EventPayload.deleveraged? (replyIf emitReplies reply).events) := by
    intro reply core hlock
    rw [hreply]
    exact ⟨⟨hlock, h.users⟩, [], .nothing _ _⟩
  have hthrown : rt.Orderly ∧ ∃ trades fills,
      LiquidationMoves input rt.ledger.signed rt.ledger.signed trades fills :=
    ⟨h, [], [], .nothing _ _⟩
  unfold executeLiquidation
  rw [ensures_bind, ensures_get]
  dsimp only
  split
  · exact hunmoved _ _ h.lockstep
  · split
    · rename_i previousPosition previousRisk hposition hrisk
      apply ensures_ite.2
      refine ⟨fun _ => hunmoved _ _ h.lockstep, fun _ => ?_⟩
      rw [ensures_bind, ensures_liftExcept]
      refine ⟨fun orderId _ => ?_, fun _ _ => hthrown⟩
      rw [ensures_bind, ensures_liftExcept]
      refine ⟨fun mapped hmapped => ?_, fun _ _ => hthrown⟩
      obtain ⟨hm, rfl⟩ := mapPlaceOrderToCore_eq_ok.1 hmapped
      have horder := @syntheticLiquidationOrder_liquidates rt input previousPosition hposition orderId
        (liquidationPrice input previousPosition rt.markPrices)
      have hioc : canRest (mappedCommand (syntheticLiquidationOrder input previousPosition orderId
        (liquidationQuantity input previousPosition) (liquidationPrice input previousPosition
          rt.markPrices)) (receivedSequence record)) = false := rfl
      generalize syntheticLiquidationOrder input previousPosition orderId _ _ = order at *
      have hrun : ∀ (coreEvents : Option (List EngineEvent)) (core : EngineCore OrderBook),
          (coreEvents = none ∧ core = rt.core ∨
            coreEvents = some (rt.core.process (.placeOrder (mappedCommand order
              (receivedSequence record)))).1 ∧ core = (rt.core.process (.placeOrder
                (mappedCommand order (receivedSequence record)))).2) →
          Ensures (do
            let result ← runLiquidation record input (liquidationContext record input orderId)
              (mappedMetadata order) coreEvents (liquidationPrice input previousPosition
                rt.markPrices) previousPosition previousRisk
            pure (result.repliesIf emitReplies)) { rt with core := core }
            (fun r after => after.Orderly ∧ ∃ trades, LiquidationMoves input rt.ledger.signed
              after.ledger.signed trades (projected EventPayload.deleveraged? r.events))
            fun after => after.Orderly ∧ ∃ trades fills, LiquidationMoves input rt.ledger.signed
              after.ledger.signed trades fills := by
        intro coreEvents core hcore
        rw [ensures_bind]
        refine (@runLiquidation_moves rt { rt with core := core } order (receivedSequence record)
          record input coreEvents h hm hioc horder orderId rfl rfl hcore _ _ _).mono
            (fun r after ⟨horderly, hmoves⟩ => ?_) fun after ⟨horderly, fills, hmoves⟩ =>
              ⟨horderly, _, fills, hmoves⟩
        rw [ensures_pure, hreplies]
        exact ⟨horderly, _, hmoves⟩
      dsimp only
      rw [ensures_bind]
      unfold askBook
      apply ensures_ite.2
      refine ⟨fun hcrossing => ?_, fun hquiet => ?_⟩
      · rw [ensures_map, ensures_processCore]
        apply ensures_ite.2
        refine ⟨fun hnone => ?_, fun _ => hrun _ _ (Or.inr ⟨rfl, rfl⟩)⟩
        exact hunmoved _ _ (h.lockstep.untraded hm hioc (hasTradeExecuted_eq_false.1 hnone.2.1))
      · rw [ensures_pure, if_neg fun hnone => hquiet hnone.1]
        exact hrun none rt.core (Or.inl ⟨rfl, rfl⟩)
    · exact hthrown

end Execute
end PerpexEngine
