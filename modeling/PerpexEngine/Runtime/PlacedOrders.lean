import PerpexEngine.Runtime.EventKinds
import PerpexEngine.Runtime.Lockstep

/-! Orders on their way into the book: what the adapter makes of them, and what placing them leaves
of positions, books and metadata. -/
namespace PerpexEngine
open Program

/-- What `map_place_order_to_core` asks of an input. -/
structure PlaceOrderInput.Mappable (input : PlaceOrderInput) : Prop where
  requestId : input.envelope.requestId ≠ []
  idempotencyKey : input.envelope.idempotencyKey ≠ []
  userId : 0 ≤ input.envelope.userId
  reservationId : input.reservationId ≠ []
  orderId : 0 < input.orderId
  market : 0 < input.marketId ∧ input.marketId ≤ 2 ^ 32 - 1
  price : 0 ≤ input.price ∧ (input.orderType = .limit → input.price ≠ 0)
  quantity : 0 < input.quantity

/-- The command it makes. -/
def mappedCommand (input : PlaceOrderInput) (receivedSequence : EngineSequence) :
    PlaceOrderCommand where
  commandId := stableStringId input.envelope.requestId
  clientOrderId := stableStringId input.envelope.idempotencyKey
  orderId := input.orderId.toNat
  userId := input.envelope.userId.toNat
  symbolId := input.marketId.toNat
  side := toCoreSide input.side
  orderType := toCoreOrderType input.orderType
  timeInForce := toCoreTimeInForce input.timeInForce
  price := Price.fromTicks input.price
  quantity := Quantity.ofLots input.quantity.toNat
  receivedSequence := receivedSequence

/-- The metadata it makes. -/
def mappedMetadata (input : PlaceOrderInput) : OrderMetadata where
  orderId := input.orderId.toNat
  marketId := input.marketId
  userId := input.envelope.userId
  side := input.side
  originalQuantity := input.quantity
  remainingQuantity := input.quantity
  reduceOnly := input.reduceOnly
  marginAsset := input.marginAsset
  reservedMarginAmount := input.reservedMarginAmount
  remainingReservedMargin := input.reservedMarginAmount
  leverage := input.leverage
  reservationId := input.reservationId
  placeRequestId := input.envelope.requestId
  placeIdempotencyKey := input.envelope.idempotencyKey
  placeInputId := input.inputId
  replyPartition := input.envelope.replyPartition
  coreClientOrderId := stableStringId input.envelope.idempotencyKey
  corePlaceCommandId := stableStringId input.envelope.requestId

section Checks
variable {n : ℕ}

theorem requireNonEmpty_eq_ok {value : Text} {fieldName : String} {u : Unit} :
    requireNonEmpty value fieldName = .ok u ↔ value ≠ [] := by
  unfold requireNonEmpty
  rw [throw_ite_eq_ok, pure_eq_ok, List.isEmpty_iff]
  exact and_iff_left rfl

theorem toCoreUserId_eq_ok {userId : AdapterUserId} :
    toCoreUserId userId = .ok n ↔ 0 ≤ userId ∧ n = userId.toNat := by
  unfold toCoreUserId
  rw [throw_ite_eq_ok, pure_eq_ok, not_lt]

theorem toCoreOrderId_eq_ok {orderId : AdapterOrderId} :
    toCoreOrderId orderId = .ok n ↔ 0 < orderId ∧ n = orderId.toNat := by
  unfold toCoreOrderId
  rw [throw_ite_eq_ok, pure_eq_ok, not_le]

theorem toCoreSymbolId_eq_ok {marketId : MarketId} :
    toCoreSymbolId marketId = .ok n ↔ (0 < marketId ∧ marketId ≤ 2 ^ 32 - 1) ∧
      n = marketId.toNat := by
  unfold toCoreSymbolId
  rw [throw_ite_eq_ok, pure_eq_ok, not_or, not_le, not_lt]

theorem toCorePrice_eq_ok {price : AdapterPrice} {orderType : AdapterOrderType} {p : Price} :
    toCorePrice price orderType = .ok p ↔ (0 ≤ price ∧ (orderType = .limit → price ≠ 0)) ∧
      p = Price.fromTicks price := by
  unfold toCorePrice
  rw [throw_ite_eq_ok, throw_ite_eq_ok, pure_eq_ok, not_lt, not_and, and_assoc]

theorem toCoreQuantity_eq_ok {quantity : AdapterQuantity} {q : Quantity} :
    toCoreQuantity quantity = .ok q ↔ 0 < quantity ∧ q = Quantity.ofLots quantity.toNat := by
  unfold toCoreQuantity
  rw [throw_ite_eq_ok, pure_eq_ok, not_le]

theorem commandIdFromRequestId_eq_ok {requestId : Text} :
    commandIdFromRequestId requestId = .ok n ↔ requestId ≠ [] ∧ n = stableStringId requestId := by
  unfold commandIdFromRequestId
  simp only [bind_eq_ok, requireNonEmpty_eq_ok, pure_eq_ok, exists_const]

theorem clientOrderIdFromIdempotencyKey_eq_ok {key : Text} :
    clientOrderIdFromIdempotencyKey key = .ok n ↔ key ≠ [] ∧ n = stableStringId key := by
  unfold clientOrderIdFromIdempotencyKey
  simp only [bind_eq_ok, requireNonEmpty_eq_ok, pure_eq_ok, exists_const]

theorem validateEnvelope_eq_ok {envelope : CommandEnvelope} {u : Unit} :
    validateEnvelope envelope = .ok u ↔
      envelope.requestId ≠ [] ∧ envelope.idempotencyKey ≠ [] ∧ 0 ≤ envelope.userId := by
  unfold validateEnvelope
  simp only [bind_eq_ok, requireNonEmpty_eq_ok, toCoreUserId_eq_ok, pure_eq_ok, exists_const]
  simp

end Checks

theorem mapPlaceOrderToCore_eq_ok {input : PlaceOrderInput} {receivedSequence : EngineSequence}
    {mapped : PlaceOrderCommand × OrderMetadata} :
    mapPlaceOrderToCore input receivedSequence = .ok mapped ↔
      input.Mappable ∧ mapped = (mappedCommand input receivedSequence, mappedMetadata input) := by
  unfold mapPlaceOrderToCore
  simp only [bind_eq_ok, validateEnvelope_eq_ok, requireNonEmpty_eq_ok,
    commandIdFromRequestId_eq_ok, clientOrderIdFromIdempotencyKey_eq_ok, toCoreOrderId_eq_ok,
    toCoreUserId_eq_ok, toCoreSymbolId_eq_ok, toCorePrice_eq_ok, toCoreQuantity_eq_ok]
  constructor
  · rintro ⟨-, ⟨hrequest, hkey, huser⟩, -, hreservation, _, ⟨-, rfl⟩, _, ⟨-, rfl⟩, _, ⟨horder, rfl⟩,
      _, ⟨-, rfl⟩, _, ⟨hmarket, rfl⟩, _, ⟨hprice, rfl⟩, _, ⟨hquantity, rfl⟩, heq⟩
    exact ⟨⟨hrequest, hkey, huser, hreservation, horder, hmarket, hprice, hquantity⟩,
      (Except.ok.inj heq).symm⟩
  · rintro ⟨h, rfl⟩
    exact ⟨(), ⟨h.requestId, h.idempotencyKey, h.userId⟩, (), h.reservationId, _,
      ⟨h.requestId, rfl⟩, _, ⟨h.idempotencyKey, rfl⟩, _, ⟨h.orderId, rfl⟩, _, ⟨h.userId, rfl⟩, _,
      ⟨h.market, rfl⟩, _, ⟨h.price, rfl⟩, _, ⟨h.quantity, rfl⟩, rfl⟩

section Ledger
variable {l : Ledger} {markPrices : MarkPrices} {events : List EngineEvent}

/-- The holdings of a ledger beside a pending order. -/
def Ledger.holdings (l : Ledger) (pending : Option OrderMetadata) : Holdings :=
  ⟨l.metadataStore, pending, l.signed⟩

theorem getElem?_cleanup (events : List EngineEvent) (store : OrderMetadataStore) (id : OrderId) :
    (cleanupCompletedOrderMetadata events store)[id]? =
      if id ∈ closedIds events then none else store[id]? := by
  have hrest : ∀ (orderId : OrderId) (events : List EngineEvent) (store : OrderMetadataStore),
      (if id ∈ closedIds events then none else (store.erase orderId)[id]?) =
        if id ∈ orderId :: closedIds events then none else store[id]? := by
    intro orderId events store
    rw [Std.ExtTreeMap.getElem?_erase, if_congr Std.LawfulEqCmp.compare_eq_iff_eq rfl rfl]
    grind
  induction events generalizing store with
  | nil => rfl
  | cons e events ih =>
    cases e with
    | orderCancelled e => exact (ih _).trans (hrest e.orderId events store)
    | orderFilled e => exact (ih _).trans (hrest e.orderId events store)
    | _ => exact ih store

/-- A translation settles the trades of its events. -/
theorem ensures_translate {context : EngineEventTranslationContext} {pending : Option OrderMetadata}
    (hmarketed : (l.holdings pending).Marketed) (hcontext : 0 < context.marketId)
    (hevents : ∀ e ∈ events, e.Marketed) :
    Ensures (withPending pending (translate context markPrices events)) l
      (fun r l' => l'.holdings r.2 = (l.holdings pending).settle events ∧
        projected EventPayload.expired? r.1.events = [] ∧
        projected EventPayload.deleveraged? r.1.events =
          projectedFills EventPayload.deleveraged? context (tradesOf events)) fun _ => False := by
  unfold withPending
  rw [ensures_zoom, ensures_bind]
  have hleaves := @translateEvents_leaves context markPrices ⟨l, pending⟩ hmarketed hcontext (filledOrderIds events) events hevents
  have hexpired := projects_translate skips_expired context markPrices events ⟨l, pending⟩
  have hdeleveraged := projects_translate skips_deleveraged context markPrices events ⟨l, pending⟩
  have hnone : projectedFills EventPayload.expired? context (tradesOf events) = [] := by
    unfold projectedFills
    split_ifs
    · rw [List.filterMap_eq_nil_iff]
      intro trade _
      unfold liquidationExecutedPayload
      cases context.adl <;> rfl
    · rfl
  refine ((hleaves.and hexpired).and hdeleveraged).mono ?_ fun _ h => h.1.1
  intro a state ⟨⟨hstate, hexp⟩, hdel⟩
  exact ⟨hstate, hexp.trans hnone, hdel⟩

theorem ensures_modifyMetadata {f : OrderMetadataStore → OrderMetadataStore} {Q : Unit → Ledger → Prop}
    {E : Ledger → Prop} : Ensures (modifyMetadata f) l Q E ↔
      Q () { l with metadataStore := f l.metadataStore } := Iff.rfl

variable {metadata p : OrderMetadata} {record : InboundEngineRecord}
  {input coreInput : PlaceOrderInput}

theorem ensures_recordAccepted {accepted : Bool}
    (hnew : accepted = true → l.metadataStore[p.orderId]? = none) :
    Ensures (recordAccepted (some p) accepted) l
      (fun _ l' => l'.signed = l.signed ∧ l'.metadataStore =
        if accepted = true then l.metadataStore.insert p.orderId p else l.metadataStore)
      fun _ => False := by
  unfold recordAccepted
  rw [ensures_bind, ensures_get]
  cases accepted with
  | false => exact ⟨rfl, rfl⟩
  | true =>
    have habsent : ¬l.metadataStore.contains p.orderId = true := by
      rw [Std.ExtTreeMap.contains_eq_isSome_getElem?, hnew rfl]
      exact Bool.false_ne_true
    rw [if_pos rfl]
    dsimp only
    rw [if_neg habsent]
    exact ⟨rfl, rfl⟩

/-- What is left of a reduce-only order expires, and its metadata goes. -/
theorem ensures_expireIfReduceOnly (hpositive : 0 < p.marketId) :
    Ensures (expireIfReduceOnly record input (some p) events) l
      (fun r l' => l'.signed = l.signed ∧
        (∀ id : OrderId, l'.metadataStore[id]? =
          if (input.reduceOnly = true ∧ hasOrderAccepted events = true) ∧ id = p.orderId then none
          else l.metadataStore[id]?) ∧
        projected EventPayload.expired? r.events =
          if (input.reduceOnly = true ∧ hasOrderAccepted events = true) ∧
              0 < input.quantity - reduceOnlyFilledQuantity p.orderId events then
            [orderExpiredPayload p (input.quantity - reduceOnlyFilledQuantity p.orderId events)]
          else [])
      fun _ => False := by
  unfold expireIfReduceOnly emitWhen
  dsimp only
  apply ensures_ite.2
  refine ⟨fun hexpires => ?_, fun hstays => ?_⟩
  · simp only [hexpires, true_and]
    have herase : ∀ l' : Ledger, l'.signed = l.signed → l'.metadataStore = l.metadataStore →
        ∀ id : OrderId, (l'.metadataStore.erase p.orderId)[id]? =
          if id = p.orderId then none else l.metadataStore[id]? := by
      intro l' _ hstore id
      rw [Std.ExtTreeMap.getElem?_erase, hstore]
      exact if_congr (Std.LawfulEqCmp.compare_eq_iff_eq.trans eq_comm) rfl rfl
    unfold expireReduceOnly
    dsimp only
    unfold emitWhen
    rw [ensures_bind]
    apply ensures_ite.2
    refine ⟨fun hleft => ?_, fun hfilled => ?_⟩
    · unfold makeRuntimeMarketEvent
      rw [ensures_map]
      refine (ensures_makeMarketEvent _ _ _ _ _).mono ?_ fun _ h => absurd h.1 (not_le.2 hpositive)
      rintro e l' ⟨-, -, hpayload, rfl⟩
      refine ⟨rfl, herase _ rfl rfl, ?_⟩
      rw [if_pos hleft]
      unfold projected
      simp [hpayload, EventPayload.expired?]
    · refine ⟨rfl, herase _ rfl rfl, ?_⟩
      rw [if_neg hfilled]
      rfl
  · refine ⟨rfl, fun id => ?_, ?_⟩
    · rw [if_neg fun h => hstays h.1]
    · rw [if_neg fun h => hstays h.1]
      rfl

/-- Placing an order on the ledger: its trades are settled; if it was accepted its metadata comes
in, that of the closed orders goes, and what a reduce-only order has left expires. -/
theorem ensures_settlePlacedOrder (hmarketed : (l.holdings (some metadata)).Marketed)
    (hmarket : 0 < coreInput.marketId) (hevents : ∀ e ∈ events, e.Marketed)
    (hp : ((l.holdings (some metadata)).settle events).pending = some p)
    (hnew : hasOrderAccepted events = true →
      ((l.holdings (some metadata)).settle events).store[p.orderId]? = none)
    (hpositive : 0 < p.marketId) :
    Ensures (settlePlacedOrder record input coreInput markPrices metadata events) l
      (fun r l' => l'.signed = ((l.holdings (some metadata)).settle events).signed ∧
        (∀ id : OrderId, l'.metadataStore[id]? =
          if (input.reduceOnly = true ∧ hasOrderAccepted events = true) ∧ id = p.orderId then none
          else if id ∈ closedIds events then none
          else if hasOrderAccepted events = true ∧ id = p.orderId then some p
          else ((l.holdings (some metadata)).settle events).store[id]?) ∧
        projected EventPayload.expired? r.events =
          if (input.reduceOnly = true ∧ hasOrderAccepted events = true) ∧
              0 < input.quantity - reduceOnlyFilledQuantity p.orderId events then
            [orderExpiredPayload p (input.quantity - reduceOnlyFilledQuantity p.orderId events)]
          else [])
      fun _ => False := by
  unfold settlePlacedOrder
  rw [ensures_bind]
  refine (@ensures_translate l markPrices events (placeContext record coreInput) _ hmarketed hmarket
    hevents).mono ?_ fun _ h => h
  rintro ⟨translated, pending⟩ l₁ ⟨hsettled, hexpired, -⟩
  generalize (l.holdings (some metadata)).settle events = hold at hsettled hp hnew ⊢
  subst hsettled
  have hpending : pending = some p := hp
  subst hpending
  dsimp only
  rw [ensures_bind]
  refine (ensures_recordAccepted hnew).mono ?_ fun _ h => h
  rintro - l₂ ⟨hsigned, hstore⟩
  rw [ensures_bind, ensures_modifyMetadata, ensures_bind]
  refine (ensures_expireIfReduceOnly hpositive).mono ?_ fun _ h => h
  rintro expired l₃ ⟨hsigned', hstore', hexpired'⟩
  refine ⟨hsigned'.trans hsigned, fun id => ?_, ?_⟩
  · rw [hstore']
    dsimp only
    rw [getElem?_cleanup, hstore]
    congr 2
    cases hasOrderAccepted events with
    | false => simp [Ledger.holdings]
    | true =>
      rw [if_pos rfl, Std.ExtTreeMap.getElem?_insert]
      simp only [true_and]
      exact if_congr (Std.LawfulEqCmp.compare_eq_iff_eq.trans eq_comm) rfl rfl
  · rw [EngineProcessResult.events_append, projected_append, hexpired, hexpired']
    rfl

end Ledger
end PerpexEngine
