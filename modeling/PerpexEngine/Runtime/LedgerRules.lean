import PerpexEngine.Lib.Trace
import PerpexEngine.Runtime.EngineRuntime

/-! What the translator can do to the ledger and emit, said once: a relation that the few primitive
moves respect holds of every program built from them. A fill with what it reports may be one move. -/
namespace PerpexEngine
open Program

def EngineRuntimeClock.tick (clock : EngineRuntimeClock) : EngineRuntimeClock :=
  { clock with reads := clock.reads + 1 }

namespace Ledger

/-- The ledger after a record with the next number of a market has been made. -/
def afterEvent (ledger : Ledger) (marketId : MarketId) : Ledger :=
  { ledger with
    marketSequences := ledger.marketSequences.advance marketId
    clock := ledger.clock.tick }

def putLeg (ledger : Ledger) (leg : FillLeg) : Ledger :=
  { ledger with
    positions := ledger.positions.insert leg.key leg.position
    riskStates := ledger.riskStates.insert leg.key leg.risk }

end Ledger

/-- The record carries the next number of its market. -/
structure EngineEventRecord.Next (ledger : Ledger) (event : EngineEventRecord) : Prop where
  market : 0 < event.marketId
  sequence : event.engineSequence = ledger.marketSequences.peek event.marketId
  eventId : event.engineEventId =
    PerpexEngine.engineEventId event.marketId event.engineSequence

/-- Orders enter the metadata store under their own id, are written in place, and leave. -/
inductive MetadataMove (store : OrderMetadataStore) : OrderMetadataStore → Prop
  | insert (metadata : OrderMetadata) :
    MetadataMove store (store.insert metadata.orderId metadata)
  | write {orderId : OrderId} {metadata metadata' : OrderMetadata}
    (h : store[orderId]? = some metadata) (hid : metadata'.orderId = metadata.orderId) :
    MetadataMove store (store.insert orderId metadata')
  | erase (orderId : OrderId) : MetadataMove store (store.erase orderId)

/-- A relation between a ledger, the events made from it and the ledger after them that every
primitive move respects. -/
structure LedgerRule (markPrices : MarkPrices)
    (R : Ledger → List EngineEventRecord → Ledger → Prop) : Prop extends TraceRule R where
  clock : ∀ l : Ledger, R l [] { l with clock := l.clock.tick }
  event : ∀ l e, EngineEventRecord.Next l e → R l [e] (l.afterEvent e.marketId)
  metadata : ∀ (l : Ledger) store, MetadataMove l.metadataStore store →
    R l [] { l with metadataStore := store }
  fill : ∀ l metadata quantity price timestampMs,
    R l [] (l.putLeg (fillLeg markPrices l metadata quantity price timestampMs))

/-- The payloads that tell neither of a fill nor of a risk state. -/
def EventPayload.Plain : EventPayload → Prop
  | .accountDelta _ => False
  | .positionChanged _ => False
  | .riskStateUpdated _ => False
  | .fundingPaymentApplied _ _ => False
  | _ => True

/-- A relation that the plain records respect. -/
structure EventRule (R : Ledger → List EngineEventRecord → Ledger → Prop) : Prop
    extends TraceRule R where
  event : ∀ l e, EngineEventRecord.Next l e → e.payload.Plain → R l [e] (l.afterEvent e.marketId)

/-- A relation that the moves respect where the fill of one order is a move together with what it
reports. -/
structure FillRule (markPrices : MarkPrices)
    (R : Ledger → List EngineEventRecord → Ledger → Prop) : Prop extends EventRule R where
  clock : ∀ l : Ledger, R l [] { l with clock := l.clock.tick }
  metadata : ∀ (l : Ledger) store, MetadataMove l.metadataStore store →
    R l [] { l with metadataStore := store }
  leg : ∀ context trade timestampMs orderId, Emits TranslationState.ledger (·.events) R
    (appendFillLeg context markPrices trade timestampMs orderId)

theorem ensures_makeMarketEvent (l : Ledger) (marketId : MarketId) (source : SourceFields)
    (requestId : Option Text) (payload : EventPayload) :
    Ensures (makeMarketEvent marketId source requestId payload) l
      (fun e l' => e.Next l ∧ e.marketId = marketId ∧ e.payload = payload ∧
        l' = l.afterEvent marketId) fun l' => marketId ≤ 0 ∧ l' = l := by
  unfold makeMarketEvent drawSequence readClock
  by_cases h : marketId ≤ 0
  · simp [h]
  · simp only [h, ↓reduceIte, ensures_bind, ensures_get, ensures_set, ensures_pure]
    exact ⟨⟨by simpa using h, rfl, rfl⟩, trivial, trivial, rfl⟩

theorem Program.TraceRule.emitWhen {σ V : Type} {R : V → List EngineEventRecord → V → Prop} {view : σ → V}
    {m : Program Text σ EngineProcessResult} {s : σ} (rule : TraceRule R) (c : Prop) [Decidable c]
    (hm : EmitsFrom view (·.events) R m s) : EmitsFrom view (·.events) R (emitWhen c m) s :=
  hm.ite (rule.pure rfl s)

section Events
variable {R : Ledger → List EngineEventRecord → Ledger → Prop} {payload : EventPayload} {α : Type}

theorem emits_onLedger {out : α → List EngineEventRecord} {m : LedgerM α} (hm : Emits id out R m) :
    Emits TranslationState.ledger out R (onLedger m) :=
  fun s => (hm s.ledger).zoom rfl fun _ => rfl

theorem emits_withPending (pending : Option OrderMetadata) {out : α → List EngineEventRecord}
    {m : TranslateM α} (hm : Emits TranslationState.ledger out R m) :
    Emits id (fun r => out r.1) R (withPending pending m) := by
  intro l
  unfold EmitsFrom PerpexEngine.withPending
  rw [ensures_zoom]
  exact (hm ⟨l, pending⟩).first fun _ _ h => h

variable (rule : TraceRule R)
  (event : ∀ l e, EngineEventRecord.Next l e → e.payload = payload → R l [e] (l.afterEvent e.marketId))
include rule event

theorem emits_makeMarketEvent (marketId : MarketId) (source : SourceFields)
    (requestId : Option Text) :
    Emits id (fun e => [e]) R (makeMarketEvent marketId source requestId payload) := by
  intro l
  refine (ensures_makeMarketEvent l marketId source requestId payload).mono ?_ ?_
  · rintro e _ ⟨hnext, rfl, hpayload, rfl⟩
    exact event l e hnext hpayload
  · rintro _ ⟨-, rfl⟩
    exact ⟨[], rule.nothing _⟩

theorem emits_makeEvent (context : EngineEventTranslationContext) (marketId : MarketId) :
    Emits TranslationState.ledger (·.events) R (makeEvent context marketId payload) :=
  fun s => (emits_onLedger (emits_makeMarketEvent rule event _ _ _) s).map fun _ => rfl

theorem emits_makeRuntimeMarketEvent (record : InboundEngineRecord)
    (inputId requestId : Option Text) (marketId : MarketId) :
    Emits id (·.events) R (makeRuntimeMarketEvent record inputId requestId marketId payload) :=
  fun l => (emits_makeMarketEvent rule event _ _ _ l).map fun _ => rfl

end Events

namespace LedgerRule
variable {markPrices : MarkPrices} {R : Ledger → List EngineEventRecord → Ledger → Prop}

theorem makeEvent (rule : LedgerRule markPrices R) (context : EngineEventTranslationContext)
    (marketId : MarketId) (payload : EventPayload) :
    Emits TranslationState.ledger (·.events) R (makeEvent context marketId payload) :=
  emits_makeEvent rule.toTraceRule (fun l e h _ => rule.event l e h) _ _

theorem makeRuntimeMarketEvent (rule : LedgerRule markPrices R) (record : InboundEngineRecord)
    (inputId requestId : Option Text) (marketId : MarketId) (payload : EventPayload) :
    Emits id (·.events) R (makeRuntimeMarketEvent record inputId requestId marketId payload) :=
  emits_makeRuntimeMarketEvent rule.toTraceRule (fun l e h _ => rule.event l e h) _ _ _ _

/-- Writing metadata that was found only moves the store, or nothing of the ledger. -/
theorem putMetadata (rule : LedgerRule markPrices R) {orderId : OrderId}
    {state : TranslationState} {metadata metadata' : OrderMetadata}
    (h : findMetadata orderId state = some metadata) (hid : metadata'.orderId = metadata.orderId) :
    R state.ledger [] (putMetadata orderId metadata' state).ledger := by
  unfold findMetadata at h
  unfold PerpexEngine.putMetadata
  split
  · rename_i hpending
    rw [hpending] at h
    dsimp only at h
    split_ifs at h ⊢
    · exact rule.nothing _
    · exact rule.metadata _ _ (.write h hid)
  · rename_i hpending
    rw [hpending] at h
    exact rule.metadata _ _ (.write h hid)

theorem positions_putMetadata (orderId : OrderId) (metadata : OrderMetadata)
    (state : TranslationState) :
    (PerpexEngine.putMetadata orderId metadata state).ledger.positions =
      state.ledger.positions := by
  unfold PerpexEngine.putMetadata
  split
  · split_ifs <;> rfl
  · rfl

theorem putFillLeg (rule : LedgerRule markPrices R) {orderId : OrderId}
    {state : TranslationState} {metadata : OrderMetadata}
    (h : findMetadata orderId state = some metadata) (quantity price timestampMs : ℤ) :
    R state.ledger [] (putFillLeg orderId
      (fillLeg markPrices state.ledger metadata quantity price timestampMs) state).ledger := by
  have hleg : fillLeg markPrices state.ledger metadata quantity price timestampMs =
      fillLeg markPrices (PerpexEngine.putMetadata orderId (allocateFillMargin metadata quantity
        price) state).ledger metadata quantity price timestampMs := by
    unfold fillLeg
    rw [positions_putMetadata]
  have hfill := rule.fill (PerpexEngine.putMetadata orderId (allocateFillMargin metadata quantity
    price) state).ledger metadata quantity price timestampMs
  rw [← hleg] at hfill
  have hput : R state.ledger [] (PerpexEngine.putMetadata orderId (allocateFillMargin metadata
    quantity price) state).ledger := rule.putMetadata h rfl
  exact rule.append hput hfill

theorem appendFillLeg (rule : LedgerRule markPrices R)
    (context : EngineEventTranslationContext) (trade : TradeExecuted) (timestampMs : ℤ)
    (orderId : OrderId) : Emits TranslationState.ledger (·.events) R
      (appendFillLeg context markPrices trade timestampMs orderId) := by
  intro s
  unfold EmitsFrom PerpexEngine.appendFillLeg
  rw [ensures_bind, ensures_get]
  split
  · exact rule.nothing _
  · rename_i metadata hfound
    rw [ensures_bind, ensures_set]
    have hput := rule.putFillLeg hfound trade.quantity.lots trade.price.ticks timestampMs
    refine rule.next hput (rule.emitWhen _ (rule.makeEvent _ _ _ _)) fun a t ha => ?_
    refine rule.next ha (rule.makeEvent _ _ _ _) fun b u hb => ?_
    exact rule.next hb (rule.makeEvent _ _ _ _) fun c v hc => hc

/-- Where a fill and what it reports are moves of their own, they are one after the other. -/
theorem fills (rule : LedgerRule markPrices R) : FillRule markPrices R where
  toTraceRule := rule.toTraceRule
  event l e h _ := rule.event l e h
  clock := rule.clock
  metadata := rule.metadata
  leg := rule.appendFillLeg

theorem appendRiskUpdates (rule : LedgerRule markPrices R) (record : InboundEngineRecord)
    (inputId : Option Text) (keys : List PositionRiskKey) :
    Emits id (·.events) R (appendRiskUpdates record inputId keys) := by
  induction keys with
  | nil => exact rule.pure rfl
  | cons key keys ih =>
    intro l
    unfold EmitsFrom PerpexEngine.appendRiskUpdates
    rw [ensures_bind, ensures_get]
    split
    · exact ⟨[], rule.nothing _⟩
    · refine (rule.makeRuntimeMarketEvent _ _ _ _ _ _).first fun a t h => ?_
      exact rule.next h (ih _) fun _ _ hu => hu

end LedgerRule

namespace EventRule
variable {R : Ledger → List EngineEventRecord → Ledger → Prop} {payload : EventPayload}

theorem makeEvent (rule : EventRule R) (context : EngineEventTranslationContext)
    (marketId : MarketId) (h : payload.Plain) :
    Emits TranslationState.ledger (·.events) R (makeEvent context marketId payload) :=
  emits_makeEvent rule.toTraceRule (fun l e hnext heq => rule.event l e hnext (heq ▸ h)) _ _

theorem makeRuntimeMarketEvent (rule : EventRule R) (record : InboundEngineRecord)
    (inputId requestId : Option Text) (marketId : MarketId) (h : payload.Plain) :
    Emits id (·.events) R (makeRuntimeMarketEvent record inputId requestId marketId payload) :=
  emits_makeRuntimeMarketEvent rule.toTraceRule
    (fun l e hnext heq => rule.event l e hnext (heq ▸ h)) _ _ _ _

theorem reduceOnlyRejectedResult (rule : EventRule R) (record : InboundEngineRecord)
    (input : PlaceOrderInput) (reason : Text) :
    Emits id (·.events) R (reduceOnlyRejectedResult record input reason) := by
  intro l
  refine (rule.emitWhen _ (rule.makeRuntimeMarketEvent _ _ _ _ ?_ l)).first fun _ _ h => h
  trivial

end EventRule

namespace FillRule
variable {markPrices : MarkPrices} {R : Ledger → List EngineEventRecord → Ledger → Prop}

section Primitives

theorem readClock (rule : FillRule markPrices R) : Emits id (fun _ => []) R readClock :=
  fun l => rule.clock l

theorem modifyMetadata (rule : FillRule markPrices R)
    {f : OrderMetadataStore → OrderMetadataStore} (hf : ∀ store, MetadataMove store (f store)) :
    Emits id (fun _ => []) R (modifyMetadata f) := fun l => rule.metadata l _ (hf l.metadataStore)

/-- The completed orders leave one by one. -/
theorem cleanup (rule : FillRule markPrices R) (coreEvents : List EngineEvent) :
    Emits id (fun _ => []) R
      (PerpexEngine.modifyMetadata (cleanupCompletedOrderMetadata coreEvents)) := by
  have hfold : ∀ (events : List EngineEvent) (l : Ledger), R l []
      { l with metadataStore := cleanupCompletedOrderMetadata events l.metadataStore } := by
    intro events
    induction events with
    | nil => exact fun l => rule.nothing l
    | cons event events ih =>
      intro l
      cases event with
      | orderFilled e => exact rule.append (rule.metadata l _ (.erase e.orderId)) (ih _)
      | orderCancelled e => exact rule.append (rule.metadata l _ (.erase e.orderId)) (ih _)
      | orderAccepted | orderRejected | tradeExecuted | orderPartial | orderBookDelta => exact ih l
  exact fun l => hfold coreEvents l

end Primitives

section Translator

theorem appendPositionAndRiskUpdates (rule : FillRule markPrices R)
    (context : EngineEventTranslationContext) (trade : TradeExecuted) :
    Emits TranslationState.ledger (·.events) R
      (appendPositionAndRiskUpdates context markPrices trade) := by
  intro s
  refine (emits_onLedger rule.readClock s).first fun _ t h => ?_
  refine rule.next h (rule.leg _ _ _ _ _) fun _ u hu => ?_
  exact rule.next hu (rule.leg _ _ _ _ _) fun _ _ hv => hv

theorem appendOrderAccepted (rule : FillRule markPrices R)
    (context : EngineEventTranslationContext) (filled : List OrderId) (accepted : OrderAccepted) :
    Emits TranslationState.ledger (·.events) R (appendOrderAccepted context filled accepted) := by
  intro s
  unfold EmitsFrom PerpexEngine.appendOrderAccepted
  rw [ensures_bind, ensures_get]
  dsimp only
  split
  · exact rule.nothing _
  · exact rule.next (rule.nothing _) (rule.makeEvent _ _ (by trivial) _) fun _ _ h => h

theorem appendOrderRejected (rule : FillRule markPrices R)
    (context : EngineEventTranslationContext) (rejected : OrderRejected) :
    Emits TranslationState.ledger (·.events) R (appendOrderRejected context rejected) := by
  intro s
  unfold EmitsFrom PerpexEngine.appendOrderRejected
  rw [ensures_bind, ensures_get]
  dsimp only
  generalize findMetadata _ s = found
  cases found with
  | none => exact rule.nothing _
  | some metadata =>
    apply ensures_ite.2
    constructor
    · exact fun _ => rule.nothing _
    · exact fun _ => rule.next (rule.nothing _) (rule.makeEvent _ _ (by trivial) _) fun _ _ h => h

theorem plain_liquidationExecutedPayload (trade : TradeExecuted) (taker : Option OrderMetadata)
    (context : EngineEventTranslationContext) :
    (liquidationExecutedPayload trade taker context).Plain := by
  unfold liquidationExecutedPayload
  cases context.adl <;> trivial

theorem appendTradeExecuted (rule : FillRule markPrices R)
    (context : EngineEventTranslationContext) (trade : TradeExecuted) :
    Emits TranslationState.ledger (·.events) R (appendTradeExecuted context markPrices trade) := by
  intro s
  unfold EmitsFrom PerpexEngine.appendTradeExecuted
  rw [ensures_bind, ensures_get]
  refine (rule.makeEvent _ _ (by trivial) _).first fun _ t h => ?_
  refine rule.next h (rule.emitWhen _ (rule.makeEvent _ _
    (plain_liquidationExecutedPayload _ _ _) _)) fun _ u hu => ?_
  exact rule.next hu (rule.appendPositionAndRiskUpdates _ _ _) fun _ _ hv => hv

theorem appendOrderCancelled (rule : FillRule markPrices R)
    (context : EngineEventTranslationContext) (cancelled : OrderCancelled) :
    Emits TranslationState.ledger (·.events) R (appendOrderCancelled context cancelled) := by
  intro s
  unfold EmitsFrom PerpexEngine.appendOrderCancelled
  rw [ensures_bind, ensures_get]
  exact rule.next (rule.nothing _) (rule.makeEvent _ _ (by trivial) _) fun _ _ h => h

theorem translateEvent (rule : FillRule markPrices R)
    (context : EngineEventTranslationContext) (filled : List OrderId) (event : EngineEvent) :
    Emits TranslationState.ledger (·.events) R (translateEvent context markPrices filled event) := by
  cases event with
  | orderAccepted e => exact rule.appendOrderAccepted _ _ e
  | orderRejected e => exact rule.appendOrderRejected _ e
  | tradeExecuted e => exact rule.appendTradeExecuted _ e
  | orderPartial e => exact rule.pure rfl
  | orderFilled e => exact rule.pure rfl
  | orderCancelled e => exact rule.appendOrderCancelled _ e
  | orderBookDelta e => exact rule.makeEvent _ _ (by trivial)

theorem translateEvents (rule : FillRule markPrices R)
    (context : EngineEventTranslationContext) (filled : List OrderId) (events : List EngineEvent) :
    Emits TranslationState.ledger (·.events) R
      (translateEvents context markPrices filled events) := by
  induction events with
  | nil => exact rule.pure rfl
  | cons event events ih =>
    intro s
    refine (rule.translateEvent _ _ _ _).first fun _ t h => ?_
    exact rule.next h (ih _) fun _ _ hu => hu

theorem translate (rule : FillRule markPrices R)
    (context : EngineEventTranslationContext) (coreEvents : List EngineEvent) :
    Emits TranslationState.ledger (·.events) R (translate context markPrices coreEvents) :=
  rule.translateEvents _ _ _

end Translator

section Adl

theorem setMetadataStore (rule : FillRule markPrices R)
    {f : OrderMetadataStore → OrderMetadataStore} (hf : ∀ store, MetadataMove store (f store)) :
    Emits TranslationState.ledger (fun _ => []) R (setMetadataStore f) :=
  emits_onLedger (rule.modifyMetadata hf)

theorem requirePending (rule : FillRule markPrices R) :
    Emits TranslationState.ledger (fun _ => []) R requirePending := by
  intro s
  unfold EmitsFrom PerpexEngine.requirePending
  rw [ensures_bind, ensures_get]
  split_ifs
  · exact ⟨[], rule.nothing _⟩
  · exact rule.nothing _

theorem appendAdlFill (rule : FillRule markPrices R)
    (context : EngineEventTranslationContext) (input : LiquidatePositionInput)
    (price : AdapterPrice) (candidate : AdlCandidate) (fillQuantity priorityRank : ℤ) :
    Emits TranslationState.ledger (·.events) R
      (appendAdlFill context markPrices input price candidate fillQuantity priorityRank) := by
  intro s
  unfold EmitsFrom PerpexEngine.appendAdlFill
  rw [ensures_bind, ensures_get]
  dsimp only
  split
  · exact ⟨[], rule.nothing _⟩
  · refine (rule.setMetadataStore (fun _ => .insert (adlCounterpartyMetadata _ _ _ _ _ _)) _).first
      fun _ t h => ?_
    refine rule.next h (rule.requirePending _) fun _ u hu => ?_
    refine rule.next hu (rule.translate _ _ _) fun a v hv => ?_
    refine rule.next hv (rule.setMetadataStore (fun _ => .erase _) _) fun _ w hw => ?_
    rw [List.append_nil] at hw
    exact hw

theorem appendAdlFillsFrom (rule : FillRule markPrices R)
    (context : EngineEventTranslationContext) (input : LiquidatePositionInput)
    (price : AdapterPrice) (candidates : List AdlCandidate) (remainingQuantity priorityRank : ℤ) :
    Emits TranslationState.ledger (·.events) R (appendAdlFillsFrom context markPrices input price
      candidates remainingQuantity priorityRank) := by
  induction candidates generalizing remainingQuantity priorityRank with
  | nil => exact rule.pure rfl
  | cons candidate candidates ih =>
    unfold PerpexEngine.appendAdlFillsFrom
    intro s
    apply EmitsFrom.ite (rule.pure rfl s)
    apply EmitsFrom.ite (ih _ _ s)
    refine (rule.appendAdlFill _ _ _ _ _ _ s).first fun _ t h => ?_
    exact rule.next h (ih _ _ t) fun _ _ hu => hu

theorem appendAdlFills (rule : FillRule markPrices R)
    (context : EngineEventTranslationContext) (input : LiquidatePositionInput)
    (remainingQuantity : ℤ) (price : AdapterPrice) :
    Emits TranslationState.ledger (·.events) R
      (appendAdlFills context markPrices input remainingQuantity price) := by
  intro s
  unfold EmitsFrom PerpexEngine.appendAdlFills
  rw [ensures_bind, ensures_get]
  split
  · exact rule.nothing _
  · split_ifs
    · exact rule.nothing _
    · exact rule.appendAdlFillsFrom _ _ _ _ _ _ s

end Adl

section Orders

theorem recordAccepted (rule : FillRule markPrices R) (pending : Option OrderMetadata)
    (accepted : Bool) : Emits id (fun _ => []) R (recordAccepted pending accepted) := by
  intro l
  unfold EmitsFrom PerpexEngine.recordAccepted
  rw [ensures_bind, ensures_get]
  split
  · split
    · exact ⟨[], rule.nothing _⟩
    · split
      · exact ⟨[], rule.nothing _⟩
      · exact rule.metadata _ _ (.insert _)
  · exact rule.nothing _

theorem expireReduceOnly (rule : FillRule markPrices R) (record : InboundEngineRecord)
    (input : PlaceOrderInput) (metadata : OrderMetadata) (coreEvents : List EngineEvent) :
    Emits id (·.events) R (expireReduceOnly record input metadata coreEvents) := by
  intro l
  refine (rule.emitWhen _ (rule.makeRuntimeMarketEvent _ _ _ _ (by trivial) l)).first fun a t h => ?_
  refine rule.next h (rule.modifyMetadata (fun _ => .erase _) _) fun _ u hu => ?_
  rw [List.append_nil] at hu
  exact hu

theorem expireIfReduceOnly (rule : FillRule markPrices R) (record : InboundEngineRecord)
    (input : PlaceOrderInput) (pending : Option OrderMetadata) (coreEvents : List EngineEvent) :
    Emits id (·.events) R (expireIfReduceOnly record input pending coreEvents) := by
  cases pending with
  | none => exact rule.pure rfl
  | some metadata => exact fun l => rule.emitWhen _ (rule.expireReduceOnly _ _ _ _ l)

theorem settlePlacedOrder (rule : FillRule markPrices R) (record : InboundEngineRecord)
    (input coreInput : PlaceOrderInput) (metadata : OrderMetadata)
    (coreEvents : List EngineEvent) : Emits id (·.events) R
      (settlePlacedOrder record input coreInput markPrices metadata coreEvents) := by
  intro l
  refine (emits_withPending _ (rule.translate _ _) l).first fun a t h => ?_
  refine rule.next h (rule.recordAccepted _ _ _) fun _ u hu => ?_
  refine rule.next hu (rule.cleanup _ _) fun _ v hv => ?_
  refine rule.next hv (rule.expireIfReduceOnly _ _ _ _ _) fun _ w hw => ?_
  rw [List.append_nil, List.append_nil] at hw
  exact hw

end Orders
end FillRule
end PerpexEngine
