import PerpexEngine.Runtime.LedgerRules

/-! What fills do to order metadata and position sizes, apart from margins' prices, clocks and risk:
an abstract account of the translator. -/
namespace PerpexEngine
open Program

/-- The position an order trades for. -/
def OrderMetadata.key (metadata : OrderMetadata) : PositionRiskKey :=
  ⟨metadata.userId, metadata.marketId⟩

/-- Later metadata of the same order. -/
def OrderMetadata.Continues (metadata later : OrderMetadata) : Prop :=
  later = { metadata with
    remainingQuantity := later.remainingQuantity
    remainingReservedMargin := later.remainingReservedMargin }

theorem OrderMetadata.Continues.refl (metadata : OrderMetadata) : metadata.Continues metadata := rfl

theorem OrderMetadata.Continues.trans {m m' m'' : OrderMetadata} (h : m.Continues m')
    (h' : m'.Continues m'') : m.Continues m'' := by
  unfold OrderMetadata.Continues at *
  rw [h', h]

theorem continues_allocateFillMargin (metadata : OrderMetadata) (lots price : ℤ) :
    metadata.Continues (allocateFillMargin metadata lots price) := rfl

/-- The signed size of a position, zero for a position that is not there. -/
def signedAt (positions : Std.ExtTreeMap PositionRiskKey IsolatedPositionState)
    (key : PositionRiskKey) : ℤ :=
  match positions[key]? with
  | none => 0
  | some position => position.signedQuantity

def Ledger.signed (ledger : Ledger) : PositionRiskKey → ℤ := signedAt ledger.positions

/-- The metadata of the orders, that of the pending order apart, and the size of each position. -/
structure Holdings where
  store : OrderMetadataStore
  pending : Option OrderMetadata
  signed : PositionRiskKey → ℤ

namespace Holdings

def find (h : Holdings) (orderId : OrderId) : Option OrderMetadata :=
  match h.pending with
  | some pending => if pending.orderId = orderId then some pending else h.store[orderId]?
  | none => h.store[orderId]?

def put (h : Holdings) (orderId : OrderId) (metadata : OrderMetadata) : Holdings :=
  match h.pending with
  | some pending =>
    if pending.orderId = orderId then { h with pending := some metadata }
    else { h with store := h.store.insert orderId metadata }
  | none => { h with store := h.store.insert orderId metadata }

/-- A fill of one order: its metadata gives lots and margin, its position takes the lots. -/
def fill (h : Holdings) (orderId : OrderId) (lots price : ℤ) : Holdings :=
  match h.find orderId with
  | none => h
  | some metadata =>
    { h.put orderId (allocateFillMargin metadata lots price) with
      signed := Function.update h.signed metadata.key
        (h.signed metadata.key + signedFillQuantity metadata lots) }

/-- The maker's fill, then the taker's. -/
def trade (h : Holdings) (t : TradeExecuted) : Holdings :=
  (h.fill t.makerOrderId t.quantity.lots t.price.ticks).fill t.takerOrderId t.quantity.lots
    t.price.ticks

def event (h : Holdings) : EngineEvent → Holdings
  | .tradeExecuted t => h.trade t
  | _ => h

def settle (h : Holdings) (events : List EngineEvent) : Holdings := events.foldl event h

/-- A predicate of all metadata, the pending one included. -/
structure Every (P : OrderMetadata → Prop) (h : Holdings) : Prop where
  store : ∀ (id : OrderId) metadata, h.store[id]? = some metadata → P metadata
  pending : ∀ metadata ∈ h.pending, P metadata

/-- All metadata belongs to markets that can have events. -/
abbrev Marketed (h : Holdings) : Prop := h.Every fun metadata => 0 < metadata.marketId

/-- The metadata of one order, if there is any, belongs to such a market. -/
def MarketsOrder (h : Holdings) (orderId : OrderId) : Prop :=
  ∀ metadata, h.find orderId = some metadata → 0 < metadata.marketId

section Settle
variable {h : Holdings}

@[simp] theorem settle_nil : h.settle [] = h := rfl

@[simp] theorem settle_cons (e : EngineEvent) (events : List EngineEvent) :
    h.settle (e :: events) = (h.event e).settle events := rfl

theorem settle_append (xs ys : List EngineEvent) :
    h.settle (xs ++ ys) = (h.settle xs).settle ys := List.foldl_append

theorem Every.find {P : OrderMetadata → Prop} (hp : h.Every P) {orderId : OrderId}
    {metadata : OrderMetadata} (hfind : h.find orderId = some metadata) : P metadata := by
  unfold Holdings.find at hfind
  split at hfind
  · rename_i pending hpending
    split at hfind
    · cases hfind
      exact hp.pending _ hpending
    · exact hp.store _ _ hfind
  · exact hp.store _ _ hfind

theorem Every.put {P : OrderMetadata → Prop} (hp : h.Every P) (orderId : OrderId)
    {metadata : OrderMetadata} (hmetadata : P metadata) : (h.put orderId metadata).Every P := by
  have hstore : ∀ (id : OrderId) m, (h.store.insert orderId metadata)[id]? = some m → P m := by
    intro id m hid
    rw [Std.ExtTreeMap.getElem?_insert] at hid
    split at hid
    · cases hid
      exact hmetadata
    · exact hp.store id m hid
  unfold Holdings.put
  split
  · split
    · exact ⟨hp.store, fun m hm => Option.some.inj hm ▸ hmetadata⟩
    · exact ⟨hstore, hp.pending⟩
  · exact ⟨hstore, hp.pending⟩

section Every
variable {P : OrderMetadata → Prop}
  (hfill : ∀ (m : OrderMetadata) (lots : ℕ) price, P m → P (allocateFillMargin m lots price))
include hfill

theorem Every.fill (hp : h.Every P) (orderId : OrderId) (lots : ℕ) (price : ℤ) :
    (h.fill orderId lots price).Every P := by
  unfold Holdings.fill
  split
  · exact hp
  · rename_i metadata hfind
    have hput := hp.put orderId (hfill metadata lots price (hp.find hfind))
    exact ⟨hput.store, hput.pending⟩

theorem Every.event (hp : h.Every P) (e : EngineEvent) : (h.event e).Every P := by
  cases e with
  | tradeExecuted t => exact (hp.fill hfill _ _ _).fill hfill _ _ _
  | _ => exact hp

/-- What a fill keeps of an order's metadata, trades keep of all of it. -/
theorem Every.settle (hp : h.Every P) (events : List EngineEvent) : (h.settle events).Every P := by
  induction events generalizing h with
  | nil => exact hp
  | cons e events ih => exact ih (hp.event hfill e)

end Every

theorem Marketed.event (hm : h.Marketed) (e : EngineEvent) : (h.event e).Marketed :=
  Every.event (fun _ _ _ h => h) hm e

/-- Fills let no metadata come or go. -/
structure Continues (h h' : Holdings) : Prop where
  store : ∀ id : OrderId, Option.Rel OrderMetadata.Continues h.store[id]? h'.store[id]?
  pending : Option.Rel OrderMetadata.Continues h.pending h'.pending

theorem rel_continues_refl (m : Option OrderMetadata) :
    Option.Rel OrderMetadata.Continues m m := by
  cases m
  · exact .none
  · exact .some (.refl _)

theorem rel_continues_trans {m m' m'' : Option OrderMetadata}
    (h : Option.Rel OrderMetadata.Continues m m') (h' : Option.Rel OrderMetadata.Continues m' m'') :
    Option.Rel OrderMetadata.Continues m m'' := by
  cases h with
  | none => exact h'
  | some h =>
    cases h' with
    | some h' => exact .some (h.trans h')

theorem Continues.refl (h : Holdings) : h.Continues h :=
  ⟨fun _ => rel_continues_refl _, rel_continues_refl _⟩

theorem Continues.trans {h h' h'' : Holdings} (hc : h.Continues h') (hc' : h'.Continues h'') :
    h.Continues h'' :=
  ⟨fun id => rel_continues_trans (hc.store id) (hc'.store id),
    rel_continues_trans hc.pending hc'.pending⟩

theorem continues_fill (h : Holdings) (orderId : OrderId) (lots price : ℤ) :
    h.Continues (h.fill orderId lots price) := by
  unfold Holdings.fill
  cases hfind : h.find orderId with
  | none => exact .refl h
  | some metadata =>
    have hstored : h.store[orderId]? = some metadata → h.Continues
        ⟨h.store.insert orderId (allocateFillMargin metadata lots price), h.pending,
          Function.update h.signed metadata.key
            (h.signed metadata.key + signedFillQuantity metadata lots)⟩ := by
      intro hstore
      refine ⟨fun id => ?_, rel_continues_refl _⟩
      rw [Std.ExtTreeMap.getElem?_insert]
      split_ifs with hid
      · rw [← Std.LawfulEqCmp.compare_eq_iff_eq.1 hid, hstore]
        exact .some (continues_allocateFillMargin _ _ _)
      · exact rel_continues_refl _
    unfold Holdings.find at hfind
    unfold Holdings.put
    rcases h with ⟨store, _ | pending, signed⟩
    · exact hstored hfind
    · dsimp only at hfind hstored ⊢
      split_ifs at hfind ⊢
      · cases hfind
        exact ⟨fun id => rel_continues_refl _, .some (continues_allocateFillMargin _ _ _)⟩
      · exact hstored hfind

theorem Continues.find {h h' : Holdings} (hc : h.Continues h') (orderId : OrderId) :
    Option.Rel OrderMetadata.Continues (h.find orderId) (h'.find orderId) := by
  have hstore := hc.store orderId
  have hpending := hc.pending
  unfold Holdings.find
  generalize h.pending = pending at hpending ⊢
  generalize h'.pending = later at hpending ⊢
  cases hpending with
  | none => exact hstore
  | @some m m' hcontinues =>
    have hid : m'.orderId = m.orderId := by rw [hcontinues]
    dsimp only
    rw [hid]
    split_ifs
    · exact .some hcontinues
    · exact hstore

theorem MarketsOrder.fill {orderId : OrderId} (hm : h.MarketsOrder orderId) (other : OrderId)
    (lots price : ℤ) : (h.fill other lots price).MarketsOrder orderId := by
  intro metadata hfind
  have hrel := (continues_fill h other lots price).find orderId
  rw [hfind] at hrel
  cases hbefore : h.find orderId with
  | none =>
    rw [hbefore] at hrel
    cases hrel
  | some before =>
    rw [hbefore] at hrel
    cases hrel with
    | some hcontinues =>
      have hmarket : metadata.marketId = before.marketId := by rw [hcontinues]
      rw [hmarket]
      exact hm before hbefore

theorem continues_event (h : Holdings) (e : EngineEvent) : h.Continues (h.event e) := by
  cases e with
  | tradeExecuted t => exact (continues_fill h _ _ _).trans (continues_fill _ _ _ _)
  | _ => exact .refl h

theorem continues_settle (h : Holdings) (events : List EngineEvent) :
    h.Continues (h.settle events) := by
  induction events generalizing h with
  | nil => exact .refl h
  | cons e events ih => exact (continues_event h e).trans (ih _)

/-- Events bring no entry into the store. -/
theorem store_settle_none {h : Holdings} {id : OrderId} (hnone : h.store[id]? = none)
    (events : List EngineEvent) : (h.settle events).store[id]? = none := by
  have hkept := (continues_settle h events).store id
  rw [hnone] at hkept
  generalize (h.settle events).store[id]? = found at hkept ⊢
  cases hkept
  rfl

end Settle
end Holdings

def TranslationState.holdings (state : TranslationState) : Holdings :=
  ⟨state.ledger.metadataStore, state.pending, state.ledger.signed⟩

/-- The program goes through and leaves these holdings. -/
def Leaves {α : Type} (m : TranslateM α) (state : TranslationState) (h : Holdings) : Prop :=
  Ensures m state (fun _ state' => state'.holdings = h) fun _ => False

section Rules
variable {α β : Type} {state : TranslationState} {h h' : Holdings} {m : TranslateM α}

theorem Leaves.bind {f : α → TranslateM β} (hm : Leaves m state h)
    (hf : ∀ a state', state'.holdings = h → Leaves (f a) state' h') :
    Leaves (m >>= f) state h' := by
  unfold Leaves
  rw [ensures_bind]
  exact hm.mono (fun a t ht => hf a t ht) fun _ => id

theorem Leaves.emitWhen {c : Prop} [Decidable c] {m : TranslateM EngineProcessResult}
    (hm : c → Leaves m state state.holdings) :
    Leaves (emitWhen c m) state state.holdings := by
  unfold PerpexEngine.emitWhen
  split_ifs with hc
  · exact hm hc
  · rfl

end Rules

section Translator
variable {context : EngineEventTranslationContext} {markPrices : MarkPrices}
  {state : TranslationState}

theorem makeEvent_leaves {marketId : MarketId} (hm : 0 < marketId) (payload : EventPayload) :
    Leaves (makeEvent context marketId payload) state state.holdings := by
  unfold Leaves makeEvent onLedger
  rw [ensures_map, ensures_zoom]
  refine (ensures_makeMarketEvent _ _ _ _ _).mono ?_ fun _ h => absurd h.1 (not_le.2 hm)
  rintro _ _ ⟨-, -, -, rfl⟩
  rfl

theorem readClock_leaves : Leaves (onLedger readClock) state state.holdings := rfl

theorem holdings_find (orderId : OrderId) (state : TranslationState) :
    state.holdings.find orderId = findMetadata orderId state := rfl

theorem holdings_putMetadata (orderId : OrderId) (metadata : OrderMetadata)
    (state : TranslationState) :
    (putMetadata orderId metadata state).holdings = state.holdings.put orderId metadata := by
  rcases state with ⟨ledger, _ | pending⟩
  · rfl
  · unfold putMetadata Holdings.put TranslationState.holdings
    dsimp only
    split_ifs <;> rfl

theorem signedAt_insert (positions : Std.ExtTreeMap PositionRiskKey IsolatedPositionState)
    (key : PositionRiskKey) (position : IsolatedPositionState) :
    signedAt (positions.insert key position) =
      Function.update (signedAt positions) key position.signedQuantity := by
  funext k
  unfold signedAt
  rw [Std.ExtTreeMap.getElem?_insert]
  by_cases hk : key = k
  · subst hk
    simp
  · have hne : compare key k ≠ .eq := fun h => hk (Std.LawfulEqCmp.compare_eq_iff_eq.1 h)
    simp only [hne, ↓reduceIte, Function.update_of_ne (Ne.symm hk)]

theorem signedAt_getD (positions : Std.ExtTreeMap PositionRiskKey IsolatedPositionState)
    (key : PositionRiskKey) :
    (positions.getD key IsolatedPositionState.none).signedQuantity = signedAt positions key := by
  unfold signedAt
  rw [Std.ExtTreeMap.getD_eq_getD_getElem?]
  cases positions[key]? <;> rfl

/-- The fill of the translator is the fill of its holdings. -/
theorem holdings_putFillLeg {orderId : OrderId} {metadata : OrderMetadata} (lots price : ℤ)
    (timestampMs : ℤ) (hfind : findMetadata orderId state = some metadata) :
    (putFillLeg orderId (fillLeg markPrices state.ledger metadata lots price timestampMs)
      state).holdings = state.holdings.fill orderId lots price := by
  unfold Holdings.fill
  rw [holdings_find, hfind]
  dsimp only
  rw [← holdings_putMetadata]
  unfold putFillLeg TranslationState.holdings Ledger.signed
  dsimp only
  rw [signedAt_insert, LedgerRule.positions_putMetadata, ← signedAt_getD state.ledger.positions]
  rfl

theorem appendFillLeg_leaves (trade : TradeExecuted) (timestampMs : ℤ) {orderId : OrderId}
    (hmarket : state.holdings.MarketsOrder orderId) :
    Leaves (appendFillLeg context markPrices trade timestampMs orderId) state
      (state.holdings.fill orderId trade.quantity.lots trade.price.ticks) := by
  unfold Leaves appendFillLeg
  rw [ensures_bind, ensures_get]
  cases hfind : findMetadata orderId state with
  | none =>
    rw [ensures_pure]
    unfold Holdings.fill
    rw [holdings_find, hfind]
  | some metadata =>
    have hmarket := hmarket metadata hfind
    have hput := @holdings_putFillLeg markPrices state _ _ trade.quantity.lots trade.price.ticks
      timestampMs hfind
    dsimp only
    rw [ensures_bind, ensures_set]
    generalize putFillLeg orderId _ state = filled at hput ⊢
    rw [← hput]
    refine Leaves.bind (Leaves.emitWhen fun _ => makeEvent_leaves hmarket _) fun _ t ht => ?_
    rw [← ht]
    refine Leaves.bind (makeEvent_leaves hmarket _) fun _ u hu => ?_
    rw [← hu]
    exact Leaves.bind (makeEvent_leaves hmarket _) fun _ v hv => hv

theorem appendPositionAndRiskUpdates_leaves {trade : TradeExecuted}
    (hmaker : state.holdings.MarketsOrder trade.makerOrderId)
    (htaker : state.holdings.MarketsOrder trade.takerOrderId) :
    Leaves (appendPositionAndRiskUpdates context markPrices trade) state
      (state.holdings.trade trade) := by
  refine Leaves.bind readClock_leaves fun _ t ht => ?_
  rw [← ht] at hmaker htaker ⊢
  refine Leaves.bind (appendFillLeg_leaves _ _ hmaker) fun _ u hu => ?_
  have htaker' := htaker.fill trade.makerOrderId trade.quantity.lots trade.price.ticks
  unfold Holdings.trade
  rw [← hu] at htaker' ⊢
  exact Leaves.bind (appendFillLeg_leaves _ _ htaker') fun _ v hv => hv

/-- An event of the core that names a market names one that can have events. -/
def EngineEvent.Marketed : EngineEvent → Prop
  | .orderAccepted e => 0 < e.symbolId
  | .tradeExecuted e => 0 < e.symbolId
  | .orderBookDelta e => 0 < e.symbolId
  | _ => True

theorem appendTradeExecuted_leaves {trade : TradeExecuted} (hsymbol : 0 < trade.symbolId)
    (hmaker : state.holdings.MarketsOrder trade.makerOrderId)
    (htaker : state.holdings.MarketsOrder trade.takerOrderId) :
    Leaves (appendTradeExecuted context markPrices trade) state (state.holdings.trade trade) := by
  have hmarket : 0 < (trade.symbolId : MarketId) := Int.natCast_pos.2 hsymbol
  unfold Leaves appendTradeExecuted
  rw [ensures_bind, ensures_get]
  refine Leaves.bind (makeEvent_leaves hmarket _) fun _ t ht => ?_
  rw [← ht] at hmaker htaker ⊢
  refine Leaves.bind (Leaves.emitWhen fun _ => makeEvent_leaves hmarket _) fun _ u hu => ?_
  rw [← hu] at hmaker htaker ⊢
  exact Leaves.bind (appendPositionAndRiskUpdates_leaves hmaker htaker) fun _ v hv => hv

theorem translateEvent_leaves (hmarketed : state.holdings.Marketed)
    (hcontext : 0 < context.marketId) (filled : List OrderId) (event : EngineEvent)
    (hevent : event.Marketed) : Leaves (translateEvent context markPrices filled event) state
      (state.holdings.event event) := by
  cases event with
  | orderAccepted e =>
    unfold Leaves translateEvent appendOrderAccepted
    rw [ensures_bind, ensures_get]
    dsimp only
    apply ensures_ite.2
    refine ⟨fun _ => rfl, fun _ => ?_⟩
    exact Leaves.bind (makeEvent_leaves (Int.natCast_pos.2 hevent) _) fun _ t ht => ht
  | orderRejected e =>
    unfold Leaves translateEvent appendOrderRejected
    rw [ensures_bind, ensures_get]
    dsimp only
    cases hfind : findMetadata (e.orderId.getD context.orderId.toNat) state with
    | none => exact rfl
    | some metadata =>
      apply ensures_ite.2
      refine ⟨fun _ => rfl, fun _ => ?_⟩
      exact Leaves.bind (makeEvent_leaves (hmarketed.find hfind) _) fun _ t ht => ht
  | tradeExecuted e =>
    exact appendTradeExecuted_leaves hevent (fun _ => hmarketed.find) fun _ => hmarketed.find
  | orderPartial e => rfl
  | orderFilled e => rfl
  | orderCancelled e =>
    have hmarket : 0 < ((findMetadata e.orderId state).map (·.marketId)).getD context.marketId := by
      cases hfind : findMetadata e.orderId state with
      | none => exact hcontext
      | some metadata => exact hmarketed.find hfind
    unfold Leaves translateEvent appendOrderCancelled
    rw [ensures_bind, ensures_get]
    exact Leaves.bind (makeEvent_leaves hmarket _) fun _ t ht => ht
  | orderBookDelta e => exact makeEvent_leaves (Int.natCast_pos.2 hevent) _

/-- The translator settles the trades of the events, one by one. -/
theorem translateEvents_leaves (hmarketed : state.holdings.Marketed)
    (hcontext : 0 < context.marketId) (filled : List OrderId) (events : List EngineEvent)
    (hevents : ∀ e ∈ events, e.Marketed) :
    Leaves (translateEvents context markPrices filled events) state
      (state.holdings.settle events) := by
  induction events generalizing state with
  | nil => rfl
  | cons event events ih =>
    refine Leaves.bind (translateEvent_leaves hmarketed hcontext filled event
      (hevents _ List.mem_cons_self)) fun _ t ht => ?_
    have hmarketed' := hmarketed.event event
    rw [Holdings.settle_cons]
    rw [← ht] at hmarketed' ⊢
    exact Leaves.bind (ih hmarketed' fun e he => hevents e (List.mem_cons_of_mem _ he))
      fun _ u hu => hu

end Translator
end PerpexEngine
