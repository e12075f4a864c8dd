import PerpexEngine.Core.TradeParties
import PerpexEngine.Lib.Transfers
import PerpexEngine.Runtime.Holdings

/-! Matching on one book moves its orders and their metadata together, and each fill is a transfer
between two positions of the market. -/
namespace PerpexEngine

/-- The metadata says of an order what the book says, `slack` lots aside. -/
structure OrderMetadata.Describes (metadata : OrderMetadata) (symbolId : SymbolId) (slack : ℤ)
    (r : OrderSnapshot) : Prop where
  orderId : metadata.orderId = r.orderId
  market : metadata.marketId = symbolId
  user : metadata.userId = r.userId
  side : toCoreSide metadata.side = r.side
  remaining : metadata.remainingQuantity = r.remainingQuantity.lots + slack

/-- What the taker's fills do to positions: a long taker buys, a short one sells. -/
def TakenBy (side : AdapterSide) (key : PositionRiskKey) (ts : List (Transfer PositionRiskKey)) :
    Prop :=
  match side with
  | .long => Transfer.Into key ts
  | .short => Transfer.From key ts

/-- A position that orders of the market can trade for. -/
def PositionRiskKey.TradesIn (key : PositionRiskKey) (marketId : MarketId) : Prop :=
  key.marketId = marketId ∧ 0 ≤ key.userId

def WithinMarket (marketId : MarketId) (ts : List (Transfer PositionRiskKey)) : Prop :=
  ∀ t ∈ ts, t.source.TradesIn marketId ∧ t.target.TradesIn marketId

/-- The transfer of a fill between a taker and a maker on the other side. -/
def takerTransfer (side : AdapterSide) (taker maker : PositionRiskKey) (lots : ℤ) :
    Transfer PositionRiskKey :=
  match side with
  | .long => ⟨maker, taker, lots⟩
  | .short => ⟨taker, maker, lots⟩

section Transfers
variable {side : AdapterSide} {taker maker : PositionRiskKey} {ts us : List (Transfer PositionRiskKey)}
  {lots : ℤ} {marketId : MarketId}

theorem TakenBy.nil : TakenBy side taker [] := by
  cases side <;> exact fun _ h => absurd h List.not_mem_nil

theorem TakenBy.append (h : TakenBy side taker ts) (h' : TakenBy side taker us) :
    TakenBy side taker (ts ++ us) := by
  cases side <;> exact fun t ht => (List.mem_append.1 ht).elim (h t) (h' t)

theorem takenBy_takerTransfer (hlots : 0 ≤ lots) :
    TakenBy side taker [takerTransfer side taker maker lots] := by
  cases side <;> exact fun t ht => List.mem_singleton.1 ht ▸ ⟨rfl, hlots⟩

theorem WithinMarket.append (h : WithinMarket marketId ts) (h' : WithinMarket marketId us) :
    WithinMarket marketId (ts ++ us) :=
  fun t ht => (List.mem_append.1 ht).elim (h t) (h' t)

theorem withinMarket_takerTransfer (htaker : taker.TradesIn marketId)
    (hmaker : maker.TradesIn marketId) :
    WithinMarket marketId [takerTransfer side taker maker lots] := by
  intro t ht
  rw [List.mem_singleton.1 ht]
  cases side <;> constructor <;> assumption

@[simp] theorem amount_takerTransfer : (takerTransfer side taker maker lots).amount = lots := by
  cases side <;> rfl

end Transfers

theorem OrderMetadata.Describes.tradesIn {metadata : OrderMetadata} {symbolId : SymbolId}
    {slack : ℤ} {r : OrderSnapshot} (h : metadata.Describes symbolId slack r) :
    metadata.key.TradesIn symbolId := by
  refine ⟨h.market, ?_⟩
  change (0 : ℤ) ≤ metadata.userId
  rw [h.user]
  exact Int.natCast_nonneg _

section Fill
variable {metadata : OrderMetadata} {symbolId : SymbolId} {slack : ℤ} {r : OrderSnapshot}

/-- A fill takes the same lots from the metadata and from the order. -/
theorem OrderMetadata.Describes.fill (h : metadata.Describes symbolId slack r) (hslack : 0 ≤ slack)
    {f : Quantity} (hle : f.lots ≤ r.remainingQuantity.lots) (price : ℤ) :
    (allocateFillMargin metadata f.lots price).Describes symbolId slack (r.reduce f) where
  orderId := h.orderId
  market := h.market
  user := h.user
  side := h.side
  remaining := by
    have hremaining : (metadata.remainingQuantity : ℤ) = r.remainingQuantity.lots + slack :=
      h.remaining
    rw [QueueBook.reduce_lots hle, Nat.cast_sub hle]
    change (if (f.lots : ℤ) < metadata.remainingQuantity
      then metadata.remainingQuantity - f.lots else 0) = _
    rw [hremaining]
    have hleft : ∀ f r : ℤ, f ≤ r → (if f < r + slack then r + slack - f else 0) = r - f + slack := by
      intro f r hfr
      split_ifs <;> omega
    exact hleft _ _ (Int.ofNat_le.2 hle)

end Fill

namespace Holdings
variable {h : Holdings} {maker taker : OrderMetadata} {makerId : OrderId} {lots price : ℤ}

/-- The fill of an order that is not the pending one. -/
theorem fill_stored {pending : OrderMetadata} (hpending : h.pending = some pending)
    (hne : pending.orderId ≠ makerId) (hmaker : h.store[makerId]? = some maker) :
    h.fill makerId lots price =
      { store := h.store.insert makerId (allocateFillMargin maker lots price)
        pending := h.pending
        signed := Function.update h.signed maker.key
          (h.signed maker.key + signedFillQuantity maker lots) } := by
  have hfind : h.find makerId = some maker := by
    unfold find
    rw [hpending]
    dsimp only
    rw [if_neg hne, hmaker]
  unfold fill
  rw [hfind]
  dsimp only
  unfold put
  rw [hpending]
  dsimp only
  rw [if_neg hne]

/-- The fill of the pending order. -/
theorem fill_pending (htaker : h.pending = some taker) :
    h.fill taker.orderId lots price =
      { store := h.store
        pending := some (allocateFillMargin taker lots price)
        signed := Function.update h.signed taker.key
          (h.signed taker.key + signedFillQuantity taker lots) } := by
  have hfind : h.find taker.orderId = some taker := by
    unfold find
    rw [htaker]
    exact if_pos rfl
  unfold fill
  rw [hfind]
  dsimp only
  unfold put
  rw [htaker]
  dsimp only
  rw [if_pos rfl]

/-- A trade of the pending order with a stored one on the other side is a transfer. -/
theorem trade_eq (t : TradeExecuted) (htaker : h.pending = some taker)
    (htakerId : t.takerOrderId = taker.orderId) (hne : taker.orderId ≠ t.makerOrderId)
    (hmaker : h.store[t.makerOrderId]? = some maker)
    (hside : toCoreSide maker.side = (toCoreSide taker.side).opposite) :
    h.trade t =
      { store := h.store.insert t.makerOrderId
          (allocateFillMargin maker t.quantity.lots t.price.ticks)
        pending := some (allocateFillMargin taker t.quantity.lots t.price.ticks)
        signed := (takerTransfer taker.side taker.key maker.key t.quantity.lots).apply h.signed } := by
  have hpending := @fill_pending ⟨h.store.insert t.makerOrderId (allocateFillMargin maker
    t.quantity.lots t.price.ticks), h.pending, Function.update h.signed maker.key
      (h.signed maker.key + signedFillQuantity maker t.quantity.lots)⟩ taker t.quantity.lots
      t.price.ticks htaker
  unfold trade
  rw [fill_stored htaker hne hmaker, htakerId, hpending]
  congr 1
  unfold takerTransfer signedFillQuantity
  cases htside : taker.side <;> cases hmside : maker.side <;> rw [htside, hmside] at hside
  · cases hside
  · exact Transfer.update_source_target ⟨maker.key, taker.key, t.quantity.lots⟩ h.signed
  · exact Transfer.update_target_source ⟨taker.key, maker.key, t.quantity.lots⟩ h.signed
  · cases hside

end Holdings

/-- The position that a stored order trades for. -/
def storedKey (store : OrderMetadataStore) (orderId : OrderId) : PositionRiskKey :=
  match store[orderId]? with
  | none => ⟨0, 0⟩
  | some metadata => metadata.key

theorem storedKey_settle (h : Holdings) (events : List EngineEvent) (orderId : OrderId) :
    storedKey (h.settle events).store orderId = storedKey h.store orderId := by
  have hrel := (Holdings.continues_settle h events).store orderId
  unfold storedKey
  generalize (h.settle events).store[orderId]? = later at hrel ⊢
  generalize h.store[orderId]? = before at hrel ⊢
  cases hrel with
  | none => rfl
  | some hcontinues =>
    dsimp only
    rw [hcontinues]
    rfl

/-- The transfers of trades of one order, its makers as the store has them. -/
def transfersOf (side : AdapterSide) (key : PositionRiskKey) (store : OrderMetadataStore)
    (trades : List TradeExecuted) : List (Transfer PositionRiskKey) :=
  trades.map fun t => takerTransfer side key (storedKey store t.makerOrderId) t.quantity.lots

theorem transfersOf_settle (side : AdapterSide) (key : PositionRiskKey) (h : Holdings)
    (events : List EngineEvent) (trades : List TradeExecuted) :
    transfersOf side key (h.settle events).store trades = transfersOf side key h.store trades := by
  unfold transfersOf
  simp only [storedKey_settle]

/-- The ids of the orders whose metadata the cleanup takes out. -/
def closedIds (events : List EngineEvent) : List OrderId :=
  events.filterMap fun
    | .orderCancelled e => some e.orderId
    | .orderFilled e => some e.orderId
    | _ => none

@[simp] theorem closedIds_append (xs ys : List EngineEvent) :
    closedIds (xs ++ ys) = closedIds xs ++ closedIds ys := List.filterMap_append

namespace QueueBook
variable {symbolId : SymbolId} {slack : ℤ} {side : AdapterSide} {key : PositionRiskKey}
  {s s' : MatchState} {events : List EngineEvent} {hold : Holdings}

/-- In the middle of a match the holdings describe the book and the incoming order. -/
structure Described (symbolId : SymbolId) (slack : ℤ) (side : AdapterSide) (key : PositionRiskKey)
    (s : MatchState) (h : Holdings) : Prop where
  resting : ∀ r ∈ s.book.activeOrders, ∃ m, h.store[r.orderId]? = some m ∧
    m.Describes symbolId 0 r
  pending : ∃ p, h.pending = some p ∧ p.Describes symbolId slack s.incoming ∧ p.side = side ∧
    p.key = key
  fresh : ∀ r ∈ s.book.activeOrders, r.orderId ≠ s.incoming.orderId

/-- The events of a part of a match, from the holdings before it to those after. -/
structure Matched (symbolId : SymbolId) (side : AdapterSide) (key : PositionRiskKey)
    (s : MatchState) (events : List EngineEvent) (s' : MatchState) (h : Holdings)
    (ts : List (Transfer PositionRiskKey)) : Prop where
  signed : (h.settle events).signed = Transfer.settle h.signed ts
  taken : TakenBy side key ts
  within : WithinMarket symbolId ts
  trades : ts = transfersOf side key h.store (tradesOf events)
  total : Transfer.total ts = s.incoming.remainingQuantity.lots - s'.incoming.remainingQuantity.lots
  marketed : 0 < symbolId → ∀ e ∈ events, e.Marketed
  parties : ∀ t ∈ tradesOf events, t.makerOrderId ∈ s.book.activeOrders.map (·.orderId) ∧
    t.takerOrderId = s.incoming.orderId
  closing : ∀ id ∈ closedIds events, id = s.incoming.orderId ∨
    id ∈ s.book.activeOrders.map (·.orderId)
  closed : ∀ r ∈ s'.book.activeOrders, r.orderId ∉ closedIds events
  incoming : s.incoming.orderId ∈ closedIds events → s'.incoming.isFilled = true

theorem settle_fillEvents (h : Holdings) (symbolId : SymbolId) (g : SequenceGenerator)
    (maker incoming : OrderSnapshot) (f total : Quantity) : h.settle (fillEvents g symbolId maker incoming f total).1 =
      h.trade ⟨g.nextEventId, g.nextSequence, g.nextTradeId, symbolId, maker.orderId,
        incoming.orderId, maker.price, f⟩ := by
  have hstatus : ∀ (h : Holdings) (g : SequenceGenerator) (o : OrderSnapshot),
      h.event (fillStatusEvent g o) = h := by
    intro h g o
    unfold fillStatusEvent
    split_ifs <;> rfl
  unfold fillEvents
  simp only [Holdings.settle_cons, Holdings.settle_nil, hstatus]
  rfl

theorem mem_closedIds_fillEvents (symbolId : SymbolId) (g : SequenceGenerator)
    (maker incoming : OrderSnapshot) (f total : Quantity) (id : OrderId) :
    id ∈ closedIds (fillEvents g symbolId maker incoming f total).1 ↔
      (maker.reduce f).isFilled = true ∧ id = maker.orderId ∨
        (incoming.reduce f).isFilled = true ∧ id = incoming.orderId := by
  have hstatus : ∀ (g : SequenceGenerator) (o : OrderSnapshot),
      id ∈ closedIds [fillStatusEvent g o] ↔ o.isFilled = true ∧ id = o.orderId := by
    intro g o
    unfold fillStatusEvent
    split_ifs with hfilled <;> simp [closedIds, hfilled]
  have hsplit : ∀ a b c d : EngineEvent, closedIds [a, b, c, d] =
      closedIds [a] ++ closedIds [b] ++ closedIds [c] ++ closedIds [d] := by
    intro a b c d
    simp only [← closedIds_append, List.cons_append, List.nil_append]
  unfold fillEvents
  rw [hsplit]
  simp only [List.mem_append, hstatus]
  simp only [closedIds, List.filterMap_cons, List.filterMap_nil, List.not_mem_nil, false_or,
    or_false]
  rfl

theorem marketed_fillEvents (hpositive : 0 < symbolId) (g : SequenceGenerator)
    (maker incoming : OrderSnapshot) (f total : Quantity) :
    ∀ e ∈ (fillEvents g symbolId maker incoming f total).1, e.Marketed := by
  have hstatus : ∀ (g : SequenceGenerator) (o : OrderSnapshot), (fillStatusEvent g o).Marketed := by
    intro g o
    unfold fillStatusEvent
    split_ifs <;> trivial
  unfold fillEvents
  simp only [List.mem_cons, List.not_mem_nil, or_false, forall_eq_or_imp, forall_eq]
  exact ⟨hpositive, hstatus _ _, hstatus _ _, hpositive⟩

theorem Described.matchStep (h : Described symbolId slack side key s hold) (hslack : 0 ≤ slack)
    (hok : s.book.Ok) (hsymbol : s.book.symbolConfig.symbolId = symbolId)
    (hstep : matchStep s = some (events, s')) :
    Described symbolId slack side key s' (hold.settle events) ∧
      ∃ t, Matched symbolId side key s events s' hold [t] := by
  obtain ⟨maker, others, total, hbefore, hmakerSide, hafter, hopen, hevents, hinc⟩ :=
    matchStep_active hstep
  have hmakerMem := hbefore.mem_iff.2 List.mem_cons_self
  have hids := (hbefore.map (·.orderId)).nodup_iff.1 hok.ids
  rw [List.map_cons, List.nodup_cons] at hids
  have hothers : ∀ r ∈ others, r ∈ s.book.activeOrders ∧ r.orderId ≠ maker.orderId := fun r hr =>
    ⟨hbefore.mem_iff.2 (List.mem_cons_of_mem _ hr),
      fun heq => hids.1 (heq ▸ List.mem_map_of_mem hr)⟩
  obtain ⟨m, hm, hmaker⟩ := h.resting maker hmakerMem
  obtain ⟨p, hp, htaker, hside, hkey⟩ := h.pending
  have hne := h.fresh maker hmakerMem
  have hlemaker := Quantity.min_lots_le_right s.incoming.remainingQuantity maker.remainingQuantity
  have hleincoming := Quantity.min_lots_le_left s.incoming.remainingQuantity
    maker.remainingQuantity
  have hopposite : toCoreSide m.side = (toCoreSide p.side).opposite := by
    rw [hmaker.side, htaker.side]
    exact hok.sided _ maker hmakerSide
  generalize s.incoming.remainingQuantity.min maker.remainingQuantity = f at *
  rw [hsymbol] at hevents
  have hfirst := congrArg Prod.fst hevents
  dsimp only at hfirst
  have htrade := hold.trade_eq ⟨s.sequenceGenerator.nextEventId, s.sequenceGenerator.nextSequence,
    s.sequenceGenerator.nextTradeId, symbolId, maker.orderId, s.incoming.orderId, maker.price, f⟩
    hp htaker.orderId.symm (fun heq => hne (heq.symm.trans htaker.orderId)) hm hopposite
  rw [← settle_fillEvents hold symbolId s.sequenceGenerator maker s.incoming f total, hfirst] at htrade
  dsimp only at htrade
  have hclosed := mem_closedIds_fillEvents symbolId s.sequenceGenerator maker s.incoming f total
  have htrades := tradesOf_fillEvents s.sequenceGenerator symbolId maker s.incoming f total
  rw [hfirst] at hclosed htrades
  have hactive : ∀ r ∈ s'.book.activeOrders,
      ((maker.reduce f).isFilled = false ∧ r = maker.reduce f) ∨ r ∈ others := by
    intro r hr
    rcases List.mem_append.1 (hafter.mem_iff.1 hr) with hr | hr
    · cases hfilled : (maker.reduce f).isFilled <;> rw [hfilled] at hr
      · exact Or.inl ⟨rfl, List.mem_singleton.1 hr⟩
      · cases hr
    · exact Or.inr hr
  have hmarket : p.key.TradesIn symbolId ∧ m.key.TradesIn symbolId := ⟨htaker.tradesIn, hmaker.tradesIn⟩
  have hpending : (hold.settle events).pending = some (allocateFillMargin p f.lots maker.price.ticks) := by
    rw [htrade]
  refine ⟨⟨fun r hr => ?_, ⟨_, hpending, ?_, hside, hkey⟩, fun r hr => ?_⟩,
    takerTransfer p.side p.key m.key f.lots,
    ⟨?_, ?_, ?_, ?_, ?_, fun hpositive => ?_, fun t ht => ?_, fun id hid => ?_, fun r hr hmem => ?_,
      fun hmem => ?_⟩⟩
  · rw [htrade]
    dsimp only
    rcases hactive r hr with ⟨-, rfl⟩ | hr
    · exact ⟨_, Std.ExtTreeMap.getElem?_insert_self, hmaker.fill (le_refl 0) hlemaker _⟩
    · obtain ⟨hr, hid⟩ := hothers r hr
      rw [Std.ExtTreeMap.getElem?_insert, if_neg fun heq => hid
        (Std.LawfulEqCmp.compare_eq_iff_eq.1 heq).symm]
      exact h.resting r hr
  · rw [hinc]
    exact htaker.fill hslack hleincoming _
  · rw [hinc]
    rcases hactive r hr with ⟨-, rfl⟩ | hr
    · exact hne
    · exact h.fresh r (hothers r hr).1
  · rw [htrade]
    rfl
  · rw [← hside, ← hkey]
    exact takenBy_takerTransfer (Int.natCast_nonneg _)
  · exact withinMarket_takerTransfer hmarket.1 hmarket.2
  · rw [htrades, ← hside, ← hkey]
    unfold transfersOf storedKey
    rw [List.map_singleton, hm]
  · rw [hinc, reduce_lots hleincoming, Nat.cast_sub hleincoming, Transfer.total_cons,
      amount_takerTransfer, Transfer.total_nil]
    omega
  · rw [← hfirst]
    exact marketed_fillEvents hpositive _ _ _ _ _
  · rw [htrades, List.mem_singleton] at ht
    rw [ht]
    exact ⟨List.mem_map_of_mem hmakerMem, rfl⟩
  · rcases (hclosed _).1 hid with ⟨-, rfl⟩ | ⟨-, rfl⟩
    · exact Or.inr (List.mem_map_of_mem hmakerMem)
    · exact Or.inl rfl
  · rcases hactive r hr with ⟨hopenMaker, rfl⟩ | hr
    · rcases (hclosed _).1 hmem with ⟨hfilled, -⟩ | ⟨-, hid⟩
      · rw [hopenMaker] at hfilled
        cases hfilled
      · exact hne hid
    · obtain ⟨hr, hid⟩ := hothers r hr
      rcases (hclosed _).1 hmem with ⟨-, hmakerId⟩ | ⟨-, hincomingId⟩
      · exact hid hmakerId
      · exact h.fresh r hr hincomingId
  · rw [hinc]
    rcases (hclosed _).1 hmem with ⟨-, hid⟩ | ⟨hfilled, -⟩
    · exact absurd hid.symm hne
    · exact hfilled

theorem Matched.refl (s : MatchState) (hold : Holdings) : Matched symbolId side key s [] s hold [] where
  signed := rfl
  taken := TakenBy.nil
  within _ h := absurd h List.not_mem_nil
  trades := rfl
  total := (sub_self _).symm
  marketed _ _ h := absurd h List.not_mem_nil
  parties _ h := absurd h List.not_mem_nil
  closing _ h := absurd h List.not_mem_nil
  closed _ _ := List.not_mem_nil
  incoming h := absurd h List.not_mem_nil

theorem TakenBy.total_nonneg {ts : List (Transfer PositionRiskKey)} (h : TakenBy side key ts) :
    0 ≤ Transfer.total ts := by
  cases side with
  | long =>
    rw [← Transfer.total_swap]
    exact (Transfer.Into.swap h).total_nonneg
  | short => exact Transfer.From.total_nonneg h

theorem Matched.append {s'' : MatchState} {more : List EngineEvent}
    {ts us : List (Transfer PositionRiskKey)} (h : Matched symbolId side key s events s' hold ts)
    (h' : Matched symbolId side key s' more s'' (hold.settle events) us)
    (hbefore : ∀ id ∈ s'.book.activeOrders.map (·.orderId), id ∈ s.book.activeOrders.map (·.orderId))
    (hids : ∀ id ∈ s''.book.activeOrders.map (·.orderId), id ∈ s'.book.activeOrders.map (·.orderId))
    (hinc : s'.incoming.orderId = s.incoming.orderId) :
    Matched symbolId side key s (events ++ more) s'' hold (ts ++ us) where
  signed := by rw [Holdings.settle_append, h'.signed, h.signed, Transfer.settle_append]
  taken := h.taken.append h'.taken
  within := h.within.append h'.within
  trades := by
    have hlater := h'.trades
    rw [transfersOf_settle] at hlater
    rw [h.trades, hlater, tradesOf_append]
    exact List.map_append.symm
  total := by
    rw [Transfer.total_append, h.total, h'.total]
    omega
  marketed hpositive e he :=
    (List.mem_append.1 he).elim (h.marketed hpositive e) (h'.marketed hpositive e)
  parties t ht := by
    rw [tradesOf_append] at ht
    rcases List.mem_append.1 ht with ht | ht
    · exact h.parties t ht
    · obtain ⟨hmaker, htaker⟩ := h'.parties t ht
      exact ⟨hbefore _ hmaker, htaker.trans hinc⟩
  closing id hid := by
    rw [closedIds_append] at hid
    rcases List.mem_append.1 hid with hid | hid
    · exact h.closing id hid
    · exact (h'.closing id hid).imp (·.trans hinc) (hbefore id)
  closed r hr hmem := by
    rw [closedIds_append] at hmem
    rcases List.mem_append.1 hmem with hmem | hmem
    · obtain ⟨r', hr', hid⟩ := List.mem_map.1 (hids _ (List.mem_map_of_mem hr))
      exact h.closed r' hr' (hid ▸ hmem)
    · exact h'.closed r hr hmem
  incoming hmem := by
    rw [closedIds_append] at hmem
    rcases List.mem_append.1 hmem with hmem | hmem
    · have hfilled := isFilled_iff.1 (h.incoming hmem)
      have hnonneg := TakenBy.total_nonneg h'.taken
      have htotal := h'.total
      rw [isFilled_iff]
      omega
    · exact h'.incoming (hinc ▸ hmem)

theorem matchStep_symbolConfig (hstep : matchStep s = some (events, s')) :
    s'.book.symbolConfig = s.book.symbolConfig := by
  obtain ⟨_, _, _, _, _, _, _, _, _, hbook, _⟩ := matchStep_cases hstep
  rw [hbook, putFront]
  cases s.incoming.side.opposite <;> rfl

/-- Matching to the end. -/
theorem Described.matchLoop (n : ℕ) (h : Described symbolId slack side key s hold)
    (hslack : 0 ≤ slack) (hok : s.book.Ok) (hsymbol : s.book.symbolConfig.symbolId = symbolId) :
    Described symbolId slack side key (matchLoop n s).2 (hold.settle (matchLoop n s).1) ∧
      ∃ ts, Matched symbolId side key s (matchLoop n s).1 (matchLoop n s).2 hold ts := by
  induction n generalizing s hold with
  | zero => exact ⟨h, [], .refl s hold⟩
  | succ n ih =>
    cases hs : QueueBook.matchStep s with
    | none =>
      rw [matchLoop_of_none hs]
      exact ⟨h, [], .refl s hold⟩
    | some r =>
      obtain ⟨events, t⟩ := r
      obtain ⟨hnext, transfer, hfirst⟩ := h.matchStep hslack hok hsymbol hs
      obtain ⟨_, _, _, -, -, -, -, -, hinc⟩ := matchStep_active hs
      have hconfig := congrArg SymbolConfig.symbolId (matchStep_symbolConfig hs)
      obtain ⟨hend, ts, hrest⟩ := ih hnext (hok.matchStep hs) (hconfig.trans hsymbol)
      rw [matchLoop_of_some hs]
      refine ⟨?_, transfer :: ts, hfirst.append hrest
        (matchStep_subset (·.orderId) (fun _ _ => rfl) hs)
        (matchLoop_subset (·.orderId) (fun _ _ => rfl) n t) (by rw [hinc]; rfl)⟩
      rw [Holdings.settle_append]
      exact hend

/-- What an accepted order does to its book and to the holdings. -/
structure PlacedOn (symbolId : SymbolId) (slack : ℤ) (side : AdapterSide) (key : PositionRiskKey)
    (command : PlaceOrderCommand) (book book' : QueueBook) (events : List EngineEvent)
    (hold : Holdings) (ts : List (Transfer PositionRiskKey)) : Prop where
  accepted : hasEventOrderAccepted events = true
  signed : (hold.settle events).signed = Transfer.settle hold.signed ts
  taken : TakenBy side key ts
  within : WithinMarket symbolId ts
  trades : ts = transfersOf side key hold.store (tradesOf events)
  fits : Transfer.total ts ≤ command.quantity.lots
  pending : ∃ p, (hold.settle events).pending = some p ∧ p.orderId = command.orderId ∧
    p.remainingQuantity = command.quantity.lots + slack - Transfer.total ts ∧
    ∀ r ∈ book'.activeOrders, r.orderId = command.orderId → p.Describes symbolId slack r
  others : ∀ r ∈ book'.activeOrders, r.orderId ≠ command.orderId →
    ∃ m, (hold.settle events).store[r.orderId]? = some m ∧ m.Describes symbolId 0 r
  rests : ∀ r ∈ book'.activeOrders, r.orderId = command.orderId → canRest command = true
  kept : ∀ r ∈ book'.activeOrders, r.orderId = command.orderId ∨
    r.orderId ∈ book.activeOrders.map (·.orderId)
  marketed : ∀ e ∈ events, e.Marketed
  parties : ∀ t ∈ tradesOf events, t.makerOrderId ∈ book.activeOrders.map (·.orderId) ∧
    t.takerOrderId = command.orderId
  closing : ∀ id ∈ closedIds events, id = command.orderId ∨
    id ∈ book.activeOrders.map (·.orderId)
  closed : ∀ r ∈ book'.activeOrders, r.orderId ∉ closedIds events

theorem placedOn_processPlace {book : QueueBook} (hok : book.Ok)
    (hsymbol : book.symbolConfig.symbolId = symbolId) (hpositive : 0 < symbolId) (hslack : 0 ≤ slack)
    (hresting : ∀ r ∈ book.activeOrders, ∃ m, hold.store[r.orderId]? = some m ∧
      m.Describes symbolId 0 r) {command : PlaceOrderCommand} (hcommand : command.symbolId = symbolId)
    {g : SequenceGenerator}
    (hpending : ∃ p, hold.pending = some p ∧
      p.Describes symbolId slack (incomingOrder command g.nextSequence) ∧ p.side = side ∧
        p.key = key) :
    (∃ e, (book.processPlace command g).1 = [.orderRejected e] ∧
      (book.processPlace command g).2.1 = book) ∨
    ∃ ts, PlacedOn symbolId slack side key command book (book.processPlace command g).2.1
      (book.processPlace command g).1 hold ts := by
  unfold processPlace
  cases hr : book.placeRejection command with
  | some reason => exact Or.inl ⟨_, rfl, rfl⟩
  | none =>
    right
    have hfresh := (placeRejection_fresh hr).1
    have hstart : Described symbolId slack side key
        ⟨book, incomingOrder command g.nextSequence, g.nextEvent⟩ hold :=
      ⟨hresting, hpending, hfresh⟩
    obtain ⟨hend, ts, hmatched⟩ := hstart.matchLoop
      ((ordersOf (book.levels command.side.opposite)).length + 1) hslack hok hsymbol
    obtain ⟨rem, hinc⟩ := matchLoop_incoming
      ((ordersOf (book.levels command.side.opposite)).length + 1)
      ⟨book, incomingOrder command g.nextSequence, g.nextEvent⟩
    have hkept := matchLoop_subset (·.orderId) (fun _ _ => rfl)
      ((ordersOf (book.levels command.side.opposite)).length + 1)
      ⟨book, incomingOrder command g.nextSequence, g.nextEvent⟩
    unfold matchIncomingOrder
    dsimp only
    generalize hm : QueueBook.matchLoop _ _ = m at hend hmatched hinc hkept
    have hm' : QueueBook.matchLoop ((ordersOf (book.levels (incomingOrder command
        g.nextSequence).side.opposite)).length + 1)
        ⟨book, incomingOrder command g.nextSequence, g.nextEvent⟩ = m := hm
    rw [hm']
    obtain ⟨matchEvents, t⟩ := m
    dsimp only at hend hmatched hinc hkept ⊢
    obtain ⟨p, hp, hdescribes, -, -⟩ := hend.pending
    have hincId : t.incoming.orderId = command.orderId := by rw [hinc]; rfl
    have htotal : Transfer.total ts =
      command.quantity.lots - t.incoming.remainingQuantity.lots := hmatched.total
    -- the acceptance and the report of the rested order change nothing of this
    have hall : ∀ (book' : QueueBook) (events : List EngineEvent),
        hold.settle events = hold.settle matchEvents → closedIds events = closedIds matchEvents →
        tradesOf events = tradesOf matchEvents → hasEventOrderAccepted events = true →
        (∀ e ∈ events, e.Marketed) →
        (∀ r ∈ book'.activeOrders, r ∈ t.book.activeOrders ∨ canRest command = true ∧
          t.incoming.isFilled = false ∧ r = { t.incoming with price := command.price }) →
        PlacedOn symbolId slack side key command book book' events hold ts := by
      intro book' events hsettle hclosed htrades haccepted hmarketed hactive
      refine ⟨haccepted, hsettle ▸ hmatched.signed, hmatched.taken, hmatched.within,
        htrades ▸ hmatched.trades, by omega, ⟨p, hsettle ▸ hp, hdescribes.orderId.trans hincId, ?_,
          fun r hr hid => ?_⟩, fun r hr hid => ?_, fun r hr hid => ?_, fun r hr => ?_, hmarketed,
        htrades ▸ hmatched.parties, hclosed ▸ hmatched.closing, fun r hr hmem => ?_⟩
      · have hleft : (t.incoming.remainingQuantity.lots : ℤ) + slack =
            command.quantity.lots + slack - Transfer.total ts := by omega
        exact hdescribes.remaining.trans hleft
      · rcases hactive r hr with hr | ⟨-, -, rfl⟩
        · exact absurd (hid.trans hincId.symm) (hend.fresh r hr)
        · exact ⟨hdescribes.orderId, hdescribes.market, hdescribes.user, hdescribes.side,
            hdescribes.remaining⟩
      · rw [hsettle]
        rcases hactive r hr with hr | ⟨-, -, rfl⟩
        · exact hend.resting r hr
        · exact absurd hincId hid
      · rcases hactive r hr with hr | ⟨hrest, -⟩
        · exact absurd (hid.trans hincId.symm) (hend.fresh r hr)
        · exact hrest
      · rcases hactive r hr with hr | ⟨-, -, rfl⟩
        · exact Or.inr (hkept _ (List.mem_map_of_mem hr))
        · exact Or.inl hincId
      · rw [hclosed] at hmem
        rcases hactive r hr with hr | ⟨-, hopen, rfl⟩
        · exact hmatched.closed r hr hmem
        · have hmem' : command.orderId ∈ closedIds matchEvents := hincId ▸ hmem
          rw [hmatched.incoming hmem'] at hopen
          cases hopen
    have hmarket : 0 < command.symbolId := hcommand ▸ hpositive
    have hfirst : ∀ e ∈ acceptedEvent command g :: matchEvents, e.Marketed := by
      intro e he
      rcases List.mem_cons.1 he with rfl | he
      · exact hmarket
      · exact hmatched.marketed hpositive e he
    refine ⟨ts, ?_⟩
    split_ifs with hrest
    · rw [Bool.and_eq_true, Bool.not_eq_true'] at hrest
      refine hall _ _ ?_ ?_ ?_ rfl (fun e he => ?_) fun r hr => ?_
      · exact Holdings.settle_append _ _
      · exact (closedIds_append _ _).trans (List.append_nil _)
      · exact (tradesOf_append _ _).trans (List.append_nil _)
      · rcases List.mem_append.1 he with he | he
        · exact hfirst e he
        · rw [List.mem_singleton.1 he]
          exact hmarket
      · rcases List.mem_cons.1 ((restOrder_perm _ _).mem_iff.1 hr) with rfl | hr
        · exact Or.inr ⟨hrest.1, hrest.2, rfl⟩
        · exact Or.inl hr
    · exact hall _ _ rfl rfl rfl rfl hfirst fun r hr => Or.inl hr

/-- A cancel takes one order out of the book, or none. -/
theorem processCancel_released {book : QueueBook} (hok : book.Ok) (command : CancelOrderCommand)
    (g : SequenceGenerator) :
    (∃ e, (book.processCancel command g).1 = [.orderRejected e] ∧
      (book.processCancel command g).2.1 = book) ∨
    ∃ o ∈ book.activeOrders, ∃ c d, c.orderId = o.orderId ∧
      (book.processCancel command g).1 = [.orderCancelled c, .orderBookDelta d] ∧
      d.symbolId = book.symbolConfig.symbolId ∧
      (book.processCancel command g).2.1.activeOrders.Perm
        (book.activeOrders.filter fun r => decide (r.orderId ≠ o.orderId)) := by
  unfold processCancel
  dsimp only
  cases ho : (book.lookup (book.cancelTarget command)).filter
      fun o => o.userId = command.userId with
  | none => exact Or.inl ⟨_, rfl, rfl⟩
  | some o =>
    obtain ⟨hmem, -⟩ := hok.lookup_eq_some.1 (Option.filter_eq_some_iff.1 ho).1
    exact Or.inr ⟨o, hmem, _, _, rfl, rfl, rfl, hok.releaseOrder_perm hmem⟩

end QueueBook
end PerpexEngine
