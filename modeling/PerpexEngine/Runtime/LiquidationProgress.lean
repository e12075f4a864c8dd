import PerpexEngine.Core.Admission
import PerpexEngine.Runtime.Failures
import PerpexEngine.Runtime.LiquidationBounds
import PerpexEngine.Runtime.LiquidationOrder
import PerpexEngine.Runtime.RestingOrders

/-! When a liquidation makes progress: the core lets its order in, or an opposing position can be
deleveraged. -/
namespace PerpexEngine
open Program

theorem absQuantity_lt_iff {x y : ℤ} (h : TowardZero x y) :
    absQuantity y < absQuantity x ↔ y ≠ x := by
  unfold TowardZero at h
  unfold absQuantity
  split_ifs <;> omega

section FirstFill
variable {context : EngineEventTranslationContext} {markPrices : MarkPrices}
  {input : LiquidatePositionInput} {price : AdapterPrice} {side : AdapterSide}
  {key : PositionRiskKey} {state : TranslationState} {p : OrderMetadata}

/-- The position has moved if there was an order id, and nothing has if there was none. -/
def MovesIf (orderId : Option OrderId) (key : PositionRiskKey)
    (before after : PositionRiskKey → ℤ) : Prop :=
  after key ≠ before key ↔ orderId.isSome = true

/-- Further fills take the position further. -/
theorem Filled.moved {fills : List (AdapterUserId × ℤ)} {mid after : TranslationState}
    {signed : PositionRiskKey → ℤ} {candidates : List AdlCandidate} {remaining lots : ℤ}
    {userId : AdapterUserId} (h : Filled side key mid fills after)
    (hfaces : ∀ c ∈ candidates, c.Faces side key signed)
    (hstarts : fills <+: adlFills remaining candidates) (hlots : 0 < lots)
    (huser : userId ≠ key.userId)
    (hfirst : mid.ledger.signed =
      (takerTransfer side key ⟨userId, key.marketId⟩ lots).apply state.ledger.signed) :
    after.ledger.signed key ≠ state.ledger.signed key := by
  have hfill := fun fill (hfill : fill ∈ fills) =>
    mem_adlFills (fun c hc => (hfaces c hc).available) (hstarts.subset hfill)
  have husers : ∀ fill ∈ fills, fill.1 ≠ key.userId := by
    intro fill hf
    obtain ⟨c, hc, hcuser, -⟩ := hfill fill hf
    exact hcuser ▸ (hfaces c hc).user
  have hsum : 0 ≤ (fills.map (·.2)).sum := by
    apply List.sum_nonneg
    intro amount hamount
    obtain ⟨fill, hf, rfl⟩ := List.mem_map.1 hamount
    obtain ⟨-, -, -, hnonneg, -⟩ := hfill fill hf
    exact hnonneg
  have hall : after.ledger.signed = Transfer.settle state.ledger.signed
      (adlTransfers side key ((userId, lots) :: fills)) := by
    rw [h.signed, hfirst]
    rfl
  rw [hall, settle_adlTransfers_key fun fill hf => ?_]
  · rw [List.map_cons, List.sum_cons]
    unfold sideLots
    cases side <;> dsimp only <;> omega
  · rcases List.mem_cons.1 hf with rfl | hf
    · exact huser
    · exact husers fill hf

/-- The fills of a liquidation move its position exactly if the first of them finds an order id. -/
theorem appendAdlFillsFrom_moves (hkind : context.commandKind = .liquidatePosition)
    (hmarket : 0 < input.marketId ∧ input.marketId ≤ 2 ^ 32 - 1)
    (hkey : key.marketId = input.marketId) {c : AdlCandidate} {candidates : List AdlCandidate}
    {signed : PositionRiskKey → ℤ} (hfaces : ∀ d ∈ c :: candidates, d.Faces side key signed)
    {remaining : ℤ} (hremaining : 0 < remaining ∧ remaining < 2 ^ 64) (rank : ℤ)
    (hpending : state.pending = some p) (hside : p.side = side) (hpkey : p.key = key) :
    Ensures (appendAdlFillsFrom context markPrices input price (c :: candidates) remaining rank)
      state (fun _ after => MovesIf (adlOrderIdOf input c rank p.orderId state.ledger.metadataStore)
        key state.ledger.signed after.ledger.signed)
      fun after => MovesIf (adlOrderIdOf input c rank p.orderId state.ledger.metadataStore)
        key state.ledger.signed after.ledger.signed := by
  subst hside hpkey
  have hfirst := hfaces c List.mem_cons_self
  have hrest := fun d hd => hfaces d (List.mem_cons_of_mem _ hd)
  have hamount : 0 < min remaining c.availableQuantity := lt_min hremaining.1 hfirst.available
  have hlots : 0 < ((Quantity.ofLots (min remaining c.availableQuantity).toNat).lots : ℤ) := by
    have hless : (min remaining c.availableQuantity).toNat < 2 ^ 64 := by
      have hle := min_le_left remaining c.availableQuantity
      omega
    have hsame : (Quantity.ofLots (min remaining c.availableQuantity).toNat).lots =
        (min remaining c.availableQuantity).toNat := Nat.mod_eq_of_lt hless
    rw [hsame]
    omega
  unfold appendAdlFillsFrom
  rw [if_neg (not_le.2 hremaining.1)]
  dsimp only
  rw [if_neg (not_le.2 hamount), ensures_bind]
  refine (appendAdlFill_transfers hkind hmarket hpending hkey hfirst.orderSide).mono
    (fun r mid hfill => ?_) fun mid hfails => ?_
  · obtain ⟨hsome, hstore, ⟨p', hp', hcontinues⟩, hsigned, -⟩ := hfill
    have hsame : p'.orderId = p.orderId ∧ p'.side = p.side ∧ p'.key = p.key := by
      rw [hcontinues]
      exact ⟨rfl, rfl, rfl⟩
    rw [← hkey] at hsigned
    have hmoves : ∀ (fills : List (AdapterUserId × ℤ)) (after : TranslationState),
        fills <+: adlFills (remaining - min remaining c.availableQuantity) candidates →
        Filled p.side p.key mid fills after →
        MovesIf (adlOrderIdOf input c rank p.orderId state.ledger.metadataStore) p.key
          state.ledger.signed after.ledger.signed := fun fills after hstarts hfilled =>
      iff_of_true (hfilled.moved hrest hstarts hlots hfirst.user hsigned) hsome
    rw [ensures_bind]
    refine (appendAdlFillsFrom_fills hkind hmarket hkey candidates hrest _ (rank + 1) mid
      ⟨p', hp', hsame⟩).mono (fun _ after h => ?_) fun after h => ?_
    · exact hmoves _ after List.prefix_rfl h.2
    · obtain ⟨⟨fills, hstarts, hfilled⟩, -⟩ := h
      exact hmoves fills after hstarts hfilled
  · unfold MovesIf
    rw [hfails.1, hfails.2]
    simp

theorem appendAdlFills_moves (hkind : context.commandKind = .liquidatePosition)
    (hmarket : 0 < input.marketId ∧ input.marketId ≤ 2 ^ 32 - 1)
    {position : IsolatedPositionState} {c : AdlCandidate} {candidates : List AdlCandidate}
    (hposition : state.ledger.positions[input.key]? = some position)
    (hopen : position.signedQuantity ≠ 0)
    (hcandidates : adlCandidatesFor input position state.ledger = c :: candidates)
    (hfacing : Facing side position.signedQuantity) {remaining : ℤ}
    (hremaining : 0 < remaining ∧ remaining < 2 ^ 64) (hpending : state.pending = some p)
    (hside : p.side = side) (hpkey : p.key = input.key) :
    Ensures (appendAdlFills context markPrices input remaining price) state
      (fun _ after => MovesIf (adlOrderIdOf input c 1 p.orderId state.ledger.metadataStore)
        input.key state.ledger.signed after.ledger.signed)
      fun after => MovesIf (adlOrderIdOf input c 1 p.orderId state.ledger.metadataStore)
        input.key state.ledger.signed after.ledger.signed := by
  have hfaces := fun d => @faces_adlCandidatesFor input state.ledger position side hfacing d
  unfold appendAdlFills
  rw [ensures_bind, ensures_get]
  unfold LiquidatePositionInput.key at hposition
  rw [hposition]
  dsimp only
  rw [if_neg (not_or.2 ⟨hopen, not_le.2 hremaining.1⟩), hcandidates]
  rw [hcandidates] at hfaces
  exact appendAdlFillsFrom_moves hkind hmarket rfl hfaces hremaining 1 hpending hside hpkey

end FirstFill

section Rejected
variable {rt : EngineRuntime} {record : InboundEngineRecord} {input : LiquidatePositionInput}
  {position : IsolatedPositionState} {order : PlaceOrderInput} {orderId : AdapterOrderId}
  {price : AdapterPrice} {c : AdlCandidate} {candidates : List AdlCandidate}

/-- The candidates are those of the positions and risk states. -/
theorem adlCandidatesFor_congr {ledger ledger' : Ledger}
    (hpositions : ledger'.positions = ledger.positions)
    (hrisk : ledger'.riskStates = ledger.riskStates) :
    adlCandidatesFor input position ledger' = adlCandidatesFor input position ledger := by
  unfold adlCandidatesFor
  rw [hpositions, hrisk]

/-- For a liquidation the rejection of its order is a reply. -/
theorem ensures_translate_rejected {context : EngineEventTranslationContext}
    {markPrices : MarkPrices} {state : TranslationState} (e : OrderRejected)
    (hkind : context.commandKind = .liquidatePosition) :
    Ensures (translate context markPrices [.orderRejected e]) state
      (fun _ after => after = state) fun _ => False := by
  unfold translate
  unfold translateEvents translateEvent appendOrderRejected
  rw [ensures_bind, ensures_bind, ensures_get]
  dsimp only
  split
  · rfl
  · rw [if_pos (Or.inl (by rw [hkind]; decide))]
    rfl

/-- The events that frame a liquidation draw a number, and no more. -/
theorem makeLiquidationEvent_ledger (hmarket : 0 < input.marketId) {payload : EventPayload} :
    Ensures (makeLiquidationEvent record input payload) rt
      (fun _ after => after.ledger = rt.ledger.afterEvent input.marketId) fun _ => False := by
  unfold makeLiquidationEvent withLedger makeRuntimeMarketEvent
  rw [ensures_zoom, ensures_map]
  refine (ensures_makeMarketEvent _ _ _ _ _).mono ?_ fun _ h => absurd h.1 (not_le.2 hmarket)
  rintro e _ ⟨-, -, -, rfl⟩
  rfl

theorem liquidateAgainstBook_rejected {context : EngineEventTranslationContext}
    (hkind : context.commandKind = .liquidatePosition) (metadata : OrderMetadata)
    (e : OrderRejected) :
    Ensures (liquidateAgainstBook record input context metadata (some [.orderRejected e])) rt
      (fun r after => after = rt ∧ r.2 = some metadata) fun _ => False := by
  unfold liquidateAgainstBook withLedger withPending
  rw [ensures_bind, ensures_get]
  dsimp only
  rw [ensures_bind, ensures_zoom, ensures_zoom, ensures_bind]
  refine (ensures_translate_rejected e hkind).mono ?_ fun _ h => h.elim
  rintro translated _ rfl
  exact ⟨rfl, rfl⟩

/-- A liquidation whose order was rejected goes on with its ADL fills. -/
theorem runLiquidation_rejected_moves (hm : order.Mappable)
    (horder : LiquidationOrder input rt.ledger.signed order)
    (hposition : rt.ledger.positions[input.key]? = some position)
    (hcandidates : adlCandidatesFor input position rt.ledger = c :: candidates)
    (hfull : order.quantity = absQuantity position.signedQuantity)
    (hsize : absQuantity position.signedQuantity < 2 ^ 64) (e : OrderRejected)
    (previousRisk : IsolatedRiskState) :
    Ensures (runLiquidation record input (liquidationContext record input orderId)
        (mappedMetadata order) (some [.orderRejected e]) price position previousRisk) rt
      (fun _ after => MovesIf (adlOrderIdOf input c 1 order.orderId.toNat rt.ledger.metadataStore)
        input.key rt.ledger.signed after.ledger.signed)
      fun after => MovesIf (adlOrderIdOf input c 1 order.orderId.toNat rt.ledger.metadataStore)
        input.key rt.ledger.signed after.ledger.signed := by
  have hmarket : 0 < input.marketId ∧ input.marketId ≤ 2 ^ 32 - 1 := horder.market ▸ hm.market
  have hside : order.side = liquidationOrderSide position.signedQuantity := by
    rw [horder.side, signed_of_position hposition]
  have hpositive : 0 < absQuantity position.signedQuantity := hfull ▸ hm.quantity
  have hopen : position.signedQuantity ≠ 0 := by
    intro hzero
    rw [hzero] at hpositive
    exact absurd hpositive (by decide)
  unfold runLiquidation
  dsimp only
  rw [ensures_bind]
  refine (makeLiquidationEvent_ledger hmarket.1).mono ?_ fun _ h => h.elim
  intro started rt₁ hledger
  have hpositions : rt₁.ledger.positions = rt.ledger.positions := by rw [hledger]; rfl
  have hstore : rt₁.ledger.metadataStore = rt.ledger.metadataStore := by rw [hledger]; rfl
  have hcandidates₁ : adlCandidatesFor input position rt₁.ledger = c :: candidates := by
    rw [adlCandidatesFor_congr hpositions (by rw [hledger]; rfl), hcandidates]
  have hsigned : rt₁.ledger.signed = rt.ledger.signed := congrArg signedAt hpositions
  have hleft : min order.quantity (openQuantity rt₁.ledger input.key) =
      absQuantity position.signedQuantity := by
    rw [openQuantity_eq, hsigned, signed_of_position hposition, hfull, min_self]
  rw [ensures_bind]
  refine (liquidateAgainstBook_rejected rfl _ e).mono ?_ fun _ h => h.elim
  rintro ⟨booked, pending⟩ rt₂ ⟨hsame, hpending⟩
  have hpending : pending = some (mappedMetadata order) := hpending
  subst hsame hpending
  rw [ensures_bind, ensures_get, ensures_bind]
  change Ensures (emitWhen (0 < min order.quantity (openQuantity rt₂.ledger input.key))
    (Prod.fst <$> withLedger (withPending (some (mappedMetadata order)) (appendAdlFills
      (liquidationContext record input orderId) rt₂.markPrices input
        (min order.quantity (openQuantity rt₂.ledger input.key)) price)))) _ _ _
  rw [hleft]
  unfold emitWhen withLedger withPending
  rw [if_pos hpositive, ensures_map, ensures_zoom, ensures_zoom, ensures_bind]
  have hmoves := @appendAdlFills_moves (liquidationContext record input orderId) rt₂.markPrices input
    price order.side ⟨rt₂.ledger, some (mappedMetadata order)⟩ (mappedMetadata order) rfl hmarket
    position c candidates (hpositions ▸ hposition) hopen hcandidates₁
    (hside ▸ facing_liquidationOrderSide _) _ ⟨hpositive, hsize⟩ rfl rfl horder.key
  rw [← hsigned, ← hstore]
  refine hmoves.mono (fun deleveraged state hmoved => ?_) fun state hmoved => hmoved
  rw [ensures_bind, ensures_get, ensures_pure, ensures_bind, ensures_get, ensures_bind]
  refine (makeLiquidationEvent_ledger hmarket.1).mono ?_ fun _ h => h.elim
  intro completed after hafter
  have hlast : after.ledger.signed = state.ledger.signed := by rw [hafter]; rfl
  rw [ensures_pure, hlast]
  exact hmoved

end Rejected

/-- A position to be liquidated in full, with orders of others alone at the best opposing price, and
that within the price of the liquidation. Its size and that price are values of their types. -/
structure EngineRuntime.FacesLiquidity (rt : EngineRuntime) (input : LiquidatePositionInput)
    (position : IsolatedPositionState) : Prop where
  found : rt.ledger.positions[input.key]? = some position
  size : position.signedQuantity ≠ 0 ∧ FitsInt64 position.signedQuantity
  liquidatable : ∃ risk, rt.ledger.riskStates[input.key]? = some risk ∧
    risk.status = .liquidatable
  side : sideMatchesPosition input.positionSide position.signedQuantity = true
  full : input.quantity ≤ 0 ∨ absQuantity position.signedQuantity ≤ input.quantity
  price : FitsInt64 (liquidationPrice input position rt.markPrices)
  crossing : crossingLiquidityExists rt.core input.marketId
    (liquidationOrderSide position.signedQuantity)
    (liquidationPrice input position rt.markPrices) = true
  others : ∀ book, rt.core.getOrderBook input.marketId.toNat = some book →
    ∀ o ∈ book.bestOrders (toCoreSide (liquidationOrderSide position.signedQuantity)).opposite,
      (o.userId : ℤ) ≠ input.liquidatedUserId

/-- The order of the liquidation, as the core gets it. -/
def liquidationCommand (rt : EngineRuntime) (record : InboundEngineRecord)
    (input : LiquidatePositionInput) (position : IsolatedPositionState) (orderId : AdapterOrderId) :
    PlaceOrderCommand :=
  mappedCommand (syntheticLiquidationOrder input position orderId
    (liquidationQuantity input position) (liquidationPrice input position rt.markPrices))
      (receivedSequence record)

/-- The liquidation has an id, and the core lets its order in or the first opposing position in line
can be deleveraged. -/
def EngineRuntime.CanReduce (rt : EngineRuntime) (record : InboundEngineRecord)
    (input : LiquidatePositionInput) (position : IsolatedPositionState) : Prop :=
  ∃ orderId, liquidationOrderId input.liquidationId = .ok orderId ∧
    (rt.core.Admits (liquidationCommand rt record input position orderId) ∨
      ∃ c ∈ (adlCandidatesFor input position rt.ledger).head?,
        (adlOrderIdOf input c 1 orderId.toNat rt.ledger.metadataStore).isSome = true)

section Progress
variable {rt : EngineRuntime} {record : InboundEngineRecord} {input : LiquidatePositionInput}
  {position : IsolatedPositionState}

theorem crossingLiquidityExists_eq {core : EngineCore OrderBook} {marketId : MarketId}
    {side : AdapterSide} {price : AdapterPrice}
    (h : crossingLiquidityExists core marketId side price = true) : 0 < price ∧
      ∃ book, core.getOrderBook marketId.toNat = some book ∧
        ∃ best, (book.opposingBook (toCoreSide side)).bestPrice = some best ∧
          (FitsInt64 price →
            crossesLevel (toCoreSide side).opposite (Price.fromTicks price) best = true) := by
  unfold crossingLiquidityExists at h
  split at h
  · cases h
  · rename_i hguard
    push Not at hguard
    refine ⟨hguard.1, ?_⟩
    have hticks : FitsInt64 price → (Price.fromTicks price).ticks = price := by
      intro hfits
      unfold FitsInt64 at hfits
      exact Int.bmod_eq_of_le (by omega) (by omega)
    cases hbook : core.getOrderBook marketId.toNat with
    | none =>
      rw [hbook] at h
      cases h
    | some book =>
      rw [hbook] at h
      refine ⟨book, rfl, ?_⟩
      dsimp only at h
      cases side with
      | long =>
        cases hbest : book.asks.bestLevel.bind book.asks.levels.read with
        | none =>
          rw [hbest] at h
          cases h
        | some level =>
          rw [hbest, Bool.and_eq_true, decide_eq_true_eq] at h
          refine ⟨level.price, ?_, fun hfits => decide_eq_true (h.2.trans_eq (hticks hfits).symm)⟩
          change (book.asks.bestLevel.bind book.asks.levels.read).map (·.price) = _
          rw [hbest]
          rfl
      | short =>
        cases hbest : book.bids.bestLevel.bind book.bids.levels.read with
        | none =>
          rw [hbest] at h
          cases h
        | some level =>
          rw [hbest, Bool.and_eq_true, decide_eq_true_eq] at h
          refine ⟨level.price, ?_, fun hfits => decide_eq_true ((hticks hfits).trans_le h.2)⟩
          change (book.bids.bestLevel.bind book.bids.levels.read).map (·.price) = _
          rw [hbest]
          rfl

/-- Trades that begin with another user's order move the position for good. -/
theorem LiquidationMoves.moved {after : PositionRiskKey → ℤ} {order : PlaceOrderInput}
    {trades : List TradeExecuted} {fills : List (AdapterUserId × ℤ)} {trade : TradeExecuted}
    {rest : List TradeExecuted}
    (h : LiquidationMoves input rt.ledger.signed after
      (transfersOf order.side order.key rt.ledger.metadataStore trades) fills)
    (horder : LiquidationOrder input rt.ledger.signed order) (htrades : trades = trade :: rest)
    (hlots : 0 < trade.quantity.lots)
    (hmaker : storedKey rt.ledger.metadataStore trade.makerOrderId ≠ input.key) :
    after input.key ≠ rt.ledger.signed input.key := by
  have halong := h.along_key
  have hlots : (0 : ℤ) < trade.quantity.lots := Int.natCast_pos.2 hlots
  rw [h.signed]
  unfold liquidationTransfers transfersOf at *
  rw [htrades, List.map_cons, List.cons_append] at *
  refine halong.moves ?_
  rw [horder.key]
  unfold takerTransfer Transfer.apply
  cases order.side <;> simp only [↓reduceIte, hmaker.symm] <;> omega

theorem EngineRuntime.FacesLiquidity.rejection (h : rt.FacesLiquidity input position) :
    liquidationRejectionReason input rt.ledger = none := by
  obtain ⟨risk, hrisk, hstatus⟩ := h.liquidatable
  have hfound := h.found
  unfold LiquidatePositionInput.key at hfound hrisk
  unfold liquidationRejectionReason
  dsimp only
  rw [hfound]
  dsimp only
  rw [if_neg h.size.1, if_neg (by rw [h.side]; decide), hrisk]
  dsimp only
  exact if_neg fun hnot => hnot.1 hstatus

theorem EngineRuntime.FacesLiquidity.quantity (h : rt.FacesLiquidity input position) :
    liquidationQuantity input position = absQuantity position.signedQuantity := by
  unfold liquidationQuantity
  rcases h.full with hnone | hall
  · exact if_pos hnone
  · dsimp only
    split_ifs
    · rfl
    · exact min_eq_right hall

/-- Once the core has let it in, the order trades first with another user. -/
theorem EngineRuntime.FacesLiquidity.first_trade (h : rt.FacesLiquidity input position)
    (hlock : rt.InLockstep) {orderId : AdapterOrderId}
    (hadmits : rt.core.Admits (liquidationCommand rt record input position orderId)) :
    ∃ trade rest, tradesOf (rt.core.process (.placeOrder
        (liquidationCommand rt record input position orderId))).1 = trade :: rest ∧
      0 < trade.quantity.lots ∧
      storedKey rt.ledger.metadataStore trade.makerOrderId ≠ input.key := by
  obtain ⟨config, book, hconfig, hbook, hvalid, haccepted⟩ := hadmits
  rw [EngineCore.process_of_admits hconfig hbook hvalid]
  obtain ⟨-, book', hbook', best, hbest, hcrosses⟩ := crossingLiquidityExists_eq h.crossing
  cases hbook'.symm.trans hbook
  obtain ⟨queues, htracks, -⟩ := id hlock
  have hrel := htracks.rel.books input.marketId.toNat
  have hbook : rt.core.orderBooks[input.marketId.toNat]? = some book := hbook
  rw [hbook] at hrel
  generalize queues.orderBooks[input.marketId.toNat]? = theirs at hrel
  cases hrel with
  | some href =>
    have hcross : (book.opposingBook (liquidationCommand rt record input position
        orderId).side).priceCrosses (matchingPriceForCommand (liquidationCommand rt record input
          position orderId)) = true :=
      (href.priceCrosses_of_bestPrice hbest _).trans (hcrosses h.price)
    obtain ⟨maker, hmaker, hregistered, trade, rest, htrades, hid, hlots⟩ :=
      href.first_trade haccepted hcross rt.core.sequenceGenerator
    refine ⟨trade, rest, htrades, hlots, fun hkey => ?_⟩
    obtain ⟨m, hfiled, -⟩ := hlock.filedAs hbook hregistered
    refine h.others book hbook' maker hmaker ?_
    rw [← hfiled.describes.user]
    unfold storedKey at hkey
    rw [hid, hfiled.found] at hkey
    exact congrArg PositionRiskKey.userId hkey

theorem totalAdlAvailable_pos {limit : ℤ} (hlimit : 0 < limit) {candidates : List AdlCandidate}
    (havailable : ∀ c ∈ candidates, 0 < c.availableQuantity) {available : ℤ}
    (hstart : 0 ≤ available) (h : candidates ≠ [] ∨ 0 < available) :
    0 < totalAdlAvailable limit candidates available := by
  induction candidates generalizing available with
  | nil => simpa [totalAdlAvailable] using h
  | cons c candidates ih =>
    have hc := havailable c List.mem_cons_self
    unfold totalAdlAvailable
    split_ifs
    · exact hlimit
    · exact ih (fun d hd => havailable d (List.mem_cons_of_mem _ hd)) (by omega)
        (Or.inr (by omega))

/-- The liquidation moves its position exactly if it can reduce it. -/
theorem executeLiquidation_moves_iff (hacc : rt.Accounted) (h : rt.FacesLiquidity input position)
    (record : InboundEngineRecord) (emitReplies : Bool) :
    Ensures (executeLiquidation record input emitReplies) rt
      (fun _ after => after.ledger.signed input.key ≠ rt.ledger.signed input.key ↔
        rt.CanReduce record input position)
      fun after => after.ledger.signed input.key ≠ rt.ledger.signed input.key ↔
        rt.CanReduce record input position := by
  obtain ⟨risk, hrisk, -⟩ := h.liquidatable
  have hposition := h.found
  have hprice := (crossingLiquidityExists_eq h.crossing).1
  have hpositive : 0 < absQuantity position.signedQuantity := by
    have hopen := h.size.1
    unfold absQuantity
    split_ifs <;> omega
  have hfacing : Facing (liquidationOrderSide (rt.ledger.signed input.key))
      position.signedQuantity := by
    rw [signed_of_position hposition]
    exact facing_liquidationOrderSide _
  have hsize : absQuantity position.signedQuantity < 2 ^ 64 := by
    have hfits := h.size.2
    unfold FitsInt64 at hfits
    unfold absQuantity
    split_ifs <;> omega
  unfold executeLiquidation
  rw [ensures_bind, ensures_get]
  dsimp only
  rw [h.rejection]
  unfold LiquidatePositionInput.key at hposition hrisk
  rw [hposition, hrisk]
  dsimp only
  rw [h.crossing, if_neg (by
    rw [h.quantity]
    exact not_or.2 ⟨not_le.2 hpositive, not_or.2 ⟨not_le.2 hprice, fun hquiet => nomatch hquiet.1⟩⟩),
    ensures_bind, ensures_liftExcept]
  refine ⟨fun orderId hid => ?_, fun error herror => ?_⟩
  · have hm := syntheticLiquidationOrder_mappable hacc h.found h.size.1
      (liquidationOrderId_eq_ok hid) (h.quantity ▸ hpositive) hprice
    have horder := @syntheticLiquidationOrder_liquidates rt input position h.found orderId
      (liquidationPrice input position rt.markPrices)
    have hfull : (syntheticLiquidationOrder input position orderId (liquidationQuantity input position)
        (liquidationPrice input position rt.markPrices)).quantity =
          absQuantity position.signedQuantity := h.quantity
    have hfirst := @EngineRuntime.FacesLiquidity.first_trade rt record input position h
      hacc.lockstep orderId
    have hcan : rt.CanReduce record input position ↔
        (rt.core.Admits (liquidationCommand rt record input position orderId) ∨
          ∃ c ∈ (adlCandidatesFor input position rt.ledger).head?,
            (adlOrderIdOf input c 1 orderId.toNat rt.ledger.metadataStore).isSome = true) := by
      refine ⟨?_, fun hcan => ⟨orderId, hid, hcan⟩⟩
      rintro ⟨other, hother, hcan⟩
      cases hid.symm.trans hother
      exact hcan
    rw [mapPlaceOrderToCore_eq_ok.2 ⟨hm, rfl⟩, hcan]
    unfold liquidationCommand at hfirst ⊢
    have horderId : (syntheticLiquidationOrder input position orderId (liquidationQuantity input position)
        (liquidationPrice input position rt.markPrices)).orderId = orderId := rfl
    have hioc : canRest (mappedCommand (syntheticLiquidationOrder input position orderId
      (liquidationQuantity input position) (liquidationPrice input position rt.markPrices))
        (receivedSequence record)) = false := rfl
    generalize syntheticLiquidationOrder input position orderId _ _ = order at *
    rw [ensures_bind, ensures_liftExcept]
    refine ⟨fun mapped hmapped => ?_, fun _ herror => nomatch herror⟩
    cases hmapped
    dsimp only
    unfold askBook
    rw [ensures_bind, if_pos rfl, ensures_map, ensures_processCore]
    by_cases hadmits : rt.core.Admits (mappedCommand order (receivedSequence record))
    · obtain ⟨trade, rest, htrades, hlots, hmaker⟩ := hfirst hadmits
      have htraded : hasTradeExecuted (rt.core.process (.placeOrder (mappedCommand order
          (receivedSequence record)))).1 ≠ false := by
        rw [Ne, hasTradeExecuted_eq_false, htrades]
        nofun
      rw [if_neg fun hnone => htraded hnone.2.1, ensures_bind]
      have hmoves := @runLiquidation_moves rt { rt with core := (rt.core.process (.placeOrder
          (mappedCommand order (receivedSequence record)))).2 } order (receivedSequence record) record
        input (some (rt.core.process (.placeOrder (mappedCommand order
          (receivedSequence record)))).1) hacc.toOrderly hm hioc horder orderId rfl rfl
            (Or.inr ⟨rfl, rfl⟩) (liquidationPrice input position rt.markPrices) position risk
      refine hmoves.mono (fun r after ⟨_, hmoved⟩ => ?_) fun after ⟨_, fills, hmoved⟩ => ?_
      · exact iff_of_true (hmoved.moved horder htrades hlots hmaker) (Or.inl hadmits)
      · exact iff_of_true (hmoved.moved horder htrades hlots hmaker) (Or.inl hadmits)
    · obtain ⟨e, hrejected⟩ := EngineCore.process_of_not_admits hadmits
      rw [hrejected]
      have havailable := fun c hc =>
        (@faces_adlCandidatesFor input rt.ledger position _ hfacing c hc).available
      cases hcandidates : adlCandidatesFor input position rt.ledger with
      | nil =>
        rw [if_pos ⟨rfl, rfl, le_refl _⟩]
        refine iff_of_false (fun hne => hne rfl) ?_
        rintro (hcore | ⟨c, hc, -⟩)
        · exact hadmits hcore
        · cases hc
      | cons c candidates =>
        have hsome : 0 < totalAdlAvailable (liquidationQuantity input position)
            (c :: candidates) 0 := by
          rw [h.quantity]
          exact totalAdlAvailable_pos hpositive (hcandidates ▸ havailable) (le_refl _)
            (Or.inl (List.cons_ne_nil _ _))
        rw [if_neg fun hnone => absurd hnone.2.2 (not_le.2 hsome), ensures_bind]
        have hmoves := @runLiquidation_rejected_moves { rt with core := (rt.core.process
          (.placeOrder (mappedCommand order (receivedSequence record)))).2 } record input position
            order orderId (liquidationPrice input position rt.markPrices) c candidates hm horder
              h.found hcandidates hfull hsize e risk
        have hiff : ∀ after : EngineRuntime, MovesIf (adlOrderIdOf input c 1 order.orderId.toNat
            rt.ledger.metadataStore) input.key rt.ledger.signed after.ledger.signed →
            (after.ledger.signed input.key ≠ rt.ledger.signed input.key ↔
              rt.core.Admits (mappedCommand order (receivedSequence record)) ∨
                ∃ d ∈ (c :: candidates).head?, (adlOrderIdOf input d 1 orderId.toNat
                  rt.ledger.metadataStore).isSome = true) := by
          intro after hmoved
          unfold MovesIf at hmoved
          rw [hmoved, horderId]
          refine ⟨fun hid => Or.inr ⟨c, rfl, hid⟩, ?_⟩
          rintro (hcore | ⟨d, hd, hid⟩)
          · exact absurd hcore hadmits
          · cases hd
            exact hid
        exact hmoves.mono (fun _ after hmoved => hiff after hmoved) fun after hmoved =>
          hiff after hmoved
  · refine iff_of_false (fun hne => hne rfl) ?_
    rintro ⟨orderId, hid, -⟩
    cases herror.symm.trans hid

/-- The runtime's own liquidations are of whole positions, on the right side. -/
theorem AutomaticLiquidationCandidate.Stands.facesLiquidity {c : AutomaticLiquidationCandidate}
    {marketId : MarketId} (hc : c.Stands marketId rt.ledger) (source : InboundEngineRecord)
    (sourceInputId : Option Text) (attempt : ℕ)
    (hinput : input = automaticLiquidationInput source sourceInputId c attempt)
    (hsize : FitsInt64 c.position.signedQuantity)
    (hprice : FitsInt64 (liquidationPrice input c.position rt.markPrices))
    (hcrossing : crossingLiquidityExists rt.core c.key.marketId
      (liquidationOrderSide c.position.signedQuantity)
        (liquidationPrice input c.position rt.markPrices) = true)
    (hothers : ∀ book, rt.core.getOrderBook c.key.marketId.toNat = some book → ∀ o ∈
      book.bestOrders (toCoreSide (liquidationOrderSide c.position.signedQuantity)).opposite,
        (o.userId : ℤ) ≠ c.key.userId) : rt.FacesLiquidity input c.position := by
  subst hinput
  have hside : sideMatchesPosition (positionAdapterSide c.position.signedQuantity)
      c.position.signedQuantity = true := by
    have hopen := hc.positionOpen
    unfold sideMatchesPosition positionAdapterSide
    split_ifs with hlong
    · exact decide_eq_true (lt_of_le_of_ne hlong hopen.symm)
    · exact decide_eq_true (not_le.1 hlong)
  exact
    { found := hc.position
      size := ⟨hc.positionOpen, hsize⟩
      liquidatable := ⟨c.risk, hc.risk, hc.liquidatable⟩
      side := hside
      full := Or.inr (le_refl _)
      price := hprice
      crossing := hcrossing
      others := hothers }

end Progress

/-- What `validate_loaded_market` asks of a market's numbers. -/
structure SymbolConfig.Loadable (config : SymbolConfig) : Prop where
  tickSize : 0 < config.tickSize.ticks
  lotSize : config.lotSize.isValid = true
  minQuantity : config.minQuantity.isValid = true
  maxQuantity : config.minQuantity.lots ≤ config.maxQuantity.lots
  minPrice : config.minPrice.isValid = true
  maxPrice : config.minPrice.ticks ≤ config.maxPrice.ticks
  ringCapacityTicks : config.ringCapacityTicks ≠ 0

/-- In every reachable state, the liquidation of a whole position against orders of others makes it
smaller if and only if it has an id and either the core lets its order in, whose price need not be a
price of the market and whose quantity need not be a quantity of it, or an opposing position can be
deleveraged. -/
theorem liquidation_reduces_iff (config : EngineRuntimeConfig) (steps : List RuntimeStep)
    {rt : EngineRuntime} (hrt : rt = ((EngineRuntime.new config).run steps).2)
    {input : LiquidatePositionInput} {position : IsolatedPositionState}
    (h : rt.FacesLiquidity input position) (record : InboundEngineRecord) (emitReplies : Bool) :
    absQuantity (((executeLiquidation record input emitReplies).run.run rt).2.ledger.signed
        input.key) < absQuantity position.signedQuantity ↔
      rt.CanReduce record input position := by
  have hacc : rt.Accounted := hrt ▸ reachable_accounted config steps
  have hmoves := executeLiquidation_moves hacc.toOrderly record input emitReplies
  have htoward : TowardZero (rt.ledger.signed input.key)
      (((executeLiquidation record input emitReplies).run.run rt).2.ledger.signed input.key) := by
    refine Ensures.whatever (E := fun after => TowardZero (rt.ledger.signed input.key)
      (after.ledger.signed input.key)) (hmoves.mono ?_ ?_)
    · rintro _ after ⟨-, trades, hmoved⟩
      rw [hmoved.signed]
      exact hmoved.along_key.towardZero
    · rintro after ⟨-, trades, fills, hmoved⟩
      rw [hmoved.signed]
      exact hmoved.along_key.towardZero
  rw [← signed_of_position h.found, absQuantity_lt_iff htoward]
  exact (executeLiquidation_moves_iff hacc h record emitReplies).whatever

/-- A market whose prices are the multiples of five. -/
def sampleTickConfig : SymbolConfig :=
  { sampleConfig with tickSize := ⟨5, by decide⟩, initialBaseTick := 15 }

/-- User 31 is long from 100 on little margin; 33 has sold at 80 to the one who sold to 31, so that
at a mark of 93 nobody profits; 34 bids 95. -/
@[irreducible] def sampleStuck : EngineRuntime :=
  ((EngineRuntime.new { sampleRuntimeConfig with symbols := [sampleTickConfig] }).run
    [sampleMark 1 100, sampleOrderOn 2 31 .long 100 10 60, sampleOrderOn 3 32 .short 100 10 1000,
      sampleOrderOn 4 33 .short 80 10 1000, sampleOrderOn 5 32 .long 80 10 1000,
      sampleOrderOn 6 34 .long 95 10 1000, sampleMark 7 93]).2

def sampleFullRequest (price : AdapterPrice) : LiquidatePositionInput where
  inputId := some (ascii "in-8")
  envelope := sampleEnvelope 8 31
  liquidationId := ascii "liq-8"
  marketId := 1
  liquidatedUserId := 31
  positionSide := .long
  quantity := 0
  price := price

theorem facesLiquidity_sampleFullRequest {price limit : AdapterPrice}
    (hprice : ∀ position, liquidationPrice (sampleFullRequest price) position
      sampleStuck.markPrices = limit) (hlimit : FitsInt64 limit)
    (hcrossing : crossingLiquidityExists sampleStuck.core 1 .short limit = true) :
    ∃ position, sampleStuck.FacesLiquidity (sampleFullRequest price) position ∧
      position.signedQuantity = 10 := by
  have hfound : sampleStuck.ledger.positions[(⟨31, 1⟩ : PositionRiskKey)]?.map
      (·.signedQuantity) = some 10 := by decide +kernel
  have hrisk : sampleStuck.ledger.riskStates[(⟨31, 1⟩ : PositionRiskKey)]?.map (·.status) =
      some .liquidatable := by decide +kernel
  have hothers : ((sampleStuck.core.getOrderBook 1).all fun book =>
      (book.bestOrders .buy).all fun o => decide ((o.userId : ℤ) ≠ 31)) = true := by
    decide +kernel
  generalize sampleStuck = rt at *
  obtain ⟨position, hposition, hsize⟩ := Option.map_eq_some_iff.1 hfound
  refine ⟨position, ?_, hsize⟩
  have hside : liquidationOrderSide position.signedQuantity = .short := by rw [hsize]; rfl
  exact
    { found := hposition
      size := by rw [hsize]; exact ⟨by decide, by unfold FitsInt64; decide⟩
      liquidatable := Option.map_eq_some_iff.1 hrisk
      side := by rw [hsize]; rfl
      full := Or.inl (le_refl _)
      price := by rw [hprice]; exact hlimit
      crossing := by rw [hprice, hside]; exact hcrossing
      others := fun book hbook o ho => by
        rw [hside] at ho
        have hbook : rt.core.getOrderBook 1 = some book := hbook
        rw [hbook] at hothers
        exact of_decide_eq_true (List.all_eq_true.1 hothers o ho) }

/-- At 95, a price of the market, the core lets the order in. -/
theorem liquidation_reduces_iff_sample : ∃ position, position.signedQuantity = 10 ∧
    sampleStuck.CanReduce ⟨engineInputTopic, 0, 8⟩ (sampleFullRequest 95) position := by
  obtain ⟨position, hfaces, hsize⟩ := @facesLiquidity_sampleFullRequest 95 95 (fun _ => rfl)
    (by unfold FitsInt64; decide) (by decide +kernel)
  have hreduced : absQuantity (((executeLiquidation ⟨engineInputTopic, 0, 8⟩ (sampleFullRequest 95)
      true).run.run sampleStuck).2.ledger.signed (sampleFullRequest 95).key) < 10 := by
    decide +kernel
  have hreached : ∃ config steps, sampleStuck = ((EngineRuntime.new config).run steps).2 :=
    ⟨_, _, by unfold sampleStuck; rfl⟩
  obtain ⟨config, steps, hreached⟩ := hreached
  refine ⟨position, hsize, (liquidation_reduces_iff config steps hreached hfaces _ true).1 ?_⟩
  rw [hsize]
  exact hreduced

/-- At the mark price, which is no price of the market, it does not, and the position stays. -/
theorem crossing_liquidation_reduces_nothing : sampleTickConfig.Loadable ∧
    sampleTickConfig.tradingEnabled = true ∧ ∃ position,
      sampleStuck.FacesLiquidity (sampleFullRequest 0) position ∧
        ¬absQuantity (((executeLiquidation ⟨engineInputTopic, 0, 8⟩ (sampleFullRequest 0)
          true).run.run sampleStuck).2.ledger.signed (sampleFullRequest 0).key) <
            absQuantity position.signedQuantity := by
  refine ⟨⟨by decide, by decide, by decide, by decide, by decide, by decide, by decide⟩, rfl, ?_⟩
  have hmark : sampleStuck.markPrices[(1 : MarketId)]?.map (·.markPrice) = some 93 := by
    decide +kernel
  have hkept : ¬absQuantity (((executeLiquidation ⟨engineInputTopic, 0, 8⟩ (sampleFullRequest 0)
      true).run.run sampleStuck).2.ledger.signed (sampleFullRequest 0).key) < 10 := by
    decide +kernel
  obtain ⟨position, hfaces, hsize⟩ := @facesLiquidity_sampleFullRequest 0 93 (fun position => by
      obtain ⟨mark, hfound, hprice⟩ := Option.map_eq_some_iff.1 hmark
      unfold liquidationPrice
      have hmarket : (sampleFullRequest 0).marketId = 1 := rfl
      rw [hmarket, hfound]
      simp [sampleFullRequest, hprice]) (by unfold FitsInt64; decide) (by decide +kernel)
  refine ⟨position, hfaces, ?_⟩
  rw [hsize]
  exact hkept

end PerpexEngine
