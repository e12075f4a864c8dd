import PerpexEngine.Lib.Greedy
import PerpexEngine.Runtime.BookPlacements

/-! Automatic deleveraging as transfers between the liquidated position and its counterparties. -/
namespace PerpexEngine
open Program

/-- A position that an order of this side does not increase: it faces the order, or is empty. -/
def Facing (side : AdapterSide) (x : ℤ) : Prop :=
  match side with
  | .long => x ≤ 0
  | .short => 0 ≤ x

theorem facing_liquidationOrderSide (x : ℤ) : Facing (liquidationOrderSide x) x := by
  unfold liquidationOrderSide Facing
  by_cases hlong : 0 < x
  · rw [if_pos hlong]
    exact hlong.le
  · rw [if_neg hlong]
    exact not_lt.1 hlong

def oppositeSide : AdapterSide → AdapterSide
  | .long => .short
  | .short => .long

/-- The transfers of ADL fills, given by counterparties and lots. -/
def adlTransfers (side : AdapterSide) (key : PositionRiskKey) (fills : List (AdapterUserId × ℤ)) :
    List (Transfer PositionRiskKey) :=
  fills.map fun fill => takerTransfer side key ⟨fill.1, key.marketId⟩ fill.2

/-- Lots with the sign that a position of the side has. -/
def sideLots (side : AdapterSide) (lots : ℤ) : ℤ :=
  match side with
  | .long => lots
  | .short => -lots

/-- What fills give to one user. -/
def filledOf (fills : List (AdapterUserId × ℤ)) (userId : AdapterUserId) : ℤ :=
  (fills.map fun fill => if fill.1 = userId then fill.2 else 0).sum

/-- A counterparty: another user's position in the market, of the size it is listed with. -/
structure AdlCandidate.Faces (c : AdlCandidate) (side : AdapterSide) (key : PositionRiskKey)
    (signed : PositionRiskKey → ℤ) : Prop where
  market : c.key.marketId = key.marketId
  user : c.key.userId ≠ key.userId
  orderSide : liquidationOrderSide c.position.signedQuantity = oppositeSide side
  available : 0 < c.availableQuantity
  size : signed c.key = sideLots side c.availableQuantity

section Fill
variable {context : EngineEventTranslationContext} {markPrices : MarkPrices}
  {input : LiquidatePositionInput} {price : AdapterPrice} {candidate : AdlCandidate}
  {fillQuantity rank : ℤ} {state : TranslationState} {p : OrderMetadata}

/-- The order id of the counterparty's side of a fill. -/
def adlOrderIdOf (input : LiquidatePositionInput) (candidate : AdlCandidate) (rank : ℤ)
    (takerOrderId : OrderId) (store : OrderMetadataStore) : Option OrderId :=
  adlCounterpartyOrderId (adlIdFor input.liquidationId rank candidate.key.userId) takerOrderId store

theorem adlCounterpartyOrderId_free {adlId : Text} {takerOrderId id : OrderId}
    {store : OrderMetadataStore} (h : adlCounterpartyOrderId adlId takerOrderId store = some id) :
    id ≠ takerOrderId ∧ store[id]? = none := by
  unfold adlCounterpartyOrderId at h
  have hfound := List.find?_some h
  rw [decide_eq_true_eq, Std.ExtTreeMap.contains_eq_isSome_getElem?] at hfound
  exact ⟨hfound.1, Option.isSome_eq_false_iff.1 hfound.2 |> Option.isNone_iff_eq_none.1⟩

theorem ensures_setMetadataStore {f : OrderMetadataStore → OrderMetadataStore}
    {Q : Unit → TranslationState → Prop} {E : TranslationState → Prop} :
    Ensures (setMetadataStore f) state Q E ↔ Q () { state with
      ledger := { state.ledger with metadataStore := f state.ledger.metadataStore } } := Iff.rfl

theorem symbolId_pos (hmarket : 0 < input.marketId ∧ input.marketId ≤ 2 ^ 32 - 1) :
    0 < (input.marketId % 2 ^ 32).toNat := by
  have hpos : ∀ m : ℤ, 0 < m ∧ m ≤ 2 ^ 32 - 1 → 0 < (m % 2 ^ 32).toNat := fun m hm => by omega
  exact hpos _ hmarket

theorem ensures_requirePending {Q : Unit → TranslationState → Prop} {E : TranslationState → Prop}
    (hpending : state.pending = some p) (h : Q () state) : Ensures requirePending state Q E := by
  unfold requirePending
  rw [ensures_bind, ensures_get, hpending]
  exact h

/-- The translation of one trade between the pending order and a stored one on the other side. -/
theorem translate_trade {maker : OrderMetadata} {trade : TradeExecuted}
    (hsymbol : 0 < trade.symbolId) (hpending : state.pending = some p) (hp : 0 < p.marketId)
    (htaker : trade.takerOrderId = p.orderId) (hne : trade.makerOrderId ≠ p.orderId)
    (hmaker : state.ledger.metadataStore[trade.makerOrderId]? = some maker)
    (hm : 0 < maker.marketId) (hside : maker.side = oppositeSide p.side) :
    Ensures (translate context markPrices [.tradeExecuted trade]) state
      (fun r state' => state'.ledger.metadataStore =
          state.ledger.metadataStore.insert trade.makerOrderId
            (allocateFillMargin maker trade.quantity.lots trade.price.ticks) ∧
        state'.pending = some (allocateFillMargin p trade.quantity.lots trade.price.ticks) ∧
        state'.ledger.signed =
          (takerTransfer p.side p.key maker.key trade.quantity.lots).apply state.ledger.signed ∧
        projected EventPayload.deleveraged? r.events =
          projectedFills EventPayload.deleveraged? context [trade])
      fun _ => False := by
  have hfindMaker : state.holdings.find trade.makerOrderId = some maker := by
    unfold Holdings.find TranslationState.holdings
    rw [hpending]
    exact (if_neg (Ne.symm hne)).trans hmaker
  have hfindTaker : state.holdings.find trade.takerOrderId = some p := by
    unfold Holdings.find TranslationState.holdings
    rw [hpending]
    exact if_pos htaker.symm
  have hmarkets : state.holdings.MarketsOrder trade.makerOrderId ∧
      state.holdings.MarketsOrder trade.takerOrderId := by
    refine ⟨fun m hfind => ?_, fun m hfind => ?_⟩
    · cases hfindMaker.symm.trans hfind
      exact hm
    · cases hfindTaker.symm.trans hfind
      exact hp
  have hleaves : Leaves (translate context markPrices [.tradeExecuted trade]) state
      (state.holdings.trade trade) :=
    Leaves.bind (appendTradeExecuted_leaves hsymbol hmarkets.1 hmarkets.2) fun _ _ ht => ht
  have hfills := projects_translate skips_deleveraged context markPrices [.tradeExecuted trade] state
  have hopposite : toCoreSide maker.side = (toCoreSide p.side).opposite := by
    rw [hside]
    cases p.side <;> rfl
  have htrade := state.holdings.trade_eq trade hpending htaker hne.symm hmaker hopposite
  refine (hleaves.and hfills).mono ?_ fun _ h => h.1
  rintro r state' ⟨hstate, hprojected⟩
  have hstate := hstate.trans htrade
  exact ⟨congrArg Holdings.store hstate, congrArg Holdings.pending hstate,
    congrArg Holdings.signed hstate, hprojected⟩

/-- One ADL fill: metadata comes, trades and goes; what stays is a transfer. -/
theorem appendAdlFill_transfers (hkind : context.commandKind = .liquidatePosition)
    (hmarket : 0 < input.marketId ∧ input.marketId ≤ 2 ^ 32 - 1)
    (hpending : state.pending = some p) (hp : p.marketId = input.marketId)
    (hside : liquidationOrderSide candidate.position.signedQuantity = oppositeSide p.side) :
    Ensures (appendAdlFill context markPrices input price candidate fillQuantity rank) state
      (fun r state' => (adlOrderIdOf input candidate rank p.orderId
          state.ledger.metadataStore).isSome = true ∧
        state'.ledger.metadataStore = state.ledger.metadataStore ∧
        (∃ p', state'.pending = some p' ∧ p.Continues p') ∧
        state'.ledger.signed = (takerTransfer p.side p.key ⟨candidate.key.userId, input.marketId⟩
          (Quantity.ofLots fillQuantity.toNat).lots).apply state.ledger.signed ∧
        projected EventPayload.deleveraged? r.events =
          [(candidate.key.userId, ((Quantity.ofLots fillQuantity.toNat).lots : ℤ))])
      fun state' => state' = state ∧ adlOrderIdOf input candidate rank p.orderId
        state.ledger.metadataStore = none := by
  have htaker : (state.pending.map (·.orderId)).getD 0 = p.orderId := by
    rw [hpending]
    rfl
  unfold appendAdlFill
  rw [ensures_bind, ensures_get]
  dsimp only
  rw [htaker]
  cases hid : adlCounterpartyOrderId (adlIdFor input.liquidationId rank candidate.key.userId)
      p.orderId state.ledger.metadataStore with
  | none => exact ⟨rfl, hid⟩
  | some id =>
    obtain ⟨hne, hfree⟩ := adlCounterpartyOrderId_free hid
    have hfound : (adlOrderIdOf input candidate rank p.orderId
        state.ledger.metadataStore).isSome = true := by
      unfold adlOrderIdOf
      rw [hid, Option.isSome_some]
    dsimp only
    rw [ensures_bind, ensures_setMetadataStore]
    generalize hadl : adlIdFor input.liquidationId rank candidate.key.userId = adlId
    generalize hfiled : state.ledger.metadataStore.insert id (adlCounterpartyMetadata input candidate
      id fillQuantity rank adlId) = filed
    have hstored : filed[id]? = some (adlCounterpartyMetadata input candidate id fillQuantity rank
        adlId) := by
      rw [← hfiled]
      exact Std.ExtTreeMap.getElem?_insert_self
    have hothers : ∀ k : OrderId, ¬compare id k = .eq →
        filed[k]? = state.ledger.metadataStore[k]? := by
      intro k hk
      rw [← hfiled, Std.ExtTreeMap.getElem?_insert, if_neg hk]
    rw [ensures_bind]
    refine ensures_requirePending (p := p) hpending ?_
    rw [ensures_bind]
    have htrade := @translate_trade { context with adl := some ⟨adlId, candidate.key.userId, rank⟩ }
      markPrices ⟨{ state.ledger with metadataStore := filed }, state.pending⟩ p
      (adlCounterpartyMetadata input candidate id fillQuantity rank adlId)
      (adlTradeEvent input adlId id p.orderId fillQuantity price) (symbolId_pos hmarket) hpending
      (hp ▸ hmarket.1) rfl hne hstored hmarket.1 hside
    refine htrade.mono ?_ fun _ h => h.elim
    rintro translated after ⟨hstore, hpending', hsigned, hdeleveraged⟩
    rw [ensures_bind, ensures_setMetadataStore, ensures_pure]
    have hcontinues := continues_allocateFillMargin p ((Quantity.ofLots fillQuantity.toNat).lots : ℤ)
      (Price.fromTicks price).ticks
    refine ⟨hfound, ?_, ⟨_, hpending', hcontinues⟩, ?_, ?_⟩
    · apply Std.ExtTreeMap.ext_getElem?
      intro k
      dsimp only at hstore ⊢
      rw [hstore, Std.ExtTreeMap.getElem?_erase]
      split_ifs with hk
      · rw [← Std.LawfulEqCmp.compare_eq_iff_eq.1 hk, hfree]
      · exact (Std.ExtTreeMap.getElem?_insert.trans (if_neg hk)).trans (hothers k hk)
    · change signedAt after.ledger.positions = _
      exact hsigned
    · rw [hdeleveraged]
      unfold projectedFills
      rw [if_pos hkind]
      rfl

end Fill
section Fills
variable {context : EngineEventTranslationContext} {markPrices : MarkPrices}
  {input : LiquidatePositionInput} {price : AdapterPrice} {side : AdapterSide}
  {key : PositionRiskKey} {fills : List (AdapterUserId × ℤ)} {state state' : TranslationState}
  {candidates : List AdlCandidate} {remaining : ℤ}

/-- Fills take the lots from or give them to the account they are all about. -/
theorem settle_adlTransfers_key (h : ∀ fill ∈ fills, fill.1 ≠ key.userId)
    (signed : PositionRiskKey → ℤ) :
    Transfer.settle signed (adlTransfers side key fills) key =
      signed key + sideLots side (fills.map (·.2)).sum := by
  induction fills generalizing signed with
  | nil => cases side <;> simp [adlTransfers, sideLots]
  | cons fill fills ih =>
    have hne : key ≠ ⟨fill.1, key.marketId⟩ :=
      fun heq => h fill List.mem_cons_self (congrArg PositionRiskKey.userId heq).symm
    have hrest := ih (fun f hf => h f (List.mem_cons_of_mem _ hf))
      ((takerTransfer side key ⟨fill.1, key.marketId⟩ fill.2).apply signed)
    unfold adlTransfers at hrest ⊢
    rw [List.map_cons, Transfer.settle_cons, hrest]
    unfold takerTransfer Transfer.apply sideLots
    cases side <;> simp only [↓reduceIte, hne, List.map_cons, List.sum_cons] <;> omega

/-- Every other account loses or gets what was filled of it. -/
theorem settle_adlTransfers_user {userId : AdapterUserId} (huser : userId ≠ key.userId)
    (fills : List (AdapterUserId × ℤ)) (signed : PositionRiskKey → ℤ) :
    Transfer.settle signed (adlTransfers side key fills) ⟨userId, key.marketId⟩ =
      signed ⟨userId, key.marketId⟩ - sideLots side (filledOf fills userId) := by
  induction fills generalizing signed with
  | nil => cases side <;> simp [adlTransfers, sideLots, filledOf]
  | cons fill fills ih =>
    have hne : (⟨userId, key.marketId⟩ : PositionRiskKey) ≠ key :=
      fun heq => huser (congrArg PositionRiskKey.userId heq)
    have hrest := ih ((takerTransfer side key ⟨fill.1, key.marketId⟩ fill.2).apply signed)
    have hsame : (⟨userId, key.marketId⟩ : PositionRiskKey) = ⟨fill.1, key.marketId⟩ ↔
        fill.1 = userId := by
      rw [PositionRiskKey.mk.injEq]
      exact ⟨fun heq => heq.1.symm, fun heq => ⟨heq.symm, rfl⟩⟩
    unfold adlTransfers at hrest ⊢
    rw [List.map_cons, Transfer.settle_cons, hrest]
    unfold takerTransfer Transfer.apply sideLots filledOf
    cases side <;> simp only [hne, hsame, ↓reduceIte, List.map_cons, List.sum_cons] <;> omega

theorem filledOf_eq_zero {userId : AdapterUserId} (h : ∀ fill ∈ fills, fill.1 ≠ userId) :
    filledOf fills userId = 0 := by
  induction fills with
  | nil => rfl
  | cons fill fills ih =>
    unfold filledOf at ih ⊢
    rw [List.map_cons, List.sum_cons, ih fun f hf => h f (List.mem_cons_of_mem _ hf),
      if_neg (h fill List.mem_cons_self), add_zero]

theorem filledOf_of_mem (hnodup : (fills.map (·.1)).Nodup) {fill : AdapterUserId × ℤ}
    (h : fill ∈ fills) : filledOf fills fill.1 = fill.2 := by
  induction fills with
  | nil => cases h
  | cons first fills ih =>
    rw [List.map_cons, List.nodup_cons] at hnodup
    have hcons : ∀ userId, filledOf (first :: fills) userId =
        (if first.1 = userId then first.2 else 0) + filledOf fills userId := fun _ => List.sum_cons
    have hother : ∀ f ∈ fills, f.1 ≠ first.1 :=
      fun f hf heq => hnodup.1 (List.mem_map.2 ⟨f, hf, heq⟩)
    rw [hcons]
    rcases List.mem_cons.1 h with rfl | h
    · rw [if_pos rfl, filledOf_eq_zero hother, add_zero]
    · rw [if_neg (hother fill h).symm, ih hnodup.2 h, zero_add]

/-- The fills of candidates, by their users and lots. -/
def adlFills (remaining : ℤ) (candidates : List AdlCandidate) : List (AdapterUserId × ℤ) :=
  (greedy (·.availableQuantity) remaining candidates).map fun fill =>
    (fill.1.key.userId, ((Quantity.ofLots fill.2.toNat).lots : ℤ))

theorem nodup_adlFills (h : (candidates.map (·.key.userId)).Nodup) (remaining : ℤ) :
    ((adlFills remaining candidates).map (·.1)).Nodup := by
  have hstarts := (@greedy_starts _ (·.availableQuantity) remaining candidates).map (·.key.userId)
  unfold adlFills
  rw [List.map_map] at hstarts ⊢
  exact h.sublist hstarts.sublist

theorem ofLots_le {lots : ℤ} (h : 0 ≤ lots) : ((Quantity.ofLots lots.toNat).lots : ℤ) ≤ lots := by
  have hmod : (Quantity.ofLots lots.toNat).lots ≤ lots.toNat := Nat.mod_le _ _
  omega

/-- A fill is of a candidate, and takes no more than it has. -/
theorem mem_adlFills (h : ∀ c ∈ candidates, 0 < c.availableQuantity) {fill : AdapterUserId × ℤ}
    (hfill : fill ∈ adlFills remaining candidates) : ∃ c ∈ candidates, c.key.userId = fill.1 ∧
      0 ≤ fill.2 ∧ fill.2 ≤ c.availableQuantity := by
  obtain ⟨served, hserved, rfl⟩ := List.mem_map.1 hfill
  have hamount := greedy_amount h hserved
  exact ⟨served.1, mem_of_mem_greedy hserved, rfl, Int.natCast_nonneg _,
    (ofLots_le hamount.1.le).trans hamount.2⟩

theorem sum_adlFills_le (h : ∀ c ∈ candidates, 0 < c.availableQuantity) (hremaining : 0 ≤ remaining)
    (hstarts : fills <+: adlFills remaining candidates) : (fills.map (·.2)).sum ≤ remaining := by
  have hall : ((adlFills remaining candidates).map (·.2)).sum ≤ remaining := by
    refine le_trans ?_ ((greedy_total h hremaining).le.trans (min_le_left _ _))
    unfold adlFills
    rw [List.map_map]
    exact List.sum_le_sum fun served hserved => ofLots_le (greedy_amount h hserved).1.le
  obtain ⟨rest, hrest⟩ := hstarts
  have hnonneg : 0 ≤ (rest.map (·.2)).sum := by
    apply List.sum_nonneg
    intro lots hlots
    obtain ⟨fill, hfill, rfl⟩ := List.mem_map.1 hlots
    obtain ⟨-, -, -, hamount, -⟩ := mem_adlFills h (hrest ▸ List.mem_append_right _ hfill)
    exact hamount
  rw [← hrest, List.map_append, List.sum_append] at hall
  omega

/-- These fills were made, and nothing else. -/
structure Filled (side : AdapterSide) (key : PositionRiskKey) (state : TranslationState)
    (fills : List (AdapterUserId × ℤ)) (state' : TranslationState) : Prop where
  store : state'.ledger.metadataStore = state.ledger.metadataStore
  signed : state'.ledger.signed =
    Transfer.settle state.ledger.signed (adlTransfers side key fills)

theorem Filled.nothing : Filled side key state [] state := ⟨rfl, rfl⟩

theorem Filled.cons {mid : TranslationState} {userId : AdapterUserId} {lots : ℤ}
    (h : Filled side key mid fills state')
    (hstore : mid.ledger.metadataStore = state.ledger.metadataStore)
    (hsigned : mid.ledger.signed =
      (takerTransfer side key ⟨userId, key.marketId⟩ lots).apply state.ledger.signed) :
    Filled side key state ((userId, lots) :: fills) state' :=
  ⟨h.store.trans hstore, h.signed.trans (congrArg (Transfer.settle · _) hsigned)⟩

/-- What a round of ADL fills did: it filled these users, in all at most so much, took the store
back to what it was, and left every counterparty facing the order still. -/
structure Deleverages (side : AdapterSide) (key : PositionRiskKey) (candidates : List AdlCandidate)
    (limit : ℤ) (state : TranslationState) (fills : List (AdapterUserId × ℤ))
    (state' : TranslationState) : Prop where
  store : state'.ledger.metadataStore = state.ledger.metadataStore
  signed : state'.ledger.signed =
    Transfer.settle state.ledger.signed (adlTransfers side key fills)
  amounts : ∀ fill ∈ fills, 0 ≤ fill.2
  total : (fills.map (·.2)).sum ≤ limit
  users : ∀ fill ∈ fills, ∃ c ∈ candidates, c.key.userId = fill.1
  facing : ∀ c ∈ candidates, Facing (oppositeSide side) (state'.ledger.signed c.key)

theorem AdlCandidate.Faces.key_eq {c : AdlCandidate} {signed : PositionRiskKey → ℤ}
    (h : c.Faces side key signed) : c.key = ⟨c.key.userId, key.marketId⟩ := by
  rw [← h.market]

theorem AdlCandidate.Faces.open {c : AdlCandidate} {signed : PositionRiskKey → ℤ}
    (h : c.Faces side key signed) : signed c.key ≠ 0 := by
  have havailable := h.available
  rw [h.size]
  unfold sideLots
  cases side <;> dsimp only <;> omega

/-- Fills in the order of the candidates, some of the first ones or all. -/
theorem Filled.deleverages (h : Filled side key state fills state')
    (hfaces : ∀ c ∈ candidates, c.Faces side key state.ledger.signed)
    (hnodup : (candidates.map (·.key.userId)).Nodup) (hremaining : 0 ≤ remaining)
    (hstarts : fills <+: adlFills remaining candidates) :
    Deleverages side key candidates remaining state fills state' := by
  have havailable := fun c hc => (hfaces c hc).available
  have hfill := fun fill (hfill : fill ∈ fills) => mem_adlFills havailable (hstarts.subset hfill)
  refine ⟨h.store, h.signed, fun fill hf => ?_, sum_adlFills_le havailable hremaining hstarts,
    fun fill hf => ?_, fun c hc => ?_⟩
  · obtain ⟨-, -, -, hamount, -⟩ := hfill fill hf
    exact hamount
  · obtain ⟨c, hc, huser, -⟩ := hfill fill hf
    exact ⟨c, hc, huser⟩
  · have hc' := hfaces c hc
    have hfilled : 0 ≤ filledOf fills c.key.userId ∧
        filledOf fills c.key.userId ≤ c.availableQuantity := by
      by_cases hserved : ∃ fill ∈ fills, fill.1 = c.key.userId
      · obtain ⟨fill, hf, huser⟩ := hserved
        obtain ⟨d, hd, hduser, hamount⟩ := hfill fill hf
        cases List.inj_on_of_nodup_map hnodup hd hc (hduser.trans huser)
        have hdistinct := (nodup_adlFills hnodup remaining).sublist (hstarts.map (·.1)).sublist
        rw [← huser, filledOf_of_mem hdistinct hf]
        exact hamount
      · push Not at hserved
        rw [filledOf_eq_zero hserved]
        exact ⟨le_refl _, hc'.available.le⟩
    have hsize := hc'.size
    rw [hc'.key_eq] at hsize ⊢
    rw [h.signed, settle_adlTransfers_user hc'.user, hsize]
    unfold Facing oppositeSide sideLots
    cases side <;> dsimp only <;> omega

/-- The fills of a liquidation, from the first candidate on. -/
theorem appendAdlFillsFrom_fills (hkind : context.commandKind = .liquidatePosition)
    (hmarket : 0 < input.marketId ∧ input.marketId ≤ 2 ^ 32 - 1)
    (hkey : key.marketId = input.marketId) {signed : PositionRiskKey → ℤ} {orderId : OrderId}
    (candidates : List AdlCandidate) (hfaces : ∀ c ∈ candidates, c.Faces side key signed)
    (remaining rank : ℤ) (state : TranslationState)
    (hpending : ∃ p, state.pending = some p ∧ p.orderId = orderId ∧ p.side = side ∧ p.key = key) :
    Ensures (appendAdlFillsFrom context markPrices input price candidates remaining rank) state
      (fun r state' => projected EventPayload.deleveraged? r.events = adlFills remaining candidates ∧
        Filled side key state (adlFills remaining candidates) state')
      fun state' => (∃ fills, fills <+: adlFills remaining candidates ∧
          Filled side key state fills state') ∧
        ∃ c ∈ candidates, ∃ rank,
          adlOrderIdOf input c rank orderId state.ledger.metadataStore = none := by
  induction candidates generalizing remaining rank state with
  | nil => exact ⟨rfl, .nothing⟩
  | cons c candidates ih =>
    have hfirst := hfaces c List.mem_cons_self
    unfold appendAdlFillsFrom
    apply ensures_ite.2
    refine ⟨fun hdone => ?_, fun hleft => ?_⟩
    · have hnone : adlFills remaining (c :: candidates) = [] := by
        unfold adlFills
        rw [greedy_of_nonpos hdone, List.map_nil]
      rw [hnone]
      exact ⟨rfl, .nothing⟩
    · apply ensures_ite.2
      refine ⟨fun hnone => absurd (lt_min (not_le.1 hleft) hfirst.available) (not_lt.2 hnone),
        fun _ => ?_⟩
      have hcons : adlFills remaining (c :: candidates) = (c.key.userId,
          ((Quantity.ofLots (min remaining c.availableQuantity).toNat).lots : ℤ)) ::
            adlFills (remaining - min remaining c.availableQuantity) candidates := by
        unfold adlFills
        rw [greedy_cons (not_le.1 hleft), List.map_cons]
      obtain ⟨p, hp, rfl, rfl, rfl⟩ := hpending
      rw [ensures_bind, hcons]
      refine (appendAdlFill_transfers hkind hmarket hp hkey hfirst.orderSide).mono
        (fun r mid hfill => ?_) fun mid hfails =>
          ⟨⟨[], List.nil_prefix, hfails.1 ▸ .nothing⟩, c, List.mem_cons_self, rank, hfails.2⟩
      obtain ⟨-, hstore, ⟨p', hp', hcontinues⟩, hsigned, hprojected⟩ := hfill
      rw [← hkey] at hsigned
      have hsame : p'.orderId = p.orderId ∧ p'.side = p.side ∧ p'.key = p.key := by
        rw [hcontinues]
        exact ⟨rfl, rfl, rfl⟩
      rw [ensures_bind]
      refine (ih (fun d hd => hfaces d (List.mem_cons_of_mem _ hd))
        (remaining - min remaining c.availableQuantity) (rank + 1) mid ⟨p', hp', hsame⟩).mono
          (fun rest after h => ?_) fun after h => ?_
      · obtain ⟨hrest, hfilled⟩ := h
        rw [ensures_pure, EngineProcessResult.events_append, projected_append, hprojected, hrest]
        exact ⟨rfl, hfilled.cons hstore hsigned⟩
      · obtain ⟨⟨fills, hstarts, hfilled⟩, d, hd, rank', hnone⟩ := h
        rw [hstore] at hnone
        exact ⟨⟨_, (List.prefix_cons_inj _).2 hstarts, hfilled.cons hstore hsigned⟩, d,
          List.mem_cons_of_mem _ hd, rank', hnone⟩

end Fills
section Candidates
variable {input : LiquidatePositionInput} {ledger : Ledger}

/-- The position a liquidation is about. -/
def LiquidatePositionInput.key (input : LiquidatePositionInput) : PositionRiskKey :=
  ⟨input.liquidatedUserId, input.marketId⟩

/-- The counterparties that a ledger has for a liquidation, in order. -/
def adlCandidatesAt (input : LiquidatePositionInput) (ledger : Ledger) : List AdlCandidate :=
  match ledger.positions[input.key]? with
  | none => []
  | some position => adlCandidatesFor input position ledger

/-- Only users that can trade have open positions. -/
def Ledger.UsersTrade (ledger : Ledger) : Prop :=
  ∀ key, ledger.signed key ≠ 0 → 0 ≤ key.userId

theorem mem_adlCandidatesFor {position : IsolatedPositionState} {c : AdlCandidate} :
    c ∈ adlCandidatesFor input position ledger ↔ ∃ entry ∈ ledger.positions.toList,
      adlCandidateOf input position ledger.riskStates entry.1 entry.2 = some c := by
  unfold adlCandidatesFor
  rw [List.mem_insertionSort, List.mem_filterMap]

theorem adlCandidateOf_eq_some {position candidatePosition : IsolatedPositionState}
    {key : PositionRiskKey} {c : AdlCandidate}
    (h : adlCandidateOf input position ledger.riskStates key candidatePosition = some c) :
    c.key = key ∧ c.position = candidatePosition ∧ key.marketId = input.marketId ∧
      key.userId ≠ input.liquidatedUserId ∧ candidatePosition.signedQuantity ≠ 0 ∧
      hasOpposingExposure position.signedQuantity candidatePosition.signedQuantity = true ∧
      c.availableQuantity = absQuantity candidatePosition.signedQuantity := by
  unfold adlCandidateOf at h
  split at h
  · cases h
  · rename_i hskip
    push Not at hskip
    obtain ⟨hmarket, huser, hopen, hopposing⟩ := hskip
    split at h
    · cases h
    · split at h
      · cases h
      · cases h
        exact ⟨rfl, rfl, hmarket, huser, hopen, Bool.not_eq_false _ ▸ hopposing, rfl⟩

/-- Every candidate faces an order that reduces the liquidated position. -/
theorem faces_adlCandidatesFor {position : IsolatedPositionState} {side : AdapterSide}
    (hfacing : Facing side position.signedQuantity) {c : AdlCandidate}
    (hc : c ∈ adlCandidatesFor input position ledger) : c.Faces side input.key ledger.signed := by
  obtain ⟨entry, hentry, hof⟩ := mem_adlCandidatesFor.1 hc
  obtain ⟨hkey, hposition, hmarket, huser, hopen, hopposing, havailable⟩ :=
    adlCandidateOf_eq_some hof
  rw [← hkey] at hmarket huser
  have hsigned : ledger.signed c.key = c.position.signedQuantity := by
    unfold Ledger.signed signedAt
    rw [hkey, Std.ExtTreeMap.mem_toList_iff_getElem?_eq_some.1 hentry, hposition]
  rw [← hposition] at hopen hopposing havailable
  unfold hasOpposingExposure at hopposing
  simp only [Bool.or_eq_true, Bool.and_eq_true, decide_eq_true_eq] at hopposing
  unfold Facing at hfacing
  refine ⟨hmarket, huser, ?_, ?_, ?_⟩
  · unfold liquidationOrderSide oppositeSide
    cases side <;> dsimp only at hfacing <;> split_ifs <;> first | rfl | omega
  · rw [havailable]
    unfold absQuantity
    split_ifs <;> omega
  · rw [hsigned, havailable]
    unfold absQuantity sideLots
    cases side <;> dsimp only at hfacing ⊢ <;> split_ifs <;> omega

theorem faces_adlCandidatesAt {side : AdapterSide}
    (hfacing : Facing side (ledger.signed input.key)) {c : AdlCandidate}
    (hc : c ∈ adlCandidatesAt input ledger) : c.Faces side input.key ledger.signed := by
  unfold adlCandidatesAt at hc
  cases hposition : ledger.positions[input.key]? with
  | none =>
    rw [hposition] at hc
    cases hc
  | some position =>
    rw [hposition] at hc
    have hsigned : ledger.signed input.key = position.signedQuantity := by
      unfold Ledger.signed signedAt
      rw [hposition]
    exact faces_adlCandidatesFor (hsigned ▸ hfacing) hc

/-- Nobody faces a position of nothing. -/
theorem adlCandidatesFor_eq_nil {position : IsolatedPositionState}
    (h : position.signedQuantity = 0) : adlCandidatesFor input position ledger = [] := by
  rw [List.eq_nil_iff_forall_not_mem]
  intro c hc
  obtain ⟨entry, -, hof⟩ := mem_adlCandidatesFor.1 hc
  obtain ⟨-, -, -, -, -, hopposing, -⟩ := adlCandidateOf_eq_some hof
  rw [h] at hopposing
  cases hopposing

theorem nodup_adlCandidatesFor (position : IsolatedPositionState) :
    ((adlCandidatesFor input position ledger).map (·.key.userId)).Nodup := by
  unfold adlCandidatesFor
  rw [((List.perm_insertionSort _ _).map _).nodup_iff, List.Nodup, List.pairwise_map,
    List.pairwise_filterMap]
  have hdistinct : ledger.positions.toList.Pairwise fun a b => ¬compare a.1 b.1 = .eq :=
    Std.ExtTreeMap.distinct_keys_toList
  refine hdistinct.imp fun {a b} hne c hc d hd heq => hne ?_
  obtain ⟨hckey, -, hcmarket, -⟩ := adlCandidateOf_eq_some hc
  obtain ⟨hdkey, -, hdmarket, -⟩ := adlCandidateOf_eq_some hd
  rw [Std.LawfulEqCmp.compare_eq_iff_eq]
  rw [hckey, hdkey] at heq
  cases ha : a.1
  cases hb : b.1
  rw [ha] at heq hcmarket
  rw [hb] at heq hdmarket
  rw [PositionRiskKey.mk.injEq]
  exact ⟨heq, hcmarket.trans hdmarket.symm⟩

end Candidates

section Liquidation
variable {context : EngineEventTranslationContext} {markPrices : MarkPrices}
  {input : LiquidatePositionInput} {price : AdapterPrice} {side : AdapterSide}

/-- The ADL fills of a liquidation whose order reduces what is left of the position. -/
theorem appendAdlFills_fills (hkind : context.commandKind = .liquidatePosition)
    (hmarket : 0 < input.marketId ∧ input.marketId ≤ 2 ^ 32 - 1) (remaining : ℤ)
    (state : TranslationState) {orderId : OrderId} (hpending : ∃ p, state.pending = some p ∧
      p.orderId = orderId ∧ p.side = side ∧ p.key = input.key)
    (hfacing : Facing side (state.ledger.signed input.key)) :
    Ensures (appendAdlFills context markPrices input remaining price) state
      (fun r state' => projected EventPayload.deleveraged? r.events =
          adlFills remaining (adlCandidatesAt input state.ledger) ∧
        Filled side input.key state (adlFills remaining (adlCandidatesAt input state.ledger)) state')
      fun state' => (∃ fills, fills <+: adlFills remaining (adlCandidatesAt input state.ledger) ∧
          Filled side input.key state fills state') ∧
        ∃ c ∈ adlCandidatesAt input state.ledger, ∃ rank,
          adlOrderIdOf input c rank orderId state.ledger.metadataStore = none := by
  have hfaces := fun c => @faces_adlCandidatesAt input state.ledger _ hfacing c
  unfold adlCandidatesAt at hfaces ⊢
  unfold appendAdlFills
  rw [ensures_bind, ensures_get]
  unfold LiquidatePositionInput.key at *
  cases hposition : state.ledger.positions[(⟨input.liquidatedUserId, input.marketId⟩ :
      PositionRiskKey)]? with
  | none => exact ⟨rfl, .nothing⟩
  | some position =>
    rw [hposition] at hfaces
    apply ensures_ite.2
    refine ⟨fun hskip => ?_, fun _ => ?_⟩
    · have hnone : adlFills remaining (adlCandidatesFor input position state.ledger) = [] := by
        unfold adlFills
        rcases hskip with hflat | hdone
        · rw [adlCandidatesFor_eq_nil hflat]
          rfl
        · rw [greedy_of_nonpos hdone, List.map_nil]
      rw [hnone]
      exact ⟨rfl, .nothing⟩
    · exact appendAdlFillsFrom_fills hkind hmarket rfl _ hfaces remaining 1 state hpending

theorem nodup_adlCandidatesAt (input : LiquidatePositionInput) (ledger : Ledger) :
    ((adlCandidatesAt input ledger).map (·.key.userId)).Nodup := by
  unfold adlCandidatesAt
  split
  · exact List.nodup_nil
  · exact nodup_adlCandidatesFor _

theorem appendAdlFills_deleverages (hkind : context.commandKind = .liquidatePosition)
    (hmarket : 0 < input.marketId ∧ input.marketId ≤ 2 ^ 32 - 1)
    (remaining : ℤ) (hremaining : 0 ≤ remaining) (state : TranslationState)
    (hpending : ∃ p, state.pending = some p ∧ p.side = side ∧ p.key = input.key)
    (hfacing : Facing side (state.ledger.signed input.key)) :
    Ensures (appendAdlFills context markPrices input remaining price) state
      (fun r state' => Deleverages side input.key (adlCandidatesAt input state.ledger) remaining
        state (projected EventPayload.deleveraged? r.events) state')
      fun state' => ∃ fills, Deleverages side input.key (adlCandidatesAt input state.ledger)
        remaining state fills state' := by
  have hfaces := fun c => @faces_adlCandidatesAt input state.ledger _ hfacing c
  have hnodup := nodup_adlCandidatesAt input state.ledger
  obtain ⟨p, hp, hside, hkey⟩ := hpending
  refine (appendAdlFills_fills hkind hmarket remaining state ⟨p, hp, rfl, hside, hkey⟩ hfacing).mono
    (fun r state' h => ?_) fun state' h => ?_
  · obtain ⟨hfills, hfilled⟩ := h
    rw [hfills]
    exact hfilled.deleverages hfaces hnodup hremaining List.prefix_rfl
  · obtain ⟨⟨fills, hstarts, hfilled⟩, -⟩ := h
    exact ⟨fills, hfilled.deleverages hfaces hnodup hremaining hstarts⟩

end Liquidation
end PerpexEngine
