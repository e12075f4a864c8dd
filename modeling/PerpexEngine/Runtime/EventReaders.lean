import PerpexEngine.Lib.Postings
import PerpexEngine.Runtime.MarketBalance

/-! What a reader of the event stream knows of positions, risk and money, and that every fill tells
it. -/
namespace PerpexEngine
open Program

/-- The times of the last changes stay in the engine. -/
def IsolatedPositionState.untimed (position : IsolatedPositionState) : IsolatedPositionState :=
  { position with updatedAtMs := 0 }

def IsolatedRiskState.untimed (risk : IsolatedRiskState) : IsolatedRiskState :=
  { risk with updatedAtMs := 0 }

/-- What the open lots of a position were worth when they were taken, at its average. -/
def IsolatedPositionState.entryValue (position : IsolatedPositionState) : ℤ :=
  position.averageEntryPrice * position.signedQuantity

/-- What the division cuts off when lots are added to a position at a price. -/
def IsolatedPositionState.cutOff (position : IsolatedPositionState) (lots price : ℤ) : ℤ :=
  if sameDirection position.signedQuantity lots
  then (position.entryValue + price * lots).tmod (position.signedQuantity + lots)
  else 0

/-- The equity that is neither margin nor profit. -/
def adjustmentOf : Option IsolatedRiskState → ℤ
  | none => 0
  | some risk => risk.equity - (risk.isolatedMargin + risk.unrealizedPnl)

/-- What payments of one market come to for a user. -/
def paidTo (userId : AdapterUserId) (payments : List FundingPayment) : ℤ :=
  ((payments.filter (·.userId = userId)).map (·.amount)).sum

/-- What of an event a reader looks at. -/
def EngineEventRecord.told (e : EngineEventRecord) : MarketId × EventPayload :=
  (e.marketId, e.payload)

/-- A reader keeps the last position and risk told of every user and market, the funding told since
the last fill, and three journals: the account deltas, the prices of the lots filled, and what was
cut off of averages. -/
structure EventReader where
  positions : Std.ExtTreeMap PositionRiskKey IsolatedPositionState
  riskStates : Std.ExtTreeMap PositionRiskKey IsolatedRiskState
  funded : PositionRiskKey → ℤ
  credits : List (Posting PositionRiskKey)
  costs : List (Posting PositionRiskKey)
  cuts : List (Posting PositionRiskKey)

namespace EventReader

def new : EventReader := ⟨∅, ∅, fun _ => 0, [], [], []⟩

def positionAt (reader : EventReader) (key : PositionRiskKey) : IsolatedPositionState :=
  reader.positions.getD key IsolatedPositionState.none

/-- A position told under a key, after a fill at a price. -/
def change (reader : EventReader) (key : PositionRiskKey) (p : PositionChangedPayload) :
    EventReader :=
  let before := reader.positionAt key
  let lots := p.position.signedQuantity - before.signedQuantity
  { reader with
    positions := reader.positions.insert key p.position.untimed
    funded := Function.update reader.funded key 0
    costs := reader.costs ++ [⟨key, p.lastFillPrice * lots⟩]
    cuts := reader.cuts ++ [⟨key, before.cutOff lots p.lastFillPrice⟩] }

def tell (reader : EventReader) (marketId : MarketId) : EventPayload → EventReader
  | .accountDelta p =>
    { reader with credits := reader.credits ++ [⟨⟨p.userId, marketId⟩, p.totalDelta⟩] }
  | .positionChanged p => reader.change ⟨p.position.userId, marketId⟩ p
  | .riskStateUpdated risk =>
    { reader with riskStates := reader.riskStates.insert ⟨risk.userId, marketId⟩ risk.untimed }
  | .fundingPaymentApplied _ payments =>
    { reader with funded := fun key =>
        reader.funded key + if key.marketId = marketId then paidTo key.userId payments else 0 }
  | _ => reader

def tells (reader : EventReader) (told : List (MarketId × EventPayload)) : EventReader :=
  told.foldl (fun reader t => reader.tell t.1 t.2) reader

def reads (reader : EventReader) (events : List EngineEventRecord) : EventReader :=
  reader.tells (events.map (·.told))

end EventReader

/-- The entry value of a key, nothing where there is no position. -/
def Ledger.entryValue (ledger : Ledger) (key : PositionRiskKey) : ℤ :=
  (ledger.positions.getD key IsolatedPositionState.none).entryValue

/-- The reader knows what the ledger has, and its sums account for it: fills and account deltas for
the entry values, funding for the equities. -/
structure EventReader.Shows (reader : EventReader) (ledger : Ledger) : Prop where
  positions : ∀ key : PositionRiskKey,
    reader.positions[key]? = (ledger.positions[key]?).map (·.untimed)
  riskStates : ∀ key : PositionRiskKey,
    reader.riskStates[key]? = (ledger.riskStates[key]?).map (·.untimed)
  funded : ∀ key, reader.funded key = adjustmentOf ledger.riskStates[key]?
  profit : ∀ key, Posting.balance reader.credits key + Posting.balance reader.costs key =
    ledger.entryValue key + Posting.balance reader.cuts key

/-- Whoever knew what the ledger has and is told this knows what it has after. -/
def Ledger.Told (ledger : Ledger) (told : List (MarketId × EventPayload)) (ledger' : Ledger) :
    Prop :=
  ledger.Filed → ledger'.Filed ∧
    ∀ reader : EventReader, reader.Shows ledger → (reader.tells told).Shows ledger'

def Ledger.Tells (ledger : Ledger) (events : List EngineEventRecord) (ledger' : Ledger) : Prop :=
  ledger.Told (events.map (·.told)) ledger'

section Reading
variable {reader : EventReader} {ledger ledger' : Ledger}

theorem EventReader.tells_append (xs ys : List (MarketId × EventPayload)) :
    reader.tells (xs ++ ys) = (reader.tells xs).tells ys := List.foldl_append

/-- Other payloads tell a reader nothing. -/
theorem EventReader.tell_plain (marketId : MarketId) {payload : EventPayload} (h : payload.Plain) :
    reader.tell marketId payload = reader := by
  cases payload <;> first | rfl | exact h.elim

theorem EventReader.Shows.of_eq (h : reader.Shows ledger)
    (hpositions : ledger'.positions = ledger.positions)
    (hrisks : ledger'.riskStates = ledger.riskStates) : reader.Shows ledger' := by
  have hvalue : ledger'.entryValue = ledger.entryValue := by
    unfold Ledger.entryValue
    rw [hpositions]
  exact ⟨hpositions ▸ h.positions, hrisks ▸ h.riskStates, hrisks ▸ h.funded, hvalue ▸ h.profit⟩

theorem EventReader.Shows.new (config : EngineRuntimeConfig) :
    EventReader.new.Shows (EngineRuntime.new config).ledger where
  positions _ := rfl
  riskStates _ := rfl
  funded _ := rfl
  profit _ := rfl

theorem Ledger.Tells.of_eq (hpositions : ledger'.positions = ledger.positions)
    (hrisks : ledger'.riskStates = ledger.riskStates) : ledger.Tells [] ledger' := by
  intro hfiled
  refine ⟨?_, fun reader h => h.of_eq hpositions hrisks⟩
  unfold Ledger.Filed
  rw [hpositions]
  exact hfiled

theorem tellsRule : TraceRule Ledger.Tells where
  nothing _ := .of_eq rfl rfl
  append := by
    intro l l' l'' xs ys h h' hfiled
    obtain ⟨hfiled', hshows⟩ := h hfiled
    obtain ⟨hfiled'', hshows'⟩ := h' hfiled'
    refine ⟨hfiled'', fun reader hreader => ?_⟩
    rw [List.map_append, EventReader.tells_append]
    exact hshows' _ (hshows reader hreader)

theorem Ledger.Tells.event (ledger : Ledger) {e : EngineEventRecord} (h : e.payload.Plain) :
    ledger.Tells [e] (ledger.afterEvent e.marketId) := by
  intro hfiled
  refine ⟨hfiled, fun reader hreader => ?_⟩
  have hsame : reader.tells ([e].map (·.told)) = reader := EventReader.tell_plain e.marketId h
  rw [hsame]
  exact hreader.of_eq rfl rfl

end Reading
section Fills

theorem sameDirection_iff {x y : ℤ} :
    sameDirection x y = true ↔ 0 < x ∧ 0 < y ∨ x < 0 ∧ y < 0 := by
  simp [sameDirection]

theorem tdiv_absQuantity {x y : ℤ} (h : sameDirection x y = true) (a price : ℤ) :
    (a * absQuantity x + price * absQuantity y).tdiv (absQuantity x + absQuantity y) =
      (a * x + price * y).tdiv (x + y) := by
  unfold absQuantity
  rcases sameDirection_iff.1 h with ⟨hx, hy⟩ | ⟨hx, hy⟩
  · rw [if_neg hx.not_gt, if_neg hy.not_gt]
  · rw [if_pos hx, if_pos hy]
    have hn : a * -x + price * -y = -(a * x + price * y) := by ring
    have hd : -x + -y = -(x + y) := by ring
    rw [hn, hd, Int.neg_tdiv_neg]

/-- The lots that a fill on the other side closes, with the sign of the position. -/
theorem closedQuantity_eq {q lots : ℤ} (h : ¬sameDirection q lots = true) :
    min (absQuantity q) (absQuantity lots) =
      if 0 < q then (if sameDirection q (q + lots) = true then -lots else q)
      else -if sameDirection q (q + lots) = true then -lots else q := by
  rw [sameDirection_iff] at h
  by_cases hleft : sameDirection q (q + lots) = true
  · simp only [hleft, ↓reduceIte]
    rw [sameDirection_iff] at hleft
    unfold absQuantity
    split_ifs <;> omega
  · simp only [hleft, Bool.false_eq_true, ↓reduceIte]
    rw [sameDirection_iff] at hleft
    unfold absQuantity
    split_ifs <;> omega

/-- A fill pays for the change of the entry value, realized profit and what is cut off aside. -/
theorem entryValue_filled (position : IsolatedPositionState) (lots price margin : ℤ) :
    (filledAverageAndMargin position lots price margin).1 * (position.signedQuantity + lots) +
        position.cutOff lots price =
      position.entryValue + price * lots + realizedPnlForFill position lots price := by
  unfold filledAverageAndMargin realizedPnlForFill IsolatedPositionState.cutOff
    IsolatedPositionState.entryValue
  generalize position.signedQuantity = q
  generalize position.averageEntryPrice = a
  generalize position.isolatedMargin = m
  by_cases hflat : q = 0
  · simp [hflat, sameDirection]
  · by_cases hadds : sameDirection q lots = true
    · simp only [hflat, hadds, ↓reduceIte, or_true, tdiv_absQuantity hadds]
      rw [mul_comm, Int.mul_tdiv_add_tmod]
      ring
    · simp only [hflat, hadds, or_self, Bool.false_eq_true, ↓reduceIte, closedQuantity_eq hadds]
      by_cases hgone : q + lots = 0
      · have hlots : lots = -q := by omega
        simp [hlots, sameDirection]
        split_ifs <;> ring
      · simp only [hgone, ↓reduceIte]
        split_ifs <;> ring

variable {reader : EventReader} {ledger : Ledger} {markPrices : MarkPrices}

/-- What is emitted of a fill, all in the market of the order. -/
def FillLeg.payloads (leg : FillLeg) (trade : TradeExecuted)
    (context : EngineEventTranslationContext) : List EventPayload :=
  (if leg.realizedPnl ≠ 0 then [.accountDelta (accountDeltaPayload leg.metadata
    leg.previousPosition trade leg.realizedPnl context)] else []) ++
  [.positionChanged (positionChangedPayload leg.position trade.quantity.lots trade.price.ticks
      leg.realizedPnl leg.risk.markPrice context),
    .riskStateUpdated leg.risk]

/-- A fill that realizes nothing is not credited. -/
def EventReader.credit (reader : EventReader) (key : PositionRiskKey) (amount : ℤ) : EventReader :=
  { reader with credits := reader.credits ++ if amount ≠ 0 then [⟨key, amount⟩] else [] }

theorem EventReader.balance_credit (reader : EventReader) (account key : PositionRiskKey)
    (amount : ℤ) : Posting.balance (reader.credit account amount).credits key =
      Posting.balance reader.credits key + if account = key then amount else 0 := by
  unfold EventReader.credit
  rw [Posting.balance_append]
  by_cases hnone : amount = 0
  · simp [hnone]
  · simp [hnone]

theorem Ledger.entryValue_putLeg (ledger : Ledger) (leg : FillLeg) (key : PositionRiskKey) :
    (ledger.putLeg leg).entryValue key =
      if leg.key = key then leg.position.entryValue else ledger.entryValue key := by
  unfold Ledger.entryValue Ledger.putLeg
  dsimp only
  rw [Std.ExtTreeMap.getD_insert]
  simp only [Std.LawfulEqCmp.compare_eq_iff_eq]
  split_ifs <;> rfl

theorem EventReader.Shows.positionAt (h : reader.Shows ledger) (key : PositionRiskKey) :
    reader.positionAt key =
      (ledger.positions.getD key IsolatedPositionState.none).untimed := by
  unfold EventReader.positionAt
  rw [Std.ExtTreeMap.getD_eq_getD_getElem?, Std.ExtTreeMap.getD_eq_getD_getElem?, h.positions key]
  cases ledger.positions[key]? <;> rfl

/-- A reader of what a fill tells knows the position and the risk it leaves. -/
theorem EventReader.Shows.fill (h : reader.Shows ledger) (metadata : OrderMetadata)
    (trade : TradeExecuted) (timestampMs : ℤ) (context : EngineEventTranslationContext)
    {leg : FillLeg} (hleg : leg = fillLeg markPrices ledger metadata trade.quantity.lots
      trade.price.ticks timestampMs) :
    (reader.tells ((leg.payloads trade context).map (metadata.marketId, ·))).Shows
      (ledger.putLeg leg) := by
  have hkey : leg.key = ⟨metadata.userId, metadata.marketId⟩ := by
    rw [hleg]
    rfl
  have hold : ledger.positions.getD leg.key IsolatedPositionState.none = leg.previousPosition := by
    rw [hkey, hleg]
    rfl
  have hbefore : (reader.credit leg.key leg.realizedPnl).positionAt leg.key =
      leg.previousPosition.untimed := hold ▸ h.positionAt leg.key
  have hread : reader.tells ((leg.payloads trade context).map (metadata.marketId, ·)) =
      { (reader.credit leg.key leg.realizedPnl).change leg.key (positionChangedPayload leg.position
          trade.quantity.lots trade.price.ticks leg.realizedPnl leg.risk.markPrice context) with
        riskStates := reader.riskStates.insert leg.key leg.risk.untimed } := by
    unfold FillLeg.payloads EventReader.credit
    rw [hkey, hleg]
    split_ifs
    · rfl
    · rw [List.append_nil]
      rfl
  have hvalue : leg.position.entryValue +
        leg.previousPosition.cutOff (leg.position.signedQuantity -
          leg.previousPosition.signedQuantity) trade.price.ticks =
      leg.previousPosition.entryValue + trade.price.ticks * (leg.position.signedQuantity -
        leg.previousPosition.signedQuantity) + leg.realizedPnl := by
    have hlots : leg.position.signedQuantity - leg.previousPosition.signedQuantity =
        signedFillQuantity metadata trade.quantity.lots := by
      rw [hleg]
      exact add_sub_cancel_left _ _
    rw [hlots, hleg]
    exact entryValue_filled _ _ _ _
  have hflat : adjustmentOf (some leg.risk) = 0 := by
    rw [hleg]
    exact sub_self _
  rw [hread]
  refine ⟨fun key => ?_, fun key => ?_, fun key => ?_, fun key => ?_⟩
  · unfold EventReader.change Ledger.putLeg
    dsimp only
    rw [Std.ExtTreeMap.getElem?_insert, Std.ExtTreeMap.getElem?_insert]
    split_ifs
    · rfl
    · exact h.positions key
  · unfold Ledger.putLeg
    dsimp only
    rw [Std.ExtTreeMap.getElem?_insert, Std.ExtTreeMap.getElem?_insert]
    split_ifs
    · rfl
    · exact h.riskStates key
  · unfold EventReader.change Ledger.putLeg
    dsimp only
    rw [Std.ExtTreeMap.getElem?_insert, Function.update_apply]
    by_cases hsame : key = leg.key
    · rw [if_pos hsame, if_pos (Std.LawfulEqCmp.compare_eq_iff_eq.2 hsame.symm), hflat]
    · rw [if_neg hsame, if_neg fun heq => hsame (Std.LawfulEqCmp.compare_eq_iff_eq.1 heq).symm]
      exact h.funded key
  · have hprofit := h.profit key
    have hcredited := reader.balance_credit leg.key key leg.realizedPnl
    rw [ledger.entryValue_putLeg]
    unfold EventReader.change
    dsimp only
    rw [hbefore, hcredited]
    simp only [Posting.balance_append, Posting.balance_cons, Posting.balance_nil, add_zero]
    have hothers : (reader.credit leg.key leg.realizedPnl).costs = reader.costs ∧
        (reader.credit leg.key leg.realizedPnl).cuts = reader.cuts := ⟨rfl, rfl⟩
    rw [hothers.1, hothers.2]
    by_cases hsame : leg.key = key
    · subst hsame
      have hentry : ledger.entryValue leg.key = leg.previousPosition.entryValue := by
        unfold Ledger.entryValue
        rw [hold]
      rw [hentry] at hprofit
      simp only [↓reduceIte]
      change _ + leg.realizedPnl + (_ + trade.price.ticks * (leg.position.signedQuantity -
        leg.previousPosition.signedQuantity)) = leg.position.entryValue + (_ +
          leg.previousPosition.cutOff (leg.position.signedQuantity -
            leg.previousPosition.signedQuantity) trade.price.ticks)
      linarith only [hprofit, hvalue]
    · simp only [hsame, ↓reduceIte, add_zero]
      exact hprofit

theorem Ledger.Filed.putLeg (h : ledger.Filed) (metadata : OrderMetadata)
    (quantity price timestampMs : ℤ) :
    (ledger.putLeg (fillLeg markPrices ledger metadata quantity price timestampMs)).Filed := by
  intro key position hposition
  unfold Ledger.putLeg at hposition
  dsimp only at hposition
  rw [Std.ExtTreeMap.getElem?_insert] at hposition
  split_ifs at hposition with hkey
  · rw [Std.LawfulEqCmp.compare_eq_iff_eq] at hkey
    subst hkey
    cases hposition
    exact ⟨rfl, rfl⟩
  · exact h key position hposition

end Fills
section Programs

/-- The same positions and risk states. -/
structure Ledger.SameRisk (ledger ledger' : Ledger) : Prop where
  positions : ledger'.positions = ledger.positions
  riskStates : ledger'.riskStates = ledger.riskStates

theorem Ledger.SameRisk.refl (ledger : Ledger) : ledger.SameRisk ledger := ⟨rfl, rfl⟩

theorem Ledger.SameRisk.trans {l l' l'' : Ledger} (h : l.SameRisk l') (h' : l'.SameRisk l'') :
    l.SameRisk l'' := ⟨h'.positions.trans h.positions, h'.riskStates.trans h.riskStates⟩

theorem Ledger.Told.congr {l l' l'' : Ledger} {told : List (MarketId × EventPayload)}
    (h : l.Told told l') (hsame : l'.SameRisk l'') : l.Told told l'' := by
  intro hfiled
  obtain ⟨hfiled', hshows⟩ := h hfiled
  refine ⟨?_, fun reader hreader => (hshows reader hreader).of_eq hsame.positions hsame.riskStates⟩
  unfold Ledger.Filed
  rw [hsame.positions]
  exact hfiled'

/-- What a program that threw had to tell can be put in events. -/
theorem Ledger.Told.exists_tells {l l' : Ledger} {told : List (MarketId × EventPayload)}
    (h : l.Told told l') (source : SourceFields) : ∃ events, l.Tells events l' := by
  refine ⟨told.map fun t => ⟨t.1, 0, [], 0, source, none, t.2⟩, ?_⟩
  unfold Ledger.Tells
  rw [List.map_map]
  exact (List.map_id told).symm ▸ h

theorem ensures_makeMarketEvent_told (ledger : Ledger) (marketId : MarketId) (source : SourceFields)
    (requestId : Option Text) (payload : EventPayload) :
    Ensures (makeMarketEvent marketId source requestId payload) ledger
      (fun e ledger' => e.told = (marketId, payload) ∧ ledger.SameRisk ledger')
      fun ledger' => ledger.SameRisk ledger' := by
  refine (ensures_makeMarketEvent ledger marketId source requestId payload).mono ?_ ?_
  · rintro e _ ⟨-, rfl, rfl, rfl⟩
    exact ⟨rfl, rfl, rfl⟩
  · rintro _ ⟨-, rfl⟩
    exact .refl _

theorem ensures_makeEvent_told (context : EngineEventTranslationContext) (marketId : MarketId)
    (payload : EventPayload) (s : TranslationState) : Ensures (makeEvent context marketId payload) s
      (fun r t => r.events.map (·.told) = [(marketId, payload)] ∧ s.ledger.SameRisk t.ledger)
      fun t => s.ledger.SameRisk t.ledger := by
  unfold makeEvent onLedger
  rw [ensures_map, ensures_zoom]
  refine (ensures_makeMarketEvent_told _ _ _ _ _).mono ?_ fun _ h => h
  rintro e _ ⟨htold, hsame⟩
  exact ⟨congrArg (fun t => [t]) htold, hsame⟩

theorem ensures_emitWhen_told (c : Prop) [Decidable c] (context : EngineEventTranslationContext)
    (marketId : MarketId) (payload : EventPayload) (s : TranslationState) :
    Ensures (emitWhen c (makeEvent context marketId payload)) s
      (fun r t => r.events.map (·.told) = (if c then [payload] else []).map (marketId, ·) ∧
        s.ledger.SameRisk t.ledger)
      fun t => s.ledger.SameRisk t.ledger := by
  unfold emitWhen
  split_ifs
  · exact ensures_makeEvent_told _ _ _ _
  · exact ⟨rfl, .refl _⟩

theorem sameRisk_putMetadata (orderId : OrderId) (metadata : OrderMetadata) (s : TranslationState) :
    s.ledger.SameRisk (putMetadata orderId metadata s).ledger := by
  unfold putMetadata
  split
  · split_ifs <;> exact ⟨rfl, rfl⟩
  · exact ⟨rfl, rfl⟩

theorem sameRisk_putFillLeg (orderId : OrderId) (leg : FillLeg) (s : TranslationState) :
    (s.ledger.putLeg leg).SameRisk (putFillLeg orderId leg s).ledger := by
  obtain ⟨hpositions, hrisks⟩ := sameRisk_putMetadata orderId leg.metadata s
  unfold putFillLeg Ledger.putLeg
  dsimp only
  rw [hpositions, hrisks]
  exact ⟨rfl, rfl⟩

/-- The fill of an order, with all it tells. -/
theorem tells_appendFillLeg (context : EngineEventTranslationContext) (markPrices : MarkPrices)
    (trade : TradeExecuted) (timestampMs : ℤ) (orderId : OrderId) :
    Emits TranslationState.ledger (·.events) Ledger.Tells
      (appendFillLeg context markPrices trade timestampMs orderId) := by
  intro s
  unfold EmitsFrom appendFillLeg
  rw [ensures_bind, ensures_get]
  split
  · exact tellsRule.nothing _
  · rename_i metadata hfound
    have htold : s.ledger.Told (((fillLeg markPrices s.ledger metadata trade.quantity.lots
        trade.price.ticks timestampMs).payloads trade context).map (metadata.marketId, ·))
        (s.ledger.putLeg (fillLeg markPrices s.ledger metadata trade.quantity.lots
          trade.price.ticks timestampMs)) := fun hfiled =>
      ⟨hfiled.putLeg metadata _ _ _, fun reader h => h.fill metadata trade timestampMs context rfl⟩
    dsimp only
    have hmarket : (fillLeg markPrices s.ledger metadata trade.quantity.lots trade.price.ticks
        timestampMs).position.marketId = metadata.marketId ∧ (fillLeg markPrices s.ledger metadata
          trade.quantity.lots trade.price.ticks timestampMs).risk.marketId = metadata.marketId :=
      ⟨rfl, rfl⟩
    rw [hmarket.1, hmarket.2]
    generalize fillLeg markPrices s.ledger metadata trade.quantity.lots trade.price.ticks
      timestampMs = leg at htold ⊢
    have hput := sameRisk_putFillLeg orderId leg s
    have hlost : ∀ t : TranslationState, (putFillLeg orderId leg s).ledger.SameRisk t.ledger →
        ∃ events, s.ledger.Tells events t.ledger := fun t ht =>
      (htold.congr (hput.trans ht)).exists_tells (sourceFields context.source context.inputId)
    rw [ensures_bind, ensures_set]
    apply ensures_bind.2
    refine (ensures_emitWhen_told _ context _ _ _).mono (fun a t ha => ?_) fun t ht => hlost t ht
    apply ensures_bind.2
    refine (ensures_makeEvent_told context _ _ t).mono (fun b u hb => ?_)
      fun u hu => hlost u (ha.2.trans hu)
    apply ensures_bind.2
    refine (ensures_makeEvent_told context _ _ u).mono (fun c v hc => ?_)
      fun v hv => hlost v ((ha.2.trans hb.2).trans hv)
    rw [ensures_pure]
    have hevents : (a ++ b ++ c).events.map (·.told) =
        (leg.payloads trade context).map (metadata.marketId, ·) := by
      rw [EngineProcessResult.events_append, EngineProcessResult.events_append, List.map_append,
        List.map_append, ha.1, hb.1, hc.1]
      unfold FillLeg.payloads
      rw [List.map_append, List.append_assoc]
      rfl
    unfold Ledger.Tells
    rw [hevents]
    exact htold.congr (hput.trans ((ha.2.trans hb.2).trans hc.2))

end Programs
end PerpexEngine
