import PerpexEngine.Runtime.ReduceOnly

/-! An order is reported open exactly when the core left it in its book. -/
namespace PerpexEngine
open Program

namespace QueueBook
variable {s s' : MatchState} {events : List EngineEvent}

theorem mem_filledOrderIds_fillEvents (symbolId : SymbolId) (g : SequenceGenerator)
    (maker incoming : OrderSnapshot) (f total : Quantity) (id : OrderId) :
    id ∈ filledOrderIds (fillEvents g symbolId maker incoming f total).1 ↔
      (maker.reduce f).isFilled = true ∧ id = maker.orderId ∨
        (incoming.reduce f).isFilled = true ∧ id = incoming.orderId := by
  have hsame : filledOrderIds (fillEvents g symbolId maker incoming f total).1 =
      closedIds (fillEvents g symbolId maker incoming f total).1 := by
    unfold fillEvents fillStatusEvent filledOrderIds closedIds
    split_ifs <;> rfl
  rw [hsame]
  exact mem_closedIds_fillEvents symbolId g maker incoming f total id

theorem filledOrderIds_append (xs ys : List EngineEvent) :
    filledOrderIds (xs ++ ys) = filledOrderIds xs ++ filledOrderIds ys := List.filterMap_append

/-- A fresh incoming order is reported filled by the round that fills it. -/
theorem filled_matchStep (h : matchStep s = some (events, s'))
    (hfresh : ∀ r ∈ s.book.activeOrders, r.orderId ≠ s.incoming.orderId) :
    s.incoming.orderId ∈ filledOrderIds events ↔ s'.incoming.isFilled = true := by
  obtain ⟨maker, others, total, hbefore, -, -, -, hevents, hincoming⟩ := matchStep_active h
  have hmaker := hfresh maker (hbefore.mem_iff.2 List.mem_cons_self)
  have hmem := mem_filledOrderIds_fillEvents s.book.symbolConfig.symbolId s.sequenceGenerator maker
    s.incoming (s.incoming.remainingQuantity.min maker.remainingQuantity) total s.incoming.orderId
  rw [hevents] at hmem
  rw [hmem, hincoming]
  constructor
  · rintro (⟨-, hsame⟩ | ⟨hfilled, -⟩)
    · exact absurd hsame.symm hmaker
    · exact hfilled
  · exact fun hfilled => Or.inr ⟨hfilled, rfl⟩

/-- Matching reports a fresh order filled exactly when nothing of it is left. -/
theorem filled_matchLoop (n : ℕ) (hopen : s.incoming.isFilled = false)
    (hfresh : ∀ r ∈ s.book.activeOrders, r.orderId ≠ s.incoming.orderId) :
    s.incoming.orderId ∈ filledOrderIds (matchLoop n s).1 ↔
      (matchLoop n s).2.incoming.isFilled = true := by
  induction n generalizing s with
  | zero => simp [matchLoop, filledOrderIds, hopen]
  | succ n ih =>
    cases hs : matchStep s with
    | none => simp [matchLoop_of_none hs, filledOrderIds, hopen]
    | some r =>
      obtain ⟨events, t⟩ := r
      have hstep := filled_matchStep hs hfresh
      have hsub := matchStep_subset (·.orderId) (fun _ _ => rfl) hs
      obtain ⟨_, _, _, -, -, -, -, -, hincoming⟩ := matchStep_active hs
      have hid : t.incoming.orderId = s.incoming.orderId := by rw [hincoming]; rfl
      rw [matchLoop_of_some hs, filledOrderIds_append, List.mem_append, hstep]
      cases hfilled : t.incoming.isFilled with
      | true =>
        have hstop : matchStep t = none := by simp [matchStep, hfilled]
        simp [matchLoop_of_none hstop, hfilled]
      | false =>
        have hnext := ih hfilled fun r hr heq => by
          obtain ⟨r', hr', hsame⟩ := List.mem_map.1 (hsub _ (List.mem_map_of_mem hr))
          exact hfresh r' hr' (hsame.trans (heq.trans hid))
        rw [hid] at hnext
        simpa using hnext

/-- An order that its book takes rests there exactly when it may and was not filled. -/
theorem rests_processPlace {book : QueueBook} {command : PlaceOrderCommand}
    (haccepted : book.placeRejection command = none) (g : SequenceGenerator) :
    command.orderId ∈ (book.processPlace command g).2.1.activeOrders.map (·.orderId) ↔
      canRest command = true ∧ command.orderId ∉ filledOrderIds (book.processPlace command g).1 := by
  obtain ⟨hfresh, -⟩ := placeRejection_fresh haccepted
  have hopen : (incomingOrder command g.nextSequence).isFilled = false :=
    isFilled_eq_false.2 (placeRejection_quantity haccepted)
  unfold processPlace
  rw [haccepted]
  dsimp only [matchIncomingOrder]
  have hfilled := @filled_matchLoop ⟨book, incomingOrder command g.nextSequence, g.nextEvent⟩
    ((ordersOf (book.levels (incomingOrder command g.nextSequence).side.opposite)).length + 1)
    hopen hfresh
  have hsub := matchLoop_subset (·.orderId) (fun _ _ => rfl)
    ((ordersOf (book.levels (incomingOrder command g.nextSequence).side.opposite)).length + 1)
    ⟨book, incomingOrder command g.nextSequence, g.nextEvent⟩
  obtain ⟨q, hincoming⟩ := matchLoop_incoming
    ((ordersOf (book.levels (incomingOrder command g.nextSequence).side.opposite)).length + 1)
    ⟨book, incomingOrder command g.nextSequence, g.nextEvent⟩
  generalize matchLoop _ _ = m at hfilled hsub hincoming ⊢
  have hnew : command.orderId ∉ m.2.book.activeOrders.map (·.orderId) := fun hmem => by
    obtain ⟨r, hr, hid⟩ := List.mem_map.1 (hsub _ hmem)
    exact hfresh r hr hid
  have hcons : ∀ xs : List EngineEvent,
      filledOrderIds (acceptedEvent command g :: xs) = filledOrderIds xs := fun _ => rfl
  have hdelta : ∀ (xs : List EngineEvent) d,
      filledOrderIds (xs ++ [.orderBookDelta d]) = filledOrderIds xs := fun xs d => by
    rw [filledOrderIds_append]
    exact List.append_nil _
  change command.orderId ∈ filledOrderIds m.1 ↔ _ at hfilled
  split_ifs with hrests
  · have hown : command.orderId ∈ (restOrder m.2.book
        { m.2.incoming with price := command.price }).activeOrders.map (·.orderId) := by
      refine List.mem_map.2 ⟨_, (restOrder_perm _ _).mem_iff.2 List.mem_cons_self, ?_⟩
      rw [hincoming]
      rfl
    rw [hdelta, hcons, hfilled]
    simpa [hown] using hrests
  · rw [hcons, hfilled]
    simpa [hnew] using hrests

end QueueBook

/-- The core reports a new order in its events exactly as it leaves it in its books. -/
theorem EngineRuntime.InLockstep.rests_placed {rt : EngineRuntime} (h : rt.InLockstep)
    (place : PlaceOrderCommand) :
    (rt.core.process (.placeOrder place)).2.Rests place.orderId ∧ ¬rt.core.Rests place.orderId ↔
      hasOrderAccepted (rt.core.process (.placeOrder place)).1 = true ∧ canRest place = true ∧
        place.orderId ∉ filledOrderIds (rt.core.process (.placeOrder place)).1 := by
  obtain ⟨queues, htracks, hlock⟩ := h
  rw [htracks.events, (htracks.process _).rests_iff, htracks.rests_iff]
  have hprocess : queues.process (.placeOrder place) = queues.processPlaceOrder place := rfl
  rw [hprocess]
  rcases queues.processPlaceOrder_outcome place with ⟨reason, record, heq⟩ |
    ⟨config, book, -, hbook, hvalid, heq⟩
  · rw [heq]
    constructor
    · exact fun ⟨hrests, hnot⟩ => absurd hrests hnot
    · rintro ⟨haccepted, -⟩
      cases haccepted
  · have hlookup : ∀ id : SymbolId, (queues.processPlaceOrder place).2.orderBooks[id]? =
        if id = place.symbolId then some (book.processPlace place queues.sequenceGenerator).2.1
        else queues.orderBooks[id]? := by
      intro id
      rw [heq]
      unfold EngineCore.finish
      dsimp only
      rw [Std.ExtTreeMap.getElem?_insert]
      exact if_congr (Std.LawfulEqCmp.compare_eq_iff_eq.trans eq_comm) rfl rfl
    have hevents : (queues.processPlaceOrder place).1 =
        (book.processPlace place queues.sequenceGenerator).1 := by
      rw [heq]
      rfl
    have hnew : ¬∃ (id : SymbolId) (q : QueueBook), queues.orderBooks[id]? = some q ∧
        place.orderId ∈ q.activeOrders.map (·.orderId) := by
      rintro ⟨id, q, hq, hmem⟩
      obtain ⟨r, hr, hid⟩ := List.mem_map.1 hmem
      have hrecorded := hlock.recorded hq hr
      rw [hid, validatePlaceOrder_fresh hvalid] at hrecorded
      cases hrecorded
    have hrests : (∃ (id : SymbolId) (q : QueueBook),
        (queues.processPlaceOrder place).2.orderBooks[id]? = some q ∧
          place.orderId ∈ q.activeOrders.map (·.orderId)) ↔
        place.orderId ∈ (book.processPlace place
          queues.sequenceGenerator).2.1.activeOrders.map (·.orderId) := by
      refine ⟨fun ⟨id, q, hq, hmem⟩ => ?_, fun hmem => ⟨_, _, (hlookup _).trans (if_pos rfl), hmem⟩⟩
      rw [hlookup] at hq
      split at hq
      · cases hq
        exact hmem
      · exact absurd ⟨id, q, hq, hmem⟩ hnew
    rw [hrests, hevents, and_iff_left hnew]
    cases hrejected : book.placeRejection place with
    | none =>
      rw [QueueBook.rests_processPlace hrejected]
      have haccepted : hasOrderAccepted (book.processPlace place queues.sequenceGenerator).1 =
          true := by
        unfold QueueBook.processPlace
        rw [hrejected]
        dsimp only
        split_ifs <;> rfl
      simp [haccepted]
    | some reason =>
      have hsame : book.processPlace place queues.sequenceGenerator =
          ([makeRejection queues.sequenceGenerator place.commandId (optionalOrderId place.orderId)
            place.userId place.symbolId reason], book, queues.sequenceGenerator.nextEvent) := by
        unfold QueueBook.processPlace
        rw [hrejected]
      rw [hsame]
      constructor
      · exact fun hmem => absurd ⟨_, _, hbook, hmem⟩ hnew
      · rintro ⟨haccepted, -⟩
        cases haccepted

/-- The order that an event reports open. -/
def EventPayload.opened? : EventPayload → Option OrderId
  | orderOpened p => some p.orderId
  | _ => none

theorem sees_opened : Sees EventPayload.opened? some where
  opened _ := rfl
  others payload _ hnot := by
    cases payload with
    | orderOpened p => exact absurd rfl (hnot p)
    | _ => rfl

theorem OrderBook.orderId_of_accepted {book : OrderBook} {command : PlaceOrderCommand}
    {g : SequenceGenerator} {accepted : OrderAccepted}
    (h : .orderAccepted accepted ∈ (book.processPlace command g).1) :
    accepted.orderId = command.orderId := by
  have hfills := (matchLoop_fills (book.orderById.size + 1)
    ⟨book, incomingOrder command g.nextSequence, g.nextEvent⟩).noAnswer
  unfold processPlace at h
  cases hrejected : book.placeRejection command with
  | some reason =>
    rw [hrejected] at h
    cases List.mem_singleton.1 h
  | none =>
    rw [hrejected] at h
    dsimp only [matchIncomingOrder] at h
    generalize matchLoop _ _ = m at hfills h
    have hmatch : .orderAccepted accepted ∉ m.1 := fun hmem => by
      cases hfills _ hmem
    split_ifs at h
    all_goals
      simp only [List.cons_append, List.mem_cons, List.mem_append, List.not_mem_nil, hmatch,
        reduceCtorEq, or_false] at h
      cases h
      rfl

/-- The one order that placing an order may accept is its own. -/
theorem EngineCore.orderId_of_accepted {core : EngineCore OrderBook} {place : PlaceOrderCommand}
    {accepted : OrderAccepted}
    (h : .orderAccepted accepted ∈ (core.process (.placeOrder place)).1) :
    accepted.orderId = place.orderId := by
  simp only [process] at h
  rcases core.processPlaceOrder_outcome place with ⟨reason, record, heq⟩ |
    ⟨config, book, -, -, -, heq⟩
  · rw [heq] at h
    cases List.mem_singleton.1 h
  · rw [heq] at h
    exact OrderBook.orderId_of_accepted h

section Opened
variable {σ α : Type}

/-- The program reports no order open. -/
def OpensNone (out : α → EngineProcessResult) (m : Program Text σ α) : Prop :=
  ∀ s, Ensures m s (fun a _ => projected EventPayload.opened? (out a).events = []) fun _ => True

theorem projectedFills_opened (context : EngineEventTranslationContext)
    (trades : List TradeExecuted) : projectedFills EventPayload.opened? context trades = [] := by
  unfold projectedFills
  split_ifs
  · rw [List.filterMap_eq_nil_iff]
    intro trade _
    unfold liquidationExecutedPayload
    cases context.adl <;> rfl
  · rfl

/-- Only an acceptance is seen, where the context lets the order rest and no fill closed it. -/
theorem PlaceEvents.opened {orderId : OrderId} {g g' : SequenceGenerator}
    {events : List EngineEvent} (h : PlaceEvents orderId g events g')
    (hid : ∀ accepted, .orderAccepted accepted ∈ events → accepted.orderId = orderId)
    (context : EngineEventTranslationContext) (filled : List OrderId) :
    events.flatMap (projectedEvent EventPayload.opened? some context filled) =
      if hasOrderAccepted events = true ∧ context.commandKind ≠ .liquidatePosition ∧
        context.canOpenRestingOrder = true ∧ orderId ∉ filled then [orderId] else [] := by
  cases h with
  | rejected e _ => rfl
  | @accepted e fills _ hfills =>
    have hquiet : fills.flatMap (projectedEvent EventPayload.opened? some context filled) = [] := by
      rw [List.flatMap_eq_nil_iff]
      intro event hevent
      have hno := hfills.noAnswer event hevent
      cases event with
      | tradeExecuted trade => exact projectedFills_opened context [trade]
      | orderAccepted _ => cases hno
      | _ => rfl
    have haccepted : hasOrderAccepted (.orderAccepted e :: fills) = true := rfl
    rw [List.flatMap_cons, hquiet, List.append_nil, haccepted]
    unfold projectedEvent
    dsimp only
    rw [hid e List.mem_cons_self]
    cases hopen : context.canOpenRestingOrder <;> by_cases hmem : orderId ∈ filled <;>
      by_cases hkind : context.commandKind = .liquidatePosition <;> simp [hmem, hkind]

theorem opensNone_makeRuntimeMarketEvent (record : InboundEngineRecord)
    (inputId requestId : Option Text) (marketId : MarketId) {payload : EventPayload}
    (hpayload : payload.opened? = none) :
    OpensNone id (makeRuntimeMarketEvent record inputId requestId marketId payload) := by
  intro l
  unfold makeRuntimeMarketEvent
  rw [ensures_map]
  refine (ensures_makeMarketEvent _ _ _ _ _).mono ?_ fun _ _ => trivial
  rintro e _ ⟨-, -, rfl, -⟩
  change projected EventPayload.opened? [e] = []
  simp [projected, hpayload]

theorem OpensNone.emitWhen {m : Program Text σ EngineProcessResult} {c : Prop} [Decidable c]
    (h : OpensNone id m) : OpensNone id (emitWhen c m) := by
  intro s
  unfold PerpexEngine.emitWhen
  split_ifs
  · exact h s
  · rfl

theorem OpensNone.withLedger {out : α → EngineProcessResult} {m : LedgerM α}
    (h : OpensNone out m) : OpensNone out (withLedger m) := by
  intro rt
  unfold PerpexEngine.withLedger
  rw [ensures_zoom]
  exact h rt.ledger

theorem OpensNone.withPending {m : TranslateM EngineProcessResult} (h : OpensNone id m)
    (pending : Option OrderMetadata) : OpensNone Prod.fst (withPending pending m) := by
  intro l
  unfold PerpexEngine.withPending
  rw [ensures_zoom]
  exact (h _).andThen fun a t ha => ha

section Liquidation
variable {context : EngineEventTranslationContext} (hkind : context.commandKind = .liquidatePosition)
  (markPrices : MarkPrices)

include hkind

theorem opensNone_translate (events : List EngineEvent) :
    OpensNone id (translate context markPrices events) := by
  have hquiet : events.flatMap (projectedEvent EventPayload.opened? some context
      (filledOrderIds events)) = [] := by
    rw [List.flatMap_eq_nil_iff]
    intro event _
    cases event with
    | orderAccepted accepted => exact if_pos (Or.inl hkind)
    | tradeExecuted trade => exact projectedFills_opened context [trade]
    | _ => rfl
  intro s
  exact (projects_translate_sees sees_opened context markPrices events s).mono
    (fun _ _ h => h.trans hquiet) fun _ h => h

theorem opensNone_appendAdlFillsFrom (input : LiquidatePositionInput) (price : AdapterPrice)
    (candidates : List AdlCandidate) (remainingQuantity priorityRank : ℤ) :
    OpensNone id (appendAdlFillsFrom context markPrices input price candidates remainingQuantity
      priorityRank) := by
  induction candidates generalizing remainingQuantity priorityRank with
  | nil => exact fun s => rfl
  | cons candidate candidates ih =>
    intro s
    unfold appendAdlFillsFrom
    apply ensures_ite.2
    refine ⟨fun _ => rfl, fun _ => ?_⟩
    apply ensures_ite.2
    refine ⟨fun _ => ih _ _ s, fun _ => ?_⟩
    have hfill : Ensures (appendAdlFill context markPrices input price candidate
        (min remainingQuantity candidate.availableQuantity) priorityRank) s
        (fun a _ => projected EventPayload.opened? a.events = []) fun _ => True := by
      unfold appendAdlFill
      rw [ensures_bind, ensures_get]
      dsimp only
      split
      · trivial
      · refine ensures_bind_of_forall fun _ t => ensures_bind_of_forall fun _ u => ?_
        have hfills := @opensNone_translate { context with
          adl := some ⟨adlIdFor input.liquidationId priorityRank candidate.key.userId,
            candidate.key.userId, priorityRank⟩ } hkind markPrices
        refine (hfills _ u).andThen fun a v ha => ?_
        exact ensures_bind_of_forall fun _ w => ha
    refine hfill.andThen fun a t ha => (ih _ _ t).andThen fun b u hb => ?_
    simpa [ha] using hb

theorem opensNone_appendAdlFills (input : LiquidatePositionInput) (remainingQuantity : ℤ)
    (price : AdapterPrice) :
    OpensNone id (appendAdlFills context markPrices input remainingQuantity price) := by
  intro s
  unfold appendAdlFills
  rw [ensures_bind, ensures_get]
  split
  · rfl
  · apply ensures_ite.2
    exact ⟨fun _ => rfl, fun _ => opensNone_appendAdlFillsFrom hkind _ _ _ _ _ _ s⟩

omit hkind

theorem opensNone_makeLiquidationEvent (record : InboundEngineRecord)
    (input : LiquidatePositionInput) {payload : EventPayload} (hpayload : payload.opened? = none) :
    OpensNone id (makeLiquidationEvent record input payload) :=
  (opensNone_makeRuntimeMarketEvent _ _ _ _ hpayload).withLedger

include hkind

theorem opensNone_liquidateAgainstBook (record : InboundEngineRecord)
    (input : LiquidatePositionInput) (metadata : OrderMetadata)
    (coreEvents : Option (List EngineEvent)) :
    OpensNone Prod.fst (liquidateAgainstBook record input context metadata coreEvents) := by
  intro rt
  unfold liquidateAgainstBook
  rw [ensures_bind, ensures_get]
  cases coreEvents with
  | none => rfl
  | some events =>
    refine (((opensNone_translate hkind rt.markPrices events).withPending (some metadata)).withLedger
      rt).andThen fun a t ha => ensures_bind_of_forall fun _ u => ?_
    exact ha

theorem opensNone_runLiquidation (record : InboundEngineRecord) (input : LiquidatePositionInput)
    (metadata : OrderMetadata) (coreEvents : Option (List EngineEvent)) (price : AdapterPrice)
    (previousPosition : IsolatedPositionState) (previousRisk : IsolatedRiskState) :
    OpensNone id (runLiquidation record input context metadata coreEvents price previousPosition
      previousRisk) := by
  intro rt
  refine (opensNone_makeLiquidationEvent record input rfl rt).andThen fun started t hstarted => ?_
  refine (opensNone_liquidateAgainstBook hkind record input metadata coreEvents t).andThen
    fun booked u hbooked => ?_
  rw [ensures_bind, ensures_get]
  have hadl : ∀ quantity, OpensNone id (Prod.fst <$> withLedger (withPending booked.2
      (appendAdlFills context u.markPrices input quantity price))) := by
    intro quantity v
    rw [ensures_map]
    exact ((opensNone_appendAdlFills hkind _ _ _ _).withPending _).withLedger v
  refine ((hadl _).emitWhen u).andThen fun deleveraged v hdeleveraged => ?_
  rw [ensures_bind, ensures_get]
  refine (opensNone_makeLiquidationEvent record input rfl v).andThen fun completed w hcompleted => ?_
  rw [ensures_pure]
  simp only [id_eq, EngineProcessResult.events_append, projected_append] at *
  rw [hstarted, hbooked, hdeleveraged, hcompleted]
  rfl

end Liquidation

theorem opensNone_executeLiquidation (record : InboundEngineRecord)
    (input : LiquidatePositionInput) (emitReplies : Bool) :
    OpensNone id (executeLiquidation record input emitReplies) := by
  have hreply : ∀ reply, projected EventPayload.opened? (replyIf emitReplies reply).events = [] := by
    intro reply
    unfold replyIf
    split_ifs <;> rfl
  have hreplies : ∀ result : EngineProcessResult,
      (result.repliesIf emitReplies).events = result.events := by
    intro result
    unfold EngineProcessResult.repliesIf
    split_ifs <;> rfl
  intro rt
  unfold executeLiquidation
  rw [ensures_bind, ensures_get]
  dsimp only
  split
  · exact hreply _
  · split
    · apply ensures_ite.2
      refine ⟨fun _ => hreply _, fun _ => ?_⟩
      refine ensures_bind_of_forall fun orderId t => ensures_bind_of_forall fun mapped u =>
        ensures_bind_of_forall fun coreEvents v => ?_
      apply ensures_ite.2
      refine ⟨fun _ => hreply _, fun _ => ?_⟩
      refine (@opensNone_runLiquidation (liquidationContext record input orderId) rfl record input
        mapped.2 coreEvents _ _ _ v).andThen fun result w hresult => ?_
      rw [ensures_pure, id_eq, hreplies]
      exact hresult
    · trivial

section Automatic
variable (source : InboundEngineRecord) (sourceInputId : Option Text)

theorem opensNone_attemptCandidates (candidates : List AutomaticLiquidationCandidate)
    (progress : LiquidationAttempts) :
    OpensNone Prod.fst (attemptCandidates source sourceInputId candidates progress) := by
  induction candidates generalizing progress with
  | nil => exact fun rt => rfl
  | cons candidate candidates ih =>
    intro rt
    unfold attemptCandidates
    apply ensures_ite.2
    refine ⟨fun _ => rfl, fun _ => ?_⟩
    refine (opensNone_executeLiquidation source _ false rt).andThen fun execution t h => ?_
    apply ensures_ite.2
    refine ⟨fun _ => (ih _ t).andThen fun rest u hrest => ?_, fun _ => h⟩
    simp only [id_eq] at h
    simp [h, hrest]

theorem opensNone_liquidationRounds (marketId : MarketId) (rounds : ℕ)
    (progress : LiquidationAttempts) :
    OpensNone id (liquidationRounds source sourceInputId marketId rounds progress) := by
  induction rounds generalizing progress with
  | zero => exact fun rt => rfl
  | succ rounds ih =>
    intro rt
    unfold liquidationRounds
    apply ensures_ite.2
    refine ⟨fun _ => rfl, fun _ => ?_⟩
    rw [ensures_bind, ensures_get]
    apply ensures_ite.2
    refine ⟨fun _ => rfl, fun _ => ?_⟩
    refine (opensNone_attemptCandidates source sourceInputId _ progress rt).andThen
      fun attempted t h => ?_
    apply ensures_ite.2
    refine ⟨fun _ => (ih _ t).andThen fun rest u hrest => ?_, fun _ => h⟩
    simp only [id_eq] at hrest
    simp [h, hrest]

/-- Liquidations open no orders. -/
theorem opensNone_automatic (marketId : MarketId) :
    OpensNone id (evaluateAutomaticLiquidationsForMarket marketId source sourceInputId) :=
  opensNone_liquidationRounds _ _ _ _ _

end Automatic
end Opened

/-- The result reports the order open. -/
def EngineProcessResult.Opens (result : EngineProcessResult) (orderId : OrderId) : Prop :=
  ∃ event ∈ result.events, ∃ p, event.payload = .orderOpened p ∧ p.orderId = orderId

theorem EngineProcessResult.opens_iff {result : EngineProcessResult} {orderId : OrderId} :
    result.Opens orderId ↔ orderId ∈ projected EventPayload.opened? result.events := by
  unfold Opens projected
  rw [List.mem_filterMap]
  refine exists_congr fun event => and_congr_right fun _ => ?_
  cases event.payload <;> simp [EventPayload.opened?]

/-- The order rests now and did not before. -/
def EngineCore.TakesIn (core core' : EngineCore OrderBook) (orderId : OrderId) : Prop :=
  core'.Rests orderId ∧ ¬core.Rests orderId

theorem EngineCore.takesIn_self {core : EngineCore OrderBook} {orderId : OrderId} :
    ¬core.TakesIn core orderId := fun h => h.2 h.1

/-- The core right after the command that an allowed order gives it, if it gives one. -/
def EngineRuntime.coreAfterCommand (rt : EngineRuntime) (record : InboundEngineRecord)
    (input : PlaceOrderInput) (capped : AdapterQuantity) : EngineCore OrderBook :=
  match mapPlaceOrderToCore (coreInputOf input capped) (receivedSequence record) with
  | .error _ => rt.core
  | .ok (command, _) => (rt.core.process (.placeOrder command)).2

/-- The core right after the command of a placed order; duplicates and reduce-only orders that are
not allowed have none. -/
def EngineRuntime.coreAfterPlacing (rt : EngineRuntime) (record : InboundEngineRecord)
    (input : PlaceOrderInput) : EngineCore OrderBook :=
  match duplicateResultFor rt input.inputId input.envelope.idempotencyKey,
    checkReduceOnlyOrder input rt.ledger with
  | none, .ok capped => rt.coreAfterCommand record input capped
  | _, _ => rt.core

section Placing
variable {rt : EngineRuntime} {record : InboundEngineRecord} {input : PlaceOrderInput}

theorem ensures_settlePlacedOrder_opened (coreInput : PlaceOrderInput) (markPrices : MarkPrices)
    (metadata : OrderMetadata) (events : List EngineEvent) (l : Ledger) :
    Ensures (settlePlacedOrder record input coreInput markPrices metadata events) l
      (fun r _ => projected EventPayload.opened? r.events =
        events.flatMap (projectedEvent EventPayload.opened? some (placeContext record coreInput)
          (filledOrderIds events))) fun _ => True := by
  have hexpire : ∀ pending, OpensNone id (expireIfReduceOnly record input pending events) := by
    intro pending
    unfold expireIfReduceOnly
    cases pending with
    | none => exact fun l => rfl
    | some metadata =>
      refine OpensNone.emitWhen fun l => ?_
      unfold expireReduceOnly
      refine ((opensNone_makeRuntimeMarketEvent _ _ _ _ rfl).emitWhen l).andThen fun a t ha => ?_
      exact ensures_bind_of_forall fun _ _ => ha
  have htranslate : Ensures (withPending (some metadata)
      (translate (placeContext record coreInput) markPrices events)) l
      (fun r _ => projected EventPayload.opened? r.1.events =
        events.flatMap (projectedEvent EventPayload.opened? some (placeContext record coreInput)
          (filledOrderIds events))) fun _ => True := by
    unfold withPending
    rw [ensures_zoom]
    exact (projects_translate_sees sees_opened _ markPrices events _).andThen fun a t ha => ha
  unfold settlePlacedOrder
  refine htranslate.andThen fun r t hr => ?_
  refine ensures_bind_of_forall fun _ u => ensures_bind_of_forall fun _ v => ?_
  refine (hexpire r.2 v).andThen fun expired w hexpired => ?_
  rw [id_eq] at hexpired
  rw [ensures_pure, EngineProcessResult.events_append, projected_append, hexpired,
    List.append_nil, hr]

theorem canOpenRestingOrder_eq (coreInput : PlaceOrderInput) (seq : EngineSequence) :
    canOpenRestingOrder coreInput = canRest (mappedCommand coreInput seq) := by
  unfold canOpenRestingOrder canRest mappedCommand
  cases coreInput.orderType <;> cases coreInput.timeInForce <;> rfl

/-- An allowed order is reported open by the translation exactly if the core took it in. -/
theorem ensures_placeOnBook_opened (h : rt.InLockstep) (capped : AdapterQuantity) :
    Ensures (placeOnBook record input capped) rt
      (fun placed after => after.core = rt.coreAfterCommand record input capped ∧
        (input.orderId.toNat ∈ projected EventPayload.opened? placed.1.events ↔
          rt.core.TakesIn after.core input.orderId.toNat))
      fun after => after.core = rt.coreAfterCommand record input capped := by
  unfold placeOnBook EngineRuntime.coreAfterCommand
  rw [ensures_bind, ensures_liftExcept]
  refine ⟨fun mapped hmapped => ?_, fun e he => by rw [he]⟩
  obtain ⟨-, rfl⟩ := mapPlaceOrderToCore_eq_ok.1 hmapped
  rw [hmapped]
  dsimp only
  have horderId : (mappedCommand (coreInputOf input capped) (receivedSequence record)).orderId =
      input.orderId.toNat := by
    unfold coreInputOf
    split_ifs <;> rfl
  have hopens := canOpenRestingOrder_eq (coreInputOf input capped) (receivedSequence record)
  generalize mappedCommand (coreInputOf input capped) (receivedSequence record) = place at *
  have htakes := h.rests_placed place
  have hevents := (rt.core.placeOrder_events place).opened
    (fun _ haccepted => EngineCore.orderId_of_accepted haccepted)
    (placeContext record (coreInputOf input capped))
    (filledOrderIds (rt.core.process (.placeOrder place)).1)
  rw [ensures_bind, ensures_get, ensures_bind, ensures_processCore, ensures_bind]
  unfold withLedger
  rw [ensures_zoom]
  refine (ensures_settlePlacedOrder_opened _ _ _ _ _).mono (fun result l hresult => ?_)
    fun _ _ => rfl
  refine ⟨rfl, ?_⟩
  rw [hresult, hevents, ← horderId]
  unfold EngineCore.TakesIn
  rw [htakes, ← hopens]
  have hkind : (placeContext record (coreInputOf input capped)).commandKind ≠
      .liquidatePosition := nofun
  have hcontext : (placeContext record (coreInputOf input capped)).canOpenRestingOrder =
      canOpenRestingOrder (coreInputOf input capped) := rfl
  rw [hcontext]
  split_ifs with hopened
  · simpa [hkind] using hopened
  · simpa [hkind] using hopened

/-- Before the liquidations a placed order is reported open exactly if the core took it in. -/
theorem ensures_placeBeforeLiquidations_opened (h : rt.Accounted)
    (hfits : FitsInt64 input.quantity)
    (hnew : duplicateResultFor rt input.inputId input.envelope.idempotencyKey = none) :
    Ensures (placeBeforeLiquidations record input) rt
      (fun placed after => after.Accounted ∧
        (input.orderId.toNat ∈ projected EventPayload.opened? placed.1.events ↔
          rt.core.TakesIn (rt.coreAfterPlacing record input) input.orderId.toNat))
      fun _ => rt.coreAfterPlacing record input = rt.core := by
  unfold placeBeforeLiquidations EngineRuntime.coreAfterPlacing
  rw [hnew, ensures_bind, ensures_get]
  cases hcapped : checkReduceOnlyOrder input rt.ledger with
  | error reason =>
    dsimp only
    rw [ensures_bind]
    have hquiet : OpensNone id (withLedger (reduceOnlyRejectedResult record input reason)) := by
      refine OpensNone.withLedger fun l => ?_
      unfold reduceOnlyRejectedResult
      refine ((opensNone_makeRuntimeMarketEvent _ _ _ _ rfl).emitWhen l).andThen fun a t ha => ?_
      exact ha
    refine ((ensures_reduceOnlyRejected record input reason).and (hquiet rt)).mono ?_
      fun _ _ => rfl
    rintro result after ⟨⟨hsame, -⟩, hnone⟩
    refine ⟨h.frame hsame, ?_⟩
    rw [id_eq] at hnone
    rw [hnone]
    simpa using EngineCore.takesIn_self
  | ok capped =>
    refine ((ensures_placeOnBook h record hfits hcapped).and
      (ensures_placeOnBook_opened h.lockstep capped)).mono ?_ ?_
    · rintro placed after ⟨haccounted, hcore, hopens⟩
      rw [hcore] at hopens
      exact ⟨haccounted, hopens⟩
    · rintro after ⟨rfl, hcore⟩
      exact hcore.symm

/-- What comes after the first part adds no report of an open order and fails in ADL alone. -/
theorem ends_placeOrder_opened (h : rt.Accounted) (hfits : FitsInt64 input.quantity) :
    Ends (placeOrder record input .live) rt
      (fun result _ => result.Opens input.orderId.toNat ↔
        rt.core.TakesIn (rt.coreAfterPlacing record input) input.orderId.toNat)
      fun e _ => e = adlOrderIdError ∨ rt.coreAfterPlacing record input = rt.core := by
  unfold placeOrder
  rw [ends_bind, ends_get]
  cases hduplicate : duplicateResultFor rt input.inputId input.envelope.idempotencyKey with
  | some duplicate =>
    obtain ⟨reason, key, original, rfl⟩ := duplicateResultFor_eq hduplicate
    have hcore : rt.coreAfterPlacing record input = rt.core := by
      unfold EngineRuntime.coreAfterPlacing
      rw [hduplicate]
    rw [hcore]
    dsimp only
    rw [ends_pure, EngineProcessResult.opens_iff]
    exact iff_of_false (List.not_mem_nil) EngineCore.takesIn_self
  | none =>
    dsimp only
    rw [placeNewOrder_eq, bind_assoc, ends_bind]
    refine (ensures_placeBeforeLiquidations_opened h hfits hduplicate).ends.mono ?_
      fun _ _ hthrown => Or.inr hthrown
    rintro ⟨placed, coreEvents⟩ mid ⟨haccounted, hopens⟩
    have hrest : FailsInAdl (emitWhen (hasTradeExecuted coreEvents = true)
        (evaluateAutomaticLiquidationsForMarket input.marketId record input.inputId)) :=
      .ite (.liquidationsForMarket _ _ _) (.pure _)
    have hquiet : OpensNone id (emitWhen (hasTradeExecuted coreEvents = true)
        (evaluateAutomaticLiquidationsForMarket input.marketId record input.inputId)) :=
      (opensNone_automatic _ _ _).emitWhen
    dsimp only
    rw [bind_assoc, ends_bind]
    refine ((hquiet mid).and_ends (hrest mid haccounted)).mono ?_ fun _ _ hthrown =>
      Or.inl hthrown.2
    rintro liquidations last ⟨hnone, hlast⟩
    rw [pure_bind, ends_bind]
    refine (FailsInAdl.markProcessed .placeOrder record input.inputId
      input.envelope.idempotencyKey last hlast).mono ?_ fun _ _ hthrown => Or.inl hthrown
    intro _ _ _
    rw [id_eq] at hnone
    rw [ends_pure, ← hopens, EngineProcessResult.opens_iff]
    change _ ∈ projected EventPayload.opened? (placed ++ liquidations).events ↔ _
    rw [EngineProcessResult.events_append, projected_append, hnone, List.append_nil]

end Placing

/-- In every reachable state and for every placed order processed live: the order is reported open
exactly if it rests in the core right after its command. If the processing throws, the command was
never given to the core or changed nothing there, or an automatic liquidation after it found no id
for an ADL order. -/
theorem orderOpened_iff_rests (config : EngineRuntimeConfig) (steps : List RuntimeStep)
    {rt : EngineRuntime} (hrt : rt = ((EngineRuntime.new config).run steps).2)
    (record : InboundEngineRecord) (input : EngineInput) {place : PlaceOrderInput}
    (hplace : input.parsed = .placeOrder place) :
    (∀ result, (rt.step (.input record (.ok input) .live)).1 = .ok result →
      (result.Opens place.orderId.toNat ↔
        rt.core.TakesIn (rt.coreAfterPlacing record place) place.orderId.toNat)) ∧
    ∀ error, (rt.step (.input record (.ok input) .live)).1 = .error error →
      error = adlOrderIdError ∨ rt.coreAfterPlacing record place = rt.core := by
  have haccounted : rt.Accounted := hrt ▸ reachable_accounted config steps
  obtain ⟨parsed, hwell⟩ := input
  cases hplace
  have hends := @ends_placeOrder_opened rt record place haccounted hwell.2
  exact ⟨fun result hresult => Ends.returned hends (Prod.ext hresult rfl),
    fun error herror => Ends.threw hends (Prod.ext herror rfl)⟩

/-- A bid that nothing crosses. -/
theorem orderOpened_iff_rests_sample : ∃ place,
    (samplePlaceInput 9 13 .long 101 6).parsed = .placeOrder place ∧
    ((EngineRuntime.new sampleRuntimeConfig).run sampleRuntimeSteps).2.core.TakesIn
      (((EngineRuntime.new sampleRuntimeConfig).run sampleRuntimeSteps).2.coreAfterPlacing
        ⟨engineInputTopic, 0, 9⟩ place) place.orderId.toNat := by
  have hopened : 9 ∈ projected EventPayload.opened? (eventsOf
      [(((EngineRuntime.new sampleRuntimeConfig).run sampleRuntimeSteps).2.step
        (samplePlace 9 13 .long 101 6)).1]) := by
    decide +kernel
  refine ⟨_, rfl, ?_⟩
  have hiff := (orderOpened_iff_rests sampleRuntimeConfig sampleRuntimeSteps rfl
    ⟨engineInputTopic, 0, 9⟩ (samplePlaceInput 9 13 .long 101 6) rfl).1
  generalize hrt : ((EngineRuntime.new sampleRuntimeConfig).run sampleRuntimeSteps).2 = rt at *
  cases houtcome : (rt.step (samplePlace 9 13 .long 101 6)).1 with
  | error e =>
    rw [houtcome] at hopened
    cases hopened
  | ok result =>
    rw [houtcome] at hopened
    refine (hiff result houtcome).1 (EngineProcessResult.opens_iff.2 ?_)
    simpa [eventsOf, resultsOf] using hopened

end PerpexEngine
