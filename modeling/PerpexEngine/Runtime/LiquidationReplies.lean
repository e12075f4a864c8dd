import PerpexEngine.Runtime.Replies
import PerpexEngine.Runtime.TradeRuns

/-! Whether the reply to a liquidation request says what was done. -/
namespace PerpexEngine
open Program

/-- What the checks of the core and of the book make of an order, in the order they are made. -/
def EngineCore.rejectionOf (core : EngineCore OrderBook) (place : PlaceOrderCommand) :
    Option RejectReason :=
  if core.idempotencyIndex.hasCommand place.commandId then some .duplicateCommand
  else
    match core.symbolConfigs[place.symbolId]?, core.orderBooks[place.symbolId]? with
    | some config, some book =>
      match validatePlaceOrder place config core.idempotencyIndex with
      | some reason => some reason
      | none => book.placeRejection place
    | _, _ => some .invalidSymbol

theorem OrderBook.place_answers (book : OrderBook) (place : PlaceOrderCommand)
    (g : SequenceGenerator) : bookAnswers (some (book.processPlace place g).1) =
      [if book.placeRejection place = none then .liquidationAccepted else .liquidationRejected] := by
  have hevents := book.processPlace_events place g
  cases hreason : book.placeRejection place with
  | some reason =>
    unfold OrderBook.processPlace
    rw [hreason]
    rfl
  | none =>
    have haccepted : ∃ e events, (book.processPlace place g).1 = .orderAccepted e :: events := by
      unfold OrderBook.processPlace
      rw [hreason]
      dsimp only
      split
      · exact ⟨_, _, rfl⟩
      · exact ⟨_, _, rfl⟩
    obtain ⟨e, events, heq⟩ := haccepted
    rw [heq] at hevents ⊢
    cases hevents with
    | accepted e hfills =>
      unfold bookAnswers
      dsimp only
      rw [List.filterMap_cons, hfills.unanswered]
      rfl

/-- The answer of the core to an order follows from these checks. -/
theorem EngineCore.place_answers (core : EngineCore OrderBook) (place : PlaceOrderCommand) :
    bookAnswers (some (core.process (.placeOrder place)).1) =
      [if core.rejectionOf place = none then .liquidationAccepted else .liquidationRejected] := by
  unfold EngineCore.process EngineCore.processPlaceOrder
  by_cases hdup : core.idempotencyIndex.hasCommand place.commandId = true
  · simp only [rejectionOf, hdup]
    rfl
  · cases hconfig : core.symbolConfigs[place.symbolId]? with
    | none =>
      simp only [rejectionOf, hdup, hconfig]
      rfl
    | some config =>
      cases hbook : core.orderBooks[place.symbolId]? with
      | none =>
        simp only [rejectionOf, hdup, hconfig, hbook]
        rfl
      | some book =>
        rcases Option.eq_none_or_eq_some (validatePlaceOrder place config core.idempotencyIndex)
          with hvalid | ⟨reason, hvalid⟩
        · simp only [rejectionOf, hdup, hconfig, hbook, hvalid]
          exact book.place_answers place core.sequenceGenerator
        · simp only [rejectionOf, hdup, hconfig, hbook, hvalid]
          rfl

/-- A rejection is sent only if nothing was emitted and no position moved, an acceptance only with
the start and the completion of the liquidation. -/
structure EngineProcessResult.Truthful (result : EngineProcessResult)
    (input : LiquidatePositionInput) (before after : Ledger) : Prop where
  rejected : (∃ reply ∈ result.replies, reply.type = .liquidationRejected) →
    result.events = [] ∧ after.positions = before.positions
  accepted : (∃ reply ∈ result.replies, reply.type = .liquidationAccepted) →
    (∃ event ∈ result.events, ∃ started, event.payload = .liquidationStarted started ∧
      started.liquidationId = input.liquidationId) ∧
    ∃ event ∈ result.events, ∃ completed, event.payload = .liquidationCompleted completed ∧
      completed.liquidationId = input.liquidationId

/-- A liquidation that goes ahead on the strength of opposing positions, although there is a level
to trade against and the core refuses the order for it. -/
def EngineRuntime.RefusedButDeleveraged (rt : EngineRuntime) (record : InboundEngineRecord)
    (input : LiquidatePositionInput) : Prop :=
  ∃ position, rt.ledger.positions[(⟨input.liquidatedUserId, input.marketId⟩ : PositionRiskKey)]? =
      some position ∧
    let quantity := liquidationQuantity input position
    let price := liquidationPrice input position rt.markPrices
    liquidationRejectionReason input rt.ledger = none ∧ 0 < quantity ∧ 0 < price ∧
    crossingLiquidityExists rt.core input.marketId (liquidationOrderSide position.signedQuantity)
      price = true ∧
    0 < totalAdlAvailable quantity (adlCandidatesFor input position rt.ledger) 0 ∧
    ∃ orderId mapped, liquidationOrderId input.liquidationId = .ok orderId ∧
      mapPlaceOrderToCore (syntheticLiquidationOrder input position orderId quantity price)
        (receivedSequence record) = .ok mapped ∧
      rt.core.rejectionOf mapped.1 ≠ none

section Execution
variable {rt : EngineRuntime} (record : InboundEngineRecord) (input : LiquidatePositionInput)

theorem ensures_makeLiquidationEvent (payload : EventPayload) :
    Ensures (makeLiquidationEvent record input payload) rt
      (fun a _ => ∃ event ∈ a.events, event.payload = payload) fun _ => True := by
  unfold makeLiquidationEvent withLedger makeRuntimeMarketEvent makeMarketEvent
  rw [ensures_zoom, ensures_map, ensures_bind]
  apply Ensures.mono (Ensures.always fun sequence l => ?_) (fun _ _ h => h) fun _ _ => trivial
  refine ensures_bind_of_forall fun timestampMs l' => ?_
  exact ⟨_, List.mem_singleton_self _, rfl⟩

theorem runLiquidation_reported (context : EngineEventTranslationContext)
    (metadata : OrderMetadata) (coreEvents : Option (List EngineEvent)) (price : AdapterPrice)
    (previousPosition : IsolatedPositionState) (previousRisk : IsolatedRiskState) :
    Ensures (runLiquidation record input context metadata coreEvents price previousPosition
      previousRisk) rt
      (fun a _ => (∃ event ∈ a.events, ∃ started, event.payload = .liquidationStarted started ∧
        started.liquidationId = input.liquidationId) ∧
        ∃ event ∈ a.events, ∃ completed, event.payload = .liquidationCompleted completed ∧
          completed.liquidationId = input.liquidationId) fun _ => True := by
  unfold runLiquidation
  refine (ensures_makeLiquidationEvent record input _).andThen fun started t hstarted => ?_
  refine ensures_bind_of_forall fun booked u => ?_
  rw [ensures_bind, ensures_get]
  refine ensures_bind_of_forall fun deleveraged v => ?_
  rw [ensures_bind, ensures_get]
  refine (ensures_makeLiquidationEvent record input _).andThen fun completed w hcompleted => ?_
  rw [ensures_pure]
  obtain ⟨event, hevent, hpayload⟩ := hstarted
  obtain ⟨event', hevent', hpayload'⟩ := hcompleted
  refine ⟨⟨event, ?_, _, hpayload, rfl⟩, ⟨event', ?_, _, hpayload', rfl⟩⟩
  · exact List.mem_append_left _ (List.mem_append_left _ (List.mem_append_left _ hevent))
  · exact List.mem_append_right _ hevent'

variable {record input} {result : EngineProcessResult} {before after : Ledger}

/-- With one reply known to be sent, the two clauses are about that one. -/
theorem truthful_of_addresses {type : ReplyType} {requestId : Text} {partition : ℤ}
    (h : result.addresses = [⟨type, requestId, partition⟩]) :
    result.Truthful input before after ↔
      (type = .liquidationRejected → result.events = [] ∧ after.positions = before.positions) ∧
      (type = .liquidationAccepted →
        (∃ event ∈ result.events, ∃ started, event.payload = .liquidationStarted started ∧
          started.liquidationId = input.liquidationId) ∧
        ∃ event ∈ result.events, ∃ completed, event.payload = .liquidationCompleted completed ∧
          completed.liquidationId = input.liquidationId) := by
  have hreply : ∀ other, (∃ reply ∈ result.replies, reply.type = other) ↔ type = other := by
    intro other
    unfold EngineProcessResult.addresses at h
    rw [List.map_eq_singleton_iff] at h
    obtain ⟨reply, hreplies, haddress⟩ := h
    have htype : reply.type = type := congrArg ReplyAddress.type haddress
    rw [hreplies, ← htype]
    simp
  constructor
  · exact fun ht => ⟨fun h => ht.rejected ((hreply _).2 h), fun h => ht.accepted ((hreply _).2 h)⟩
  · exact fun ht => ⟨fun h => ht.1 ((hreply _).1 h), fun h => ht.2 ((hreply _).1 h)⟩

theorem truthful_rejected (reason : Text) (hsame : after.positions = before.positions) :
    (replyIf true (liquidationRejectedReply record input reason)).Truthful input before after := by
  have h : (replyIf true (liquidationRejectedReply record input reason)).addresses =
    [⟨.liquidationRejected, input.envelope.requestId, input.envelope.replyPartition⟩] := rfl
  rw [truthful_of_addresses h]
  exact ⟨fun _ => ⟨rfl, hsame⟩, nofun⟩

theorem noTrade_of_rejected {orderId : OrderId} {g g' : SequenceGenerator}
    {events : List EngineEvent} (h : PlaceEvents orderId g events g')
    (hanswer : bookAnswers (some events) = [.liquidationRejected]) :
    hasTradeExecuted events = false := by
  cases h with
  | rejected e _ => rfl
  | accepted e hfills =>
    unfold bookAnswers at hanswer
    dsimp only at hanswer
    rw [List.filterMap_cons, hfills.unanswered] at hanswer
    cases hanswer

/-- A liquidation that goes ahead is answered as the core answers its order, if that was asked. -/
theorem runLiquidation_truthful_iff (record : InboundEngineRecord)
    (input : LiquidatePositionInput) (orderId : AdapterOrderId) (metadata : OrderMetadata)
    {coreEvents : Option (List EngineEvent)} (price : AdapterPrice)
    (position : IsolatedPositionState) (risk : IsolatedRiskState) (before : Ledger)
    {type : ReplyType} (htype : bookAnswers coreEvents = [type])
    (heither : type = .liquidationRejected ∨ type = .liquidationAccepted) (rt : EngineRuntime) :
    Ensures (runLiquidation record input (liquidationContext record input orderId) metadata
      coreEvents price position risk) rt
      (fun a t => a.Truthful input before t.ledger ↔ type = .liquidationAccepted)
      fun _ => True := by
  have hanswers := answers_runLiquidation record input orderId metadata coreEvents price position
    risk rt
  have hboth := hanswers.and (runLiquidation_reported record input
    (liquidationContext record input orderId) metadata coreEvents price position risk)
  refine hboth.mono ?_ fun _ _ => trivial
  rintro a t ⟨haddresses, hstarted, hcompleted⟩
  rw [id_eq, htype] at haddresses
  rw [truthful_of_addresses haddresses]
  constructor
  · rintro ⟨hrejected, -⟩
    apply heither.resolve_left
    intro h
    obtain ⟨event, hevent, -⟩ := hstarted
    rw [(hrejected h).1] at hevent
    cases hevent
  · rintro rfl
    exact ⟨nofun, fun _ => ⟨hstarted, hcompleted⟩⟩

/-- Where a liquidation has mapped its order, only the book and the opposing positions matter. -/
theorem refusedButDeleveraged_iff {rt : EngineRuntime} {position : IsolatedPositionState}
    (hposition : rt.ledger.positions[(⟨input.liquidatedUserId, input.marketId⟩ :
      PositionRiskKey)]? = some position) (hreason : liquidationRejectionReason input rt.ledger = none)
    (hquantity : 0 < liquidationQuantity input position)
    (hprice : 0 < liquidationPrice input position rt.markPrices) {orderId : AdapterOrderId}
    (horder : liquidationOrderId input.liquidationId = .ok orderId)
    {mapped : PlaceOrderCommand × OrderMetadata}
    (hmapped : mapPlaceOrderToCore (syntheticLiquidationOrder input position orderId
      (liquidationQuantity input position) (liquidationPrice input position rt.markPrices))
      (receivedSequence record) = .ok mapped) :
    rt.RefusedButDeleveraged record input ↔
      (crossingLiquidityExists rt.core input.marketId (liquidationOrderSide position.signedQuantity)
        (liquidationPrice input position rt.markPrices) = true ∧ rt.core.rejectionOf mapped.1 ≠ none) ∧
      0 < totalAdlAvailable (liquidationQuantity input position)
        (adlCandidatesFor input position rt.ledger) 0 := by
  constructor
  · rintro ⟨_, hsome, -, -, -, hcrossing, hadl, _, _, horder', hmapped', hrejected⟩
    rw [hposition] at hsome
    cases hsome
    rw [horder] at horder'
    cases horder'
    rw [hmapped] at hmapped'
    cases hmapped'
    exact ⟨⟨hcrossing, hrejected⟩, hadl⟩
  · rintro ⟨⟨hcrossing, hrejected⟩, hadl⟩
    exact ⟨position, hposition, hreason, hquantity, hprice, hcrossing, hadl, orderId, mapped, horder,
      hmapped, hrejected⟩

/-- The one way for a liquidation to send an untrue reply. -/
theorem executeLiquidation_truthful_iff (record : InboundEngineRecord)
    (input : LiquidatePositionInput) (rt : EngineRuntime) :
    Ensures (executeLiquidation record input true) rt
      (fun a t => a.Truthful input rt.ledger t.ledger ↔ ¬rt.RefusedButDeleveraged record input)
      fun _ => True := by
  unfold executeLiquidation
  rw [ensures_bind, ensures_get]
  dsimp only
  split
  · rename_i reason hreason
    rw [ensures_pure]
    refine iff_of_true (truthful_rejected _ rfl) ?_
    rintro ⟨_, _, hnone, -⟩
    rw [hreason] at hnone
    cases hnone
  · rename_i hreason
    split
    · rename_i position risk hposition hrisk
      apply ensures_ite.2
      refine ⟨fun hguard => ?_, fun hguard => ?_⟩
      · rw [ensures_pure]
        refine iff_of_true (truthful_rejected _ rfl) ?_
        rintro ⟨_, hsome, -, hquantity, hprice, hcrossing, hadl, -⟩
        rw [hposition] at hsome
        cases hsome
        rcases hguard with h | h | ⟨h, -⟩
        · exact absurd hquantity (not_lt.2 h)
        · exact absurd hprice (not_lt.2 h)
        · rw [hcrossing] at h
          cases h
      · push Not at hguard
        obtain ⟨hquantity, hprice, hcross⟩ := hguard
        rw [ensures_bind, ensures_liftExcept]
        refine ⟨fun orderId horder => ?_, fun _ _ => trivial⟩
        rw [ensures_bind, ensures_liftExcept]
        refine ⟨fun mapped hmapped => ?_, fun _ _ => trivial⟩
        rw [ensures_bind]
        refine (ensures_askBook _ _).mono (fun coreEvents u hu => ?_) fun _ _ => trivial
        obtain ⟨rfl, hledger⟩ := hu
        rw [refusedButDeleveraged_iff hposition hreason hquantity hprice horder hmapped]
        have hrun := fun events type => @runLiquidation_truthful_iff record input orderId mapped.2
          events (liquidationPrice input position rt.markPrices) position risk rt.ledger type
        have hanswer := rt.core.place_answers mapped.1
        by_cases hcrossing : crossingLiquidityExists rt.core input.marketId
          (liquidationOrderSide position.signedQuantity)
          (liquidationPrice input position rt.markPrices) = true
        · rw [if_pos hcrossing]
          by_cases hrefused : rt.core.rejectionOf mapped.1 = none
          · rw [if_pos hrefused] at hanswer
            apply ensures_ite.2
            refine ⟨fun _ => ?_, fun _ => ?_⟩
            · exact iff_of_true (truthful_rejected _ (by rw [hledger])) fun h => h.1.2 hrefused
            · rw [ensures_bind]
              refine (hrun _ _ hanswer (Or.inr rfl) u).mono (fun a t ha => ?_) fun _ _ => trivial
              exact iff_of_true (ha.2 rfl) fun h => h.1.2 hrefused
          · rw [if_neg hrefused] at hanswer
            have hnoTrade := noTrade_of_rejected (rt.core.placeOrder_events mapped.1) hanswer
            apply ensures_ite.2
            refine ⟨fun hguard => ?_, fun hguard => ?_⟩
            · exact iff_of_true (truthful_rejected _ (by rw [hledger])) fun h =>
                absurd h.2 (not_lt.2 hguard.2.2)
            · rw [ensures_bind]
              refine (hrun _ _ hanswer (Or.inl rfl) u).mono (fun a t ha => ?_) fun _ _ => trivial
              have hadl := not_le.1 fun h => hguard ⟨hcrossing, hnoTrade, h⟩
              exact iff_of_false (fun ht => nomatch ha.1 ht) fun h => h ⟨⟨hcrossing, hrefused⟩, hadl⟩
        · rw [if_neg hcrossing]
          apply ensures_ite.2
          refine ⟨fun hguard => absurd hguard.1 hcrossing, fun _ => ?_⟩
          rw [ensures_bind]
          refine (hrun _ _ rfl (Or.inr rfl) u).mono (fun a t ha => ?_) fun _ _ => trivial
          exact iff_of_true (ha.2 rfl) fun h => hcrossing h.1.1
    · trivial

end Execution

section Requests
variable {rt : EngineRuntime}

/-- The reply to a liquidation request is true exactly if it is not about a liquidation whose order
the core refused and that went on to deleverage. -/
theorem liquidation_reply_true_iff (record : InboundEngineRecord)
    (input : LiquidatePositionInput) (hnew : ¬rt.Knows (.liquidatePosition input))
    (result : EngineProcessResult) (hresult : (rt.step (.input record
      (.ok ⟨.liquidatePosition input, trivial⟩) .live)).1 = .ok result) :
    result.Truthful input rt.ledger
        (rt.step (.input record (.ok ⟨.liquidatePosition input, trivial⟩) .live)).2.ledger ↔
      ¬rt.RefusedButDeleveraged record input := by
  have hrun : Ensures (liquidatePosition record input .live) rt
      (fun a t => a.Truthful input rt.ledger t.ledger ↔ ¬rt.RefusedButDeleveraged record input)
      fun _ => True := by
    unfold liquidatePosition
    rw [ensures_bind, ensures_get]
    split
    · rename_i hdup
      exact absurd (knows_of_duplicate (.liquidatePosition input) rfl hdup) hnew
    · rw [ensures_bind]
      refine (executeLiquidation_truthful_iff record input rt).mono (fun a t ha => ?_)
        fun _ _ => trivial
      have hledger : ∀ processed, (insertInputId input.inputId processed t).ledger = t.ledger := by
        intro processed
        unfold insertInputId
        split <;> rfl
      unfold markProcessed
      rw [ensures_bind, ensures_modify, ensures_pure]
      dsimp only
      rw [hledger]
      exact ha
  exact hrun.returned (Prod.ext hresult rfl)

/-- A user is closed out against the book at 80, which leaves the buyer with a profit. -/
def sampleProfit : List RuntimeStep :=
  [sampleMark 1 90, sampleOrderOn 2 31 .long 90 5 1, sampleOrderOn 3 32 .short 90 5 1,
    sampleOrderOn 4 33 .long 80 5 1000, sampleOrderOn 5 34 .short 100 5 1000,
    sampleLiquidation 6 (ascii "liq-1") 31 .long 2 80]

def sampleRequest (price : ℤ) : LiquidatePositionInput where
  inputId := some (ascii "in-7")
  envelope := sampleEnvelope 7 32
  liquidationId := ascii "liq-2"
  marketId := 1
  liquidatedUserId := 32
  positionSide := .short
  quantity := 1
  price := price

def sampleProfitable : EngineRuntime := ((EngineRuntime.new sampleRuntimeConfig).run sampleProfit).2

abbrev sampleRequestStep (price : ℤ) : RuntimeStep :=
  .input ⟨engineInputTopic, 0, 7⟩ (.ok ⟨.liquidatePosition (sampleRequest price), trivial⟩) .live

/-- At a price the book accepts, the reply is true. -/
theorem liquidation_reply_true_iff_sample : ∃ result,
    (sampleProfitable.step (sampleRequestStep 100)).1 = .ok result ∧
    (result.Truthful (sampleRequest 100) sampleProfitable.ledger
        (sampleProfitable.step (sampleRequestStep 100)).2.ledger ↔
      ¬sampleProfitable.RefusedButDeleveraged ⟨engineInputTopic, 0, 7⟩ (sampleRequest 100)) := by
  have hok : ∃ result, (sampleProfitable.step (sampleRequestStep 100)).1 = .ok result := by
    decide +kernel
  obtain ⟨result, hresult⟩ := hok
  have hnew : ¬sampleProfitable.Knows (.liquidatePosition (sampleRequest 100)) := by
    decide +kernel
  generalize sampleProfitable = rt at hresult hnew ⊢
  exact ⟨result, hresult, liquidation_reply_true_iff _ _ hnew result hresult⟩

/-- At a price above the highest one of the market, the request is rejected and carried out. -/
theorem liquidation_reply_untrue :
    ¬sampleProfitable.Knows (.liquidatePosition (sampleRequest 2000)) ∧
    ∃ result, (sampleProfitable.step (sampleRequestStep 2000)).1 = .ok result ∧
      ¬result.Truthful (sampleRequest 2000) sampleProfitable.ledger
        (sampleProfitable.step (sampleRequestStep 2000)).2.ledger := by
  have hreplied : (sampleProfitable.step (sampleRequestStep 2000)).1.toOption.any fun result =>
      result.replies.any (·.type = .liquidationRejected) && !result.events.isEmpty := by
    decide +kernel
  refine ⟨by decide +kernel, ?_⟩
  cases hresult : (sampleProfitable.step (sampleRequestStep 2000)).1 with
  | error e =>
    rw [hresult] at hreplied
    cases hreplied
  | ok result =>
    rw [hresult] at hreplied
    simp only [Except.toOption, Option.any_some, Bool.and_eq_true, List.any_eq_true,
      decide_eq_true_eq, Bool.not_eq_true', List.isEmpty_eq_false_iff] at hreplied
    exact ⟨result, rfl, fun h => hreplied.2 (h.rejected hreplied.1).1⟩

end Requests
end PerpexEngine
