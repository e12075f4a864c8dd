import PerpexEngine.Core.CommandEvents
import PerpexEngine.Runtime.Duplicates

/-! Replies: one for each command, none for anything else, whatever liquidations follow. -/
namespace PerpexEngine
open Program

/-- What a consumer of the replies goes by. -/
structure ReplyAddress where
  type : ReplyType
  requestId : Text
  partition : ℤ
deriving DecidableEq

def EngineReply.address (reply : EngineReply) : ReplyAddress :=
  ⟨reply.type, reply.requestId, reply.partition⟩

def EngineProcessResult.addresses (result : EngineProcessResult) : List ReplyAddress :=
  result.replies.map (·.address)

/-- The type of the reply to a core event, if it is answered. -/
def answerType (kind : RuntimeCommandKind) : EngineEvent → Option ReplyType
  | .orderAccepted _ =>
    some (if kind = .liquidatePosition then .liquidationAccepted else .orderAccepted)
  | .orderRejected _ => some (rejectedReplyType kind)
  | .orderCancelled _ => some .cancelAccepted
  | _ => none

/-- The program returns these reply addresses, or throws. -/
def Answers {σ α : Type} (out : α → EngineProcessResult) (m : Program Text σ α)
    (addresses : List ReplyAddress) : Prop :=
  ∀ s, Ensures m s (fun a _ => (out a).addresses = addresses) fun _ => True

section Silent
variable {σ : Type} {m : Program Text σ EngineProcessResult}

theorem addresses_append (a b : EngineProcessResult) :
    (a ++ b).addresses = a.addresses ++ b.addresses := List.map_append

theorem answers_makeEvent (context : EngineEventTranslationContext) (marketId : MarketId)
    (payload : EventPayload) : Answers id (makeEvent context marketId payload) [] := by
  intro s
  unfold makeEvent
  rw [ensures_map]
  exact Ensures.always fun _ _ => rfl

theorem answers_makeRuntimeMarketEvent (record : InboundEngineRecord)
    (inputId requestId : Option Text) (marketId : MarketId) (payload : EventPayload) :
    Answers id (makeRuntimeMarketEvent record inputId requestId marketId payload) [] := by
  intro s
  unfold makeRuntimeMarketEvent
  rw [ensures_map]
  exact Ensures.always fun _ _ => rfl

theorem answers_emitWhen (c : Prop) [Decidable c] (h : Answers id m []) :
    Answers id (emitWhen c m) [] := by
  intro s
  unfold emitWhen
  split_ifs
  · exact h s
  · rfl

end Silent

section Translator
variable (context : EngineEventTranslationContext) (markPrices : MarkPrices)

theorem answers_appendFillLeg (trade : TradeExecuted) (timestampMs : ℤ) (orderId : OrderId) :
    Answers id (appendFillLeg context markPrices trade timestampMs orderId) [] := by
  intro s
  unfold appendFillLeg
  rw [ensures_bind, ensures_get]
  split
  · rfl
  · rw [ensures_bind, ensures_set]
    refine (answers_emitWhen _ (answers_makeEvent _ _ _) _).andThen fun a t ha => ?_
    refine (answers_makeEvent _ _ _ t).andThen fun b u hb => ?_
    refine (answers_makeEvent _ _ _ u).andThen fun c v hc => ?_
    rw [ensures_pure]
    simp only [id_eq, addresses_append] at ha hb hc ⊢
    rw [ha, hb, hc]
    rfl

theorem answers_appendTradeExecuted (trade : TradeExecuted) :
    Answers id (appendTradeExecuted context markPrices trade) [] := by
  intro s
  unfold appendTradeExecuted appendPositionAndRiskUpdates
  rw [ensures_bind, ensures_get]
  refine (answers_makeEvent _ _ _ s).andThen fun a t ha => ?_
  refine (answers_emitWhen _ (answers_makeEvent _ _ _) t).andThen fun b u hb => ?_
  rw [bind_assoc]
  refine ensures_bind_of_forall fun timestampMs v => ?_
  rw [bind_assoc]
  refine (answers_appendFillLeg context markPrices trade timestampMs _ v).andThen
    fun maker w hmaker => ?_
  rw [bind_assoc]
  refine (answers_appendFillLeg context markPrices trade timestampMs _ w).andThen
    fun taker x htaker => ?_
  rw [pure_bind, ensures_pure]
  simp only [id_eq, addresses_append] at ha hb hmaker htaker ⊢
  rw [ha, hb, hmaker, htaker]
  rfl

def EngineEventTranslationContext.addressOf (type : ReplyType) : ReplyAddress :=
  ⟨type, context.requestId, context.replyPartition⟩

theorem answers_translateEvent (filled : List OrderId) (event : EngineEvent) :
    Answers id (translateEvent context markPrices filled event)
      ((answerType context.commandKind event).toList.map context.addressOf) := by
  intro s
  cases event with
  | orderAccepted accepted =>
    unfold translateEvent appendOrderAccepted answerType
    rw [ensures_bind, ensures_get]
    dsimp only
    simp only [decide_eq_true_eq]
    apply ensures_ite.2
    refine ⟨fun _ => rfl, fun _ => (answers_makeEvent _ _ _ s).andThen fun a t ha => ?_⟩
    rw [ensures_pure]
    simp only [id_eq, addresses_append] at ha ⊢
    rw [ha]
    rfl
  | orderRejected rejected =>
    unfold translateEvent appendOrderRejected
    rw [ensures_bind, ensures_get]
    dsimp only
    generalize findMetadata _ s = found
    cases found with
    | none => rfl
    | some metadata =>
      apply ensures_ite.2
      refine ⟨fun _ => rfl, fun _ => (answers_makeEvent _ _ _ s).andThen fun a t ha => ?_⟩
      rw [ensures_pure]
      simp only [id_eq, addresses_append] at ha ⊢
      rw [ha]
      rfl
  | tradeExecuted trade => exact answers_appendTradeExecuted context markPrices trade s
  | orderPartial e => rfl
  | orderFilled e => rfl
  | orderCancelled cancelled =>
    unfold translateEvent appendOrderCancelled
    rw [ensures_bind, ensures_get]
    refine (answers_makeEvent _ _ _ s).andThen fun a t ha => ?_
    rw [ensures_pure]
    simp only [id_eq, addresses_append] at ha ⊢
    rw [ha]
    rfl
  | orderBookDelta delta => exact answers_makeEvent _ _ _ s

/-- One reply for each event that is an answer. -/
theorem answers_translate (events : List EngineEvent) :
    Answers id (translate context markPrices events)
      ((events.filterMap (answerType context.commandKind)).map context.addressOf) := by
  unfold translate
  generalize filledOrderIds events = filled
  induction events with
  | nil => exact fun s => rfl
  | cons event events ih =>
    intro s
    refine (answers_translateEvent context markPrices filled event s).andThen fun a t ha => ?_
    refine (ih t).andThen fun b u hb => ?_
    rw [ensures_pure]
    simp only [id_eq, addresses_append] at ha hb ⊢
    rw [ha, hb, ← List.map_append]
    cases h : answerType context.commandKind event with
    | none => rw [List.filterMap_cons_none h]; rfl
    | some type => rw [List.filterMap_cons_some h]; rfl

theorem answers_appendAdlFillsFrom (input : LiquidatePositionInput) (price : AdapterPrice)
    (candidates : List AdlCandidate) (remainingQuantity priorityRank : ℤ) :
    Answers id (appendAdlFillsFrom context markPrices input price candidates remainingQuantity
      priorityRank) [] := by
  induction candidates generalizing remainingQuantity priorityRank with
  | nil => exact fun s => rfl
  | cons candidate candidates ih =>
    intro s
    unfold appendAdlFillsFrom
    apply ensures_ite.2
    refine ⟨fun _ => rfl, fun _ => ?_⟩
    apply ensures_ite.2
    refine ⟨fun _ => ih _ _ s, fun _ => ?_⟩
    have hfill : Ensures (appendAdlFill context markPrices input price candidate
        (min remainingQuantity candidate.availableQuantity) priorityRank) s
        (fun a _ => a.addresses = []) fun _ => True := by
      unfold appendAdlFill
      rw [ensures_bind, ensures_get]
      dsimp only
      split
      · trivial
      · refine ensures_bind_of_forall fun _ t => ensures_bind_of_forall fun _ u => ?_
        refine (answers_translate _ markPrices _ u).andThen fun a v ha => ?_
        exact ensures_bind_of_forall fun _ w => ha
    refine hfill.andThen fun a t ha => (ih _ _ t).andThen fun b u hb => ?_
    rw [ensures_pure]
    simp only [id_eq, addresses_append] at hb ⊢
    rw [ha, hb]
    rfl

theorem answers_appendAdlFills (input : LiquidatePositionInput) (remainingQuantity : ℤ)
    (price : AdapterPrice) :
    Answers id (appendAdlFills context markPrices input remainingQuantity price) [] := by
  intro s
  unfold appendAdlFills
  rw [ensures_bind, ensures_get]
  split
  · rfl
  · apply ensures_ite.2
    exact ⟨fun _ => rfl, fun _ => answers_appendAdlFillsFrom _ _ _ _ _ _ _ s⟩

theorem answers_withPending {m : TranslateM EngineProcessResult} {addresses : List ReplyAddress}
    (h : Answers id m addresses) (pending : Option OrderMetadata) :
    Answers Prod.fst (withPending pending m) addresses := by
  intro l
  unfold withPending
  rw [ensures_zoom]
  exact (h _).andThen fun a t ha => ha

end Translator

section Answered

theorem FillsOf.unanswered {orderId : OrderId} {g g' : SequenceGenerator}
    {events : List EngineEvent} (h : FillsOf orderId g events g') (kind : RuntimeCommandKind) :
    events.filterMap (answerType kind) = [] := by
  rw [List.filterMap_eq_nil_iff]
  intro e he
  have hno := h.noAnswer e he
  cases e <;> first | rfl | cases hno

theorem PlaceEvents.answer {orderId : OrderId} {g g' : SequenceGenerator}
    {events : List EngineEvent} (h : PlaceEvents orderId g events g') (kind : RuntimeCommandKind) :
    ∃ type ∈ [if kind = .liquidatePosition then ReplyType.liquidationAccepted else .orderAccepted,
        rejectedReplyType kind], events.filterMap (answerType kind) = [type] := by
  cases h with
  | rejected e _ => exact ⟨_, List.mem_cons_of_mem _ List.mem_cons_self, rfl⟩
  | accepted e hfills =>
    refine ⟨_, List.mem_cons_self, ?_⟩
    rw [List.filterMap_cons, hfills.unanswered]
    rfl

theorem CancelEvents.answer {g g' : SequenceGenerator} {events : List EngineEvent}
    (h : CancelEvents g events g') : ∃ type ∈ [ReplyType.cancelAccepted, .cancelRejected],
      events.filterMap (answerType .cancelOrder) = [type] := by
  cases h with
  | rejected e _ => exact ⟨.cancelRejected, by decide, rfl⟩
  | cancelled e d _ => exact ⟨.cancelAccepted, by decide, rfl⟩

/-- Exactly one reply, of one of these types, to the sender of the command. -/
def EngineProcessResult.AnsweredBy (types : List ReplyType) (envelope : CommandEnvelope)
    (result : EngineProcessResult) : Prop :=
  ∃ type ∈ types, result.addresses = [⟨type, envelope.requestId, envelope.replyPartition⟩]

theorem answers_withLedger {α : Type} {out : α → EngineProcessResult} {m : LedgerM α}
    {addresses : List ReplyAddress} (h : Answers out m addresses) :
    Answers out (withLedger m) addresses := by
  intro rt
  unfold withLedger
  rw [ensures_zoom]
  exact h rt.ledger

theorem answers_makeLiquidationEvent (record : InboundEngineRecord)
    (input : LiquidatePositionInput) (payload : EventPayload) :
    Answers id (makeLiquidationEvent record input payload) [] :=
  answers_withLedger (answers_makeRuntimeMarketEvent _ _ _ _ _)

/-- The answers of the book phase of a liquidation: those of the core, or an acceptance if the book
was not asked. -/
def bookAnswers (coreEvents : Option (List EngineEvent)) : List ReplyType :=
  match coreEvents with
  | none => [.liquidationAccepted]
  | some events => events.filterMap (answerType .liquidatePosition)

section Liquidation
variable (record : InboundEngineRecord) (input : LiquidatePositionInput)
  (orderId : AdapterOrderId) (metadata : OrderMetadata) (coreEvents : Option (List EngineEvent))

/-- The book phase of a liquidation is the one that answers. -/
theorem answers_liquidateAgainstBook :
    Answers Prod.fst (liquidateAgainstBook record input (liquidationContext record input orderId)
      metadata coreEvents) ((bookAnswers coreEvents).map
        (liquidationContext record input orderId).addressOf) := by
  intro rt
  unfold liquidateAgainstBook
  rw [ensures_bind, ensures_get]
  cases coreEvents with
  | none => rfl
  | some events =>
    refine (answers_withLedger (answers_withPending (answers_translate
      (liquidationContext record input orderId) rt.markPrices events) (some metadata)) rt).andThen
        fun a t ha => ensures_bind_of_forall fun _ u => ?_
    exact ha

theorem answers_runLiquidation (price : AdapterPrice) (previousPosition : IsolatedPositionState)
    (previousRisk : IsolatedRiskState) :
    Answers id (runLiquidation record input (liquidationContext record input orderId) metadata
      coreEvents price previousPosition previousRisk) ((bookAnswers coreEvents).map
        (liquidationContext record input orderId).addressOf) := by
  intro rt
  refine (answers_makeLiquidationEvent record input _ rt).andThen fun started t hstarted => ?_
  refine (answers_liquidateAgainstBook record input orderId metadata coreEvents t).andThen
    fun booked u hbooked => ?_
  rw [ensures_bind, ensures_get]
  have hadl : ∀ quantity, Answers id (Prod.fst <$> withLedger (withPending booked.2 (appendAdlFills
      (liquidationContext record input orderId) u.markPrices input quantity price))) [] := by
    intro quantity v
    rw [ensures_map]
    exact answers_withLedger (answers_withPending (answers_appendAdlFills _ _ _ _ _) _) v
  refine (answers_emitWhen _ (hadl _) u).andThen fun deleveraged v hdeleveraged => ?_
  rw [ensures_bind, ensures_get]
  refine (answers_makeLiquidationEvent record input _ v).andThen fun completed w hcompleted => ?_
  rw [ensures_pure]
  simp only [id_eq, addresses_append] at hstarted hdeleveraged hcompleted ⊢
  rw [hstarted, hdeleveraged, hcompleted, hbooked, List.append_nil, List.append_nil]
  rfl

end Liquidation

theorem askBook_events (hasCrossingLiquidity : Bool) (command : PlaceOrderCommand)
    (rt : EngineRuntime) : Ensures (askBook hasCrossingLiquidity command) rt
      (fun coreEvents _ => ∀ events ∈ coreEvents, ∃ id g g', PlaceEvents id g events g')
      fun _ => True := by
  unfold askBook
  apply ensures_ite.2
  refine ⟨fun _ => ?_, fun _ => nofun⟩
  rw [ensures_map, ensures_processCore]
  intro events hevents
  cases hevents
  exact ⟨_, _, _, rt.core.placeOrder_events command⟩

theorem answeredBy_bookAnswers {record : InboundEngineRecord} {input : LiquidatePositionInput}
    {orderId : AdapterOrderId} {coreEvents : Option (List EngineEvent)}
    (hevents : ∀ events ∈ coreEvents, ∃ id g g', PlaceEvents id g events g')
    {result : EngineProcessResult} (h : result.addresses = (bookAnswers coreEvents).map
      (liquidationContext record input orderId).addressOf) :
    result.AnsweredBy [.liquidationAccepted, .liquidationRejected] input.envelope := by
  cases coreEvents with
  | none => exact ⟨.liquidationAccepted, by decide, h⟩
  | some events =>
    obtain ⟨id, g, g', hplace⟩ := hevents events rfl
    obtain ⟨type, htype, hanswer⟩ := hplace.answer .liquidatePosition
    have hanswers : bookAnswers (some events) = [type] := hanswer
    rw [hanswers] at h
    exact ⟨type, htype, h⟩

/-- A liquidation answers once, or not at all when its replies are off. -/
theorem executeLiquidation_answered (record : InboundEngineRecord)
    (input : LiquidatePositionInput) (emitReplies : Bool) (rt : EngineRuntime) :
    Ensures (executeLiquidation record input emitReplies) rt
      (fun a _ => if emitReplies then
          a.AnsweredBy [.liquidationAccepted, .liquidationRejected] input.envelope
        else a.addresses = []) fun _ => True := by
  have hrejected : ∀ reason, if emitReplies then (replyIf emitReplies
      (liquidationRejectedReply record input reason)).AnsweredBy
        [.liquidationAccepted, .liquidationRejected] input.envelope
      else (replyIf emitReplies (liquidationRejectedReply record input reason)).addresses = [] := by
    intro reason
    cases emitReplies with
    | true => exact ⟨.liquidationRejected, by decide, rfl⟩
    | false => rfl
  unfold executeLiquidation
  rw [ensures_bind, ensures_get]
  dsimp only
  split
  · exact hrejected _
  · split
    · apply ensures_ite.2
      refine ⟨fun _ => hrejected _, fun _ => ?_⟩
      refine ensures_bind_of_forall fun orderId t => ensures_bind_of_forall fun mapped u => ?_
      refine (askBook_events _ _ u).andThen fun coreEvents v hevents => ?_
      apply ensures_ite.2
      refine ⟨fun _ => hrejected _, fun _ => ?_⟩
      refine (answers_runLiquidation record input orderId mapped.2 coreEvents _ _ _ v).andThen
        fun result w hresult => ?_
      rw [ensures_pure]
      cases emitReplies with
      | true => exact answeredBy_bookAnswers hevents hresult
      | false => rfl
    · trivial

theorem answers_attemptCandidates (source : InboundEngineRecord) (sourceInputId : Option Text)
    (candidates : List AutomaticLiquidationCandidate) (progress : LiquidationAttempts) :
    Answers Prod.fst (attemptCandidates source sourceInputId candidates progress) [] := by
  induction candidates generalizing progress with
  | nil => exact fun rt => rfl
  | cons candidate candidates ih =>
    intro rt
    unfold attemptCandidates
    apply ensures_ite.2
    refine ⟨fun _ => rfl, fun _ => ?_⟩
    refine (executeLiquidation_answered source _ false rt).andThen fun execution t h => ?_
    apply ensures_ite.2
    refine ⟨fun _ => (ih _ t).andThen fun rest u hrest => ?_, fun _ => h⟩
    rw [ensures_pure]
    simp only [Bool.false_eq_true, ↓reduceIte, addresses_append] at h hrest ⊢
    rw [h, hrest]
    rfl

theorem answers_liquidationRounds (source : InboundEngineRecord) (sourceInputId : Option Text)
    (marketId : MarketId) (rounds : ℕ) (progress : LiquidationAttempts) :
    Answers id (liquidationRounds source sourceInputId marketId rounds progress) [] := by
  induction rounds generalizing progress with
  | zero => exact fun rt => rfl
  | succ rounds ih =>
    intro rt
    unfold liquidationRounds
    apply ensures_ite.2
    refine ⟨fun _ => rfl, fun _ => ?_⟩
    rw [ensures_bind, ensures_get]
    apply ensures_ite.2
    refine ⟨fun _ => rfl, fun _ => ?_⟩
    refine (answers_attemptCandidates source sourceInputId _ progress rt).andThen
      fun attempted t h => ?_
    apply ensures_ite.2
    refine ⟨fun _ => (ih _ t).andThen fun rest u hrest => ?_, fun _ => h⟩
    rw [ensures_pure]
    simp only [id_eq, addresses_append] at hrest ⊢
    rw [h, hrest]
    rfl

theorem answers_automatic (marketId : MarketId) (source : InboundEngineRecord)
    (sourceInputId : Option Text) :
    Answers id (evaluateAutomaticLiquidationsForMarket marketId source sourceInputId) [] :=
  answers_liquidationRounds _ _ _ _ _

end Answered

section Handlers
variable {rt : EngineRuntime}

theorem placeAllowedOrder_answered (record : InboundEngineRecord) (input : PlaceOrderInput)
    (cappedQuantity : AdapterQuantity) : Ensures (placeAllowedOrder record input cappedQuantity) rt
      (fun a _ => a.AnsweredBy [.orderAccepted, .orderRejected] input.envelope) fun _ => True := by
  have henvelope : (coreInputOf input cappedQuantity).envelope = input.envelope := by
    unfold coreInputOf
    split_ifs <;> rfl
  refine ensures_bind_of_forall fun mapped t => ?_
  rw [ensures_bind, ensures_get, ensures_bind, ensures_processCore]
  obtain ⟨type, htype, hanswer⟩ := (t.core.placeOrder_events mapped.1).answer .placeOrder
  generalize (t.core.process (.placeOrder mapped.1)).1 = coreEvents at hanswer
  have hsettled : Answers id (settlePlacedOrder record input (coreInputOf input cappedQuantity)
      t.markPrices (pendingMetadataOf input mapped.2) coreEvents)
      [⟨type, input.envelope.requestId, input.envelope.replyPartition⟩] := by
    intro l
    refine (answers_withPending (answers_translate (placeContext record (coreInputOf input
      cappedQuantity)) t.markPrices coreEvents) (some (pendingMetadataOf input mapped.2)) l).andThen
        fun a u ha => ?_
    refine ensures_bind_of_forall fun _ v => ensures_bind_of_forall fun _ w => ?_
    have hexpired : Answers id (expireIfReduceOnly record input a.2 coreEvents) [] := by
      intro l
      unfold expireIfReduceOnly
      split
      · refine answers_emitWhen _ (fun l => ?_) l
        unfold expireReduceOnly
        refine (answers_emitWhen _ (answers_makeRuntimeMarketEvent _ _ _ _ _) l).andThen
          fun expired u h => ensures_bind_of_forall fun _ v => h
      · rfl
    refine (hexpired w).andThen fun expired x hexpired => ?_
    rw [ensures_pure]
    unfold placeContext at ha
    rw [hanswer, henvelope] at ha
    simp only [id_eq, addresses_append] at ha hexpired ⊢
    rw [ha, hexpired]
    rfl
  refine (answers_withLedger hsettled _).andThen fun a u ha => ?_
  refine (answers_emitWhen _ (answers_automatic _ _ _) u).andThen fun b v hb => ?_
  rw [ensures_pure]
  refine ⟨type, htype, ?_⟩
  simp only [id_eq, addresses_append] at ha hb ⊢
  rw [ha, hb]
  rfl

theorem placeNewOrder_answered (record : InboundEngineRecord) (input : PlaceOrderInput) :
    Ensures (placeNewOrder record input) rt
      (fun a _ => a.AnsweredBy [.orderAccepted, .orderRejected] input.envelope) fun _ => True := by
  unfold placeNewOrder
  rw [ensures_bind, ensures_get]
  split
  · rename_i reason _
    have hrejected : Answers id (reduceOnlyRejectedResult record input reason)
        [⟨.orderRejected, input.envelope.requestId, input.envelope.replyPartition⟩] := by
      intro l
      refine (answers_emitWhen _ (answers_makeRuntimeMarketEvent _ _ _ _ _) l).andThen
        fun released t h => ?_
      rw [ensures_pure]
      simp only [id_eq, addresses_append] at h ⊢
      rw [h]
      rfl
    refine (answers_withLedger hrejected rt).mono (fun a t ha => ?_) fun _ _ => trivial
    exact ⟨.orderRejected, by decide, ha⟩
  · exact placeAllowedOrder_answered record input _

/-- The reply types of a command, with the envelope it came in; nothing for the other inputs. -/
def ParsedEngineInput.replyTypes : ParsedEngineInput → Option (CommandEnvelope × List ReplyType)
  | placeOrder input => some (input.envelope, [.orderAccepted, .orderRejected])
  | cancelOrder input => some (input.envelope, [.cancelAccepted, .cancelRejected])
  | liquidatePosition input => some (input.envelope, [.liquidationAccepted, .liquidationRejected])
  | _ => none

/-- One reply to a command, none to another input. -/
def ParsedEngineInput.Answered (parsed : ParsedEngineInput) (result : EngineProcessResult) : Prop :=
  match parsed.replyTypes with
  | some (envelope, types) => ∃ reply, result.replies = [reply] ∧ reply.type ∈ types ∧
      reply.requestId = envelope.requestId ∧ reply.partition = envelope.replyPartition
  | none => result.replies = []

theorem EngineProcessResult.AnsweredBy.reply {types : List ReplyType} {envelope : CommandEnvelope}
    {result : EngineProcessResult} (h : result.AnsweredBy types envelope) :
    ∃ reply, result.replies = [reply] ∧ reply.type ∈ types ∧
      reply.requestId = envelope.requestId ∧ reply.partition = envelope.replyPartition := by
  obtain ⟨type, htype, haddresses⟩ := h
  unfold addresses at haddresses
  rw [List.map_eq_singleton_iff] at haddresses
  obtain ⟨reply, hreplies, haddress⟩ := haddresses
  unfold EngineReply.address at haddress
  rw [ReplyAddress.mk.injEq] at haddress
  obtain ⟨rfl, hrequest, hpartition⟩ := haddress
  exact ⟨reply, hreplies, htype, hrequest, hpartition⟩

theorem replies_eq_nil {result : EngineProcessResult} (h : result.addresses = []) :
    result.replies = [] := List.map_eq_nil_iff.1 h

theorem answers_appendRiskUpdates (record : InboundEngineRecord) (inputId : Option Text)
    (keys : List PositionRiskKey) : Answers id (appendRiskUpdates record inputId keys) [] := by
  induction keys with
  | nil => exact fun l => rfl
  | cons key keys ih =>
    intro l
    unfold appendRiskUpdates
    rw [ensures_bind, ensures_get]
    split
    · trivial
    · refine (answers_makeRuntimeMarketEvent _ _ _ _ _ _).andThen fun a t ha => ?_
      refine (ih t).andThen fun b u hb => ?_
      rw [ensures_pure]
      simp only [id_eq, addresses_append] at ha hb ⊢
      rw [ha, hb]
      rfl

theorem markPriceUpdated_answers (record : InboundEngineRecord) (input : MarkPriceUpdatedInput) :
    Answers id (markPriceUpdated record input .live) [] := by
  intro rt
  unfold markPriceUpdated
  rw [ensures_bind, ensures_get]
  split
  · rename_i hdup
    obtain ⟨-, -, rfl⟩ := duplicateInputResultFor_eq hdup
    rfl
  · refine (answers_withLedger (answers_makeRuntimeMarketEvent _ _ _ _ _) rt).andThen fun a t ha => ?_
    refine ensures_bind_of_forall fun _ u => ?_
    have hrisks : Answers id (appendMarkPriceRiskUpdates record input) [] := by
      intro l
      unfold appendMarkPriceRiskUpdates
      rw [ensures_bind, ensures_get]
      exact ensures_bind_of_forall fun _ l' => answers_appendRiskUpdates _ _ _ l'
    refine (answers_withLedger hrisks u).andThen fun b v hb => ?_
    refine (answers_automatic _ _ _ v).andThen fun c w hc => ensures_bind_of_forall fun _ x => ?_
    rw [ensures_pure]
    simp only [id_eq, EngineProcessResult.applyProcessingMode, addresses_append] at ha hb hc ⊢
    rw [ha, hb, hc]
    rfl

theorem fundingRateUpdated_answers (record : InboundEngineRecord)
    (input : FundingRateUpdatedInput) : Answers id (fundingRateUpdated record input .live) [] := by
  intro rt
  unfold fundingRateUpdated
  rw [ensures_bind, ensures_get]
  split
  · rename_i hdup
    obtain ⟨-, -, rfl⟩ := duplicateInputResultFor_eq hdup
    rfl
  · refine (answers_withLedger (answers_makeRuntimeMarketEvent _ _ _ _ _) rt).andThen fun a t ha => ?_
    exact ensures_bind_of_forall fun _ u => ensures_bind_of_forall fun _ v => ha

theorem fundingSettlementTick_answers (record : InboundEngineRecord)
    (input : FundingSettlementTickInput) :
    Answers id (fundingSettlementTick record input .live) [] := by
  intro rt
  unfold fundingSettlementTick
  rw [ensures_bind, ensures_get]
  dsimp only
  split
  · rename_i hdup
    obtain ⟨-, -, rfl⟩ := duplicateInputResultFor_eq hdup
    rfl
  · split
    · exact ensures_bind_of_forall fun _ _ => rfl
    · split
      · exact ensures_bind_of_forall fun _ _ => rfl
      · rename_i funding _
        have hpaid : Answers id (applyFundingPayments record input funding rt.markPrices) [] := by
          intro l
          unfold applyFundingPayments
          rw [ensures_bind, ensures_get]
          refine ensures_bind_of_forall fun _ l' => ?_
          refine (answers_makeRuntimeMarketEvent _ _ _ _ _ l').andThen fun a t ha => ?_
          refine (answers_appendRiskUpdates _ _ _ t).andThen fun b u hb => ?_
          rw [ensures_pure]
          simp only [id_eq, addresses_append] at ha hb ⊢
          rw [ha, hb]
          rfl
        refine (answers_withLedger hpaid rt).andThen fun a t ha => ?_
        refine ensures_bind_of_forall fun _ u => ?_
        refine (answers_automatic _ _ _ u).andThen fun b v hb => ensures_bind_of_forall fun _ w => ?_
        rw [ensures_pure]
        simp only [id_eq, EngineProcessResult.applyProcessingMode, addresses_append] at ha hb ⊢
        rw [ha, hb]
        rfl

theorem processParsed_answered (record : InboundEngineRecord) (parsed : ParsedEngineInput)
    (hnew : ¬rt.Knows parsed) : Ensures (EngineRuntime.processParsed record .live parsed) rt
      (fun a _ => parsed.Answered a) fun _ => True := by
  cases parsed with
  | placeOrder input =>
    unfold EngineRuntime.processParsed placeOrder
    dsimp only
    rw [ensures_bind, ensures_get]
    split
    · rename_i hdup
      exact absurd (knows_of_duplicate (.placeOrder input) rfl hdup) hnew
    · refine (placeNewOrder_answered record input).andThen fun a t ha => ?_
      exact ensures_bind_of_forall fun _ _ => ha.reply
  | cancelOrder input =>
    unfold EngineRuntime.processParsed cancelOrder
    dsimp only
    rw [ensures_bind, ensures_get]
    split
    · rename_i hdup
      exact absurd (knows_of_duplicate (.cancelOrder input) rfl hdup) hnew
    · refine ensures_bind_of_forall fun command t => ?_
      rw [ensures_bind, ensures_processCore]
      obtain ⟨type, htype, hanswer⟩ := (t.core.cancelOrder_events command).answer
      refine (answers_withLedger (answers_withPending (answers_translate (cancelContext record input)
        rt.markPrices (t.core.process (.cancelOrder command)).1) none) _).andThen fun a u ha => ?_
      refine ensures_bind_of_forall fun _ v => ensures_bind_of_forall fun _ w => ?_
      unfold cancelContext at ha
      rw [hanswer] at ha
      exact EngineProcessResult.AnsweredBy.reply ⟨type, htype, ha⟩
  | liquidatePosition input =>
    unfold EngineRuntime.processParsed liquidatePosition
    dsimp only
    rw [ensures_bind, ensures_get]
    split
    · rename_i hdup
      exact absurd (knows_of_duplicate (.liquidatePosition input) rfl hdup) hnew
    · refine (executeLiquidation_answered record input true rt).andThen fun a t ha => ?_
      exact ensures_bind_of_forall fun _ _ => EngineProcessResult.AnsweredBy.reply ha
  | markPriceUpdated input =>
    exact (markPriceUpdated_answers record input rt).mono (fun _ _ h => replies_eq_nil h)
      fun _ h => h
  | fundingRateUpdated input =>
    exact (fundingRateUpdated_answers record input rt).mono (fun _ _ h => replies_eq_nil h)
      fun _ h => h
  | fundingSettlementTick input =>
    exact (fundingSettlementTick_answers record input rt).mono (fun _ _ h => replies_eq_nil h)
      fun _ h => h

/-- An input processed live that was not seen before gets its one reply if it is a command, and
none otherwise. -/
theorem command_answered_once (rt : EngineRuntime) (record : InboundEngineRecord)
    (input : EngineInput) (hnew : ¬rt.Knows input.parsed) (result : EngineProcessResult)
    (hresult : (rt.step (.input record (.ok input) .live)).1 = .ok result) :
    input.parsed.Answered result :=
  (processParsed_answered record input.parsed hnew).returned (Prod.ext hresult rfl)

theorem command_answered_once_sample : ∃ result,
    (((EngineRuntime.new sampleRuntimeConfig).run [samplePlace 1 11 .long 100 10]).2.step
      (samplePlace 2 12 .short 100 4)).1 = .ok result ∧
    (samplePlaceInput 2 12 .short 100 4).parsed.Answered result := by
  have hok : ∃ result, (((EngineRuntime.new sampleRuntimeConfig).run
      [samplePlace 1 11 .long 100 10]).2.step (samplePlace 2 12 .short 100 4)).1 = .ok result := by
    decide +kernel
  obtain ⟨result, hresult⟩ := hok
  exact ⟨result, hresult, command_answered_once _ ⟨engineInputTopic, 0, 2⟩ _ (by decide +kernel)
    result hresult⟩

end Handlers
end PerpexEngine
