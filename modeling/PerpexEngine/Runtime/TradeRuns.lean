import PerpexEngine.Runtime.TradeIds

/-! Trade ids and account delta ids over a whole run: distinct as long as no liquidation id that
has deleveraged someone is used again. -/
namespace PerpexEngine
open Program

section Handlers
variable {rt rt' : EngineRuntime} {o o' o'' : LoggedRuntime} {lo : TradeId} {ids : Set Text}
  {events more : List EngineEventRecord} {α β : Type}

theorem SettledAt.of_quiet (hq : Quiet events) (hs : rt.Sound) (hle : lo ≤ rt.nextTradeId) :
    SettledAt lo ∅ events rt := ⟨hs, .of_quiet hq hle⟩

/-- A program that says nothing leaves what was settled. -/
theorem SettledAt.silent (h : SettledAt lo ids events rt) {m : RuntimeM α} {f : α → RuntimeM β}
    {Q : β → EngineRuntime → Prop}
    (hm : EmitsFrom id (fun _ => []) EngineRuntime.KeepsSound m rt)
    (hf : ∀ a t, SettledAt lo ids events t → Ensures (f a) t Q fun _ => True) :
    Ensures (m >>= f) rt Q fun _ => True := by
  apply ensures_bind.2
  refine hm.mono (fun a t ht => ?_) fun _ _ => trivial
  obtain ⟨hsound, hle⟩ := ht h.sound
  exact hf a t ⟨hsound, h.settled.upTo hle⟩

theorem ensures_quiet {m : LedgerM EngineProcessResult}
    (hm : Yields Ledger.Keyed (fun a => Quiet a.events) m) (hs : rt.Sound) :
    Ensures (withLedger m) rt (fun a t => Quiet a.events ∧ t.Sound ∧
      t.nextTradeId = rt.nextTradeId) fun _ => True :=
  ensures_of_onCore (yields_withLedger hm) hs

theorem ensures_processCore_traded (hs : rt.Sound) (command : EngineCommand) :
    Ensures (processCore command) rt
      (fun coreEvents t => t.Sound ∧ Traded rt.nextTradeId t.nextTradeId coreEvents)
      fun _ => True := by
  rw [ensures_processCore]
  obtain ⟨queues, hq⟩ := hs.tracked
  exact ⟨⟨hs.keyed, _, hq.process command⟩, hq.traded command⟩

/-- The trades of the core, once translated. -/
theorem SettledAt.of_booked {coreEvents : List EngineEvent}
    (htraded : Traded lo rt.nextTradeId coreEvents) (h : Booked (tradesOf coreEvents) events)
    (hs : rt.Sound) : SettledAt lo ∅ events rt := by
  refine ⟨hs, ?_⟩
  rw [htraded.hi]
  exact .of_booked h htraded.ids

theorem yields_expireIfReduceOnly (record : InboundEngineRecord) (input : PlaceOrderInput)
    (pending : Option OrderMetadata) (coreEvents : List EngineEvent) :
    Yields Ledger.Keyed (fun a => Quiet a.events)
      (expireIfReduceOnly record input pending coreEvents) := by
  unfold expireIfReduceOnly
  cases pending with
  | none => exact .pure .nil
  | some metadata =>
    refine yields_emitWhen _ ?_ .nil
    refine (yields_emitWhen _ (yields_makeRuntimeMarketEvent record _ _ _ rfl rfl) .nil).bind
      fun expired hexpired => ?_
    have herase : Yields Ledger.Keyed (fun _ : Unit => True)
        (modifyMetadata (·.erase metadata.orderId)) :=
      yields_of_emits ((keyedRule ∅).fills.modifyMetadata fun _ => .erase _) fun _ => trivial
    exact herase.bind fun _ _ => .pure hexpired

theorem yields_settlePlacedOrder (record : InboundEngineRecord) (input coreInput : PlaceOrderInput)
    (markPrices : MarkPrices) (metadata : OrderMetadata) {coreEvents : List EngineEvent}
    (hparties : ∀ trade ∈ tradesOf coreEvents, trade.makerOrderId ≠ trade.takerOrderId) :
    Yields Ledger.Keyed (fun a => Booked (tradesOf coreEvents) a.events)
      (settlePlacedOrder record input coreInput markPrices metadata coreEvents) := by
  refine (yields_withPending _ (yields_translate _ markPrices rfl coreEvents hparties)).bind
    fun translated htranslated => ?_
  have hrecord : Yields Ledger.Keyed (fun _ : Unit => True)
      (recordAccepted translated.2 (hasOrderAccepted coreEvents)) :=
    yields_of_emits ((keyedRule markPrices).fills.recordAccepted _ _) fun _ => .always fun _ _ => trivial
  refine hrecord.bind fun _ _ => (yields_cleanup coreEvents).bind fun _ _ => ?_
  refine (yields_expireIfReduceOnly record input _ coreEvents).bind fun expired hexpired =>
    .pure ?_
  have hall := htranslated.append hexpired.booked
  rw [List.append_nil] at hall
  exact hall

theorem placeOnBook_settled (hs : rt.Sound) (record : InboundEngineRecord)
    (input : PlaceOrderInput) (cappedQuantity : AdapterQuantity) :
    Ensures (placeOnBook record input cappedQuantity) rt
      (fun r t => SettledAt rt.nextTradeId ∅ r.1.events t) fun _ => True := by
  unfold placeOnBook
  rw [ensures_bind, ensures_liftExcept]
  refine ⟨fun mapped _ => ?_, fun _ _ => trivial⟩
  rw [ensures_bind, ensures_get]
  apply ensures_bind.2
  refine (ensures_processCore_traded hs _).mono ?_ fun _ _ => trivial
  rintro coreEvents t ⟨hsound, htraded⟩
  apply ensures_bind.2
  refine (ensures_of_onCore (yields_withLedger (yields_settlePlacedOrder record input _ rt.markPrices
    _ htraded.parties)) hsound).mono ?_ fun _ _ => trivial
  rintro result u ⟨hresult, hsound', hnext⟩
  rw [← hnext] at htraded
  exact SettledAt.of_booked htraded hresult hsound'

theorem reduceOnlyRejectedResult_settled (hs : rt.Sound) (record : InboundEngineRecord)
    (input : PlaceOrderInput) (reason : Text) :
    Ensures (withLedger (reduceOnlyRejectedResult record input reason)) rt
      (fun a t => SettledAt rt.nextTradeId ∅ a.events t) fun _ => True := by
  have hrejected : Yields Ledger.Keyed (fun a => Quiet a.events)
      (reduceOnlyRejectedResult record input reason) :=
    (yields_emitWhen _ (yields_makeRuntimeMarketEvent record _ _ _ rfl rfl) .nil).bind
      fun released hreleased => .pure hreleased
  refine (ensures_quiet hrejected hs).mono ?_ fun _ h => h
  rintro a t ⟨ha, hsound, hnext⟩
  exact .of_quiet ha hsound hnext.ge

theorem cancelOrder_settled (hs : rt.Sound) (record : InboundEngineRecord)
    (input : CancelOrderInput) : Ensures (cancelOrder record input .live) rt
      (fun a t => SettledAt rt.nextTradeId ∅ a.events t) fun _ => True := by
  unfold cancelOrder
  dsimp only
  rw [ensures_bind, ensures_get]
  split
  · rename_i hdup
    obtain ⟨-, -, -, rfl⟩ := duplicateResultFor_eq hdup
    exact .nothing hs _
  · rw [ensures_bind, ensures_liftExcept]
    refine ⟨fun command _ => ?_, fun _ _ => trivial⟩
    apply ensures_bind.2
    refine (ensures_processCore_traded hs _).mono ?_ fun _ _ => trivial
    rintro coreEvents t ⟨hsound, htraded⟩
    apply ensures_bind.2
    refine (ensures_of_onCore (yields_withLedger (yields_withPending none (yields_translate
      (cancelContext record input) rt.markPrices rfl coreEvents htraded.parties)))
      hsound).mono ?_ fun _ _ => trivial
    rintro ⟨result, pending⟩ u ⟨hresult, hsound', hnext⟩
    rw [← hnext] at htraded
    have hbook := SettledAt.of_booked htraded hresult hsound'
    have hcleanup : EmitsFrom id (fun _ => []) EngineRuntime.KeepsSound
        (withLedger (modifyMetadata (cleanupCompletedOrderMetadata coreEvents))) u :=
      emits_withLedger u ((EngineRuntime.soundRule.ledger u).fills.cleanup coreEvents)
    refine hbook.silent hcleanup fun _ v hv => ?_
    exact hv.silent (EngineRuntime.soundRule.inputs.markProcessed _ _ _ _ v) fun _ _ h => h

theorem yields_appendRiskUpdates (record : InboundEngineRecord) (inputId : Option Text)
    (keys : List PositionRiskKey) : Yields Ledger.Keyed (fun a => Quiet a.events)
      (appendRiskUpdates record inputId keys) := by
  induction keys with
  | nil => exact .pure .nil
  | cons key keys ih =>
    unfold appendRiskUpdates
    apply Yields.get
    intro l hl
    split
    · exact hl
    · rename_i risk _
      have hevent : Yields Ledger.Keyed (fun a => Quiet a.events)
          (makeRuntimeMarketEvent record inputId none risk.marketId (.riskStateUpdated risk)) :=
        yields_makeRuntimeMarketEvent record _ _ _ rfl rfl
      refine (hevent.bind fun a ha => ?_) l hl
      exact ih.bind fun b hb => .pure (ha.append hb)

/-- Risk updates from a ledger whose risk states were redone. -/
theorem yields_updateRiskStates {riskOf : IsolatedPositionState → Option IsolatedRiskState →
      Option IsolatedRiskState} {f : List PositionRiskKey → LedgerM EngineProcessResult}
    (hf : ∀ keys, Yields Ledger.Keyed (fun a => Quiet a.events) (f keys)) (l : Ledger)
    (hl : l.Keyed) (entries : List (PositionRiskKey × IsolatedPositionState)) :
    Ensures (do
      set (updateRiskStates riskOf l entries).1
      f (updateRiskStates riskOf l entries).2) l
      (fun a l' => Quiet a.events ∧ l'.Keyed) fun l' => l'.Keyed := by
  rw [ensures_bind, ensures_set]
  apply hf
  rw [updateRiskStates_eq]
  exact hl

theorem yields_appendMarkPriceRiskUpdates (record : InboundEngineRecord)
    (input : MarkPriceUpdatedInput) : Yields Ledger.Keyed (fun a => Quiet a.events)
      (appendMarkPriceRiskUpdates record input) := by
  apply Yields.get
  intro l hl
  exact yields_updateRiskStates (fun keys => yields_appendRiskUpdates record _ keys) l hl _

theorem yields_applyFundingPayments (record : InboundEngineRecord)
    (input : FundingSettlementTickInput) (funding : FundingRateState) (markPrices : MarkPrices) :
    Yields Ledger.Keyed (fun a => Quiet a.events)
      (applyFundingPayments record input funding markPrices) := by
  apply Yields.get
  intro l hl
  refine yields_updateRiskStates (f := fun keys => do
    let applied ← makeRuntimeMarketEvent record input.inputId none input.marketId
      (.fundingPaymentApplied input.fundingIntervalId (l.positions.toList.filterMap fun entry =>
        fundingPayment input funding markPrices entry.2))
    let risks ← appendRiskUpdates record input.inputId keys
    pure (applied ++ risks)) (fun keys => ?_) l hl _
  exact (yields_makeRuntimeMarketEvent record _ _ _ rfl rfl).bind fun a ha =>
    (yields_appendRiskUpdates record _ keys).bind fun b hb => .pure (ha.append hb)

theorem applyMarkPrice_settled (hs : rt.Sound) (record : InboundEngineRecord)
    (input : MarkPriceUpdatedInput) : Ensures (applyMarkPrice record input) rt
      (fun a t => SettledAt rt.nextTradeId ∅ a.events t) fun _ => True := by
  unfold applyMarkPrice
  apply ensures_bind.2
  refine (ensures_quiet (yields_makeRuntimeMarketEvent record _ _ _ rfl rfl) hs).mono ?_
    fun _ _ => trivial
  rintro updated t ⟨hupdated, hsound, hnext⟩
  rw [ensures_bind, ensures_modify]
  apply ensures_bind.2
  refine Ensures.mono (ensures_quiet (yields_appendMarkPriceRiskUpdates record input)
    (hsound.of_eq rfl rfl)) ?_ fun _ _ => trivial
  rintro risks u ⟨hrisks, hsound', hnext'⟩
  exact .of_quiet (hupdated.append hrisks) hsound' (hnext'.trans hnext).ge

theorem applyFunding_settled (hs : rt.Sound) (record : InboundEngineRecord)
    (input : FundingSettlementTickInput) (funding : FundingRateState) (markPrices : MarkPrices) :
    Ensures (applyFunding record input funding markPrices) rt
      (fun a t => SettledAt rt.nextTradeId ∅ a.events t) fun _ => True := by
  unfold applyFunding
  apply ensures_bind.2
  refine (ensures_quiet (yields_applyFundingPayments record input funding markPrices) hs).mono ?_
    fun _ _ => trivial
  rintro paid t ⟨hpaid, hsound, hnext⟩
  rw [ensures_bind, ensures_modify]
  exact .of_quiet hpaid (hsound.of_eq rfl rfl) hnext.ge

theorem fundingRateUpdated_settled (hs : rt.Sound) (record : InboundEngineRecord)
    (input : FundingRateUpdatedInput) : Ensures (fundingRateUpdated record input .live) rt
      (fun a t => SettledAt rt.nextTradeId ∅ a.events t) fun _ => True := by
  unfold fundingRateUpdated
  rw [ensures_bind, ensures_get]
  split
  · rename_i hdup
    obtain ⟨-, -, rfl⟩ := duplicateInputResultFor_eq hdup
    exact .nothing hs _
  · apply ensures_bind.2
    refine (ensures_quiet (yields_makeRuntimeMarketEvent record _ _ _ rfl rfl) hs).mono ?_
      fun _ _ => trivial
    rintro updated t ⟨hupdated, hsound, hnext⟩
    rw [ensures_bind, ensures_modify]
    have hall : ∀ u : EngineRuntime, u.ledger = t.ledger → u.core = t.core →
        SettledAt rt.nextTradeId ∅ updated.events u := by
      intro u hledger hcore
      have hsame : u.nextTradeId = rt.nextTradeId := by
        rw [← hnext]
        exact congrArg (·.sequenceGenerator.nextTradeId) hcore
      exact .of_quiet hupdated (hsound.of_eq hledger hcore) hsame.ge
    refine SettledAt.silent (hall _ ?_ ?_) ?_ fun _ _ h => ?_
    · rfl
    · rfl
    · exact EngineRuntime.soundRule.inputs.markInputProcessed _ _ _ _
    · exact h

/-- First what is not a liquidation, then the liquidations that it sets off. -/
theorem SettledSince.andThen (h : SettledSince o ∅ events o') (h' : SettledSince o' ids more o'') :
    SettledSince o ids (events ++ more) o'' := by
  have hboth := h.append h' (Set.empty_disjoint _)
  rw [Set.empty_union] at hboth
  exact hboth

/-- A program that says nothing and liquidates no one leaves what was settled. -/
theorem SettledSince.silent (h : SettledSince o ids events o') {m : RuntimeM α} {f : α → LoggedM β}
    {Q : β → LoggedRuntime → Prop}
    (hm : EmitsFrom id (fun _ => []) EngineRuntime.KeepsSound m o'.runtime)
    (hf : ∀ a o'', SettledSince o ids events o'' → Ensures (f a) o'' Q fun _ => True) :
    Ensures (unlogged m >>= f) o' Q fun _ => True := by
  apply ensures_bind.2
  have hsilent : Ensures m o'.runtime
      (fun _ t => SettledAt o'.runtime.nextTradeId ∅ [] t) fun _ => True := by
    refine hm.mono (fun _ t ht => ?_) fun _ _ => trivial
    obtain ⟨hsound, hle⟩ := ht h.sound
    exact .of_quiet .nil hsound hle
  refine (ensures_unlogged ∅ hsilent).mono (fun a o'' h' => ?_) fun _ _ => trivial
  have hboth := h.append h' (Set.disjoint_empty _)
  rw [Set.union_empty, List.append_nil] at hboth
  exact hf a o'' hboth

theorem logPlaceNewOrder_settled (hs : o.runtime.Sound) (record : InboundEngineRecord)
    (input : PlaceOrderInput) : Ensures (logPlaceNewOrder record input) o
      (fun a o' => SettledSince o (automaticIds record input.inputId { x | x.1 = input.marketId })
        a.events o') fun _ => True := by
  unfold logPlaceNewOrder
  rw [ensures_unlogged_get]
  split
  · exact ensures_unlogged _ (reduceOnlyRejectedResult_settled hs record input _)
  · apply ensures_bind.2
    refine (ensures_unlogged ∅ (placeOnBook_settled hs record input _)).mono ?_ fun _ _ => trivial
    rintro ⟨result, coreEvents⟩ t hbook
    apply ensures_bind.2
    have hauto : Ensures (emitWhen (hasTradeExecuted coreEvents = true)
        (logLiquidationsForMarket input.marketId record input.inputId)) t
        (fun a u => SettledSince t
          (automaticIds record input.inputId { x | x.1 = input.marketId }) a.events u)
        fun _ => True :=
      ensures_ite.2 ⟨fun _ => logLiquidationsForMarket_settled _ _ _ hbook.sound,
        fun _ => .nothing hbook.sound _⟩
    exact hauto.mono (fun a u ha => hbook.andThen ha) fun _ h => h

/-- After the liquidations that a step sets off, the record that it was processed. -/
theorem logMarkPriceUpdated_settled (hs : o.runtime.Sound) (record : InboundEngineRecord)
    (input : MarkPriceUpdatedInput) : Ensures (logMarkPriceUpdated record input .live) o
      (fun a o' => SettledSince o (automaticIds record input.inputId { x | x.1 = input.marketId })
        a.events o') fun _ => True := by
  unfold logMarkPriceUpdated
  rw [ensures_unlogged_get]
  split
  · rename_i hdup
    obtain ⟨-, -, rfl⟩ := duplicateInputResultFor_eq hdup
    exact .nothing hs _
  · apply ensures_bind.2
    refine (ensures_unlogged ∅ (applyMarkPrice_settled hs record input)).mono ?_ fun _ _ => trivial
    intro applied t happlied
    apply ensures_bind.2
    refine (logLiquidationsForMarket_settled record input.inputId input.marketId
      happlied.sound).mono ?_ fun _ _ => trivial
    intro liquidations u hliquidations
    exact (happlied.andThen hliquidations).silent
      (EngineRuntime.soundRule.inputs.markInputProcessed _ _ _ _) fun _ _ h => h

theorem logFundingSettlementTick_settled (hs : o.runtime.Sound) (record : InboundEngineRecord)
    (input : FundingSettlementTickInput) : Ensures (logFundingSettlementTick record input .live) o
      (fun a o' => SettledSince o (automaticIds record input.inputId { x | x.1 = input.marketId })
        a.events o') fun _ => True := by
  have hnothing := SettledSince.nothing hs
    (automaticIds record input.inputId { x | x.1 = input.marketId })
  unfold logFundingSettlementTick
  rw [ensures_unlogged_get]
  split
  · rename_i hdup
    obtain ⟨-, -, rfl⟩ := duplicateInputResultFor_eq hdup
    exact hnothing
  · split
    · exact hnothing.silent (EngineRuntime.soundRule.inputs.markInputProcessed _ _ _ _) fun _ _ h => h
    · split
      · exact hnothing.silent (EngineRuntime.soundRule.inputs.markInputProcessed _ _ _ _)
          fun _ _ h => h
      · apply ensures_bind.2
        refine (ensures_unlogged ∅ (applyFunding_settled hs record input _ _)).mono ?_
          fun _ _ => trivial
        intro paid t hpaid
        apply ensures_bind.2
        refine (logLiquidationsForMarket_settled record input.inputId input.marketId
          hpaid.sound).mono ?_ fun _ _ => trivial
        intro liquidations u hliquidations
        exact (hpaid.andThen hliquidations).silent
          (EngineRuntime.soundRule.inputs.markInputProcessed _ _ _ _) fun _ _ h => h

theorem logParsed_settled (hs : o.runtime.Sound) (record : InboundEngineRecord)
    (parsed : ParsedEngineInput) : Ensures (logParsed record .live parsed) o
      (fun a o' => SettledSince o Set.univ a.events o') fun _ => True := by
  have hall : ∀ {ids : Set Text} {m : LoggedM EngineProcessResult},
      Ensures m o (fun a o' => SettledSince o ids a.events o') (fun _ => True) →
        Ensures m o (fun a o' => SettledSince o Set.univ a.events o') fun _ => True :=
    fun h => h.mono (fun _ _ ha => ha.mono (Set.subset_univ _)) fun _ h => h
  cases parsed with
  | placeOrder input =>
    unfold logParsed logPlaceOrder
    rw [ensures_unlogged_get]
    split
    · rename_i hdup
      obtain ⟨-, -, -, rfl⟩ := duplicateResultFor_eq hdup
      exact .nothing hs _
    · apply ensures_bind.2
      refine (hall (logPlaceNewOrder_settled hs record input)).mono (fun a t ha => ?_)
        fun _ _ => trivial
      exact ha.silent (EngineRuntime.soundRule.inputs.markProcessed _ _ _ _ _) fun _ _ h => h
  | cancelOrder input => exact ensures_unlogged _ (cancelOrder_settled hs record input)
  | liquidatePosition input =>
    unfold logParsed logLiquidatePosition
    rw [ensures_unlogged_get]
    split
    · rename_i hdup
      obtain ⟨-, -, -, rfl⟩ := duplicateResultFor_eq hdup
      exact .nothing hs _
    · apply ensures_bind.2
      refine (hall (logLiquidation_settled hs record input true)).mono (fun a t ha => ?_)
        fun _ _ => trivial
      exact ha.silent (EngineRuntime.soundRule.inputs.markProcessed _ _ _ _ _) fun _ _ h => h
  | markPriceUpdated input => exact hall (logMarkPriceUpdated_settled hs record input)
  | fundingRateUpdated input => exact ensures_unlogged _ (fundingRateUpdated_settled hs record input)
  | fundingSettlementTick input => exact hall (logFundingSettlementTick_settled hs record input)

end Handlers

section Runs

/-- The ids of the liquidations that a step carries out. -/
def RuntimeStep.liquidatedUnder (rt : EngineRuntime) (s : RuntimeStep) : List Text :=
  PerpexEngine.liquidatedUnder (s.logged.run.run ⟨rt, []⟩).2.calls

variable {rt : EngineRuntime}

/-- What a live step settles goes under liquidations that it carries out. -/
theorem logged_settled {o : LoggedRuntime} (hs : o.runtime.Sound)
    (hpositive : o.runtime.ledger.marketSequences.Positive) {s : RuntimeStep} (hlive : s.Live) :
    Ensures s.logged o (fun a o' => SettledSince o Set.univ a.events o') fun _ => True := by
  have hall : ∀ {ids : Set Text} {m : LoggedM EngineProcessResult},
      Ensures m o (fun a o' => SettledSince o ids a.events o') (fun _ => True) →
        Ensures ((·.applyProcessingMode .live) <$> m) o
          (fun a o' => SettledSince o Set.univ a.events o') fun _ => True := by
    intro ids m h
    rw [ensures_map]
    exact h.mono (fun _ _ ha => ha.mono (Set.subset_univ _)) fun _ h => h
  cases s with
  | input record parsed mode =>
    cases hlive
    unfold RuntimeStep.logged
    rw [ensures_bind, ensures_liftExcept]
    exact ⟨fun input _ => logParsed_settled hs record input.parsed, fun _ _ => trivial⟩
  | evaluate source mode =>
    cases hlive
    exact hall (logAllLiquidations_settled source none hs)
  | evaluateMarket marketId source mode =>
    cases hlive
    exact hall (logLiquidationsForMarket_settled source none marketId hs)
  | restart config =>
    refine ensures_unlogged _ ?_
    unfold RuntimeStep.program
    rw [ensures_bind]
    refine (ensures_restart hpositive config).mono ?_ fun _ => False.elim
    rintro _ _ rfl
    obtain ⟨hsound, hle⟩ := EngineRuntime.soundRule.restart o.runtime config trivial hs
    exact .of_quiet .nil hsound hle

theorem eventsOf_append (outcomes more : List EngineRuntime.Outcome) :
    eventsOf (outcomes ++ more) = eventsOf outcomes ++ eventsOf more := by
  unfold eventsOf resultsOf
  rw [List.filterMap_append, List.flatMap_append]

/-- A step that replays says nothing. -/
theorem eventsOf_replayed {s : RuntimeStep} (h : ¬s.Live) : eventsOf [(rt.step s).1] = [] := by
  have hsilent : Ensures s.program rt (fun a _ => a.events = []) fun _ => True := by
    rw [RuntimeStep.program_eq, ensures_map]
    refine Ensures.always fun a t => ?_
    cases s with
    | restart config => exact absurd trivial h
    | input _ _ mode | evaluate _ mode | evaluateMarket _ _ mode =>
      cases mode with
      | live => exact absurd rfl h
      | replaySilent => rfl
  unfold EngineRuntime.step
  rcases hr : s.program.run.run rt with ⟨_ | result, t⟩
  · rfl
  · have hevents := hsilent.returned hr
    unfold eventsOf resultsOf
    simpa using hevents

/-- What one step settles goes under the liquidations that it carries out. -/
theorem step_settled (hs : rt.Sound) (hpositive : rt.ledger.marketSequences.Positive)
    (s : RuntimeStep) : SettledAt rt.nextTradeId { id | s.Live ∧ id ∈ s.liquidatedUnder rt }
      (eventsOf [(rt.step s).1]) (rt.step s).2 := by
  have hnothing : SettledAt rt.nextTradeId { id | s.Live ∧ id ∈ s.liquidatedUnder rt } []
      (rt.step s).2 := by
    obtain ⟨events, hkept, -⟩ := EngineRuntime.soundRule.inputs.step (s := s)
      (fun config _ => EngineRuntime.soundRule.restart rt config trivial) hpositive
    obtain ⟨hsound, hle⟩ := hkept hs
    exact (SettledAt.of_quiet .nil hsound hle).mono (Set.empty_subset _)
  by_cases hlive : s.Live
  · have herases : ((s.logged.run.run ⟨rt, []⟩).1, (s.logged.run.run ⟨rt, []⟩).2.runtime) =
        rt.step s := logged_erases s ⟨rt, []⟩
    rw [← herases] at hnothing ⊢
    rcases hr : s.logged.run.run ⟨rt, []⟩ with ⟨_ | result, o'⟩
    · rw [hr] at hnothing
      exact hnothing
    · obtain ⟨calls, hcalls, hsettled⟩ :=
        (logged_settled (o := ⟨rt, []⟩) hs hpositive hlive).returned hr
      have hevents : eventsOf [(.ok result : EngineRuntime.Outcome)] = result.events :=
        List.append_nil _
      rw [hevents]
      refine hsettled.mono ?_
      rintro id ⟨-, hid⟩
      refine ⟨hlive, ?_⟩
      unfold RuntimeStep.liquidatedUnder
      rw [hr, hcalls]
      exact hid
  · rw [eventsOf_replayed hlive]
    exact hnothing

/-- No live step of the run carries out a liquidation under an id under which a trade of the run
before it has deleveraged someone. -/
def FreshLiquidations (config : EngineRuntimeConfig) (steps : List RuntimeStep) : Prop :=
  ∀ before s after, steps = before ++ s :: after → s.Live →
    ∀ d ∈ deleveragingsIn (eventsOf ((EngineRuntime.new config).run before).1),
      d.liquidationId ∉ s.liquidatedUnder ((EngineRuntime.new config).run before).2

theorem run_settled (config : EngineRuntimeConfig) (steps : List RuntimeStep)
    (hfresh : FreshLiquidations config steps) :
    SettledAt (EngineRuntime.new config).nextTradeId Set.univ
      (eventsOf ((EngineRuntime.new config).run steps).1)
      ((EngineRuntime.new config).run steps).2 := by
  induction steps using List.reverseRecOn with
  | nil => exact .nothing (EngineRuntime.sound_new config) _
  | append_singleton steps s ih =>
    have hbefore := ih fun before s' after hsplit =>
      hfresh before s' (after ++ [s]) (by rw [hsplit, List.append_assoc, List.cons_append])
    have hstep := step_settled hbefore.sound
      (positive_run (positive_new config) steps) s
    have hsame : ∀ r : EngineRuntime, r.run [s] = ([(r.step s).1], (r.step s).2) := fun _ => rfl
    rw [EngineRuntime.run_append, hsame]
    dsimp only
    rw [eventsOf_append]
    refine ⟨hstep.sound, (hbefore.settled.append hstep.settled fun d hd hd' => ?_).mono
      (Set.subset_univ _)⟩
    obtain ⟨-, hlive, hid⟩ := hstep.settled.under hd'
    exact hfresh steps s [] rfl hlive d hd hid

/-- No two trades of a run have the same id, and no two account deltas. -/
theorem settled_once (config : EngineRuntimeConfig) (steps : List RuntimeStep)
    (hfresh : FreshLiquidations config steps)
    (hhash : HashesApart (eventsOf ((EngineRuntime.new config).run steps).1)) :
    ((tradesIn (eventsOf ((EngineRuntime.new config).run steps).1)).map (·.tradeId)).Nodup ∧
      (accountDeltaIdsIn (eventsOf ((EngineRuntime.new config).run steps).1)).Nodup := by
  have hsettled := (run_settled config steps hfresh).settled
  have htrades := hsettled.tradeIds_nodup hhash
  exact ⟨htrades, hsettled.matched.nodup htrades⟩

theorem FreshLiquidations.quiet {config : EngineRuntimeConfig} {steps : List RuntimeStep}
    (hnone : deleveragingsIn (eventsOf ((EngineRuntime.new config).run steps).1) = []) :
    FreshLiquidations config steps := by
  rintro before s after rfl _ d hd
  rw [EngineRuntime.run_append, eventsOf_append, deleveragingsIn_append,
    List.append_eq_nil_iff] at hnone
  rw [hnone.1] at hd
  cases hd

theorem FreshLiquidations.snoc {config : EngineRuntimeConfig} {steps : List RuntimeStep}
    (h : FreshLiquidations config steps) {s : RuntimeStep}
    (hs : ∀ d ∈ deleveragingsIn (eventsOf ((EngineRuntime.new config).run steps).1),
      d.liquidationId ∉ s.liquidatedUnder ((EngineRuntime.new config).run steps).2) :
    FreshLiquidations config (steps ++ [s]) := by
  intro before s' after hsplit hlive d hd
  rcases List.eq_nil_or_concat after with rfl | ⟨after, last, rfl⟩
  · obtain ⟨rfl, hlast⟩ := List.append_inj' hsplit rfl
    cases hlast
    exact hs d hd
  · rw [List.concat_eq_append, ← List.cons_append, ← List.append_assoc] at hsplit
    obtain ⟨rfl, -⟩ := List.append_inj' hsplit rfl
    exact h before s' after rfl hlive d hd

def sampleOrderOn (n : ℕ) (userId : AdapterUserId) (side : AdapterSide) (price : Fin 1000)
    (quantity : Fin 1000) (reservedMarginAmount : ℤ) : RuntimeStep :=
  .input ⟨engineInputTopic, 0, n⟩ (.ok ⟨.placeOrder
    { inputId := some (ascii "in-" ++ decimal n)
      envelope := sampleEnvelope n userId
      orderId := n
      reservationId := ascii "res-" ++ decimal n
      marketId := 1
      side := side
      orderType := .limit
      timeInForce := .gtc
      price := price.val
      quantity := quantity.val
      reduceOnly := false
      marginAsset := ascii "USDC"
      reservedMarginAmount := reservedMarginAmount
      leverage := 10 }, sample_fitsInt64 price quantity⟩) .live

def sampleLiquidation (n : ℕ) (liquidationId : Text) (userId : AdapterUserId)
    (positionSide : AdapterSide) (quantity price : ℤ) : RuntimeStep :=
  .input ⟨engineInputTopic, 0, n⟩ (.ok ⟨.liquidatePosition
    { inputId := some (ascii "in-" ++ decimal n)
      envelope := sampleEnvelope n userId
      liquidationId := liquidationId
      marketId := 1
      liquidatedUserId := userId
      positionSide := positionSide
      quantity := quantity
      price := price }, trivial⟩) .live

/-- Users 31 and 32 trade on next to no margin; a liquidation of 31 against the book leaves user 33
with a profit, against which 32 is then deleveraged. -/
def sampleDeleveraging : List RuntimeStep :=
  [sampleMark 1 90, sampleOrderOn 2 31 .short 90 5 1, sampleOrderOn 3 32 .long 90 5 1,
    sampleOrderOn 4 33 .short 100 5 1000, sampleLiquidation 5 (ascii "liq-1") 31 .short 2 100] ++
    [sampleLiquidation 6 (ascii "liq-2") 32 .long 1 90]

/-- A request that is turned away may use an old id. -/
def sampleLaterLiquidations : List RuntimeStep :=
  sampleDeleveraging ++ [sampleLiquidation 7 (ascii "liq-2") 34 .long 1 90] ++
    [sampleLiquidation 8 (ascii "liq-3") 32 .long 1 90]

/-- Another liquidation id gives other trade ids. -/
theorem settled_once_sample :
    (((tradesIn (eventsOf ((EngineRuntime.new sampleRuntimeConfig).run
        sampleLaterLiquidations).1)).map (·.tradeId)).Nodup ∧
      (accountDeltaIdsIn (eventsOf ((EngineRuntime.new sampleRuntimeConfig).run
        sampleLaterLiquidations).1)).Nodup) ∧
      (deleveragingsIn (eventsOf ((EngineRuntime.new sampleRuntimeConfig).run
        sampleLaterLiquidations).1)).length = 2 := by
  have hfresh : FreshLiquidations sampleRuntimeConfig sampleLaterLiquidations := by
    have hnone : deleveragingsIn (eventsOf ((EngineRuntime.new sampleRuntimeConfig).run
        (sampleDeleveraging.take 5)).1) = [] := by decide +kernel
    have hfirst : FreshLiquidations sampleRuntimeConfig sampleDeleveraging := by
      refine (FreshLiquidations.quiet hnone).snoc fun d hd => ?_
      rw [hnone] at hd
      cases hd
    exact (hfirst.snoc (by decide +kernel)).snoc (by decide +kernel)
  exact ⟨settled_once sampleRuntimeConfig _ hfresh ⟨by decide +kernel, by decide +kernel⟩,
    by decide +kernel⟩

/-- A second liquidation under the same id repeats the trade id and the account delta id. -/
theorem settled_twice :
    (∀ s ∈ sampleDeleveraging ++ [sampleLiquidation 7 (ascii "liq-2") 32 .long 1 90], s.Live) ∧
      (∀ o ∈ ((EngineRuntime.new sampleRuntimeConfig).run (sampleDeleveraging ++
        [sampleLiquidation 7 (ascii "liq-2") 32 .long 1 90])).1, ∃ result, o = .ok result) ∧
      HashesApart (eventsOf ((EngineRuntime.new sampleRuntimeConfig).run (sampleDeleveraging ++
        [sampleLiquidation 7 (ascii "liq-2") 32 .long 1 90])).1) ∧
      (∀ e ∈ eventsOf ((EngineRuntime.new sampleRuntimeConfig).run (sampleDeleveraging ++
        [sampleLiquidation 7 (ascii "liq-2") 32 .long 1 90])).1, e.marketId = 1) ∧
      ¬((tradesIn (eventsOf ((EngineRuntime.new sampleRuntimeConfig).run (sampleDeleveraging ++
        [sampleLiquidation 7 (ascii "liq-2") 32 .long 1 90])).1)).map (·.tradeId)).Nodup ∧
      ¬(accountDeltaIdsIn (eventsOf ((EngineRuntime.new sampleRuntimeConfig).run
        (sampleDeleveraging ++ [sampleLiquidation 7 (ascii "liq-2") 32 .long 1 90])).1)).Nodup := by
  refine ⟨by decide +kernel, by decide +kernel, ⟨?_, ?_⟩, ?_, ?_, ?_⟩ <;> decide +kernel

end Runs
end PerpexEngine
