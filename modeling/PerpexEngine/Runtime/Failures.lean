import PerpexEngine.Runtime.FundingSettlements
import PerpexEngine.Runtime.LiquidationErrors

/-! An input that fails leaves the runtime as it was, unless an ADL fill found no order id. -/
namespace PerpexEngine
open Program

/-- Between accounted states the program fails for want of an ADL order id only. -/
def FailsInAdl {α : Type} (m : RuntimeM α) : Prop :=
  ∀ rt, rt.Accounted → Ends m rt (fun _ after => after.Accounted) fun e _ => e = adlOrderIdError

namespace FailsInAdl
variable {α β : Type} {m : RuntimeM α}

theorem pure (a : α) : FailsInAdl (Pure.pure a : RuntimeM α) := fun _ h => h

theorem bind {f : α → RuntimeM β} (hm : FailsInAdl m) (hf : ∀ a, FailsInAdl (f a)) :
    FailsInAdl (m >>= f) := fun rt h =>
  ends_bind.2 ((hm rt h).mono (fun a after hafter => hf a after hafter) fun _ _ h => h)

theorem ite {c : Prop} [Decidable c] {n : RuntimeM α} (hm : FailsInAdl m) (hn : FailsInAdl n) :
    FailsInAdl (if c then m else n) := fun rt h => ends_ite.2 ⟨fun _ => hm rt h, fun _ => hn rt h⟩

theorem get {f : EngineRuntime → RuntimeM β} (hf : ∀ rt, FailsInAdl (f rt)) :
    FailsInAdl (MonadState.get >>= f) := fun rt h => by
  rw [ends_bind, ends_get]
  exact hf rt rt h

theorem of_frames (hm : Frames m) (hreturns : ∀ rt, Ensures m rt (fun _ _ => True) fun _ => False) :
    FailsInAdl m := fun rt h =>
  ((hm rt).and (hreturns rt)).ends.mono (fun _ _ hsame => h.frame hsame.1) fun _ _ h => h.2.elim

theorem executeLiquidation (record : InboundEngineRecord) {input : LiquidatePositionInput}
    (hid : input.liquidationId ≠ []) (emitReplies : Bool) :
    FailsInAdl (executeLiquidation record input emitReplies) := by
  intro rt h
  refine ((executeLiquidation_moves h.toOrderly record input emitReplies).and_ends
    (executeLiquidation_error h record input emitReplies)).mono ?_ ?_
  · rintro r after ⟨⟨horderly, trades, hmoves⟩, -⟩
    exact h.moves horderly hmoves
  · rintro e after ⟨-, hadl | ⟨hempty, -⟩⟩
    · exact hadl
    · exact absurd hempty hid

section Automatic
variable (source : InboundEngineRecord) (sourceInputId : Option Text)

theorem automaticLiquidationId_ne_nil (key : PositionRiskKey) (attempt : ℕ) :
    automaticLiquidationId source sourceInputId key attempt ≠ [] := by
  have hstart : ascii "auto-liq-" ≠ [] := by decide
  unfold automaticLiquidationId
  cases sourceInputId <;> simp [hstart]

theorem attemptCandidates (candidates : List AutomaticLiquidationCandidate)
    (progress : LiquidationAttempts) :
    FailsInAdl (attemptCandidates source sourceInputId candidates progress) := by
  induction candidates generalizing progress with
  | nil => exact pure _
  | cons candidate candidates ih =>
    unfold PerpexEngine.attemptCandidates
    refine ite (pure _) (bind ?_ fun execution => ?_)
    · exact executeLiquidation _ (automaticLiquidationId_ne_nil _ _ _ _) _
    · exact ite (bind (ih _) fun _ => pure _) (pure _)

theorem liquidationRounds (marketId : MarketId) (rounds : ℕ) (progress : LiquidationAttempts) :
    FailsInAdl (liquidationRounds source sourceInputId marketId rounds progress) := by
  induction rounds generalizing progress with
  | zero => exact pure _
  | succ rounds ih =>
    unfold PerpexEngine.liquidationRounds
    refine ite (pure _) (get fun rt => ite (pure _) (bind (attemptCandidates _ _ _ _) fun _ => ?_))
    exact ite (bind (ih _) fun _ => pure _) (pure _)

theorem liquidationsForMarket (marketId : MarketId) :
    FailsInAdl (evaluateAutomaticLiquidationsForMarket marketId source sourceInputId) :=
  liquidationRounds _ _ _ _ _

end Automatic

theorem markProcessed (commandKind : RuntimeCommandKind) (record : InboundEngineRecord)
    (inputId : Option Text) (idempotencyKey : Text) :
    FailsInAdl (markProcessed commandKind record inputId idempotencyKey) :=
  of_frames (frames_markProcessed _ _ _ _) fun _ => trivial

theorem markInputProcessed (commandKind : RuntimeCommandKind) (record : InboundEngineRecord)
    (inputId : Option Text) : FailsInAdl (markInputProcessed commandKind record inputId) :=
  of_frames (frames_markInputProcessed _ _ _) fun _ => trivial

end FailsInAdl

/-- The program fails for want of an ADL order id, or leaves the state it was started in. -/
def FailsClean {α : Type} (rt : EngineRuntime) (m : RuntimeM α) : Prop :=
  Ends m rt (fun _ after => after.Accounted) fun e after => e = adlOrderIdError ∨ after = rt

section Inputs
variable {rt : EngineRuntime} {α β : Type} {m : RuntimeM α}

theorem FailsClean.of_ensures
    (hm : Ensures m rt (fun _ after => after.Accounted) fun after => after = rt) :
    FailsClean rt m := hm.ends.mono (fun _ _ h => h) fun _ _ h => Or.inr h

/-- What follows can only fail in ADL. -/
theorem FailsClean.bind {f : α → RuntimeM β} (hm : FailsClean rt m)
    (hf : ∀ a, FailsInAdl (f a)) : FailsClean rt (m >>= f) := by
  unfold FailsClean
  rw [ends_bind]
  refine Ends.mono hm (fun a after hafter => ?_) fun _ _ h => h
  exact (hf a after hafter).mono (fun _ _ h => h) fun _ _ h => Or.inl h

theorem FailsInAdl.clean (hm : FailsInAdl m) (h : rt.Accounted) : FailsClean rt m :=
  (hm rt h).mono (fun _ _ h => h) fun _ _ h => Or.inl h

theorem ensures_placeOnBook (h : rt.Accounted) (record : InboundEngineRecord)
    {input : PlaceOrderInput} (hfits : FitsInt64 input.quantity) {capped : AdapterQuantity}
    (hcapped : checkReduceOnlyOrder input rt.ledger = .ok capped) :
    Ensures (placeOnBook record input capped) rt (fun _ after => after.Accounted)
      fun after => after = rt := by
  refine (h.lockstep.placeOnBook_transfers hfits hcapped).mono ?_ fun _ h => h
  rintro _ after ⟨hlock, ts, hmarket, hwithin, hsigned⟩
  exact h.transfers hlock hwithin hmarket hsigned

theorem ensures_cancelOnBook (h : rt.Accounted) (record : InboundEngineRecord)
    (input : CancelOrderInput) (markPrices : MarkPrices) :
    Ensures (cancelOnBook record input markPrices) rt (fun _ after => after.Accounted)
      fun after => after = rt := by
  refine (h.lockstep.cancelOnBook input markPrices).mono ?_ fun _ h => h
  rintro _ after ⟨hlock, hsigned⟩
  exact ⟨⟨hlock, fun key hopen => h.users key (hsigned ▸ hopen)⟩,
    fun key hopen => h.markets key (hsigned ▸ hopen), hsigned ▸ h.balanced⟩

/-- An event for the market fails before it has drawn a number. -/
theorem ensures_marketEvent (record : InboundEngineRecord) (inputId requestId : Option Text)
    (marketId : MarketId) (payload : EventPayload) :
    Ensures (withLedger (makeRuntimeMarketEvent record inputId requestId marketId payload)) rt
      (fun _ after => 0 < marketId ∧ after = { rt with ledger := rt.ledger.afterEvent marketId })
      fun after => after = rt := by
  unfold withLedger makeRuntimeMarketEvent
  rw [ensures_zoom, ensures_map]
  refine (ensures_makeMarketEvent _ _ _ _ _).mono ?_ ?_
  · rintro e _ ⟨hnext, hmarket, -, rfl⟩
    exact ⟨hmarket ▸ hnext.market, rfl⟩
  · rintro _ ⟨-, rfl⟩
    rfl

theorem ensures_applyMarkPrice (h : rt.Accounted) (record : InboundEngineRecord)
    (input : MarkPriceUpdatedInput) : Ensures (applyMarkPrice record input) rt
      (fun _ after => after.Accounted) fun after => after = rt := by
  have hkept : Ensures (applyMarkPrice record input) rt (fun _ _ => True)
      fun after => after = rt := by
    unfold applyMarkPrice
    rw [ensures_bind]
    refine (ensures_marketEvent _ _ _ _ _).mono ?_ fun _ h => h
    rintro updated _ ⟨hmarket, rfl⟩
    rw [ensures_bind, ensures_modify, ensures_bind]
    unfold withLedger appendMarkPriceRiskUpdates
    rw [ensures_zoom, ensures_bind, ensures_get]
    dsimp only
    rw [ensures_bind, ensures_set]
    have hkeys := updateRiskStates_market (markRiskOf_market input)
      (rt.ledger.afterEvent input.marketId) rt.ledger.positions.toList
    exact (ensures_riskUpdates record input.inputId hmarket _ _ hkeys.2).mono
      (fun _ _ _ => trivial) fun _ h => h.elim
  exact ((frames_applyMarkPrice record input rt).and hkept).mono (fun _ _ hsame => h.frame hsame.1)
    fun _ h => h.2

theorem ensures_applyFunding (h : rt.Accounted) (record : InboundEngineRecord)
    {input : FundingSettlementTickInput} (hmarket : 0 < input.marketId)
    (funding : FundingRateState) (markPrices : MarkPrices) :
    Ensures (applyFunding record input funding markPrices) rt
      (fun _ after => after.Accounted) fun after => after = rt := by
  have hkept : Ensures (applyFunding record input funding markPrices) rt (fun _ _ => True)
      fun _ => False := by
    unfold applyFunding withLedger
    rw [ensures_bind, ensures_zoom]
    exact (ensures_applyFundingPayments record hmarket markPrices rt.ledger).mono
      (fun _ _ _ => trivial) fun _ h => h
  exact ((frames_applyFunding record input funding markPrices rt).and hkept).mono
    (fun _ _ hsame => h.frame hsame.1) fun _ h => h.2.elim

/-- A reduce-only order that is not allowed is answered, and its reservation released. -/
theorem ensures_reduceOnlyRejected (record : InboundEngineRecord) (input : PlaceOrderInput)
    (reason : Text) : Ensures (withLedger (reduceOnlyRejectedResult record input reason)) rt
      (fun result after => rt.SameBooks after ∧ projected EventPayload.expired? result.events = [])
      fun after => after = rt := by
  have hquiet : Ensures (withLedger (reduceOnlyRejectedResult record input reason)) rt
      (fun result _ => projected EventPayload.expired? result.events = [])
      fun after => after = rt := by
    unfold reduceOnlyRejectedResult withLedger emitWhen
    rw [ensures_zoom, ensures_bind]
    apply ensures_ite.2
    refine ⟨fun _ => ?_, fun _ => rfl⟩
    unfold makeRuntimeMarketEvent
    rw [ensures_map]
    refine (ensures_makeMarketEvent _ _ _ _ _).mono ?_ ?_
    · rintro e _ ⟨-, -, hpayload, -⟩
      change projected EventPayload.expired? [e] = []
      simp [projected, hpayload, EventPayload.expired?]
    · rintro _ ⟨-, rfl⟩
      rfl
  exact ((frames_reduceOnlyRejectedResult record input reason rt).and hquiet).mono
    (fun _ _ h => h) fun _ h => h.2

theorem placeNewOrder_clean (h : rt.Accounted) (record : InboundEngineRecord)
    {input : PlaceOrderInput} (hfits : FitsInt64 input.quantity) :
    FailsClean rt (placeNewOrder record input) := by
  unfold placeNewOrder FailsClean
  rw [ends_bind, ends_get]
  cases hcapped : checkReduceOnlyOrder input rt.ledger with
  | error reason =>
    exact FailsClean.of_ensures ((ensures_reduceOnlyRejected record input reason).mono
      (fun _ _ hsame => h.frame hsame.1) fun _ h => h)
  | ok capped =>
    dsimp only
    rw [placeAllowedOrder_eq]
    refine FailsClean.bind (.of_ensures (ensures_placeOnBook h record hfits hcapped)) fun placed => ?_
    refine FailsInAdl.bind ?_ fun _ => .pure _
    exact .ite (.liquidationsForMarket _ _ _) (.pure _)

theorem fundingRateUpdated_clean (h : rt.Accounted) (record : InboundEngineRecord)
    (input : FundingRateUpdatedInput) (mode : ProcessingMode) :
    FailsClean rt (fundingRateUpdated record input mode) := by
  have hkept : Ensures (fundingRateUpdated record input mode) rt (fun _ _ => True)
      fun after => after = rt := by
    unfold fundingRateUpdated
    rw [ensures_bind, ensures_get]
    cases duplicateInputResultFor rt input.inputId with
    | some duplicate => trivial
    | none =>
      dsimp only
      rw [ensures_bind]
      exact (ensures_marketEvent _ _ _ _ _).mono (fun _ _ _ => trivial) fun _ h => h
  exact .of_ensures (((frames_fundingRateUpdated record input mode rt).and hkept).mono
    (fun _ _ hsame => h.frame hsame.1) fun _ h => h.2)

theorem fundingSettlementTick_clean (h : rt.Accounted) (hsound : rt.RatesSound)
    (record : InboundEngineRecord) (input : FundingSettlementTickInput) (mode : ProcessingMode) :
    FailsClean rt (fundingSettlementTick record input mode) := by
  unfold fundingSettlementTick FailsClean
  rw [ends_bind, ends_get]
  cases duplicateInputResultFor rt input.inputId with
  | some duplicate => exact h
  | none =>
    have hmarked := fun result : EngineProcessResult =>
      ((FailsInAdl.markInputProcessed .fundingSettlementTick record input.inputId).bind fun _ =>
        .pure result).clean h
    apply ends_ite.2
    refine ⟨fun _ => hmarked _, fun _ => ?_⟩
    cases hrate : rt.fundingRates[input.marketId]?.filter
        (·.fundingIntervalId = input.fundingIntervalId) with
    | none => exact hmarked _
    | some funding =>
      have hmarket := hsound _ _ (Option.filter_eq_some_iff.1 hrate).1
      dsimp only
      rw [← applyFunding_bind record input funding rt.markPrices fun paid => do
        let liquidations ←
          evaluateAutomaticLiquidationsForMarket input.marketId record input.inputId
        markInputProcessed .fundingSettlementTick record input.inputId
        pure ((paid ++ liquidations).applyProcessingMode mode)]
      refine FailsClean.bind (.of_ensures (ensures_applyFunding h record hmarket.1 _ _)) fun paid => ?_
      refine FailsInAdl.bind (.liquidationsForMarket _ _ _) fun liquidations => ?_
      exact (FailsInAdl.markInputProcessed _ _ _).bind fun _ => .pure _

theorem processParsed_clean (h : rt.Accounted) (hsound : rt.RatesSound)
    (record : InboundEngineRecord) (mode : ProcessingMode) (input : EngineInput) :
    FailsClean rt (EngineRuntime.processParsed record mode input.parsed) := by
  obtain ⟨parsed, hwell⟩ := input
  cases parsed with
  | placeOrder input =>
    unfold EngineRuntime.processParsed placeOrder FailsClean
    rw [ends_bind, ends_get]
    cases duplicateResultFor rt input.inputId input.envelope.idempotencyKey with
    | some duplicate => exact h
    | none =>
      refine FailsClean.bind (placeNewOrder_clean h record hwell.2) fun result => ?_
      exact (FailsInAdl.markProcessed _ _ _ _).bind fun _ => .pure _
  | cancelOrder input =>
    unfold EngineRuntime.processParsed cancelOrder FailsClean
    rw [ends_bind, ends_get]
    cases duplicateResultFor rt input.inputId input.envelope.idempotencyKey with
    | some duplicate => exact h
    | none =>
      dsimp only
      rw [← cancelOnBook_bind record input rt.markPrices fun result => do
        markProcessed .cancelOrder record input.inputId input.envelope.idempotencyKey
        pure (result.applyProcessingMode mode)]
      refine FailsClean.bind (.of_ensures (ensures_cancelOnBook h record input _)) fun result => ?_
      exact (FailsInAdl.markProcessed _ _ _ _).bind fun _ => .pure _
  | liquidatePosition input =>
    unfold EngineRuntime.processParsed liquidatePosition FailsClean
    rw [ends_bind, ends_get]
    cases duplicateResultFor rt input.inputId input.envelope.idempotencyKey with
    | some duplicate => exact h
    | none =>
      have hexecuted : FailsClean rt (executeLiquidation record input true) := by
        refine ((executeLiquidation_moves h.toOrderly record input true).and_ends
          (executeLiquidation_error h record input true)).mono ?_ ?_
        · rintro r after ⟨⟨horderly, trades, hmoves⟩, -⟩
          exact h.moves horderly hmoves
        · exact fun e after hfailed => hfailed.2.imp id And.right
      exact hexecuted.bind fun result =>
        (FailsInAdl.markProcessed _ _ _ _).bind fun _ => .pure _
  | markPriceUpdated input =>
    unfold EngineRuntime.processParsed markPriceUpdated FailsClean
    rw [ends_bind, ends_get]
    cases duplicateInputResultFor rt input.inputId with
    | some duplicate => exact h
    | none =>
      dsimp only
      rw [← applyMarkPrice_bind record input fun applied => do
        let liquidations ←
          evaluateAutomaticLiquidationsForMarket input.marketId record input.inputId
        markInputProcessed .markPriceUpdated record input.inputId
        pure ((applied ++ liquidations).applyProcessingMode mode)]
      refine FailsClean.bind (.of_ensures (ensures_applyMarkPrice h record input)) fun applied => ?_
      refine FailsInAdl.bind (.liquidationsForMarket _ _ _) fun liquidations => ?_
      exact (FailsInAdl.markInputProcessed _ _ _).bind fun _ => .pure _
  | fundingRateUpdated input => exact fundingRateUpdated_clean h record input mode
  | fundingSettlementTick input => exact fundingSettlementTick_clean h hsound record input mode

/-- The error of an outcome. -/
def EngineRuntime.Outcome.error? : EngineRuntime.Outcome → Option Text
  | .ok _ => none
  | .error e => some e

theorem EngineRuntime.Outcome.eq_error {outcome : EngineRuntime.Outcome} {e : Text}
    (h : EngineRuntime.Outcome.error? outcome = some e) : outcome = .error e := by
  cases outcome with
  | ok result => cases h
  | error error => exact congrArg _ (Option.some.inj h)

/-- Whatever input fails in a reachable state, and for whatever reason but an ADL fill without an
order id: the whole runtime is as it was. -/
theorem failed_input_changes_nothing (config : EngineRuntimeConfig) (steps : List RuntimeStep)
    {rt : EngineRuntime} (hrt : rt = ((EngineRuntime.new config).run steps).2)
    (record : InboundEngineRecord) (parsed : Except Text EngineInput) (mode : ProcessingMode)
    {error : Text} (herror : (rt.step (.input record parsed mode)).1 = .error error)
    (hadl : error ≠ ascii "unable to allocate deterministic ADL order id") :
    (rt.step (.input record parsed mode)).2 = rt := by
  have haccounted : rt.Accounted := hrt ▸ reachable_accounted config steps
  have hsound : rt.RatesSound :=
    hrt ▸ ratesSound_run (ratesSound_new config) (positive_new config) steps
  cases parsed with
  | error e => rfl
  | ok input =>
    have hclean := processParsed_clean haccounted hsound record mode input
    exact ((Ends.threw hclean (Prod.ext herror rfl)).resolve_left hadl)

theorem failed_input_changes_nothing_sample :
    (((EngineRuntime.new sampleRuntimeConfig).run sampleRuntimeSteps).2.step
      (samplePlace 0 11 .long 100 10)).2 =
        ((EngineRuntime.new sampleRuntimeConfig).run sampleRuntimeSteps).2 := by
  have herror := @EngineRuntime.Outcome.eq_error
    (((EngineRuntime.new sampleRuntimeConfig).run sampleRuntimeSteps).2.step
      (samplePlace 0 11 .long 100 10)).1 (ascii "order_id must be positive") (by decide +kernel)
  exact failed_input_changes_nothing sampleRuntimeConfig sampleRuntimeSteps rfl _ _ _ herror
    (by decide)

end Inputs
end PerpexEngine
