import PerpexEngine.Lib.Ghost
import PerpexEngine.Runtime.BookPlacements

/-! The runtime beside a log of its liquidations. -/
namespace PerpexEngine
open Program

/-- One call of `execute_liquidation`, with the runtime before and after it. -/
structure LiquidationCall where
  record : InboundEngineRecord
  input : LiquidatePositionInput
  emitReplies : Bool
  before : EngineRuntime
  outcome : Except Text EngineProcessResult
  after : EngineRuntime

/-- The runtime and its liquidations so far, the earliest first. -/
structure LoggedRuntime where
  runtime : EngineRuntime
  calls : List LiquidationCall

abbrev LoggedM := Program Text LoggedRuntime

/-- What a logged runtime does apart from liquidations. -/
def unlogged {α : Type} (m : RuntimeM α) : LoggedM α :=
  Program.zoom LoggedRuntime.runtime (fun o rt => { o with runtime := rt }) m

def EngineRuntime.liquidation (rt : EngineRuntime) (record : InboundEngineRecord)
    (input : LiquidatePositionInput) (emitReplies : Bool) : LiquidationCall where
  record := record
  input := input
  emitReplies := emitReplies
  before := rt
  outcome := ((executeLiquidation record input emitReplies).run.run rt).1
  after := ((executeLiquidation record input emitReplies).run.run rt).2

def LoggedRuntime.note (o : LoggedRuntime) (call : LiquidationCall) : LoggedRuntime :=
  ⟨call.after, o.calls ++ [call]⟩

section Twins

/-- `executeLiquidation`, with a note of the call. -/
def logLiquidation (record : InboundEngineRecord) (input : LiquidatePositionInput)
    (emitReplies : Bool) : LoggedM EngineProcessResult := do
  let o ← get
  let call := o.runtime.liquidation record input emitReplies
  set (o.note call)
  liftExcept call.outcome

def logCandidates (source : InboundEngineRecord) (sourceInputId : Option Text) :
    List AutomaticLiquidationCandidate → LiquidationAttempts →
      LoggedM (EngineProcessResult × Bool × LiquidationAttempts)
  | [], progress => pure (.new, false, progress)
  | candidate :: candidates, progress =>
    if maxAutomaticLiquidationAttemptsPerTrigger ≤ progress.attempts then
      pure (.new, false, progress)
    else do
      let progress : LiquidationAttempts :=
        ⟨candidate.key :: progress.attempted, progress.attempts + 1⟩
      let execution ← logLiquidation source
        (automaticLiquidationInput source sourceInputId candidate progress.attempts) false
      if execution.events.isEmpty then
        let (rest, shouldRescan, progress) ← logCandidates source sourceInputId candidates progress
        pure (execution ++ rest, shouldRescan, progress)
      else pure (execution, true, progress)

def logRounds (source : InboundEngineRecord) (sourceInputId : Option Text) (marketId : MarketId) :
    ℕ → LiquidationAttempts → LoggedM EngineProcessResult
  | 0, _ => pure .new
  | rounds + 1, progress =>
    if maxAutomaticLiquidationAttemptsPerTrigger ≤ progress.attempts then pure .new
    else do
      let rt ← unlogged get
      let candidates := automaticLiquidationCandidatesFor marketId rt.ledger progress.attempted
      if candidates.isEmpty then pure .new
      else
        let (result, shouldRescan, progress) ← logCandidates source sourceInputId candidates progress
        if shouldRescan then
          let rest ← logRounds source sourceInputId marketId rounds progress
          pure (result ++ rest)
        else pure result

def logLiquidationsForMarket (marketId : MarketId) (source : InboundEngineRecord)
    (sourceInputId : Option Text) : LoggedM EngineProcessResult :=
  logRounds source sourceInputId marketId (maxAutomaticLiquidationAttemptsPerTrigger + 1) ⟨[], 0⟩

def logMarkets (source : InboundEngineRecord) (sourceInputId : Option Text) :
    List MarketId → LoggedM EngineProcessResult
  | [] => pure .new
  | marketId :: markets => do
    let result ← logLiquidationsForMarket marketId source sourceInputId
    let rest ← logMarkets source sourceInputId markets
    pure (result ++ rest)

def logAllLiquidations (source : InboundEngineRecord) (sourceInputId : Option Text) :
    LoggedM EngineProcessResult := do
  let rt ← unlogged get
  logMarkets source sourceInputId (liquidatableMarkets rt.ledger)

def logPlaceNewOrder (record : InboundEngineRecord) (input : PlaceOrderInput) :
    LoggedM EngineProcessResult := do
  let rt ← unlogged get
  match checkReduceOnlyOrder input rt.ledger with
  | .error reason => unlogged (withLedger (reduceOnlyRejectedResult record input reason))
  | .ok cappedQuantity => do
    let (result, coreEvents) ← unlogged (placeOnBook record input cappedQuantity)
    let liquidations ← emitWhen (hasTradeExecuted coreEvents = true)
      (logLiquidationsForMarket input.marketId record input.inputId)
    pure (result ++ liquidations)

def logPlaceOrder (record : InboundEngineRecord) (input : PlaceOrderInput)
    (mode : ProcessingMode) : LoggedM EngineProcessResult := do
  let rt ← unlogged get
  match duplicateResultFor rt input.inputId input.envelope.idempotencyKey with
  | some duplicate => pure duplicate
  | none =>
    let result ← logPlaceNewOrder record input
    unlogged (markProcessed .placeOrder record input.inputId input.envelope.idempotencyKey)
    pure (result.applyProcessingMode mode)

def logLiquidatePosition (record : InboundEngineRecord) (input : LiquidatePositionInput)
    (mode : ProcessingMode) : LoggedM EngineProcessResult := do
  let rt ← unlogged get
  match duplicateResultFor rt input.inputId input.envelope.idempotencyKey with
  | some duplicate => pure duplicate
  | none =>
    let result ← logLiquidation record input true
    unlogged (markProcessed .liquidatePosition record input.inputId input.envelope.idempotencyKey)
    pure (result.applyProcessingMode mode)

/-- A new mark price, up to the liquidations that it sets off. -/
def applyMarkPrice (record : InboundEngineRecord) (input : MarkPriceUpdatedInput) :
    RuntimeM EngineProcessResult := do
  let updated ← withLedger (makeRuntimeMarketEvent record input.inputId none input.marketId
    (.markPriceUpdated input))
  modify fun rt => { rt with
    markPrices := rt.markPrices.insert input.marketId (markStateFromInput input) }
  let risks ← withLedger (appendMarkPriceRiskUpdates record input)
  pure (updated ++ risks)

def logMarkPriceUpdated (record : InboundEngineRecord) (input : MarkPriceUpdatedInput)
    (mode : ProcessingMode) : LoggedM EngineProcessResult := do
  let rt ← unlogged get
  match duplicateInputResultFor rt input.inputId with
  | some duplicate => pure duplicate
  | none =>
    let applied ← unlogged (applyMarkPrice record input)
    let liquidations ← logLiquidationsForMarket input.marketId record input.inputId
    unlogged (markInputProcessed .markPriceUpdated record input.inputId)
    pure ((applied ++ liquidations).applyProcessingMode mode)

/-- A settlement of funding, up to the liquidations that it sets off. -/
def applyFunding (record : InboundEngineRecord) (input : FundingSettlementTickInput)
    (funding : FundingRateState) (markPrices : MarkPrices) : RuntimeM EngineProcessResult := do
  let paid ← withLedger (applyFundingPayments record input funding markPrices)
  modify fun rt => { rt with settledFundingIntervals :=
    rt.settledFundingIntervals.insert ⟨input.marketId, input.fundingIntervalId⟩ }
  pure paid

def logFundingSettlementTick (record : InboundEngineRecord) (input : FundingSettlementTickInput)
    (mode : ProcessingMode) : LoggedM EngineProcessResult := do
  let rt ← unlogged get
  match duplicateInputResultFor rt input.inputId with
  | some duplicate => pure duplicate
  | none =>
    if rt.settledFundingIntervals.contains ⟨input.marketId, input.fundingIntervalId⟩ then
      unlogged (markInputProcessed .fundingSettlementTick record input.inputId)
      pure .new
    else
      match rt.fundingRates[input.marketId]?.filter
          (·.fundingIntervalId = input.fundingIntervalId) with
      | none =>
        unlogged (markInputProcessed .fundingSettlementTick record input.inputId)
        pure { EngineProcessResult.new with status := .rejected }
      | some funding =>
        let paid ← unlogged (applyFunding record input funding rt.markPrices)
        let liquidations ← logLiquidationsForMarket input.marketId record input.inputId
        unlogged (markInputProcessed .fundingSettlementTick record input.inputId)
        pure ((paid ++ liquidations).applyProcessingMode mode)

def logParsed (record : InboundEngineRecord) (mode : ProcessingMode) :
    ParsedEngineInput → LoggedM EngineProcessResult
  | .placeOrder input => logPlaceOrder record input mode
  | .cancelOrder input => unlogged (cancelOrder record input mode)
  | .liquidatePosition input => logLiquidatePosition record input mode
  | .markPriceUpdated input => logMarkPriceUpdated record input mode
  | .fundingRateUpdated input => unlogged (fundingRateUpdated record input mode)
  | .fundingSettlementTick input => logFundingSettlementTick record input mode

/-- A step of a run, with a note of each liquidation. -/
def RuntimeStep.logged : RuntimeStep → LoggedM EngineProcessResult
  | input record parsed mode => do
    let input ← liftExcept parsed
    logParsed record mode input.parsed
  | evaluate source mode => (·.applyProcessingMode mode) <$> logAllLiquidations source none
  | evaluateMarket marketId source mode =>
    (·.applyProcessingMode mode) <$> logLiquidationsForMarket marketId source none
  | restart config => unlogged (RuntimeStep.restart config).program

def LoggedRuntime.run (o : LoggedRuntime) (steps : List RuntimeStep) : LoggedRuntime :=
  steps.foldl (fun o s => (s.logged.run.run o).2) o

end Twins
section Erasure
variable (record source : InboundEngineRecord) (sourceInputId : Option Text) (marketId : MarketId)

theorem unlogged_erases {α : Type} (m : RuntimeM α) :
    Erases LoggedRuntime.runtime (unlogged m) m := Erases.zoom fun _ _ => rfl

theorem logLiquidation_erases (input : LiquidatePositionInput) (emitReplies : Bool) :
    Erases LoggedRuntime.runtime (logLiquidation record input emitReplies)
      (executeLiquidation record input emitReplies) := by
  intro o
  have hstep : (logLiquidation record input emitReplies).run.run o =
      (liftExcept (o.runtime.liquidation record input emitReplies).outcome :
        LoggedM EngineProcessResult).run.run
          (o.note (o.runtime.liquidation record input emitReplies)) := rfl
  rw [hstep]
  unfold EngineRuntime.liquidation LoggedRuntime.note
  generalize (executeLiquidation record input emitReplies).run.run o.runtime = run
  obtain ⟨outcome, after⟩ := run
  cases outcome <;> rfl

theorem logCandidates_erases (candidates : List AutomaticLiquidationCandidate)
    (progress : LiquidationAttempts) :
    Erases LoggedRuntime.runtime (logCandidates source sourceInputId candidates progress)
      (attemptCandidates source sourceInputId candidates progress) := by
  induction candidates generalizing progress with
  | nil => exact Erases.pure _
  | cons candidate candidates ih =>
    unfold logCandidates attemptCandidates
    apply Erases.ite
    · exact Erases.pure _
    · refine (logLiquidation_erases _ _ _).bind fun execution => ?_
      apply Erases.ite
      · exact (ih _).bind fun _ => Erases.pure _
      · exact Erases.pure _

theorem logRounds_erases (rounds : ℕ) (progress : LiquidationAttempts) :
    Erases LoggedRuntime.runtime (logRounds source sourceInputId marketId rounds progress)
      (liquidationRounds source sourceInputId marketId rounds progress) := by
  induction rounds generalizing progress with
  | zero => exact Erases.pure _
  | succ rounds ih =>
    unfold logRounds liquidationRounds
    apply Erases.ite
    · exact Erases.pure _
    · refine (unlogged_erases _).bind fun rt => ?_
      apply Erases.ite
      · exact Erases.pure _
      · refine (logCandidates_erases _ _ _ _).bind fun attempted => ?_
        apply Erases.ite
        · exact (ih _).bind fun _ => Erases.pure _
        · exact Erases.pure _

theorem logLiquidationsForMarket_erases :
    Erases LoggedRuntime.runtime (logLiquidationsForMarket marketId source sourceInputId)
      (evaluateAutomaticLiquidationsForMarket marketId source sourceInputId) :=
  logRounds_erases _ _ _ _ _

theorem logMarkets_erases (markets : List MarketId) :
    Erases LoggedRuntime.runtime (logMarkets source sourceInputId markets)
      (evaluateMarkets source sourceInputId markets) := by
  induction markets with
  | nil => exact Erases.pure _
  | cons marketId markets ih =>
    exact (logLiquidationsForMarket_erases _ _ _).bind fun _ => ih.bind fun _ => Erases.pure _

theorem logAllLiquidations_erases :
    Erases LoggedRuntime.runtime (logAllLiquidations source sourceInputId)
      (evaluateAllAutomaticLiquidations source sourceInputId) :=
  (unlogged_erases _).bind fun _ => logMarkets_erases _ _ _

theorem logPlaceOrder_erases (input : PlaceOrderInput) (mode : ProcessingMode) :
    Erases LoggedRuntime.runtime (logPlaceOrder record input mode) (placeOrder record input mode) := by
  unfold logPlaceOrder placeOrder
  refine (unlogged_erases _).bind fun rt => ?_
  cases duplicateResultFor rt input.inputId input.envelope.idempotencyKey with
  | some duplicate => exact Erases.pure _
  | none =>
    refine Erases.bind ?_ fun _ => (unlogged_erases _).bind fun _ => Erases.pure _
    unfold logPlaceNewOrder placeNewOrder
    refine (unlogged_erases _).bind fun rt => ?_
    cases checkReduceOnlyOrder input rt.ledger with
    | error reason => exact unlogged_erases _
    | ok capped =>
      dsimp only
      rw [placeAllowedOrder_eq]
      refine (unlogged_erases _).bind fun placed => Erases.bind ?_ fun _ => Erases.pure _
      exact Erases.ite (logLiquidationsForMarket_erases _ _ _) (Erases.pure _)

theorem logLiquidatePosition_erases (input : LiquidatePositionInput) (mode : ProcessingMode) :
    Erases LoggedRuntime.runtime (logLiquidatePosition record input mode)
      (liquidatePosition record input mode) := by
  unfold logLiquidatePosition liquidatePosition
  refine (unlogged_erases _).bind fun rt => ?_
  cases duplicateResultFor rt input.inputId input.envelope.idempotencyKey with
  | some duplicate => exact Erases.pure _
  | none =>
    exact (logLiquidation_erases _ _ _).bind fun _ =>
      (unlogged_erases _).bind fun _ => Erases.pure _

theorem applyMarkPrice_bind (input : MarkPriceUpdatedInput)
    (rest : EngineProcessResult → RuntimeM EngineProcessResult) :
    (applyMarkPrice record input >>= rest) = (do
      let updated ← withLedger (makeRuntimeMarketEvent record input.inputId none input.marketId
        (.markPriceUpdated input))
      modify fun rt => { rt with
        markPrices := rt.markPrices.insert input.marketId (markStateFromInput input) }
      let risks ← withLedger (appendMarkPriceRiskUpdates record input)
      rest (updated ++ risks)) := by
  unfold applyMarkPrice
  simp only [bind_assoc, pure_bind]

theorem applyFunding_bind (input : FundingSettlementTickInput) (funding : FundingRateState)
    (markPrices : MarkPrices) (rest : EngineProcessResult → RuntimeM EngineProcessResult) :
    (applyFunding record input funding markPrices >>= rest) = (do
      let paid ← withLedger (applyFundingPayments record input funding markPrices)
      modify fun rt => { rt with settledFundingIntervals :=
        rt.settledFundingIntervals.insert ⟨input.marketId, input.fundingIntervalId⟩ }
      rest paid) := by
  unfold applyFunding
  simp only [bind_assoc, pure_bind]

theorem logMarkPriceUpdated_erases (input : MarkPriceUpdatedInput) (mode : ProcessingMode) :
    Erases LoggedRuntime.runtime (logMarkPriceUpdated record input mode)
      (markPriceUpdated record input mode) := by
  unfold logMarkPriceUpdated markPriceUpdated
  refine (unlogged_erases _).bind fun rt => ?_
  cases duplicateInputResultFor rt input.inputId with
  | some duplicate => exact Erases.pure _
  | none =>
    dsimp only
    rw [← applyMarkPrice_bind record input fun applied => do
      let liquidations ←
        evaluateAutomaticLiquidationsForMarket input.marketId record input.inputId
      markInputProcessed .markPriceUpdated record input.inputId
      pure ((applied ++ liquidations).applyProcessingMode mode)]
    exact (unlogged_erases _).bind fun _ => (logLiquidationsForMarket_erases _ _ _).bind fun _ =>
      (unlogged_erases _).bind fun _ => Erases.pure _

theorem logFundingSettlementTick_erases (input : FundingSettlementTickInput)
    (mode : ProcessingMode) :
    Erases LoggedRuntime.runtime (logFundingSettlementTick record input mode)
      (fundingSettlementTick record input mode) := by
  unfold logFundingSettlementTick fundingSettlementTick
  refine (unlogged_erases _).bind fun rt => ?_
  cases duplicateInputResultFor rt input.inputId with
  | some duplicate => exact Erases.pure _
  | none =>
    apply Erases.ite
    · exact (unlogged_erases _).bind fun _ => Erases.pure _
    · cases rt.fundingRates[input.marketId]?.filter
        (·.fundingIntervalId = input.fundingIntervalId) with
      | none => exact (unlogged_erases _).bind fun _ => Erases.pure _
      | some funding =>
        dsimp only
        rw [← applyFunding_bind record input funding rt.markPrices fun paid => do
          let liquidations ←
            evaluateAutomaticLiquidationsForMarket input.marketId record input.inputId
          markInputProcessed .fundingSettlementTick record input.inputId
          pure ((paid ++ liquidations).applyProcessingMode mode)]
        exact (unlogged_erases _).bind fun _ => (logLiquidationsForMarket_erases _ _ _).bind fun _ =>
          (unlogged_erases _).bind fun _ => Erases.pure _

/-- The log leaves no trace in the runtime. -/
theorem logged_erases (s : RuntimeStep) : Erases LoggedRuntime.runtime s.logged s.program := by
  cases s with
  | input record parsed mode =>
    refine Erases.bind (n := liftExcept parsed) (m := liftExcept parsed) ?_ fun input => ?_
    · cases parsed <;> exact fun _ => rfl
    · generalize input.parsed = parsed
      cases parsed with
      | placeOrder input => exact logPlaceOrder_erases _ _ _
      | cancelOrder input => exact unlogged_erases _
      | liquidatePosition input => exact logLiquidatePosition_erases _ _ _
      | markPriceUpdated input => exact logMarkPriceUpdated_erases _ _ _
      | fundingRateUpdated input => exact unlogged_erases _
      | fundingSettlementTick input => exact logFundingSettlementTick_erases _ _ _
  | evaluate source mode => exact (logAllLiquidations_erases _ _).bind fun _ => Erases.pure _
  | evaluateMarket marketId source mode =>
    exact (logLiquidationsForMarket_erases _ _ _).bind fun _ => Erases.pure _
  | restart config => exact unlogged_erases _

theorem runtime_logged (o : LoggedRuntime) (s : RuntimeStep) :
    (s.logged.run.run o).2.runtime = (o.runtime.step s).2 := congrArg Prod.snd (logged_erases s o)

theorem LoggedRuntime.runtime_run (o : LoggedRuntime) (steps : List RuntimeStep) :
    (o.run steps).runtime = (o.runtime.run steps).2 := by
  induction steps generalizing o with
  | nil => rfl
  | cons s steps ih =>
    rw [EngineRuntime.run_cons, ← runtime_logged]
    exact ih _

end Erasure

end PerpexEngine
