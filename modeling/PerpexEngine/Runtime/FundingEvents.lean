import PerpexEngine.Runtime.EventKinds
import PerpexEngine.Runtime.LiquidationLog

/-! Trades, liquidations and all inputs but those about funding leave rates and settled intervals
alone, and emit no payments of funding. -/
namespace PerpexEngine
open Program

/-- The interval and the payments of a settlement. -/
def EventPayload.fundingPaid? : EventPayload → Option (Text × List FundingPayment)
  | fundingPaymentApplied interval payments => some (interval, payments)
  | _ => none

theorem skips_fundingPaid : Skips EventPayload.fundingPaid? := fun payload h => by
  cases payload <;> first | rfl | exact h.elim

/-- None of the events settles funding. -/
def EngineProcessResult.Unfunded (result : EngineProcessResult) : Prop :=
  projected EventPayload.fundingPaid? result.events = []

theorem unfunded_new : EngineProcessResult.new.Unfunded := rfl

theorem EngineProcessResult.Unfunded.append {a b : EngineProcessResult} (ha : a.Unfunded)
    (hb : b.Unfunded) : (a ++ b).Unfunded := by
  unfold Unfunded at ha hb ⊢
  rw [EngineProcessResult.events_append, projected_append, ha, hb]
  rfl

/-- Whatever it starts from, the program returns nothing of this kind. -/
abbrev Returns {σ α : Type} (P : α → Prop) (m : Program Text σ α) : Prop :=
  Yields (fun _ => True) P m

section Programs
variable {σ α β : Type} {P : α → Prop}

theorem returns_any (m : Program Text σ α) : Returns (fun _ => True) m := fun _ _ =>
  Ensures.always fun _ _ => ⟨trivial, trivial⟩

theorem returns_of_forall {Q : β → Prop} {m : Program Text σ α} {f : α → Program Text σ β}
    (hf : ∀ a, Returns Q (f a)) : Returns Q (m >>= f) := (returns_any m).bind fun a _ => hf a

theorem returns_get {Q : β → Prop} {f : σ → Program Text σ β} (hf : ∀ s, Returns Q (f s)) :
    Returns Q (get >>= f : Program Text σ β) := .get fun s hs => hf s s hs

theorem returns_withPending {m : TranslateM α} (h : Returns P m) (pending : Option OrderMetadata) :
    Returns (fun r => P r.1) (withPending pending m) := by
  unfold withPending
  refine Yields.zoom (I := fun _ => True) ?_ (fun _ h => h) fun _ _ _ _ => trivial
  exact Yields.bind h fun a ha => returns_get fun _ => .pure ha

theorem unfunded_emitWhen {I : σ → Prop} {m : Program Text σ EngineProcessResult} (c : Prop)
    [Decidable c] (h : Yields I (·.Unfunded) m) : Yields I (·.Unfunded) (emitWhen c m) := by
  unfold emitWhen
  exact .ite (fun _ => h) fun _ => .pure unfunded_new

end Programs
section Ledgers
variable (record : InboundEngineRecord) (inputId requestId : Option Text)

theorem unfunded_makeRuntimeMarketEvent (marketId : MarketId) {payload : EventPayload}
    (h : payload.fundingPaid? = none) :
    Returns (·.Unfunded) (makeRuntimeMarketEvent record inputId requestId marketId payload) := by
  unfold makeRuntimeMarketEvent
  refine fun l _ => ensures_map.2 ?_
  refine (ensures_makeMarketEvent _ _ _ _ _).mono ?_ fun _ _ => trivial
  rintro e _ ⟨-, -, rfl, -⟩
  refine ⟨List.filterMap_eq_nil_iff.2 fun e' he' => ?_, trivial⟩
  rw [List.mem_singleton.1 he']
  exact h

theorem unfunded_translate (context : EngineEventTranslationContext) (markPrices : MarkPrices)
    (events : List EngineEvent) : Returns (·.Unfunded) (translate context markPrices events) := by
  have hnone : projectedFills EventPayload.fundingPaid? context (tradesOf events) = [] := by
    unfold projectedFills
    split_ifs
    · rw [List.filterMap_eq_nil_iff]
      intro trade _
      unfold liquidationExecutedPayload
      cases context.adl <;> rfl
    · rfl
  intro s _
  refine (projects_translate skips_fundingPaid context markPrices events s).mono ?_
    fun _ _ => trivial
  intro a _ ha
  rw [hnone] at ha
  exact ⟨ha, trivial⟩

theorem unfunded_appendRiskUpdates (keys : List PositionRiskKey) :
    Returns (·.Unfunded) (appendRiskUpdates record inputId keys) := by
  induction keys with
  | nil => exact .pure unfunded_new
  | cons key keys ih =>
    unfold appendRiskUpdates
    refine returns_get fun l => ?_
    cases l.riskStates[key]? with
    | none => exact .throw _
    | some risk =>
      refine (unfunded_makeRuntimeMarketEvent _ _ _ _ rfl).bind fun a ha => ?_
      exact ih.bind fun b hb => .pure (ha.append hb)

variable (context : EngineEventTranslationContext) (markPrices : MarkPrices)
  (input : LiquidatePositionInput) (price : AdapterPrice)

theorem unfunded_appendAdlFill (candidate : AdlCandidate) (fillQuantity priorityRank : ℤ) :
    Returns (·.Unfunded)
      (appendAdlFill context markPrices input price candidate fillQuantity priorityRank) := by
  unfold appendAdlFill
  refine returns_get fun state => ?_
  dsimp only
  split
  · exact .throw _
  · refine returns_of_forall fun _ => returns_of_forall fun _ => ?_
    refine (unfunded_translate _ _ _).bind fun a ha => ?_
    exact returns_of_forall fun _ => .pure ha

theorem unfunded_appendAdlFillsFrom (candidates : List AdlCandidate)
    (remainingQuantity priorityRank : ℤ) : Returns (·.Unfunded) (appendAdlFillsFrom context
      markPrices input price candidates remainingQuantity priorityRank) := by
  induction candidates generalizing remainingQuantity priorityRank with
  | nil => exact .pure unfunded_new
  | cons candidate candidates ih =>
    unfold appendAdlFillsFrom
    refine .ite (fun _ => .pure unfunded_new) fun _ => .ite (fun _ => ih _ _) fun _ => ?_
    refine (unfunded_appendAdlFill _ _ _ _ _ _ _).bind fun a ha => ?_
    exact (ih _ _).bind fun b hb => .pure (ha.append hb)

theorem unfunded_appendAdlFills (remainingQuantity : ℤ) : Returns (·.Unfunded)
    (appendAdlFills context markPrices input remainingQuantity price) := by
  unfold appendAdlFills
  refine returns_get fun state => ?_
  split
  · exact .pure unfunded_new
  · exact .ite (fun _ => .pure unfunded_new) fun _ => unfunded_appendAdlFillsFrom _ _ _ _ _ _ _

end Ledgers
section Runtime
variable {rates : Std.ExtTreeMap MarketId FundingRateState}
  {settled : Std.ExtTreeSet FundingSettlementKey} {α β : Type} {P : α → Prop} {Q : β → Prop}

/-- These are the rates, and these the settled intervals. -/
structure EngineRuntime.OnFunding (rates : Std.ExtTreeMap MarketId FundingRateState)
    (settled : Std.ExtTreeSet FundingSettlementKey) (rt : EngineRuntime) : Prop where
  fundingRates : rt.fundingRates = rates
  settledFundingIntervals : rt.settledFundingIntervals = settled

/-- Rates and settled intervals stay, also where the program throws. -/
abbrev Aside (rates : Std.ExtTreeMap MarketId FundingRateState)
    (settled : Std.ExtTreeSet FundingSettlementKey) (P : α → Prop) (m : RuntimeM α) : Prop :=
  Yields (EngineRuntime.OnFunding rates settled) P m

theorem aside_ledger {m : LedgerM α} (h : Returns P m) : Aside rates settled P (withLedger m) :=
  Yields.zoom h (fun _ _ => trivial) fun _ _ h _ => ⟨h.1, h.2⟩

theorem aside_anyLedger (m : LedgerM α) : Aside rates settled (fun _ => True) (withLedger m) :=
  aside_ledger (returns_any m)

theorem aside_liftExcept (e : Except Text α) :
    Aside rates settled (fun _ => True) (liftExcept e) := by
  cases e with
  | error e => exact .throw e
  | ok a => exact .pure trivial

theorem aside_processCore (command : EngineCommand) :
    Aside rates settled (fun _ => True) (processCore command) :=
  fun _ h => ⟨trivial, h.1, h.2⟩

theorem aside_get {f : EngineRuntime → RuntimeM β} (hf : ∀ rt, Aside rates settled Q (f rt)) :
    Aside rates settled Q (get >>= f) := .get fun rt hrt => hf rt rt hrt

theorem aside_markProcessed (commandKind : RuntimeCommandKind) (record : InboundEngineRecord)
    (inputId : Option Text) (idempotencyKey : Text) : Aside rates settled (fun _ => True)
      (markProcessed commandKind record inputId idempotencyKey) := by
  intro rt h
  cases inputId <;> exact ⟨trivial, h.1, h.2⟩

theorem aside_markInputProcessed (commandKind : RuntimeCommandKind) (record : InboundEngineRecord)
    (inputId : Option Text) : Aside rates settled (fun _ => True)
      (markInputProcessed commandKind record inputId) := by
  intro rt h
  cases inputId <;> exact ⟨trivial, h.1, h.2⟩

variable (record source : InboundEngineRecord) (sourceInputId : Option Text)

theorem aside_executeLiquidation (input : LiquidatePositionInput) (emitReplies : Bool) :
    Aside rates settled (·.Unfunded) (executeLiquidation record input emitReplies) := by
  have hreply : ∀ reply, (replyIf emitReplies reply).Unfunded := by
    intro reply
    unfold replyIf
    split_ifs <;> rfl
  have hevent : ∀ payload : EventPayload, payload.fundingPaid? = none →
      Aside rates settled (·.Unfunded) (makeLiquidationEvent record input payload) := fun _ h =>
    aside_ledger (unfunded_makeRuntimeMarketEvent _ _ _ _ h)
  have hbook : ∀ context metadata coreEvents, Aside rates settled (fun r => r.1.Unfunded)
      (liquidateAgainstBook record input context metadata coreEvents) := by
    intro context metadata coreEvents
    unfold liquidateAgainstBook
    refine aside_get fun rt => ?_
    cases coreEvents with
    | none => exact .pure unfunded_new
    | some coreEvents =>
      refine (aside_ledger (returns_withPending (unfunded_translate _ _ _) _)).bind fun a ha => ?_
      exact (aside_anyLedger _).bind fun _ _ => .pure ha
  have hasked : ∀ crossing command, Aside rates settled (fun _ => True)
      (askBook crossing command) := fun _ _ =>
    .ite (fun _ => (aside_processCore _).map fun _ h => h) fun _ => .pure trivial
  unfold executeLiquidation
  refine aside_get fun rt => ?_
  dsimp only
  split
  · exact .pure (hreply _)
  · split
    · refine .ite (fun _ => .pure (hreply _)) fun _ => ?_
      refine (aside_liftExcept _).bind fun orderId _ => (aside_liftExcept _).bind fun mapped _ => ?_
      refine (hasked _ _).bind fun coreEvents _ => ?_
      refine .ite (fun _ => .pure (hreply _)) fun _ => ?_
      unfold runLiquidation
      refine Yields.bind (P := (·.Unfunded)) ?_ fun result hresult => .pure ?_
      · refine (hevent _ rfl).bind fun started hstarted => ?_
        refine (hbook _ _ _).bind fun booked hbooked => aside_get fun rt => ?_
        refine (unfunded_emitWhen _ (Yields.map (aside_ledger (returns_withPending
          (unfunded_appendAdlFills _ _ _ _ _) _)) fun _ h => h)).bind fun adl hadl => ?_
        refine aside_get fun rt => (hevent _ rfl).bind fun completed hcompleted => ?_
        exact .pure (((hstarted.append hbooked).append hadl).append hcompleted)
      · unfold EngineProcessResult.repliesIf
        split_ifs
        · exact hresult
        · exact hresult
    · exact .throw _

theorem aside_attemptCandidates (candidates : List AutomaticLiquidationCandidate)
    (progress : LiquidationAttempts) : Aside rates settled (fun r => r.1.Unfunded)
      (attemptCandidates source sourceInputId candidates progress) := by
  induction candidates generalizing progress with
  | nil => exact .pure unfunded_new
  | cons candidate candidates ih =>
    unfold attemptCandidates
    refine .ite (fun _ => .pure unfunded_new) fun _ => ?_
    refine (aside_executeLiquidation _ _ _).bind fun execution hexecution => ?_
    refine .ite (fun _ => ?_) fun _ => .pure hexecution
    exact (ih _).bind fun rest hrest => .pure (hexecution.append hrest)

theorem aside_liquidationsForMarket (marketId : MarketId) : Aside rates settled (·.Unfunded)
    (evaluateAutomaticLiquidationsForMarket marketId source sourceInputId) := by
  unfold evaluateAutomaticLiquidationsForMarket
  generalize maxAutomaticLiquidationAttemptsPerTrigger + 1 = rounds
  generalize (⟨[], 0⟩ : LiquidationAttempts) = progress
  induction rounds generalizing progress with
  | zero => exact .pure unfunded_new
  | succ rounds ih =>
    unfold liquidationRounds
    refine .ite (fun _ => .pure unfunded_new) fun _ => aside_get fun rt => ?_
    refine .ite (fun _ => .pure unfunded_new) fun _ => ?_
    refine (aside_attemptCandidates _ _ _ _).bind fun attempted hattempted => ?_
    refine .ite (fun _ => ?_) fun _ => .pure hattempted
    exact (ih _).bind fun rest hrest => .pure (hattempted.append hrest)

theorem aside_allLiquidations : Aside rates settled (·.Unfunded)
    (evaluateAllAutomaticLiquidations source sourceInputId) := by
  have hmarkets : ∀ markets, Aside rates settled (·.Unfunded)
      (evaluateMarkets source sourceInputId markets) := by
    intro markets
    induction markets with
    | nil => exact .pure unfunded_new
    | cons marketId markets ih =>
      refine (aside_liquidationsForMarket _ _ _).bind fun a ha => ?_
      exact ih.bind fun b hb => .pure (ha.append hb)
  exact aside_get fun rt => hmarkets _

theorem aside_placeOnBook (input : PlaceOrderInput) (capped : AdapterQuantity) :
    Aside rates settled (fun r => r.1.Unfunded) (placeOnBook record input capped) := by
  unfold placeOnBook settlePlacedOrder
  refine (aside_liftExcept _).bind fun mapped _ => aside_get fun rt => ?_
  refine (aside_processCore _).bind fun events _ => ?_
  refine (aside_ledger ?_).bind fun result hresult => .pure hresult
  refine (returns_withPending (unfunded_translate _ _ _) _).bind fun translated htranslated => ?_
  refine returns_of_forall fun _ => returns_of_forall fun _ => ?_
  refine Yields.bind (P := (·.Unfunded)) ?_ fun expired hexpired =>
    .pure (htranslated.append hexpired)
  unfold expireIfReduceOnly expireReduceOnly
  cases translated.2 with
  | none => exact .pure unfunded_new
  | some metadata =>
    refine unfunded_emitWhen _ (Yields.bind (P := (·.Unfunded)) ?_ fun a ha => ?_)
    · exact unfunded_emitWhen _ (unfunded_makeRuntimeMarketEvent _ _ _ _ rfl)
    · exact returns_of_forall fun _ => .pure ha

theorem aside_placeNewOrder (input : PlaceOrderInput) :
    Aside rates settled (·.Unfunded) (placeNewOrder record input) := by
  unfold placeNewOrder
  refine aside_get fun rt => ?_
  cases checkReduceOnlyOrder input rt.ledger with
  | error reason =>
    refine aside_ledger ?_
    unfold reduceOnlyRejectedResult
    refine (unfunded_emitWhen _ (unfunded_makeRuntimeMarketEvent _ _ _ _ rfl)).bind fun a ha => ?_
    exact .pure (unfunded_new.append ha)
  | ok capped =>
    dsimp only
    rw [placeAllowedOrder_eq]
    refine (aside_placeOnBook _ _ _).bind fun placed hplaced => ?_
    refine (unfunded_emitWhen _ (aside_liquidationsForMarket _ _ _)).bind fun b hb => ?_
    exact .pure (hplaced.append hb)

theorem aside_applyMarkPrice (input : MarkPriceUpdatedInput) :
    Aside rates settled (·.Unfunded) (applyMarkPrice record input) := by
  unfold applyMarkPrice
  refine (aside_ledger (unfunded_makeRuntimeMarketEvent _ _ _ _ rfl)).bind fun a ha => ?_
  refine Yields.bind (P := fun _ => True) (fun rt h => ⟨trivial, h.1, h.2⟩) fun _ _ => ?_
  refine Yields.bind (P := (·.Unfunded)) (aside_ledger ?_) fun b hb => .pure (ha.append hb)
  exact returns_get fun l => returns_of_forall fun _ => unfunded_appendRiskUpdates _ _ _

/-- Only inputs about funding can change anything about funding. -/
theorem aside_processParsed (parsed : ParsedEngineInput)
    (hrate : ∀ input, parsed ≠ .fundingRateUpdated input)
    (htick : ∀ input, parsed ≠ .fundingSettlementTick input) :
    Aside rates settled (·.Unfunded) (EngineRuntime.processParsed record .live parsed) := by
  cases parsed with
  | placeOrder input =>
    unfold EngineRuntime.processParsed placeOrder
    refine aside_get fun rt => ?_
    split
    · rename_i hdup
      obtain ⟨-, -, -, rfl⟩ := duplicateResultFor_eq hdup
      exact .pure rfl
    · refine (aside_placeNewOrder _ _).bind fun a ha => ?_
      exact (aside_markProcessed _ _ _ _).bind fun _ _ => .pure ha
  | cancelOrder input =>
    unfold EngineRuntime.processParsed cancelOrder
    refine aside_get fun rt => ?_
    split
    · rename_i hdup
      obtain ⟨-, -, -, rfl⟩ := duplicateResultFor_eq hdup
      exact .pure rfl
    · refine (aside_liftExcept _).bind fun command _ => (aside_processCore _).bind fun events _ => ?_
      refine (aside_ledger (returns_withPending (unfunded_translate _ _ _) _)).bind fun a ha => ?_
      refine (aside_anyLedger _).bind fun _ _ => ?_
      exact (aside_markProcessed _ _ _ _).bind fun _ _ => .pure ha
  | liquidatePosition input =>
    unfold EngineRuntime.processParsed liquidatePosition
    refine aside_get fun rt => ?_
    split
    · rename_i hdup
      obtain ⟨-, -, -, rfl⟩ := duplicateResultFor_eq hdup
      exact .pure rfl
    · refine (aside_executeLiquidation _ _ _).bind fun a ha => ?_
      exact (aside_markProcessed _ _ _ _).bind fun _ _ => .pure ha
  | markPriceUpdated input =>
    unfold EngineRuntime.processParsed markPriceUpdated
    refine aside_get fun rt => ?_
    cases hdup : duplicateInputResultFor rt input.inputId with
    | some duplicate =>
      obtain ⟨-, -, rfl⟩ := duplicateInputResultFor_eq hdup
      exact .pure rfl
    | none =>
      dsimp only
      rw [← applyMarkPrice_bind record input fun applied => do
        let liquidations ←
          evaluateAutomaticLiquidationsForMarket input.marketId record input.inputId
        markInputProcessed .markPriceUpdated record input.inputId
        pure ((applied ++ liquidations).applyProcessingMode .live)]
      refine (aside_applyMarkPrice _ _).bind fun a ha => ?_
      refine (aside_liquidationsForMarket _ _ _).bind fun b hb => ?_
      exact (aside_markInputProcessed _ _ _).bind fun _ _ => .pure (ha.append hb)
  | fundingRateUpdated input => exact absurd rfl (hrate input)
  | fundingSettlementTick input => exact absurd rfl (htick input)

end Runtime
end PerpexEngine
