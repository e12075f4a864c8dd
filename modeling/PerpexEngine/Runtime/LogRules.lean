import PerpexEngine.Runtime.LiquidationLog

/-! What every placement, cancellation, liquidation and restart keeps, a whole run keeps. -/
namespace PerpexEngine
open Program

/-- Nothing has changed of the core, the metadata and the positions. -/
structure EngineRuntime.SameBooks (rt rt' : EngineRuntime) : Prop where
  core : rt'.core = rt.core
  metadataStore : rt'.ledger.metadataStore = rt.ledger.metadataStore
  positions : rt'.ledger.positions = rt.ledger.positions

namespace EngineRuntime.SameBooks
variable {rt rt' rt'' : EngineRuntime}

theorem refl (rt : EngineRuntime) : rt.SameBooks rt := ⟨rfl, rfl, rfl⟩

theorem trans (h : rt.SameBooks rt') (h' : rt'.SameBooks rt'') : rt.SameBooks rt'' :=
  ⟨h'.core.trans h.core, h'.metadataStore.trans h.metadataStore, h'.positions.trans h.positions⟩

end EngineRuntime.SameBooks

/-- The program touches none of these, also where it throws. -/
def Frames {α : Type} (m : RuntimeM α) : Prop :=
  ∀ rt, Ensures m rt (fun _ => rt.SameBooks) rt.SameBooks

section Frames
variable {α β : Type}

theorem Frames.bind {m : RuntimeM α} {f : α → RuntimeM β} (hm : Frames m)
    (hf : ∀ a, Frames (f a)) : Frames (m >>= f) := by
  intro rt
  rw [ensures_bind]
  refine (hm rt).mono (fun a rt' h => ?_) fun _ h => h
  exact (hf a rt').mono (fun _ _ h' => h.trans h') fun _ h' => h.trans h'

theorem Frames.pure (a : α) : Frames (Pure.pure a : RuntimeM α) := fun rt => .refl rt

theorem frames_ledger {m : LedgerM α} (h : ∀ l, Ensures m l
    (fun _ l' => l'.metadataStore = l.metadataStore ∧ l'.positions = l.positions)
    fun l' => l'.metadataStore = l.metadataStore ∧ l'.positions = l.positions) :
    Frames (withLedger m) := by
  intro rt
  unfold withLedger
  rw [ensures_zoom]
  exact (h rt.ledger).mono (fun _ _ h => ⟨rfl, h.1, h.2⟩) fun _ h => ⟨rfl, h.1, h.2⟩

theorem ensures_makeRuntimeMarketEvent (record : InboundEngineRecord)
    (inputId requestId : Option Text) (marketId : MarketId) (payload : EventPayload) (l : Ledger) :
    Ensures (makeRuntimeMarketEvent record inputId requestId marketId payload) l
      (fun _ l' => l' = l.afterEvent marketId) fun l' => marketId ≤ 0 ∧ l' = l := by
  unfold makeRuntimeMarketEvent
  rw [ensures_map]
  exact (ensures_makeMarketEvent _ _ _ _ _).mono (fun _ _ h => h.2.2.2) fun _ h => h

theorem frames_makeRuntimeMarketEvent (record : InboundEngineRecord)
    (inputId requestId : Option Text) (marketId : MarketId) (payload : EventPayload) :
    Frames (withLedger (makeRuntimeMarketEvent record inputId requestId marketId payload)) := by
  refine frames_ledger fun l => (ensures_makeRuntimeMarketEvent _ _ _ _ _ l).mono ?_ ?_
  · rintro _ _ rfl
    exact ⟨rfl, rfl⟩
  · rintro _ ⟨-, rfl⟩
    exact ⟨rfl, rfl⟩

theorem ensures_appendRiskUpdates (record : InboundEngineRecord) (inputId : Option Text)
    (keys : List PositionRiskKey) (l : Ledger) :
    Ensures (appendRiskUpdates record inputId keys) l
      (fun _ l' => l'.metadataStore = l.metadataStore ∧ l'.positions = l.positions)
      fun l' => l'.metadataStore = l.metadataStore ∧ l'.positions = l.positions := by
  induction keys generalizing l with
  | nil => exact ⟨rfl, rfl⟩
  | cons key keys ih =>
    unfold appendRiskUpdates
    rw [ensures_bind, ensures_get]
    split
    · exact ⟨rfl, rfl⟩
    · rw [ensures_bind]
      refine (ensures_makeRuntimeMarketEvent _ _ _ _ _ l).mono ?_ ?_
      · rintro event _ rfl
        rw [ensures_bind]
        exact (ih _).mono (fun _ _ h => h) fun _ h => h
      · rintro _ ⟨-, rfl⟩
        exact ⟨rfl, rfl⟩

theorem updateRiskStates_same (riskOf : IsolatedPositionState → Option IsolatedRiskState →
      Option IsolatedRiskState) (l : Ledger)
    (entries : List (PositionRiskKey × IsolatedPositionState)) :
    (updateRiskStates riskOf l entries).1.metadataStore = l.metadataStore ∧
      (updateRiskStates riskOf l entries).1.positions = l.positions := by
  rw [updateRiskStates_eq]
  exact ⟨rfl, rfl⟩

theorem frames_applyMarkPrice (record : InboundEngineRecord) (input : MarkPriceUpdatedInput) :
    Frames (applyMarkPrice record input) := by
  unfold applyMarkPrice
  refine (frames_makeRuntimeMarketEvent _ _ _ _ _).bind fun _ => ?_
  refine Frames.bind (fun rt => ⟨rfl, rfl, rfl⟩) fun _ => ?_
  refine (frames_ledger fun l => ?_).bind fun _ => .pure _
  unfold appendMarkPriceRiskUpdates
  rw [ensures_bind, ensures_get, ensures_bind, ensures_set]
  obtain ⟨hstore, hpositions⟩ := updateRiskStates_same (markRiskOf input) l l.positions.toList
  exact (ensures_appendRiskUpdates _ _ _ _).mono
    (fun _ _ h => ⟨h.1.trans hstore, h.2.trans hpositions⟩)
    fun _ h => ⟨h.1.trans hstore, h.2.trans hpositions⟩

theorem frames_applyFunding (record : InboundEngineRecord) (input : FundingSettlementTickInput)
    (funding : FundingRateState) (markPrices : MarkPrices) :
    Frames (applyFunding record input funding markPrices) := by
  unfold applyFunding
  refine (frames_ledger fun l => ?_).bind fun _ =>
    Frames.bind (fun rt => ⟨rfl, rfl, rfl⟩) fun _ => .pure _
  unfold applyFundingPayments
  rw [ensures_bind, ensures_get]
  dsimp only
  rw [ensures_bind, ensures_set, ensures_bind]
  obtain ⟨hstore, hpositions⟩ :=
    updateRiskStates_same (fundingRiskOf input funding markPrices) l l.positions.toList
  refine (ensures_makeRuntimeMarketEvent _ _ _ _ _ _).mono ?_ ?_
  · rintro _ _ rfl
    rw [ensures_bind]
    exact (ensures_appendRiskUpdates _ _ _ _).mono
      (fun _ _ h => ⟨h.1.trans hstore, h.2.trans hpositions⟩)
      fun _ h => ⟨h.1.trans hstore, h.2.trans hpositions⟩
  · rintro _ ⟨-, rfl⟩
    exact ⟨hstore, hpositions⟩

theorem frames_markInputProcessed (commandKind : RuntimeCommandKind) (record : InboundEngineRecord)
    (inputId : Option Text) : Frames (markInputProcessed commandKind record inputId) := by
  intro rt
  unfold markInputProcessed insertInputId
  rw [ensures_modify]
  cases inputId <;> exact ⟨rfl, rfl, rfl⟩

theorem frames_markProcessed (commandKind : RuntimeCommandKind) (record : InboundEngineRecord)
    (inputId : Option Text) (idempotencyKey : Text) :
    Frames (markProcessed commandKind record inputId idempotencyKey) := by
  intro rt
  unfold markProcessed insertInputId
  rw [ensures_modify]
  cases inputId <;> exact ⟨rfl, rfl, rfl⟩

theorem frames_reduceOnlyRejectedResult (record : InboundEngineRecord) (input : PlaceOrderInput)
    (reason : Text) : Frames (withLedger (reduceOnlyRejectedResult record input reason)) := by
  refine frames_ledger fun l => ?_
  unfold reduceOnlyRejectedResult emitWhen
  rw [ensures_bind]
  apply ensures_ite.2
  refine ⟨fun _ => (ensures_makeRuntimeMarketEvent _ _ _ _ _ l).mono ?_ ?_, fun _ => ⟨rfl, rfl⟩⟩
  · rintro _ _ rfl
    exact ⟨rfl, rfl⟩
  · rintro _ ⟨-, rfl⟩
    exact ⟨rfl, rfl⟩

theorem frames_fundingRateUpdated (record : InboundEngineRecord) (input : FundingRateUpdatedInput)
    (mode : ProcessingMode) : Frames (fundingRateUpdated record input mode) := by
  intro rt
  unfold fundingRateUpdated
  rw [ensures_bind, ensures_get]
  cases duplicateInputResultFor rt input.inputId with
  | some duplicate => exact .refl rt
  | none =>
    refine ((frames_makeRuntimeMarketEvent _ _ _ _ _).bind fun _ => ?_) rt
    refine Frames.bind (fun rt => ⟨rfl, rfl, rfl⟩) fun _ => ?_
    exact (frames_markInputProcessed _ _ _).bind fun _ => .pure _

end Frames

def LoggedRuntime.on (o : LoggedRuntime) (rt : EngineRuntime) : LoggedRuntime :=
  { o with runtime := rt }

/-- What holds before every operation of the runtime on its books holds after it. -/
structure LogRule (J : LoggedRuntime → Prop) : Prop where
  frame : ∀ (o : LoggedRuntime) rt, o.runtime.SameBooks rt → J o → J (o.on rt)
  place : ∀ (o : LoggedRuntime) record input capped, FitsInt64 input.quantity →
    checkReduceOnlyOrder input o.runtime.ledger = .ok capped → J o →
      Ensures (placeOnBook record input capped) o.runtime (fun _ rt => J (o.on rt))
        fun rt => J (o.on rt)
  cancel : ∀ (o : LoggedRuntime) record input markPrices, J o →
    Ensures (cancelOnBook record input markPrices) o.runtime (fun _ rt => J (o.on rt))
      fun rt => J (o.on rt)
  liquidate : ∀ (o : LoggedRuntime) record input emitReplies, J o →
    J (o.note (o.runtime.liquidation record input emitReplies))
  restart : ∀ (o : LoggedRuntime) config, J o → J (o.on (o.runtime.restarted config))

/-- The same of a runtime whose inputs are all of a kind. -/
structure LogRuleFor (allowed : ParsedEngineInput → Prop) (J : LoggedRuntime → Prop) : Prop where
  frame : ∀ (o : LoggedRuntime) rt, o.runtime.SameBooks rt → J o → J (o.on rt)
  place : ∀ (o : LoggedRuntime) record input capped, allowed (.placeOrder input) →
    FitsInt64 input.quantity → checkReduceOnlyOrder input o.runtime.ledger = .ok capped → J o →
      Ensures (placeOnBook record input capped) o.runtime (fun _ rt => J (o.on rt))
        fun rt => J (o.on rt)
  cancel : ∀ (o : LoggedRuntime) record input markPrices, allowed (.cancelOrder input) → J o →
    Ensures (cancelOnBook record input markPrices) o.runtime (fun _ rt => J (o.on rt))
      fun rt => J (o.on rt)
  liquidate : ∀ (o : LoggedRuntime) record input emitReplies, J o →
    J (o.note (o.runtime.liquidation record input emitReplies))
  restart : ∀ (o : LoggedRuntime) config, J o → J (o.on (o.runtime.restarted config))

/-- If the step has an input, it is of the kind. -/
def RuntimeStep.Brings (allowed : ParsedEngineInput → Prop) : RuntimeStep → Prop
  | .input _ (.ok brought) _ => allowed brought.parsed
  | _ => True

theorem LogRule.forAll {J : LoggedRuntime → Prop} (rule : LogRule J) :
    LogRuleFor (fun _ => True) J where
  frame := rule.frame
  place o record input capped _ := rule.place o record input capped
  cancel o record input markPrices _ := rule.cancel o record input markPrices
  liquidate := rule.liquidate
  restart := rule.restart

namespace LogRuleFor
variable {allowed : ParsedEngineInput → Prop} {J : LoggedRuntime → Prop}

/-- The twins keep what the rule is about. -/
abbrev Keeps {α : Type} (J : LoggedRuntime → Prop) (m : LoggedM α) : Prop :=
  Yields J (fun _ => True) m

theorem pure {α : Type} (a : α) : Keeps J (Pure.pure a) := .pure trivial

theorem bind {α β : Type} {m : LoggedM α} {f : α → LoggedM β} (hm : Keeps J m)
    (hf : ∀ a, Keeps J (f a)) : Keeps J (m >>= f) := Yields.bind hm fun a _ => hf a

theorem unlogged (rule : LogRuleFor allowed J) {α : Type} {m : RuntimeM α} (hm : Frames m) :
    Keeps J (unlogged m) := by
  intro o ho
  unfold PerpexEngine.unlogged
  rw [ensures_zoom]
  exact (hm o.runtime).mono (fun _ _ h => ⟨trivial, rule.frame o _ h ho⟩)
    fun _ h => rule.frame o _ h ho

theorem get {α : Type} {f : EngineRuntime → LoggedM α}
    (hf : ∀ o, J o → Ensures (f o.runtime) o (fun _ o' => True ∧ J o') J) :
    Keeps J (PerpexEngine.unlogged MonadState.get >>= f) := by
  intro o ho
  rw [ensures_bind]
  exact hf o ho

theorem liquidation (rule : LogRuleFor allowed J) (record : InboundEngineRecord)
    (input : LiquidatePositionInput) (emitReplies : Bool) :
    Keeps J (logLiquidation record input emitReplies) := by
  intro o ho
  unfold logLiquidation
  rw [ensures_bind, ensures_get]
  dsimp only
  rw [ensures_bind, ensures_set, ensures_liftExcept]
  have hnote := rule.liquidate o record input emitReplies ho
  exact ⟨fun _ _ => ⟨trivial, hnote⟩, fun _ _ => hnote⟩

theorem candidates (rule : LogRuleFor allowed J) (source : InboundEngineRecord) (sourceInputId : Option Text)
    (candidates : List AutomaticLiquidationCandidate) (progress : LiquidationAttempts) :
    Keeps J (logCandidates source sourceInputId candidates progress) := by
  induction candidates generalizing progress with
  | nil => exact pure _
  | cons candidate candidates ih =>
    unfold logCandidates
    refine Yields.ite (fun _ => pure _) fun _ => ?_
    refine bind (rule.liquidation _ _ _) fun execution => ?_
    exact Yields.ite (fun _ => bind (ih _) fun _ => pure _) fun _ => pure _

theorem rounds (rule : LogRuleFor allowed J) (source : InboundEngineRecord) (sourceInputId : Option Text)
    (marketId : MarketId) (rounds : ℕ) (progress : LiquidationAttempts) :
    Keeps J (logRounds source sourceInputId marketId rounds progress) := by
  induction rounds generalizing progress with
  | zero => exact pure _
  | succ rounds ih =>
    unfold logRounds
    refine Yields.ite (fun _ => pure _) fun _ => get fun o ho => ?_
    refine Yields.ite (fun _ => pure _) (fun _ => ?_) o ho
    refine bind (rule.candidates _ _ _ _) fun attempted => ?_
    exact Yields.ite (fun _ => bind (ih _) fun _ => pure _) fun _ => pure _

theorem liquidationsForMarket (rule : LogRuleFor allowed J) (marketId : MarketId)
    (source : InboundEngineRecord) (sourceInputId : Option Text) :
    Keeps J (logLiquidationsForMarket marketId source sourceInputId) := rule.rounds _ _ _ _ _

theorem allLiquidations (rule : LogRuleFor allowed J) (source : InboundEngineRecord)
    (sourceInputId : Option Text) : Keeps J (logAllLiquidations source sourceInputId) := by
  have hmarkets : ∀ markets, Keeps J (logMarkets source sourceInputId markets) := by
    intro markets
    induction markets with
    | nil => exact pure _
    | cons marketId markets ih =>
      exact bind (rule.liquidationsForMarket _ _ _) fun _ => bind ih fun _ => pure _
  exact get fun o ho => hmarkets _ o ho

theorem placeNewOrder (rule : LogRuleFor allowed J) (record : InboundEngineRecord)
    {input : PlaceOrderInput} (hallowed : allowed (.placeOrder input))
    (hfits : FitsInt64 input.quantity) : Keeps J (logPlaceNewOrder record input) := by
  refine get fun o ho => ?_
  cases hcapped : checkReduceOnlyOrder input o.runtime.ledger with
  | error reason => exact rule.unlogged (frames_reduceOnlyRejectedResult _ _ _) o ho
  | ok capped =>
    dsimp only
    rw [ensures_bind]
    unfold PerpexEngine.unlogged
    rw [ensures_zoom]
    refine (rule.place o record input capped hallowed hfits hcapped ho).mono ?_ fun _ h => h
    rintro ⟨result, coreEvents⟩ rt h
    refine bind ?_ (fun _ => pure _) _ h
    exact Yields.ite (fun _ => rule.liquidationsForMarket _ _ _) fun _ => pure _

theorem cancelOrder (rule : LogRuleFor allowed J) (record : InboundEngineRecord)
    {input : CancelOrderInput} (hallowed : allowed (.cancelOrder input)) (mode : ProcessingMode) :
    Keeps J (PerpexEngine.unlogged (cancelOrder record input mode)) := by
  intro o ho
  unfold PerpexEngine.unlogged PerpexEngine.cancelOrder
  rw [ensures_zoom, ensures_bind, ensures_get]
  cases duplicateResultFor o.runtime input.inputId input.envelope.idempotencyKey with
  | some duplicate => exact ⟨trivial, ho⟩
  | none =>
    dsimp only
    rw [← cancelOnBook_bind record input o.runtime.markPrices fun result => do
      markProcessed .cancelOrder record input.inputId input.envelope.idempotencyKey
      Pure.pure (result.applyProcessingMode mode), ensures_bind]
    refine (rule.cancel o record input _ hallowed ho).mono (fun result rt h => ?_) fun _ h => h
    rw [ensures_bind]
    refine (frames_markProcessed _ _ _ _ rt).mono (fun _ rt' h' => ?_) fun rt' h' => ?_
    · exact ⟨trivial, rule.frame (o.on rt) rt' h' h⟩
    · exact rule.frame (o.on rt) rt' h' h

theorem parsed (rule : LogRuleFor allowed J) (record : InboundEngineRecord) (mode : ProcessingMode)
    {input : EngineInput} (hallowed : allowed input.parsed) :
    Keeps J (logParsed record mode input.parsed) := by
  obtain ⟨parsed, hwell⟩ := input
  cases parsed with
  | placeOrder input =>
    refine get fun o ho => ?_
    cases duplicateResultFor o.runtime input.inputId input.envelope.idempotencyKey with
    | some duplicate => exact pure _ o ho
    | none =>
      exact bind (rule.placeNewOrder record hallowed hwell.2) (fun _ =>
        bind (rule.unlogged (frames_markProcessed _ _ _ _)) fun _ => pure _) o ho
  | cancelOrder input => exact rule.cancelOrder record hallowed mode
  | liquidatePosition input =>
    refine get fun o ho => ?_
    cases duplicateResultFor o.runtime input.inputId input.envelope.idempotencyKey with
    | some duplicate => exact pure _ o ho
    | none =>
      exact bind (rule.liquidation record input true) (fun _ =>
        bind (rule.unlogged (frames_markProcessed _ _ _ _)) fun _ => pure _) o ho
  | markPriceUpdated input =>
    refine get fun o ho => ?_
    cases duplicateInputResultFor o.runtime input.inputId with
    | some duplicate => exact pure _ o ho
    | none =>
      exact bind (rule.unlogged (frames_applyMarkPrice _ _)) (fun _ =>
        bind (rule.liquidationsForMarket _ _ _) fun _ =>
          bind (rule.unlogged (frames_markInputProcessed _ _ _)) fun _ => pure _) o ho
  | fundingRateUpdated input => exact rule.unlogged (frames_fundingRateUpdated _ _ _)
  | fundingSettlementTick input =>
    refine get fun o ho => ?_
    cases duplicateInputResultFor o.runtime input.inputId with
    | some duplicate => exact pure _ o ho
    | none =>
      have hmarked : ∀ result : EngineProcessResult, Keeps J (do
          PerpexEngine.unlogged (markInputProcessed .fundingSettlementTick record input.inputId)
          Pure.pure result) := fun result =>
        bind (rule.unlogged (frames_markInputProcessed _ _ _)) fun _ => pure _
      refine Yields.ite (fun _ => hmarked _) (fun _ => ?_) o ho
      cases o.runtime.fundingRates[input.marketId]?.filter
        (·.fundingIntervalId = input.fundingIntervalId) with
      | none => exact hmarked _
      | some funding =>
        exact bind (rule.unlogged (frames_applyFunding _ _ _ _)) fun _ =>
          bind (rule.liquidationsForMarket _ _ _) fun _ => hmarked _

/-- A step of a run keeps it. -/
theorem step (rule : LogRuleFor allowed J) {o : LoggedRuntime}
    (h : o.runtime.ledger.marketSequences.Positive) (ho : J o) {s : RuntimeStep}
    (hs : s.Brings allowed) : J (s.logged.run.run o).2 := by
  have hkeeps : ∀ {m : LoggedM EngineProcessResult}, Keeps J m → J (m.run.run o).2 :=
    fun hm => Ensures.whatever ((hm o ho).mono (fun _ _ h => h.2) fun _ h => h)
  cases s with
  | input record parsed mode =>
    cases parsed with
    | error e => exact ho
    | ok input => exact hkeeps (rule.parsed record mode hs)
  | evaluate source mode => exact hkeeps (bind (rule.allLiquidations _ _) fun _ => pure _)
  | evaluateMarket marketId source mode =>
    exact hkeeps (bind (rule.liquidationsForMarket _ _ _) fun _ => pure _)
  | restart config =>
    refine Ensures.whatever ?_
    unfold RuntimeStep.logged RuntimeStep.program PerpexEngine.unlogged
    rw [ensures_zoom, ensures_bind]
    refine (ensures_restart h config).mono ?_ fun _ h => h.elim
    rintro _ _ rfl
    exact rule.restart o config ho

/-- A whole run keeps it. -/
theorem run (rule : LogRuleFor allowed J) {o : LoggedRuntime}
    (h : o.runtime.ledger.marketSequences.Positive) (ho : J o) {steps : List RuntimeStep}
    (hsteps : ∀ s ∈ steps, s.Brings allowed) : J (o.run steps) := by
  induction steps generalizing o with
  | nil => exact ho
  | cons s steps ih =>
    refine ih ?_ (rule.step h ho (hsteps s List.mem_cons_self))
      fun t ht => hsteps t (List.mem_cons_of_mem _ ht)
    rw [runtime_logged]
    exact positive_step h s

end LogRuleFor

/-- A whole run keeps it, whatever its inputs. -/
theorem LogRule.run {J : LoggedRuntime → Prop} (rule : LogRule J) {o : LoggedRuntime}
    (h : o.runtime.ledger.marketSequences.Positive) (ho : J o) (steps : List RuntimeStep) :
    J (o.run steps) := by
  refine rule.forAll.run h ho fun s _ => ?_
  unfold RuntimeStep.Brings
  split <;> trivial

end PerpexEngine
