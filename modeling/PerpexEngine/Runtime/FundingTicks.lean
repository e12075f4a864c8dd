import PerpexEngine.Runtime.FundingEvents
import PerpexEngine.Runtime.LogRules

/-! What a settlement tick does: it settles its interval at the rate of the market, or nothing. -/
namespace PerpexEngine
open Program

def FundingSettlementTickInput.key (input : FundingSettlementTickInput) : FundingSettlementKey :=
  ⟨input.marketId, input.fundingIntervalId⟩

namespace EngineRuntime

/-- The rate at which a tick is settled: it is new, its interval is open, and the rate of its market
is for that interval. -/
def settlementRate (rt : EngineRuntime) (input : FundingSettlementTickInput) :
    Option FundingRateState :=
  if (duplicateInputResultFor rt input.inputId).isSome ∨
      rt.settledFundingIntervals.contains input.key then none
  else rt.fundingRates[input.marketId]?.filter (·.fundingIntervalId = input.fundingIntervalId)

/-- The payments of a tick that is settled. -/
def fundingPayments (rt : EngineRuntime) (input : FundingSettlementTickInput)
    (funding : FundingRateState) : List FundingPayment :=
  rt.ledger.positions.toList.filterMap fun entry =>
    fundingPayment input funding rt.markPrices entry.2

theorem settlementRate_eq_some {rt : EngineRuntime} {input : FundingSettlementTickInput}
    {funding : FundingRateState} : rt.settlementRate input = some funding ↔
      duplicateInputResultFor rt input.inputId = none ∧
        input.key ∉ rt.settledFundingIntervals ∧ rt.fundingRates[input.marketId]? = some funding ∧
          funding.fundingIntervalId = input.fundingIntervalId := by
  unfold settlementRate
  split
  · rename_i h
    refine ⟨nofun, fun ⟨hnew, hopen, _⟩ => ?_⟩
    rcases h with h | h
    · rw [hnew] at h
      cases h
    · exact absurd (Std.ExtTreeSet.contains_iff_mem.1 h) hopen
  · rename_i h
    obtain ⟨hnew, hopen⟩ := not_or.1 h
    rw [Option.filter_eq_some_iff, decide_eq_true_eq]
    rw [Std.ExtTreeSet.contains_iff_mem] at hopen
    rw [Option.not_isSome_iff_eq_none] at hnew
    exact ⟨fun ⟨hrate, hinterval⟩ => ⟨hnew, hopen, hrate, hinterval⟩,
      fun ⟨_, _, hrate, hinterval⟩ => ⟨hrate, hinterval⟩⟩

end EngineRuntime

/-- The settlements that events report, with their payments. -/
def settlementsOf (events : List EngineEventRecord) :
    List (FundingSettlementKey × List FundingPayment) :=
  events.filterMap fun e => e.payload.fundingPaid?.map fun paid => (⟨e.marketId, paid.1⟩, paid.2)

theorem mem_settlementsOf {events : List EngineEventRecord} {marketId : MarketId} {interval : Text}
    {payments : List FundingPayment} :
    ((⟨marketId, interval⟩, payments) ∈ settlementsOf events ↔
      ∃ e ∈ events, e.marketId = marketId ∧
        e.payload = .fundingPaymentApplied interval payments) := by
  unfold settlementsOf
  rw [List.mem_filterMap]
  refine exists_congr fun e => and_congr_right fun _ => ?_
  cases hpayload : e.payload with
  | fundingPaymentApplied i ps =>
    simp only [EventPayload.fundingPaid?, Option.map_some, Option.some.injEq, Prod.mk.injEq,
      FundingSettlementKey.mk.injEq, EventPayload.fundingPaymentApplied.injEq, and_assoc]
  | _ => exact ⟨nofun, fun h => nomatch h.2⟩

theorem settlementsOf_append (xs ys : List EngineEventRecord) :
    settlementsOf (xs ++ ys) = settlementsOf xs ++ settlementsOf ys := List.filterMap_append

theorem EngineProcessResult.Unfunded.settlements {result : EngineProcessResult}
    (h : result.Unfunded) : settlementsOf result.events = [] := by
  unfold Unfunded projected at h
  unfold settlementsOf
  rw [List.filterMap_eq_nil_iff] at h ⊢
  intro e he
  rw [h e he]
  rfl

section Risks
variable {riskOf : IsolatedPositionState → Option IsolatedRiskState → Option IsolatedRiskState}
  {marketId : MarketId}

/-- The key has a risk state, and it is one of the market. -/
def Ledger.RiskIn (ledger : Ledger) (marketId : MarketId) (key : PositionRiskKey) : Prop :=
  ∃ risk : IsolatedRiskState, ledger.riskStates[key]? = some risk ∧ risk.marketId = marketId

/-- A round over the positions of a market files risk states of that market only. -/
theorem updateRiskStates_market
    (hmarket : ∀ position previous, ∀ risk ∈ riskOf position previous, risk.marketId = marketId)
    (ledger : Ledger) (entries : List (PositionRiskKey × IsolatedPositionState)) :
    (∀ key, ledger.RiskIn marketId key →
        (updateRiskStates riskOf ledger entries).1.RiskIn marketId key) ∧
      ∀ key ∈ (updateRiskStates riskOf ledger entries).2,
        (updateRiskStates riskOf ledger entries).1.RiskIn marketId key := by
  induction entries generalizing ledger with
  | nil => exact ⟨fun _ h => h, fun _ h => absurd h List.not_mem_nil⟩
  | cons entry entries ih =>
    unfold updateRiskStates
    split
    · exact ih ledger
    · rename_i risk hrisk
      obtain ⟨hkept, hkeys⟩ :=
        ih { ledger with riskStates := ledger.riskStates.insert entry.1 risk }
      have hfiled := hmarket _ _ risk hrisk
      have hhead : { ledger with riskStates := ledger.riskStates.insert entry.1 risk }.RiskIn
          marketId entry.1 := ⟨risk, Std.ExtTreeMap.getElem?_insert_self, hfiled⟩
      refine ⟨fun key hkey => hkept key ?_, fun key hkey => ?_⟩
      · unfold Ledger.RiskIn
        rw [Std.ExtTreeMap.getElem?_insert]
        split_ifs
        · exact ⟨risk, rfl, hfiled⟩
        · exact hkey
      · rcases List.mem_cons.1 hkey with rfl | hkey
        · exact hkept _ hhead
        · exact hkeys key hkey

theorem markRiskOf_market (input : MarkPriceUpdatedInput) (position : IsolatedPositionState)
    (previous : Option IsolatedRiskState) :
    ∀ risk ∈ markRiskOf input position previous, risk.marketId = input.marketId := by
  intro risk hrisk
  unfold markRiskOf at hrisk
  split at hrisk
  · cases hrisk
  · rename_i h
    cases hrisk
    exact not_not.1 (not_or.1 h).1

theorem fundingRiskOf_market (input : FundingSettlementTickInput) (funding : FundingRateState)
    (markPrices : MarkPrices) (position : IsolatedPositionState)
    (previous : Option IsolatedRiskState) :
    ∀ risk ∈ fundingRiskOf input funding markPrices position previous,
      risk.marketId = input.marketId := by
  intro risk hrisk
  unfold fundingRiskOf at hrisk
  rw [Option.mem_def, Option.map_eq_some_iff] at hrisk
  obtain ⟨amount, hdue, rfl⟩ := hrisk
  unfold fundingDue at hdue
  split at hdue
  · cases hdue
  · rename_i h
    exact not_not.1 (not_or.1 h).1

/-- Risk states that are there are reported without fail. -/
theorem ensures_riskUpdates (record : InboundEngineRecord) (inputId : Option Text)
    (hpositive : 0 < marketId) (keys : List PositionRiskKey) (l : Ledger)
    (hkeys : ∀ key ∈ keys, l.RiskIn marketId key) :
    Ensures (appendRiskUpdates record inputId keys) l (fun _ _ => True) fun _ => False := by
  induction keys generalizing l with
  | nil => trivial
  | cons key keys ih =>
    obtain ⟨risk, hrisk, hmarket⟩ := hkeys key List.mem_cons_self
    unfold appendRiskUpdates
    rw [ensures_bind, ensures_get, hrisk]
    dsimp only
    rw [ensures_bind]
    refine (ensures_makeRuntimeMarketEvent _ _ _ _ _ l).mono ?_ ?_
    · rintro event _ rfl
      rw [ensures_bind]
      refine (ih (l.afterEvent risk.marketId) fun key hkey => ?_).mono (fun _ _ _ => trivial)
        fun _ h => h
      exact hkeys key (List.mem_cons_of_mem _ hkey)
    · exact fun _ hfails => absurd hpositive (not_lt.2 (hmarket ▸ hfails.1))

end Risks
section Settling
variable {rt : EngineRuntime} {input : FundingSettlementTickInput} {funding : FundingRateState}
  (record : InboundEngineRecord)

/-- The payments of a settlement come as one event, and nothing stops them. -/
theorem ensures_applyFundingPayments (hpositive : 0 < input.marketId) (markPrices : MarkPrices)
    (l : Ledger) : Ensures (applyFundingPayments record input funding markPrices) l
      (fun paid _ => settlementsOf paid.events = [(input.key,
        l.positions.toList.filterMap fun entry => fundingPayment input funding markPrices entry.2)])
      fun _ => False := by
  unfold applyFundingPayments
  rw [ensures_bind, ensures_get]
  dsimp only
  rw [ensures_bind, ensures_set, ensures_bind]
  obtain ⟨-, hkeys⟩ := updateRiskStates_market
    (fundingRiskOf_market input funding markPrices) l l.positions.toList
  generalize updateRiskStates (fundingRiskOf input funding markPrices) l l.positions.toList = round
    at hkeys
  have happlied := ensures_makeMarketEvent round.1 input.marketId (sourceFields record input.inputId)
    none (.fundingPaymentApplied input.fundingIntervalId (l.positions.toList.filterMap fun entry =>
      fundingPayment input funding markPrices entry.2))
  unfold makeRuntimeMarketEvent
  rw [ensures_map]
  refine happlied.mono ?_ fun _ ⟨hnegative, _⟩ => absurd hpositive (not_lt.2 hnegative)
  rintro e _ ⟨-, hmarket, hpayload, rfl⟩
  rw [ensures_bind]
  have hrisks := ensures_riskUpdates record input.inputId hpositive round.2
    (round.1.afterEvent input.marketId) hkeys
  have hquiet := unfunded_appendRiskUpdates record input.inputId round.2
    (round.1.afterEvent input.marketId) trivial
  refine (hrisks.and hquiet).mono ?_ fun _ h => h.1
  rintro risks _ ⟨-, hunfunded, -⟩
  rw [ensures_pure, EngineProcessResult.events_append, settlementsOf_append, hunfunded.settlements,
    List.append_nil]
  change List.filterMap _ [e] = _
  rw [List.filterMap_cons, hpayload, hmarket]
  rfl

/-- A tick that has a rate is settled, whatever comes of the liquidations after it. -/
theorem ensures_settled (hrate : rt.settlementRate input = some funding)
    (hpositive : 0 < input.marketId) : Ensures (fundingSettlementTick record input .live) rt
      (fun result => fun rt' =>
        settlementsOf result.events = [(input.key, rt.fundingPayments input funding)] ∧
          rt'.OnFunding rt.fundingRates (rt.settledFundingIntervals.insert input.key))
      fun rt' => rt'.OnFunding rt.fundingRates (rt.settledFundingIntervals.insert input.key) := by
  obtain ⟨hnew, hopen, hrates, hinterval⟩ := EngineRuntime.settlementRate_eq_some.1 hrate
  have hsettled : rt.settledFundingIntervals.contains
      (⟨input.marketId, input.fundingIntervalId⟩ : FundingSettlementKey) = false :=
    Bool.eq_false_iff.2 (mt Std.ExtTreeSet.contains_iff_mem.1 hopen)
  have hfilter : rt.fundingRates[input.marketId]?.filter
      (·.fundingIntervalId = input.fundingIntervalId) = some funding :=
    Option.filter_eq_some_iff.2 ⟨hrates, decide_eq_true hinterval⟩
  unfold fundingSettlementTick
  rw [ensures_bind, ensures_get, hnew]
  dsimp only
  rw [hsettled, if_neg Bool.false_ne_true, hfilter]
  dsimp only
  rw [ensures_bind]
  unfold withLedger
  rw [ensures_zoom]
  refine (ensures_applyFundingPayments record hpositive rt.markPrices rt.ledger).mono ?_
    fun _ h => h.elim
  intro paid l hpaid
  rw [ensures_bind, ensures_modify]
  have hafter : EngineRuntime.OnFunding rt.fundingRates
      (rt.settledFundingIntervals.insert input.key)
      { rt with
        ledger := l
        settledFundingIntervals := rt.settledFundingIntervals.insert input.key } := ⟨rfl, rfl⟩
  refine ((aside_liquidationsForMarket record input.inputId input.marketId).bind
    (Q := fun result : EngineProcessResult => settlementsOf result.events =
      [(input.key, rt.fundingPayments input funding)]) fun liquidations hquiet =>
    (aside_markInputProcessed _ _ _).bind fun _ _ => .pure ?_) _ hafter
  change settlementsOf (paid.events ++ liquidations.events) = _
  rw [settlementsOf_append, hpaid, hquiet.settlements, List.append_nil]
  rfl

/-- A tick without a rate says nothing, and only its input id is recorded. -/
theorem unsettled_tick (hrate : rt.settlementRate input = none) (mode : ProcessingMode) :
    ∃ result processed, (fundingSettlementTick record input mode).run.run rt =
        (.ok result, { rt with processedInputIds := processed }) ∧
      result.events = [] ∧ result.replies = [] := by
  have hmarked : ∀ result : EngineProcessResult, ∃ processed,
      (markInputProcessed .fundingSettlementTick record input.inputId >>= fun _ =>
        (pure result : RuntimeM EngineProcessResult)).run.run rt =
          (.ok result, { rt with processedInputIds := processed }) := by
    intro result
    cases hid : input.inputId with
    | none => exact ⟨rt.processedInputIds, rfl⟩
    | some inputId => exact ⟨_, rfl⟩
  cases hdup : duplicateInputResultFor rt input.inputId with
  | some duplicate =>
    obtain ⟨key, original, rfl⟩ := duplicateInputResultFor_eq hdup
    refine ⟨makeDuplicateResult .inputId key original, rt.processedInputIds, Ensures.run_eq ?_, rfl,
      rfl⟩
    unfold fundingSettlementTick
    rw [ensures_bind, ensures_get, hdup]
    exact ⟨rfl, rfl⟩
  | none =>
    have hstep : ∀ result : EngineProcessResult, (∀ Q E, Ensures (markInputProcessed
        .fundingSettlementTick record input.inputId >>= fun _ =>
          (pure result : RuntimeM EngineProcessResult)) rt Q E →
        Ensures (fundingSettlementTick record input mode) rt Q E) →
        result.events = [] → result.replies = [] →
        ∃ result processed, (fundingSettlementTick record input mode).run.run rt =
            (.ok result, { rt with processedInputIds := processed }) ∧
          result.events = [] ∧ result.replies = [] := by
      intro result hsame hevents hreplies
      obtain ⟨processed, hrun⟩ := hmarked result
      refine ⟨result, processed, Ensures.run_eq (hsame _ _ ?_), hevents, hreplies⟩
      unfold Ensures
      rw [hrun]
      exact ⟨rfl, rfl⟩
    by_cases hsettled : rt.settledFundingIntervals.contains input.key
    · refine hstep .new (fun Q E h => ?_) rfl rfl
      unfold fundingSettlementTick
      rw [ensures_bind, ensures_get, hdup]
      exact ensures_ite.2 ⟨fun _ => h, fun hno => absurd hsettled hno⟩
    · have hnone : rt.fundingRates[input.marketId]?.filter
          (·.fundingIntervalId = input.fundingIntervalId) = none := by
        unfold EngineRuntime.settlementRate at hrate
        rw [hdup, if_neg (by simpa using hsettled)] at hrate
        exact hrate
      refine hstep { EngineProcessResult.new with status := .rejected } (fun Q E h => ?_) rfl rfl
      unfold fundingSettlementTick
      rw [ensures_bind, ensures_get, hdup]
      refine ensures_ite.2 ⟨fun hyes => absurd hyes hsettled, fun _ => ?_⟩
      rw [hnone]
      exact h

end Settling
end PerpexEngine
