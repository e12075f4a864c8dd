import PerpexEngine.Runtime.FundingTicks
import PerpexEngine.Runtime.Duplicates

/-! Settlements over whole runs: once for each interval of a market, and only at its rate. -/
namespace PerpexEngine
open Program

/-- The settlement that a step makes, as the state before it tells. -/
def RuntimeStep.settlement (rt : EngineRuntime) : RuntimeStep → Option FundingSettlementKey
  | input _ (.ok ⟨.fundingSettlementTick tick, _⟩) _ =>
    (rt.settlementRate tick).map fun _ => tick.key
  | _ => none

theorem RuntimeStep.settlement_eq_some {rt : EngineRuntime} {s : RuntimeStep}
    {key : FundingSettlementKey} : s.settlement rt = some key ↔
      ∃ record tick hwell mode funding,
        s = .input record (.ok ⟨.fundingSettlementTick tick, hwell⟩) mode ∧ key = tick.key ∧
          rt.settlementRate tick = some funding := by
  constructor
  · intro h
    unfold settlement at h
    split at h
    · rename_i record tick hwell mode
      obtain ⟨funding, hrate, rfl⟩ := Option.map_eq_some_iff.1 h
      exact ⟨record, tick, hwell, mode, funding, rfl, rfl, hrate⟩
    · cases h
  · rintro ⟨record, tick, hwell, mode, funding, rfl, rfl, hrate⟩
    change (rt.settlementRate tick).map _ = _
    rw [hrate]
    rfl

/-- Rates are of markets that have events, and their scale divides. -/
def EngineRuntime.RatesSound (rt : EngineRuntime) : Prop :=
  ∀ (marketId : MarketId) (funding : FundingRateState),
    rt.fundingRates[marketId]? = some funding → 0 < marketId ∧ 0 < funding.rateScale

/-- The settled intervals after a step, and the rates. -/
structure RuntimeStep.FundingMoves (s : RuntimeStep) (rt rt' : EngineRuntime) : Prop where
  settled : ∀ key, key ∈ rt'.settledFundingIntervals ↔
    key ∈ rt.settledFundingIntervals ∨ s.settlement rt = some key
  rates : rt.RatesSound → rt'.RatesSound

section Steps
variable {rt : EngineRuntime}

theorem EngineRuntime.OnFunding.moves {rt' : EngineRuntime} {s : RuntimeStep}
    (h : rt'.OnFunding rt.fundingRates rt.settledFundingIntervals)
    (hnone : s.settlement rt = none) : s.FundingMoves rt rt' where
  settled key := by
    rw [h.settledFundingIntervals, hnone]
    exact ⟨Or.inl, fun h => h.resolve_right nofun⟩
  rates hsound marketId funding := by
    rw [h.fundingRates]
    exact hsound marketId funding

/-- A new rate is for a market that has events. -/
theorem ensures_fundingRateUpdated (record : InboundEngineRecord) (input : FundingRateUpdatedInput)
    (hscale : 0 < input.rateScale) : Ensures (fundingRateUpdated record input .live) rt
      (fun result rt' => result.Unfunded ∧ (rt.RatesSound → rt'.RatesSound) ∧
        rt'.settledFundingIntervals = rt.settledFundingIntervals)
      fun rt' => rt' = rt := by
  unfold fundingRateUpdated
  rw [ensures_bind, ensures_get]
  cases hdup : duplicateInputResultFor rt input.inputId with
  | some duplicate =>
    obtain ⟨-, -, rfl⟩ := duplicateInputResultFor_eq hdup
    exact ⟨rfl, fun h => h, rfl⟩
  | none =>
    dsimp only
    rw [ensures_bind]
    unfold withLedger
    rw [ensures_zoom]
    have hpayload : (EventPayload.fundingRateUpdated input).fundingPaid? = none := rfl
    have hquiet := unfunded_makeRuntimeMarketEvent record input.inputId none input.marketId
      hpayload rt.ledger trivial
    have hevent : Ensures (makeRuntimeMarketEvent record input.inputId none input.marketId
        (.fundingRateUpdated input)) rt.ledger (fun _ _ => 0 < input.marketId)
        fun l => l = rt.ledger := by
      unfold makeRuntimeMarketEvent
      rw [ensures_map]
      refine (ensures_makeMarketEvent _ _ _ _ _).mono ?_ fun _ h => h.2
      rintro e _ ⟨hnext, hmarket, -⟩
      exact hmarket ▸ hnext.market
    refine (hevent.and hquiet).mono ?_ fun l h => ?_
    · rintro updated l ⟨hmarket, hunfunded, -⟩
      rw [ensures_bind, ensures_modify]
      have hsound : rt.RatesSound → ({ rt with
          ledger := l
          fundingRates := rt.fundingRates.insert input.marketId
            (fundingRateStateFromInput input) } : EngineRuntime).RatesSound := by
        intro hsound marketId funding hrate
        rw [Std.ExtTreeMap.getElem?_insert] at hrate
        split_ifs at hrate with hid
        · cases hrate
          exact ⟨Std.LawfulEqCmp.compare_eq_iff_eq.1 hid ▸ hmarket, hscale⟩
        · exact hsound marketId funding hrate
      cases input.inputId <;> exact ⟨hunfunded, hsound, rfl⟩
    · rw [h.1]

/-- What a step reports is what it settles, and what it settles is noted. -/
theorem RuntimeStep.ensures_settlement (s : RuntimeStep) (hsound : rt.RatesSound)
    (hpositive : rt.ledger.marketSequences.Positive) : Ensures s.live rt
      (fun result rt' => s.FundingMoves rt rt' ∧
        (settlementsOf result.events).map (·.1) = (s.settlement rt).toList)
      fun rt' => s.FundingMoves rt rt' := by
  have hquiet : ∀ {m : RuntimeM EngineProcessResult}, s.settlement rt = none →
      Aside rt.fundingRates rt.settledFundingIntervals (·.Unfunded) m →
      Ensures m rt (fun result rt' => s.FundingMoves rt rt' ∧
        (settlementsOf result.events).map (·.1) = (s.settlement rt).toList)
        fun rt' => s.FundingMoves rt rt' := by
    intro m hnone hm
    refine (hm rt ⟨rfl, rfl⟩).mono ?_ fun _ h => h.moves hnone
    rintro result rt' ⟨hunfunded, hkept⟩
    refine ⟨hkept.moves hnone, ?_⟩
    rw [hunfunded.settlements, hnone]
    rfl
  cases s with
  | evaluate source mode => exact hquiet rfl (aside_allLiquidations _ _)
  | evaluateMarket marketId source mode => exact hquiet rfl (aside_liquidationsForMarket _ _ _)
  | restart config =>
    unfold live
    rw [ensures_bind]
    refine (ensures_restart hpositive config).mono ?_ fun _ h => h.elim
    rintro _ _ rfl
    exact ⟨EngineRuntime.OnFunding.moves ⟨rfl, rfl⟩ rfl, rfl⟩
  | input record parsed mode =>
    cases parsed with
    | error e => exact EngineRuntime.OnFunding.moves ⟨rfl, rfl⟩ rfl
    | ok input =>
      obtain ⟨parsed, hwell⟩ := input
      change Ensures (EngineRuntime.processParsed record .live parsed) rt _ _
      cases parsed with
      | placeOrder | cancelOrder | liquidatePosition | markPriceUpdated =>
        exact hquiet rfl (aside_processParsed _ _ nofun nofun)
      | fundingRateUpdated input =>
        refine (ensures_fundingRateUpdated record input hwell.1).mono ?_ ?_
        · rintro result rt' ⟨hunfunded, hrates, hsettled⟩
          refine ⟨⟨fun key => ?_, hrates⟩, ?_⟩
          · rw [hsettled]
            exact ⟨Or.inl, fun h => h.resolve_right nofun⟩
          · rw [hunfunded.settlements]
            rfl
        · rintro _ rfl
          exact EngineRuntime.OnFunding.moves ⟨rfl, rfl⟩ rfl
      | fundingSettlementTick tick =>
        have hkey : RuntimeStep.settlement rt
            (.input record (.ok ⟨.fundingSettlementTick tick, hwell⟩) mode) =
              (rt.settlementRate tick).map fun _ => tick.key := rfl
        cases hrate : rt.settlementRate tick with
        | none =>
          obtain ⟨result, processed, hrun, hevents, -⟩ := unsettled_tick record hrate .live
          rw [hrate] at hkey
          change Ensures (fundingSettlementTick record tick .live) rt _ _
          unfold Ensures
          rw [hrun]
          refine ⟨EngineRuntime.OnFunding.moves ⟨rfl, rfl⟩ hkey, ?_⟩
          rw [hevents, hkey]
          rfl
        | some funding =>
          rw [hrate] at hkey
          have hmarket := hsound _ _ (EngineRuntime.settlementRate_eq_some.1 hrate).2.2.1
          have hmoves : ∀ {rt' : EngineRuntime}, rt'.OnFunding rt.fundingRates
              (rt.settledFundingIntervals.insert tick.key) → RuntimeStep.FundingMoves
                (.input record (.ok ⟨.fundingSettlementTick tick, hwell⟩) mode) rt rt' := by
            intro rt' h
            refine ⟨fun key => ?_, fun hsound marketId funding => ?_⟩
            · rw [h.settledFundingIntervals, Std.ExtTreeSet.mem_insert, hkey, or_comm,
                Std.LawfulEqCmp.compare_eq_iff_eq]
              exact or_congr_right ⟨congrArg some, Option.some.inj⟩
            · rw [h.fundingRates]
              exact hsound marketId funding
          refine (ensures_settled record hrate hmarket.1).mono ?_ fun _ h => hmoves h
          rintro result rt' ⟨hsettlements, hafter⟩
          refine ⟨hmoves hafter, ?_⟩
          rw [hsettlements, hkey]
          rfl

end Steps
section Runs
variable {rt : EngineRuntime}

/-- What a step does is what its live program does. -/
theorem step_eq_live (s : RuntimeStep) : rt.step s =
    (((·.applyProcessingMode s.mode) <$> (s.live.run.run rt).1 : EngineRuntime.Outcome),
      (s.live.run.run rt).2) := by
  unfold EngineRuntime.step
  rw [RuntimeStep.program_eq]
  rw [ExceptT.run_map, StateT.run_map]
  rfl

theorem step_fundingMoves (hsound : rt.RatesSound)
    (hpositive : rt.ledger.marketSequences.Positive) (s : RuntimeStep) :
    s.FundingMoves rt (rt.step s).2 := by
  rw [step_eq_live]
  exact ((s.ensures_settlement hsound hpositive).mono (fun _ _ h => h.1) fun _ h => h).whatever

theorem ratesSound_run (hsound : rt.RatesSound) (hpositive : rt.ledger.marketSequences.Positive)
    (steps : List RuntimeStep) : (rt.run steps).2.RatesSound := by
  induction steps generalizing rt with
  | nil => exact hsound
  | cons s steps ih =>
    exact ih ((step_fundingMoves hsound hpositive s).rates hsound) (positive_step hpositive s)

theorem ratesSound_new (config : EngineRuntimeConfig) : (EngineRuntime.new config).RatesSound := by
  intro marketId funding hrate
  cases Std.ExtTreeMap.getElem?_empty.symm.trans hrate

/-- What was settled stays settled. -/
theorem settled_run (hsound : rt.RatesSound) (hpositive : rt.ledger.marketSequences.Positive)
    (steps : List RuntimeStep) {key : FundingSettlementKey}
    (h : key ∈ rt.settledFundingIntervals) : key ∈ (rt.run steps).2.settledFundingIntervals := by
  induction steps generalizing rt with
  | nil => exact h
  | cons s steps ih =>
    have hmoves := step_fundingMoves hsound hpositive s
    exact ih (hmoves.rates hsound) (positive_step hpositive s) ((hmoves.settled key).2 (Or.inl h))

/-- The step settles the interval: its live result reports payments for it, or it is noted as
settled afterwards and was not before. -/
def EngineRuntime.AppliesFunding (rt : EngineRuntime) (s : RuntimeStep)
    (key : FundingSettlementKey) : Prop :=
  (∃ result, (s.live.run.run rt).1 = .ok result ∧ key ∈ (settlementsOf result.events).map (·.1)) ∨
    (key ∈ (rt.step s).2.settledFundingIntervals ∧ key ∉ rt.settledFundingIntervals)

theorem appliesFunding_iff (hsound : rt.RatesSound)
    (hpositive : rt.ledger.marketSequences.Positive) {s : RuntimeStep}
    {key : FundingSettlementKey} : rt.AppliesFunding s key ↔ s.settlement rt = some key := by
  have hsettled := (step_fundingMoves hsound hpositive s).settled key
  constructor
  · rintro (⟨result, hresult, hkey⟩ | ⟨hafter, hbefore⟩)
    · have hreports := ((s.ensures_settlement hsound hpositive).returned (Prod.ext hresult rfl)).2
      rw [hreports] at hkey
      exact Option.mem_toList.1 hkey
    · exact (hsettled.1 hafter).resolve_left hbefore
  · intro h
    obtain ⟨record, tick, hwell, mode, funding, -, rfl, hrate⟩ :=
      RuntimeStep.settlement_eq_some.1 h
    exact Or.inr ⟨hsettled.2 (Or.inr h), (EngineRuntime.settlementRate_eq_some.1 hrate).2.1⟩

/-- In every run funding is applied exactly by the ticks that are new, for an interval that is not
settled and is that of the latest rate; an interval is settled once; and a tick that does not apply
funding changes nothing but the table of its input ids. -/
theorem funding_applied_once (config : EngineRuntimeConfig) (steps : List RuntimeStep)
    (s : RuntimeStep) {rt : EngineRuntime} (hrt : rt = ((EngineRuntime.new config).run steps).2) :
    (∀ key, rt.AppliesFunding s key ↔ ∃ record tick hwell mode funding,
        s = .input record (.ok ⟨.fundingSettlementTick tick, hwell⟩) mode ∧
          key = ⟨tick.marketId, tick.fundingIntervalId⟩ ∧
          duplicateInputResultFor rt tick.inputId = none ∧ key ∉ rt.settledFundingIntervals ∧
          rt.fundingRates[tick.marketId]? = some funding ∧
          funding.fundingIntervalId = tick.fundingIntervalId) ∧
      (∀ result, (s.live.run.run rt).1 = .ok result → (settlementsOf result.events).length ≤ 1) ∧
      (∀ key, rt.AppliesFunding s key → ∀ later s',
        ¬((rt.step s).2.run later).2.AppliesFunding s' key) ∧
      ∀ record tick hwell mode,
        s = .input record (.ok ⟨.fundingSettlementTick tick, hwell⟩) mode →
          (∀ key, ¬rt.AppliesFunding s key) → ∃ result processed,
            rt.step s = (.ok result, { rt with processedInputIds := processed }) ∧
              result.events = [] ∧ result.replies = [] := by
  have hsound : rt.RatesSound :=
    hrt ▸ ratesSound_run (ratesSound_new config) (positive_new config) steps
  have hpositive : rt.ledger.marketSequences.Positive :=
    hrt ▸ positive_run (positive_new config) steps
  have hmoves := step_fundingMoves hsound hpositive s
  refine ⟨fun key => ?_, fun result hresult => ?_, fun key happlied later s' hagain => ?_, ?_⟩
  · rw [appliesFunding_iff hsound hpositive, RuntimeStep.settlement_eq_some]
    simp only [EngineRuntime.settlementRate_eq_some]
    constructor
    · rintro ⟨record, tick, hwell, mode, funding, hs, rfl, hrate⟩
      exact ⟨record, tick, hwell, mode, funding, hs, rfl, hrate⟩
    · rintro ⟨record, tick, hwell, mode, funding, hs, rfl, hrate⟩
      exact ⟨record, tick, hwell, mode, funding, hs, rfl, hrate⟩
  · have hreports := ((s.ensures_settlement hsound hpositive).returned (Prod.ext hresult rfl)).2
    rw [← List.length_map (f := (·.1)), hreports]
    exact Option.length_toList_le
  · have hsound' := hmoves.rates hsound
    have hpositive' := positive_step hpositive s
    have hsettled : key ∈ (rt.step s).2.settledFundingIntervals :=
      (hmoves.settled key).2 (Or.inr ((appliesFunding_iff hsound hpositive).1 happlied))
    have hstill := settled_run hsound' hpositive' later hsettled
    rw [appliesFunding_iff (ratesSound_run hsound' hpositive' later)
      (positive_run hpositive' later)] at hagain
    obtain ⟨record, tick, hwell, mode, funding, -, rfl, hrate⟩ :=
      RuntimeStep.settlement_eq_some.1 hagain
    exact (EngineRuntime.settlementRate_eq_some.1 hrate).2.1 hstill
  · rintro record tick hwell mode rfl hidle
    cases hrate : rt.settlementRate tick with
    | none => exact unsettled_tick record hrate mode
    | some funding =>
      refine absurd ((appliesFunding_iff hsound hpositive).2 ?_) (hidle tick.key)
      exact RuntimeStep.settlement_eq_some.2
        ⟨record, tick, hwell, mode, funding, rfl, rfl, hrate⟩

def sampleFundingRate (n : ℕ) (rate rateScale : ℤ) (hscale : 0 < rateScale) : RuntimeStep :=
  .input ⟨engineInputTopic, 0, n⟩ (.ok ⟨.fundingRateUpdated
    { inputId := none
      marketId := 1
      fundingIntervalId := ascii "interval-1"
      rate := rate
      rateScale := rateScale
      intervalStartMs := 0
      intervalEndMs := 1
      sourceTimestampMs := n }, hscale, Int.one_pos⟩) .live

def sampleFundingTick (n : ℕ) : RuntimeStep :=
  .input ⟨engineInputTopic, 0, n⟩ (.ok ⟨.fundingSettlementTick
    { inputId := some (ascii "tick-" ++ decimal n)
      marketId := 1
      fundingIntervalId := ascii "interval-1"
      settleAtMs := n }, trivial⟩) .live

def sampleFundingSteps : List RuntimeStep := sampleRuntimeSteps ++ [sampleFundingRate 5 1 100 (by decide)]

theorem funding_applied_once_sample :
    ((EngineRuntime.new sampleRuntimeConfig).run sampleFundingSteps).2.AppliesFunding
        (sampleFundingTick 6) ⟨1, ascii "interval-1"⟩ ∧
      ∀ later s', ¬((((EngineRuntime.new sampleRuntimeConfig).run sampleFundingSteps).2.step
        (sampleFundingTick 6)).2.run later).2.AppliesFunding s' ⟨1, ascii "interval-1"⟩ := by
  obtain ⟨happlies, -, honce, -⟩ :=
    funding_applied_once sampleRuntimeConfig sampleFundingSteps (sampleFundingTick 6) rfl
  have happlied := (happlies ⟨1, ascii "interval-1"⟩).2 ⟨_, _, _, _,
    ⟨1, ascii "interval-1", 1, 100, 0, 1, 5⟩, rfl, rfl, by decide +kernel, by decide +kernel,
      by decide +kernel, by decide +kernel⟩
  exact ⟨happlied, honce _ happlied⟩

end Runs
end PerpexEngine
