import PerpexEngine.Lib.Rounding
import PerpexEngine.Runtime.FundingSettlements
import PerpexEngine.Runtime.MarketBalance

/-! The payments of a settlement cancel up to what truncation leaves of each. -/
namespace PerpexEngine
open Program

/-- The positions of a market that are not flat. -/
def Ledger.openIn (ledger : Ledger) (marketId : MarketId) : List IsolatedPositionState :=
  (ledger.positionsIn marketId).filter (·.signedQuantity ≠ 0)

section Amounts
variable {ledger : Ledger} {marketId : MarketId}

/-- Whoever gets nothing can be left out. -/
theorem sum_filter_ne_zero {α : Type} (f : α → ℤ) (xs : List α) :
    ((xs.filter (f · ≠ 0)).map f).sum = (xs.map f).sum := by
  induction xs with
  | nil => rfl
  | cons x xs ih =>
    by_cases hx : f x = 0
    · rw [List.filter_cons_of_neg (by simp [hx]), ih, List.map_cons, List.sum_cons, hx, zero_add]
    · rw [List.filter_cons_of_pos (by simp [hx]), List.map_cons, List.sum_cons, ih, List.map_cons,
        List.sum_cons]

/-- Every open position gets its amount, and those that come to nothing are left out. -/
theorem payments_eq (input : FundingSettlementTickInput) (funding : FundingRateState)
    {markPrices : MarkPrices} {mark : MarkPriceState} (hmark : markPrices[input.marketId]? = some mark)
    (positions : List IsolatedPositionState) :
    (positions.filterMap (fundingPayment input funding markPrices)).map
        (fun p => (p.userId, p.amount)) =
      (((positions.filter (·.marketId = input.marketId)).filter (·.signedQuantity ≠ 0)).map
        fun position => (position.userId, fundingAmount position mark.markPrice funding)).filter
          (·.2 ≠ 0) := by
  induction positions with
  | nil => rfl
  | cons position positions ih =>
    by_cases hmarket : position.marketId = input.marketId
    · have hprice : settlementMarkPriceFor position markPrices = mark.markPrice := by
        unfold settlementMarkPriceFor
        rw [hmarket, hmark]
      by_cases hflat : position.signedQuantity = 0
      · have hnone : fundingPayment input funding markPrices position = none := by
          simp [fundingPayment, fundingDue, hflat]
        rw [List.filterMap_cons_none hnone, ih]
        simp [hmarket, hflat]
      · by_cases hamount : fundingAmount position mark.markPrice funding = 0
        · have hnone : fundingPayment input funding markPrices position = none := by
            simp [fundingPayment, fundingDue, hmarket, hflat, hprice, hamount]
          rw [List.filterMap_cons_none hnone, ih]
          simp [hmarket, hflat, hamount]
        · have hsome : (fundingPayment input funding markPrices position).map
              (fun p => (p.userId, p.amount)) =
                some (position.userId, fundingAmount position mark.markPrice funding) := by
            simp [fundingPayment, fundingDue, hmarket, hflat, hprice, hamount]
          obtain ⟨payment, hpayment, hpaid⟩ := Option.map_eq_some_iff.1 hsome
          rw [List.filterMap_cons_some hpayment, List.map_cons, hpaid, ih]
          simp [hmarket, hflat, hamount]
    · have hnone : fundingPayment input funding markPrices position = none := by
        simp [fundingPayment, fundingDue, hmarket]
      rw [List.filterMap_cons_none hnone, ih]
      simp [hmarket]

theorem sum_mul_openIn (hbalanced : ((ledger.positionsIn marketId).map (·.signedQuantity)).sum = 0)
    (price rate : ℤ) :
    ((ledger.openIn marketId).map fun position => position.signedQuantity * price * rate).sum = 0 := by
  have hscaled : ((ledger.openIn marketId).map fun position =>
      position.signedQuantity * price * rate).sum =
        ((ledger.openIn marketId).map (·.signedQuantity)).sum * price * rate := by
    induction ledger.openIn marketId with
    | nil => simp
    | cons position positions ih =>
      simp only [List.map_cons, List.sum_cons, ih]
      rw [Int.add_mul, Int.add_mul]
  have hopen : ((ledger.openIn marketId).map (·.signedQuantity)).sum = 0 :=
    (sum_filter_ne_zero IsolatedPositionState.signedQuantity _).trans hbalanced
  rw [hscaled, hopen, Int.zero_mul, Int.zero_mul]

end Amounts
section Settlement
variable {rt : EngineRuntime}

/-- A payment event of a step is the one of its tick. -/
theorem fundingPaid_eq (hsound : rt.RatesSound) (hpositive : rt.ledger.marketSequences.Positive)
    {s : RuntimeStep} {result : EngineProcessResult} (hresult : (rt.step s).1 = .ok result)
    {e : EngineEventRecord} (he : e ∈ result.events) {interval : Text}
    {payments : List FundingPayment} (hpaid : e.payload = .fundingPaymentApplied interval payments) :
    ∃ (tick : FundingSettlementTickInput) (funding : FundingRateState),
      rt.settlementRate tick = some funding ∧ e.marketId = tick.marketId ∧
        interval = tick.fundingIntervalId ∧ payments = rt.fundingPayments tick funding := by
  rw [step_eq_live] at hresult
  rcases hlive : s.live.run.run rt with ⟨_ | live, rt'⟩
  · rw [hlive] at hresult
    cases hresult
  · rw [hlive] at hresult
    cases hresult
    have hmem : e ∈ live.events := by
      revert he
      cases s.mode with
      | live => exact fun h => h
      | replaySilent => exact fun h => absurd h List.not_mem_nil
    have hreported : ((⟨e.marketId, interval⟩ : FundingSettlementKey), payments) ∈
        settlementsOf live.events := mem_settlementsOf.2 ⟨e, hmem, rfl, hpaid⟩
    have hkeys := ((s.ensures_settlement hsound hpositive).returned hlive).2
    have hkey : s.settlement rt = some ⟨e.marketId, interval⟩ := by
      have hmember := List.mem_map_of_mem (f := (·.1)) hreported
      rw [hkeys] at hmember
      exact Option.mem_toList.1 hmember
    obtain ⟨record, tick, hwell, mode, funding, rfl, -, hrate⟩ :=
      RuntimeStep.settlement_eq_some.1 hkey
    have hmarket := (hsound _ _ (EngineRuntime.settlementRate_eq_some.1 hrate).2.2.1).1
    have hsettled := ((ensures_settled record hrate hmarket).returned hlive).1
    rw [hsettled, List.mem_singleton, Prod.mk.injEq] at hreported
    obtain ⟨hsame, hpayments⟩ := hreported
    obtain ⟨hmarketId, hinterval⟩ := FundingSettlementKey.mk.inj hsame
    exact ⟨tick, funding, hrate, hmarketId, hinterval, hpayments⟩

/-- What is paid in a settlement at a mark price: to each open position its own amount, truncated
on its own, so that all of them cancel up to less than one unit each, and exactly where nothing
is cut off. -/
theorem funding_payments_cancel_up_to_truncation (config : EngineRuntimeConfig)
    (steps : List RuntimeStep) (s : RuntimeStep) {rt : EngineRuntime}
    (hrt : rt = ((EngineRuntime.new config).run steps).2) {result : EngineProcessResult}
    (hresult : (rt.step s).1 = .ok result) {e : EngineEventRecord} (he : e ∈ result.events)
    {interval : Text} {payments : List FundingPayment}
    (hpaid : e.payload = .fundingPaymentApplied interval payments) {mark : MarkPriceState}
    (hmark : rt.markPrices[e.marketId]? = some mark) :
    ∃ funding, rt.fundingRates[e.marketId]? = some funding ∧
      funding.fundingIntervalId = interval ∧
      (payments.map fun p => (p.userId, p.amount)) = ((rt.ledger.openIn e.marketId).map
        fun position => (position.userId, -((position.signedQuantity * mark.markPrice *
          funding.rate).tdiv funding.rateScale))).filter (·.2 ≠ 0) ∧
      funding.rateScale * |(payments.map (·.amount)).sum| ≤
        (funding.rateScale - 1) * (rt.ledger.openIn e.marketId).length ∧
      ((∀ position ∈ rt.ledger.openIn e.marketId,
          funding.rateScale ∣ position.signedQuantity * mark.markPrice * funding.rate) →
        (payments.map (·.amount)).sum = 0) := by
  have hsound : rt.RatesSound :=
    hrt ▸ ratesSound_run (ratesSound_new config) (positive_new config) steps
  have hpositive : rt.ledger.marketSequences.Positive :=
    hrt ▸ positive_run (positive_new config) steps
  have hbalanced : ((rt.ledger.positionsIn e.marketId).map (·.signedQuantity)).sum = 0 :=
    (hrt ▸ (reachable_accounted config steps).balanced : Balanced rt.ledger.signed).sum_positionsIn
      (hrt ▸ reachable_filed config steps) _
  obtain ⟨tick, funding, hrate, hmarket, rfl, rfl⟩ :=
    fundingPaid_eq hsound hpositive hresult he hpaid
  obtain ⟨-, -, hfunding, hinterval⟩ := EngineRuntime.settlementRate_eq_some.1 hrate
  have hscale := (hsound _ _ hfunding).2
  rw [hmarket] at hmark hbalanced ⊢
  have hpayments : (rt.fundingPayments tick funding).map (fun p => (p.userId, p.amount)) =
      ((rt.ledger.openIn tick.marketId).map fun position =>
        (position.userId, fundingAmount position mark.markPrice funding)).filter (·.2 ≠ 0) := by
    have heach := payments_eq tick funding hmark (rt.ledger.positions.toList.map (·.2))
    rw [List.filterMap_map] at heach
    exact heach
  have hsum : ((rt.fundingPayments tick funding).map (·.amount)).sum =
      -(((rt.ledger.openIn tick.marketId).map fun position =>
        position.signedQuantity * mark.markPrice * funding.rate).map
          (·.tdiv funding.rateScale)).sum := by
    have hamounts : (rt.fundingPayments tick funding).map (·.amount) =
        ((rt.fundingPayments tick funding).map fun p => (p.userId, p.amount)).map (·.2) := by
      rw [List.map_map]
      rfl
    rw [hamounts, hpayments, sum_filter_ne_zero Prod.snd]
    induction rt.ledger.openIn tick.marketId with
    | nil => rfl
    | cons position positions ih =>
      simp only [List.map_cons, List.sum_cons, ih]
      unfold fundingAmount
      rw [Int.neg_add]
  refine ⟨funding, hfunding, hinterval, hpayments, ?_, fun hdvd => ?_⟩
  · rw [hsum, abs_neg]
    refine (Rounding.abs_sum_tdiv_le hscale (sum_mul_openIn hbalanced _ _)).trans_eq ?_
    rw [List.length_map]
  · rw [hsum, Rounding.sum_tdiv_eq_zero hscale (sum_mul_openIn hbalanced _ _), Int.neg_zero]
    intro x hx
    obtain ⟨position, hposition, rfl⟩ := List.mem_map.1 hx
    exact hdvd position hposition

/-- The market of each settlement that a step reports, and what its payments come to. -/
def paymentSums : EngineRuntime.Outcome → List (MarketId × ℤ)
  | .ok result => (settlementsOf result.events).map fun settlement =>
    (settlement.1.marketId, (settlement.2.map (·.amount)).sum)
  | .error _ => []

theorem exists_of_mem_paymentSums {outcome : EngineRuntime.Outcome} {marketId : MarketId} {sum : ℤ}
    (h : (marketId, sum) ∈ paymentSums outcome) : ∃ result e interval payments,
      outcome = .ok result ∧ e ∈ result.events ∧ e.marketId = marketId ∧
        e.payload = .fundingPaymentApplied interval payments ∧
          (payments.map (·.amount)).sum = sum := by
  cases outcome with
  | error e => cases h
  | ok result =>
    obtain ⟨⟨⟨m, interval⟩, payments⟩, hreported, hsame⟩ := List.mem_map.1 h
    cases hsame
    obtain ⟨e, he, hmarket, hpaid⟩ := mem_settlementsOf.1 hreported
    exact ⟨result, e, interval, payments, rfl, he, hmarket, hpaid, rfl⟩

/-- Two longs of 10 and a short of 20 at a mark price of 100, and a rate of one in 2000. -/
def sampleUnevenSteps : List RuntimeStep :=
  [samplePlace 1 11 .long 100 10, samplePlace 2 12 .long 100 10, samplePlace 3 13 .short 100 20,
    sampleMark 4 100, sampleFundingRate 5 1 2000 (by decide)]

/-- A long that was bought at 110 and a short that was sold at 100, and no mark price. -/
def sampleUnmarkedSteps : List RuntimeStep :=
  [samplePlace 1 11 .long 100 10, samplePlace 2 12 .short 100 10, samplePlace 3 13 .long 110 10,
    samplePlace 4 11 .short 110 10, sampleFundingRate 5 1 10 (by decide)]

/-- The payments of a settlement need not cancel: truncation keeps a unit, and without a mark price
each position is settled at its own entry price. -/
theorem funding_payments_do_not_cancel :
    (∃ result e interval payments,
      (((EngineRuntime.new sampleRuntimeConfig).run sampleUnevenSteps).2.step
        (sampleFundingTick 6)).1 = .ok result ∧ e ∈ result.events ∧ e.marketId = 1 ∧
          e.payload = .fundingPaymentApplied interval payments ∧
            (payments.map (·.amount)).sum = 1) ∧
      ∃ result e interval payments,
        (((EngineRuntime.new sampleRuntimeConfig).run sampleUnmarkedSteps).2.step
          (sampleFundingTick 6)).1 = .ok result ∧ e ∈ result.events ∧ e.marketId = 1 ∧
            e.payload = .fundingPaymentApplied interval payments ∧
              (payments.map (·.amount)).sum = -10 :=
  ⟨exists_of_mem_paymentSums (by decide +kernel), exists_of_mem_paymentSums (by decide +kernel)⟩

theorem funding_payments_cancel_up_to_truncation_sample : ∃ payments : List FundingPayment,
    (payments.map (·.amount)).sum = 1 ∧ ∃ funding : FundingRateState,
      funding.rateScale * |(payments.map (·.amount)).sum| ≤ (funding.rateScale - 1) *
        (((EngineRuntime.new sampleRuntimeConfig).run sampleUnevenSteps).2.ledger.openIn 1).length := by
  obtain ⟨⟨result, e, interval, payments, hresult, he, hmarket, hpaid, hsum⟩, -⟩ :=
    funding_payments_do_not_cancel
  have hmark : ∃ mark, ((EngineRuntime.new sampleRuntimeConfig).run
      sampleUnevenSteps).2.markPrices[(1 : MarketId)]? = some mark :=
    Option.isSome_iff_exists.1 (by decide +kernel)
  obtain ⟨mark, hmark⟩ := hmark
  rw [← hmarket] at hmark
  obtain ⟨funding, -, -, -, hbound, -⟩ := funding_payments_cancel_up_to_truncation
    sampleRuntimeConfig sampleUnevenSteps (sampleFundingTick 6) rfl hresult he hpaid hmark
  rw [hmarket] at hbound
  exact ⟨payments, hsum, funding, hbound⟩

end Settlement
end PerpexEngine
