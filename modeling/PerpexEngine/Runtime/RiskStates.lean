import PerpexEngine.Runtime.EventNumbers

/-! The cached risk of every position: recomputed by fills, mark prices and funding, it repeats the
position and its other fields follow from its own mark price and equity. -/
namespace PerpexEngine
open Program

/-- What the risk entry of a position says of it. -/
structure RiskAgrees (markPrices : MarkPrices) (key : PositionRiskKey)
    (position : IsolatedPositionState) (risk : IsolatedRiskState) : Prop where
  userId : position.userId = key.userId
  marketId : position.marketId = key.marketId
  signedQuantity : risk.signedQuantity = position.signedQuantity
  averageEntryPrice : risk.averageEntryPrice = position.averageEntryPrice
  isolatedMargin : risk.isolatedMargin = position.isolatedMargin
  leverage : risk.leverage = position.leverage
  unrealizedPnl : risk.unrealizedPnl =
    (risk.markPrice - position.averageEntryPrice) * position.signedQuantity
  maintenanceMargin : risk.maintenanceMargin = (|position.signedQuantity| * risk.markPrice).tdiv 20
  marginRatio : risk.marginRatio = if risk.maintenanceMargin = 0 then 0
    else (risk.equity * 10000).tdiv risk.maintenanceMargin
  status : risk.status = if position.signedQuantity = 0 then .flat
    else if risk.equity ≤ risk.maintenanceMargin then .liquidatable else .healthy
  markPrice : position.signedQuantity ≠ 0 → ∀ mark ∈ markPrices[key.marketId]?,
    risk.markPrice = mark.markPrice

/-- Positions and risk states have the same keys and agree at each. -/
def RiskConsistent (markPrices : MarkPrices) (ledger : Ledger) : Prop :=
  ∀ key, Option.Rel (RiskAgrees markPrices key) ledger.positions[key]? ledger.riskStates[key]?

theorem absQuantity_eq (q : ℤ) : absQuantity q = |q| := by
  unfold absQuantity
  split_ifs with h
  · rw [abs_of_neg h]
  · rw [abs_of_nonneg (not_lt.1 h)]

section Agreement
variable {markPrices : MarkPrices} {key : PositionRiskKey} {position : IsolatedPositionState}

theorem RiskAgrees.maintenance (q : ℤ) (mark : AdapterPrice) :
    maintenanceMarginFor q mark = (|q| * mark).tdiv 20 := by
  unfold maintenanceMarginFor
  rw [absQuantity_eq]

theorem fillRiskFromPosition_agrees (hu : position.userId = key.userId)
    (hm : position.marketId = key.marketId) (tradePrice : AdapterPrice) (timestampMs : ℤ) :
    RiskAgrees markPrices key position (fillRiskFromPosition position
      (markPriceFor key.marketId tradePrice markPrices) timestampMs) where
  userId := hu
  marketId := hm
  signedQuantity := rfl
  averageEntryPrice := rfl
  isolatedMargin := rfl
  leverage := rfl
  unrealizedPnl := rfl
  maintenanceMargin := RiskAgrees.maintenance _ _
  marginRatio := rfl
  status := rfl
  markPrice _ mark hmark := by
    unfold fillRiskFromPosition markPriceFor
    rw [Option.mem_def.1 hmark]

theorem riskFromPosition_agrees (hu : position.userId = key.userId)
    (hm : position.marketId = key.marketId) {markPrice : AdapterPrice}
    (hmark : ∀ mark ∈ markPrices[key.marketId]?, markPrice = mark.markPrice) (updatedAtMs : ℤ)
    (previousRisk : Option IsolatedRiskState) : RiskAgrees markPrices key position
      (riskFromPosition position markPrice updatedAtMs previousRisk) where
  userId := hu
  marketId := hm
  signedQuantity := rfl
  averageEntryPrice := rfl
  isolatedMargin := rfl
  leverage := rfl
  unrealizedPnl := rfl
  maintenanceMargin := RiskAgrees.maintenance _ _
  marginRatio := rfl
  status := rfl
  markPrice _ := hmark

/-- A funding amount only moves the equity, and what follows from it. -/
theorem RiskAgrees.withEquity {risk : IsolatedRiskState}
    (h : RiskAgrees markPrices key position risk) (equity : ℤ) : RiskAgrees markPrices key position
      { risk with
        equity := equity
        marginRatio := marginRatioFor equity risk.maintenanceMargin
        status := riskStatusFor risk.signedQuantity equity risk.maintenanceMargin } where
  userId := h.userId
  marketId := h.marketId
  signedQuantity := h.signedQuantity
  averageEntryPrice := h.averageEntryPrice
  isolatedMargin := h.isolatedMargin
  leverage := h.leverage
  unrealizedPnl := h.unrealizedPnl
  maintenanceMargin := h.maintenanceMargin
  marginRatio := rfl
  status := by
    rw [h.signedQuantity]
    rfl
  markPrice := h.markPrice

end Agreement

section Rounds
variable {riskOf : IsolatedPositionState → Option IsolatedRiskState → Option IsolatedRiskState}
  {key : PositionRiskKey}

theorem updateRiskStates_other {entries : List (PositionRiskKey × IsolatedPositionState)}
    (ledger : Ledger) (h : ∀ entry ∈ entries, entry.1 ≠ key) :
    (updateRiskStates riskOf ledger entries).1.riskStates[key]? = ledger.riskStates[key]? := by
  induction entries generalizing ledger with
  | nil => rfl
  | cons entry entries ih =>
    have hrest : ∀ e ∈ entries, e.1 ≠ key := fun e he => h e (List.mem_cons_of_mem _ he)
    unfold updateRiskStates
    split
    · exact ih ledger hrest
    · refine (ih _ hrest).trans ?_
      rw [Std.ExtTreeMap.getElem?_insert,
        if_neg (mt Std.LawfulEqCmp.compare_eq_iff_eq.1 (h entry List.mem_cons_self))]

/-- In one round each position gets its new risk, where there is one. -/
theorem updateRiskStates_at {entries : List (PositionRiskKey × IsolatedPositionState)}
    (ledger : Ledger) (hdistinct : (entries.map Prod.fst).Nodup) {position : IsolatedPositionState}
    (h : (key, position) ∈ entries) :
    (updateRiskStates riskOf ledger entries).1.riskStates[key]? =
      (riskOf position ledger.riskStates[key]?).or ledger.riskStates[key]? := by
  induction entries generalizing ledger with
  | nil => cases h
  | cons entry entries ih =>
    rw [List.map_cons, List.nodup_cons] at hdistinct
    rcases List.mem_cons.1 h with rfl | h
    · have hothers : ∀ e ∈ entries, e.1 ≠ key := fun e he heq =>
        hdistinct.1 (List.mem_map.2 ⟨e, he, heq⟩)
      unfold updateRiskStates
      split
      · rename_i hnone
        rw [updateRiskStates_other ledger hothers, hnone, Option.none_or]
      · rename_i risk hsome
        refine (updateRiskStates_other _ hothers).trans ?_
        rw [Std.ExtTreeMap.getElem?_insert, if_pos (Std.LawfulEqCmp.compare_eq_iff_eq.2 rfl), hsome,
          Option.some_or]
    · have hne : entry.1 ≠ key := fun heq =>
        hdistinct.1 (List.mem_map.2 ⟨_, h, heq.symm⟩)
      unfold updateRiskStates
      split
      · exact ih ledger hdistinct.2 h
      · refine (ih _ hdistinct.2 h).trans ?_
        rw [Std.ExtTreeMap.getElem?_insert,
          if_neg (mt Std.LawfulEqCmp.compare_eq_iff_eq.1 hne)]

/-- A round over all positions that gives each an agreeing risk or leaves one that still agrees. -/
theorem RiskConsistent.round {markPrices markPrices' : MarkPrices} {ledger : Ledger}
    (h : RiskConsistent markPrices ledger)
    (hnew : ∀ key position risk risk', RiskAgrees markPrices key position risk →
      riskOf position (some risk) = some risk' → RiskAgrees markPrices' key position risk')
    (hold : ∀ key position risk, RiskAgrees markPrices key position risk →
      riskOf position (some risk) = none → RiskAgrees markPrices' key position risk) :
    RiskConsistent markPrices'
      (updateRiskStates riskOf ledger ledger.positions.toList).1 := by
  intro key
  have hpositions := congrArg Ledger.positions
    (updateRiskStates_eq riskOf ledger ledger.positions.toList)
  rw [hpositions]
  dsimp only
  have hkey := h key
  cases hposition : ledger.positions[key]? with
  | none =>
    rw [hposition] at hkey
    rw [updateRiskStates_other]
    · cases hrisk : ledger.riskStates[key]? with
      | none => exact .none
      | some risk =>
        rw [hrisk] at hkey
        cases hkey
    · rintro ⟨_, position⟩ hmem rfl
      rw [Std.ExtTreeMap.mem_toList_iff_getElem?_eq_some, hposition] at hmem
      cases hmem
  | some position =>
    have hnodup : (ledger.positions.toList.map Prod.fst).Nodup := by
      rw [Std.ExtTreeMap.map_fst_toList_eq_keys]
      exact Std.ExtTreeMap.nodup_keys
    rw [updateRiskStates_at ledger hnodup
      (Std.ExtTreeMap.mem_toList_iff_getElem?_eq_some.2 hposition)]
    rw [hposition] at hkey
    cases hrisk : ledger.riskStates[key]? with
    | none =>
      rw [hrisk] at hkey
      cases hkey
    | some risk =>
      rw [hrisk] at hkey
      cases hkey with
      | some hagrees =>
        cases hof : riskOf position (some risk) with
        | none => exact .some (hold key position risk hagrees hof)
        | some risk' => exact .some (hnew key position risk risk' hagrees hof)

end Rounds

section Rules
variable {markPrices : MarkPrices} {ledger : Ledger}

theorem RiskConsistent.fill (h : RiskConsistent markPrices ledger) (metadata : OrderMetadata)
    (quantity price timestampMs : ℤ) : RiskConsistent markPrices
      (ledger.putLeg (fillLeg markPrices ledger metadata quantity price timestampMs)) := by
  intro key
  unfold Ledger.putLeg
  dsimp only
  rw [Std.ExtTreeMap.getElem?_insert, Std.ExtTreeMap.getElem?_insert]
  split_ifs with hkey
  · rw [Std.LawfulEqCmp.compare_eq_iff_eq] at hkey
    subst hkey
    exact .some (fillRiskFromPosition_agrees rfl rfl price timestampMs)
  · exact h key

theorem RiskConsistent.mark (h : RiskConsistent markPrices ledger) (input : MarkPriceUpdatedInput) :
    RiskConsistent (markPrices.insert input.marketId (markStateFromInput input))
      (updateRiskStates (markRiskOf input) ledger ledger.positions.toList).1 := by
  refine h.round (fun key position risk risk' hagrees hof => ?_)
    fun key position risk hagrees hof => ?_
  · unfold markRiskOf at hof
    split_ifs at hof with hskip
    cases hof
    obtain ⟨hmarket, -⟩ := not_or.1 hskip
    refine riskFromPosition_agrees hagrees.userId hagrees.marketId (fun mark hmark => ?_) _ _
    have hkey : input.marketId = key.marketId := by
      rw [← hagrees.marketId]
      exact (not_not.1 hmarket).symm
    rw [hkey, Option.mem_def, Std.ExtTreeMap.getElem?_insert_self] at hmark
    cases hmark
    rfl
  · unfold markRiskOf at hof
    split_ifs at hof with hskip
    refine { hagrees with markPrice := fun hopen mark hmark => ?_ }
    have hmarket := hskip.resolve_right hopen
    rw [hagrees.marketId] at hmarket
    rw [Option.mem_def, Std.ExtTreeMap.getElem?_insert,
      if_neg (mt Std.LawfulEqCmp.compare_eq_iff_eq.1 hmarket.symm)] at hmark
    exact hagrees.markPrice hopen mark hmark

theorem RiskConsistent.funding (h : RiskConsistent markPrices ledger)
    (input : FundingSettlementTickInput) (funding : FundingRateState) :
    RiskConsistent markPrices (updateRiskStates (fundingRiskOf input funding markPrices) ledger
      ledger.positions.toList).1 := by
  refine h.round (fun key position risk risk' hagrees hof => ?_) fun _ _ _ hagrees _ => hagrees
  unfold fundingRiskOf at hof
  rw [Option.map_eq_some_iff] at hof
  obtain ⟨amount, -, rfl⟩ := hof
  have hrisk : RiskAgrees markPrices key position (riskFromPosition position
      (settlementMarkPriceFor position markPrices) input.settleAtMs (some risk)) := by
    refine riskFromPosition_agrees hagrees.userId hagrees.marketId (fun mark hmark => ?_) _ _
    unfold settlementMarkPriceFor
    rw [hagrees.marketId, Option.mem_def.1 hmark]
  exact hrisk.withEquity _

theorem riskRule : RunRule (fun _ => True) fun rt _ rt' =>
    RiskConsistent rt.markPrices rt.ledger → RiskConsistent rt'.markPrices rt'.ledger where
  nothing _ h := h
  append h h' hr := h' (h hr)
  core _ _ h := h
  ledger rt :=
    { nothing := fun _ h => h
      append := fun h h' hr => h' (h hr)
      clock := fun _ h => h
      event := fun _ _ _ h => h
      metadata := fun _ _ _ h => h
      fill := fun _ metadata quantity price timestampMs h =>
        h.fill metadata quantity price timestampMs }
  inputId _ inputId _ h := by
    cases inputId <;> exact h
  idempotencyKey _ _ _ h := h
  markPrice _ input h := h.mark input
  fundingRate _ _ h := h
  funding _ input funding h := h.funding input funding
  settled _ _ h := h
  restart _ _ _ h := h

/-- In every reachable state the risk states are those of the positions. -/
theorem reachable_risk_consistent (config : EngineRuntimeConfig) (steps : List RuntimeStep) :
    RiskConsistent ((EngineRuntime.new config).run steps).2.markPrices
      ((EngineRuntime.new config).run steps).2.ledger := by
  obtain ⟨-, hrun, -⟩ := riskRule.run (positive_new config) steps fun _ _ => trivial
  refine hrun fun key => ?_
  have hposition : (EngineRuntime.new config).ledger.positions[key]? = none :=
    Std.ExtTreeMap.getElem?_empty
  have hrisk : (EngineRuntime.new config).ledger.riskStates[key]? = none :=
    Std.ExtTreeMap.getElem?_empty
  rw [hposition, hrisk]
  exact .none

end Rules
end PerpexEngine
