import PerpexEngine.Runtime.OrderlyRuns
import PerpexEngine.Runtime.RiskStates

/-! The positions of a market as the runtime lists them: one for each user, and no net size. -/
namespace PerpexEngine

/-- Every position is filed under its own user and market. -/
def Ledger.Filed (ledger : Ledger) : Prop :=
  ∀ (key : PositionRiskKey) position, ledger.positions[key]? = some position →
    position.userId = key.userId ∧ position.marketId = key.marketId

theorem reachable_filed (config : EngineRuntimeConfig) (steps : List RuntimeStep) :
    ((EngineRuntime.new config).run steps).2.ledger.Filed := by
  intro key position hposition
  have hrel := reachable_risk_consistent config steps key
  rw [hposition] at hrel
  generalize ((EngineRuntime.new config).run steps).2.ledger.riskStates[key]? = risk at hrel
  cases hrel with
  | some hagrees => exact ⟨hagrees.userId, hagrees.marketId⟩

/-- The positions of a market, in the order of the map. -/
def Ledger.positionsIn (ledger : Ledger) (marketId : MarketId) : List IsolatedPositionState :=
  (ledger.positions.toList.map (·.2)).filter (·.marketId = marketId)

section Positions
variable {ledger : Ledger} {marketId : MarketId}

theorem mem_positionsIn (hfiled : ledger.Filed) {position : IsolatedPositionState} :
    position ∈ ledger.positionsIn marketId ↔ position.marketId = marketId ∧
      ledger.positions[(⟨position.userId, marketId⟩ : PositionRiskKey)]? = some position := by
  unfold Ledger.positionsIn
  rw [List.mem_filter, List.mem_map, decide_eq_true_eq]
  constructor
  · rintro ⟨⟨⟨key, _⟩, hentry, rfl⟩, hmarket⟩
    have hposition := Std.ExtTreeMap.mem_toList_iff_getElem?_eq_some.1 hentry
    obtain ⟨huser, hkey⟩ := hfiled key _ hposition
    cases key
    cases huser
    cases hkey
    exact ⟨hmarket, hmarket ▸ hposition⟩
  · rintro ⟨hmarket, hposition⟩
    exact ⟨⟨_, Std.ExtTreeMap.mem_toList_iff_getElem?_eq_some.2 hposition, rfl⟩, hmarket⟩

theorem nodup_positionsIn (hfiled : ledger.Filed) :
    ((ledger.positionsIn marketId).map (·.userId)).Nodup := by
  have hdistinct : ledger.positions.toList.Pairwise fun a b => ¬compare a.1 b.1 = .eq :=
    Std.ExtTreeMap.distinct_keys_toList
  unfold Ledger.positionsIn
  rw [List.Nodup, List.pairwise_map, List.pairwise_filter, List.pairwise_map]
  refine hdistinct.imp_of_mem fun {a b} ha hb hne hmarket hmarket' hsame => hne ?_
  obtain ⟨huser, hkey⟩ :=
    hfiled a.1 a.2 (Std.ExtTreeMap.mem_toList_iff_getElem?_eq_some.1 ha)
  obtain ⟨huser', hkey'⟩ :=
    hfiled b.1 b.2 (Std.ExtTreeMap.mem_toList_iff_getElem?_eq_some.1 hb)
  rw [decide_eq_true_eq] at hmarket hmarket'
  rw [Std.LawfulEqCmp.compare_eq_iff_eq]
  cases ha' : a.1
  cases hb' : b.1
  rw [ha'] at huser hkey
  rw [hb'] at huser' hkey'
  rw [PositionRiskKey.mk.injEq]
  exact ⟨huser.symm.trans (hsame.trans huser'), hkey.symm.trans (hmarket.trans
    (hmarket'.symm.trans hkey'))⟩

/-- What is balanced by key is balanced over the list. -/
theorem Balanced.sum_positionsIn (h : Balanced ledger.signed) (hfiled : ledger.Filed)
    (marketId : MarketId) :
    ((ledger.positionsIn marketId).map (·.signedQuantity)).sum = 0 := by
  have hsigned : ∀ position ∈ ledger.positionsIn marketId,
      ledger.signed ⟨position.userId, marketId⟩ = position.signedQuantity := by
    intro position hposition
    unfold Ledger.signed signedAt
    rw [((mem_positionsIn hfiled).1 hposition).2]
  have hlisted : (ledger.positionsIn marketId).map (·.signedQuantity) =
      ((ledger.positionsIn marketId).map (·.userId)).map fun user =>
        ledger.signed ⟨user, marketId⟩ := by
    rw [List.map_map]
    exact List.map_congr_left fun position hposition => (hsigned position hposition).symm
  rw [hlisted, ← List.sum_toFinset _ (nodup_positionsIn hfiled)]
  apply h
  intro user hopen
  unfold Ledger.signed signedAt at hopen
  split at hopen
  · exact absurd rfl hopen
  · rename_i position hposition
    obtain ⟨huser, hmarket⟩ := hfiled _ _ hposition
    cases huser
    rw [List.mem_toFinset]
    exact List.mem_map_of_mem ((mem_positionsIn hfiled).2 ⟨hmarket, hposition⟩)

end Positions

/-- Whatever is traded, liquidated, deleveraged and restored: the positions of every market add up
to nothing. -/
theorem positions_add_up_to_zero (config : EngineRuntimeConfig) (steps : List RuntimeStep)
    (marketId : MarketId) :
    (((((EngineRuntime.new config).run steps).2.ledger.positionsIn marketId).map
      (·.signedQuantity)).sum = 0) :=
  (reachable_accounted config steps).balanced.sum_positionsIn (reachable_filed config steps) marketId

end PerpexEngine
