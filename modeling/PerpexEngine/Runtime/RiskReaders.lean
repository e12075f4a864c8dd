import PerpexEngine.Runtime.EventReaders
import PerpexEngine.Runtime.FundingPayments

/-! Mark prices and settlements tell what they do to risk states, so that a reader of a whole run
knows the ledger and can account for its money. -/
namespace PerpexEngine
open Program

section Tellings

/-- What updates of these risk states tell. -/
def riskTellings (riskStates : Std.ExtTreeMap PositionRiskKey IsolatedRiskState)
    (keys : List PositionRiskKey) : List (MarketId × EventPayload) :=
  keys.filterMap fun key =>
    (riskStates[key]?).map fun risk => (risk.marketId, .riskStateUpdated risk)

theorem ensures_makeRuntimeMarketEvent_told (record : InboundEngineRecord)
    (inputId requestId : Option Text) (marketId : MarketId) (payload : EventPayload)
    (ledger : Ledger) : Ensures (makeRuntimeMarketEvent record inputId requestId marketId payload)
      ledger (fun r ledger' => r.events.map (·.told) = [(marketId, payload)] ∧
        ledger.SameRisk ledger') fun ledger' => ledger.SameRisk ledger' := by
  unfold makeRuntimeMarketEvent
  rw [ensures_map]
  refine (ensures_makeMarketEvent_told _ _ _ _ _).mono ?_ fun _ h => h
  rintro e _ ⟨htold, hsame⟩
  exact ⟨congrArg (fun t => [t]) htold, hsame⟩

theorem ensures_appendRiskUpdates_told (record : InboundEngineRecord) (inputId : Option Text)
    (keys : List PositionRiskKey) (ledger : Ledger) :
    Ensures (appendRiskUpdates record inputId keys) ledger
      (fun r ledger' => r.events.map (·.told) = riskTellings ledger.riskStates keys ∧
        ledger.SameRisk ledger') fun ledger' => ledger.SameRisk ledger' := by
  induction keys generalizing ledger with
  | nil => exact ⟨rfl, .refl _⟩
  | cons key keys ih =>
    unfold appendRiskUpdates
    rw [ensures_bind, ensures_get]
    split
    · exact .refl _
    · rename_i risk hrisk
      apply ensures_bind.2
      refine (ensures_makeRuntimeMarketEvent_told _ _ _ _ _ _).mono ?_ fun _ h => h
      rintro first l ⟨hfirst, hsame⟩
      apply ensures_bind.2
      refine (ih l).mono ?_ fun _ h => hsame.trans h
      rintro rest l' ⟨hrest, hsame'⟩
      rw [ensures_pure, EngineProcessResult.events_append, List.map_append, hfirst, hrest,
        hsame.riskStates]
      refine ⟨?_, hsame.trans hsame'⟩
      unfold riskTellings
      rw [List.filterMap_cons, hrisk]
      rfl

end Tellings
section Rounds
variable {reader : EventReader} {ledger : Ledger}
  {riskOf : IsolatedPositionState → Option IsolatedRiskState → Option IsolatedRiskState}

theorem Ledger.Filed.entry (h : ledger.Filed) {entry : PositionRiskKey × IsolatedPositionState}
    (hmem : entry ∈ ledger.positions.toList) :
    entry.2.userId = entry.1.userId ∧ entry.2.marketId = entry.1.marketId :=
  h entry.1 entry.2 (Std.ExtTreeMap.mem_toList_iff_getElem?_eq_some.1 hmem)

theorem Ledger.nodup_positions (ledger : Ledger) :
    (ledger.positions.toList.map Prod.fst).Nodup := by
  rw [Std.ExtTreeMap.map_fst_toList_eq_keys]
  exact Std.ExtTreeMap.nodup_keys

/-- The key a risk state is told under. -/
def IsolatedRiskState.key (risk : IsolatedRiskState) : PositionRiskKey :=
  ⟨risk.userId, risk.marketId⟩

/-- A reader of risk states has those of the keys that were told, and else what it had. -/
theorem EventReader.tells_risks {risks : Std.ExtTreeMap PositionRiskKey IsolatedRiskState}
    {keys : List PositionRiskKey}
    (hkeys : ∀ key ∈ keys, ∃ risk : IsolatedRiskState, risks[key]? = some risk ∧ risk.key = key)
    (reader : EventReader) : ∃ told : Std.ExtTreeMap PositionRiskKey IsolatedRiskState,
      reader.tells (riskTellings risks keys) = { reader with riskStates := told } ∧
        ∀ key : PositionRiskKey, told[key]? =
          if key ∈ keys then (risks[key]?).map IsolatedRiskState.untimed
          else reader.riskStates[key]? := by
  induction keys generalizing reader with
  | nil => exact ⟨reader.riskStates, rfl, fun _ => rfl⟩
  | cons first keys ih =>
    obtain ⟨risk, hrisk, hkey⟩ := hkeys first List.mem_cons_self
    obtain ⟨told, htold, hlookup⟩ := ih (fun key h => hkeys key (List.mem_cons_of_mem _ h))
      (reader.tell risk.marketId (.riskStateUpdated risk))
    refine ⟨told, ?_, fun key => ?_⟩
    · unfold riskTellings
      rw [List.filterMap_cons, hrisk]
      exact htold
    · rw [hlookup]
      by_cases hmem : key ∈ keys
      · simp [hmem]
      · have hinsert : (reader.tell risk.marketId (.riskStateUpdated risk)).riskStates =
            reader.riskStates.insert first risk.untimed := hkey ▸ rfl
        rw [hinsert, Std.ExtTreeMap.getElem?_insert]
        simp only [hmem, ↓reduceIte, List.mem_cons, or_false, Std.LawfulEqCmp.compare_eq_iff_eq]
        by_cases hsame : first = key
        · subst hsame
          simp [hrisk]
        · simp [hsame, Ne.symm hsame]

/-- A round leaves alone what it does not list. -/
theorem updateRiskStates_unlisted {entries : List (PositionRiskKey × IsolatedPositionState)}
    {key : PositionRiskKey} (h : key ∉ (updateRiskStates riskOf ledger entries).2) :
    (updateRiskStates riskOf ledger entries).1.riskStates[key]? = ledger.riskStates[key]? := by
  induction entries generalizing ledger with
  | nil => rfl
  | cons entry entries ih =>
    unfold updateRiskStates at h ⊢
    split at h
    · exact ih h
    · obtain ⟨hne, hrest⟩ := not_or.1 (mt List.mem_cons.2 h)
      refine (ih hrest).trans ?_
      rw [Std.ExtTreeMap.getElem?_insert,
        if_neg fun heq => hne (Std.LawfulEqCmp.compare_eq_iff_eq.1 heq).symm]

/-- What a round lists is there, under its own key. -/
theorem updateRiskStates_listed {entries : List (PositionRiskKey × IsolatedPositionState)}
    (hof : ∀ entry ∈ entries, ∀ previous risk,
      riskOf entry.2 previous = some risk → risk.key = entry.1)
    {key : PositionRiskKey} (h : key ∈ (updateRiskStates riskOf ledger entries).2) :
    ∃ risk, (updateRiskStates riskOf ledger entries).1.riskStates[key]? = some risk ∧
      risk.key = key := by
  induction entries generalizing ledger with
  | nil => exact absurd h List.not_mem_nil
  | cons entry entries ih =>
    have hrest := fun e (he : e ∈ entries) => hof e (List.mem_cons_of_mem _ he)
    unfold updateRiskStates at h ⊢
    split at h
    · exact ih hrest h
    · rename_i risk hrisk
      by_cases hlater : key ∈ (updateRiskStates riskOf
          { ledger with riskStates := ledger.riskStates.insert entry.1 risk } entries).2
      · exact ih hrest hlater
      · have hkey : key = entry.1 := (List.mem_cons.1 h).resolve_right hlater
        subst hkey
        refine ⟨risk, (updateRiskStates_unlisted hlater).trans ?_,
          hof entry List.mem_cons_self _ _ hrisk⟩
        exact Std.ExtTreeMap.getElem?_insert_self

/-- A round over all positions, told with the funding it takes into account. -/
theorem EventReader.Shows.round (h : reader.Shows ledger) (hfiled : ledger.Filed)
    (hof : ∀ position previous risk, riskOf position previous = some risk →
      risk.userId = position.userId ∧ risk.marketId = position.marketId)
    (amount : IsolatedPositionState → ℤ)
    (hsome : ∀ position previous risk, riskOf position previous = some risk →
      adjustmentOf (some risk) = adjustmentOf previous + amount position)
    (hnone : ∀ position previous, riskOf position previous = none → amount position = 0)
    (funded : PositionRiskKey → ℤ) (hfunded : ∀ key, funded key = reader.funded key +
      ((ledger.positions[key]?).map amount).getD 0) :
    (EventReader.tells { reader with funded := funded } (riskTellings
      (updateRiskStates riskOf ledger ledger.positions.toList).1.riskStates
      (updateRiskStates riskOf ledger ledger.positions.toList).2)).Shows
        (updateRiskStates riskOf ledger ledger.positions.toList).1 := by
  have hlisted := fun key => @updateRiskStates_listed ledger riskOf ledger.positions.toList
    (fun entry hentry previous risk hrisk => by
      obtain ⟨huser, hmarket⟩ := hof _ _ _ hrisk
      obtain ⟨huser', hmarket'⟩ := hfiled.entry hentry
      unfold IsolatedRiskState.key
      rw [huser, huser', hmarket, hmarket']) key
  have hunlisted := fun key => @updateRiskStates_unlisted ledger riskOf ledger.positions.toList key
  have hat := fun key position hmem =>
    @updateRiskStates_at riskOf key ledger.positions.toList ledger ledger.nodup_positions
      position hmem
  have hother := fun key =>
    @updateRiskStates_other riskOf key ledger.positions.toList ledger
  have hpositions := congrArg Ledger.positions
    (updateRiskStates_eq riskOf ledger ledger.positions.toList)
  dsimp only at hpositions
  generalize updateRiskStates riskOf ledger ledger.positions.toList = round at *
  obtain ⟨told, htold, hlookup⟩ := EventReader.tells_risks hlisted { reader with funded := funded }
  rw [htold]
  have hvalue : round.1.entryValue = ledger.entryValue := by
    unfold Ledger.entryValue
    rw [hpositions]
  refine ⟨hpositions ▸ h.positions, fun key => ?_, fun key => ?_, hvalue ▸ h.profit⟩
  · dsimp only
    rw [hlookup]
    by_cases hmem : key ∈ round.2
    · rw [if_pos hmem]
    · rw [if_neg hmem, hunlisted key hmem]
      exact h.riskStates key
  · have hbefore := h.funded key
    dsimp only
    rw [hfunded, hbefore]
    cases hposition : ledger.positions[key]? with
    | none =>
      rw [hother key, Option.map_none, Option.getD_none, add_zero]
      rintro ⟨_, position⟩ hmem rfl
      rw [Std.ExtTreeMap.mem_toList_iff_getElem?_eq_some, hposition] at hmem
      cases hmem
    | some position =>
      rw [hat key position (Std.ExtTreeMap.mem_toList_iff_getElem?_eq_some.2 hposition)]
      cases hrisk : riskOf position ledger.riskStates[key]? with
      | none => simp [hnone _ _ hrisk]
      | some risk => simp [hsome _ _ _ hrisk]

/-- A new risk state keeps the adjustment of the one before. -/
theorem adjustmentOf_riskFromPosition (position : IsolatedPositionState) (markPrice : AdapterPrice)
    (updatedAtMs : ℤ) (previous : Option IsolatedRiskState) :
    adjustmentOf (some (riskFromPosition position markPrice updatedAtMs previous)) =
      adjustmentOf previous := by
  unfold riskFromPosition adjustmentOf
  cases previous <;> simp

theorem markRiskOf_eq_some {input : MarkPriceUpdatedInput} {position : IsolatedPositionState}
    {previous : Option IsolatedRiskState} {risk : IsolatedRiskState}
    (h : markRiskOf input position previous = some risk) :
    risk = riskFromPosition position input.markPrice input.publishedAtMs previous := by
  unfold markRiskOf at h
  split_ifs at h
  exact (Option.some.inj h).symm

/-- A mark price tells the risk states that it redoes. -/
theorem tells_appendMarkPriceRiskUpdates (record : InboundEngineRecord)
    (input : MarkPriceUpdatedInput) :
    Emits id (·.events) Ledger.Tells (appendMarkPriceRiskUpdates record input) := by
  intro ledger
  unfold EmitsFrom appendMarkPriceRiskUpdates
  rw [ensures_bind, ensures_get]
  have htold : ledger.Told (riskTellings
      (updateRiskStates (markRiskOf input) ledger ledger.positions.toList).1.riskStates
      (updateRiskStates (markRiskOf input) ledger ledger.positions.toList).2)
      (updateRiskStates (markRiskOf input) ledger ledger.positions.toList).1 := by
    intro hfiled
    refine ⟨?_, fun reader h => ?_⟩
    · rw [updateRiskStates_eq]
      exact hfiled
    · refine h.round hfiled (fun position previous risk hrisk => ?_) (fun _ => 0)
        (fun position previous risk hrisk => ?_) (fun _ _ _ => rfl) reader.funded fun key => ?_
      · rw [markRiskOf_eq_some hrisk]
        exact ⟨rfl, rfl⟩
      · rw [markRiskOf_eq_some hrisk, adjustmentOf_riskFromPosition, add_zero]
      · cases ledger.positions[key]? <;> simp
  generalize updateRiskStates (markRiskOf input) ledger ledger.positions.toList = round at htold ⊢
  apply ensures_bind.2
  refine (ensures_appendRiskUpdates_told record input.inputId round.2 round.1).mono ?_ ?_
  · rintro r l ⟨hr, hsame⟩
    unfold Ledger.Tells
    rw [hr]
    exact htold.congr hsame
  · exact fun l hsame => (htold.congr hsame).exists_tells (sourceFields record input.inputId)

section Funding
variable {input : FundingSettlementTickInput} {funding : FundingRateState} {markPrices : MarkPrices}

/-- The amount due to a position, nothing where none is. -/
def dueAmount (input : FundingSettlementTickInput) (funding : FundingRateState)
    (markPrices : MarkPrices) (position : IsolatedPositionState) : ℤ :=
  (fundingDue input funding markPrices position).getD 0

theorem dueAmount_of_market {position : IsolatedPositionState}
    (h : position.marketId ≠ input.marketId) : dueAmount input funding markPrices position = 0 := by
  unfold dueAmount fundingDue
  rw [if_pos (Or.inl h)]
  rfl

/-- One more position in the list of those that are paid. -/
theorem paidTo_cons {userId : AdapterUserId} {entry : PositionRiskKey × IsolatedPositionState}
    (hfiled : entry.2.userId = entry.1.userId ∧ entry.2.marketId = entry.1.marketId)
    (entries : List (PositionRiskKey × IsolatedPositionState)) :
    paidTo userId ((entry :: entries).filterMap fun e =>
        fundingPayment input funding markPrices e.2) =
      (if entry.1 = ⟨userId, input.marketId⟩ then dueAmount input funding markPrices entry.2
        else 0) +
        paidTo userId (entries.filterMap fun e => fundingPayment input funding markPrices e.2) := by
  obtain ⟨⟨user, market⟩, position⟩ := entry
  obtain ⟨huser, hmarket⟩ := hfiled
  dsimp only at huser hmarket
  cases hpayment : fundingDue input funding markPrices position with
  | none =>
    have hnone : fundingPayment input funding markPrices position = none := by
      unfold fundingPayment
      rw [hpayment]
      rfl
    have hamount : dueAmount input funding markPrices position = 0 := by
      unfold dueAmount
      rw [hpayment]
      rfl
    simp only [List.filterMap_cons, hnone, hamount, ite_self, zero_add]
  | some amount =>
    have hsame : market = input.marketId := by
      by_contra hne
      unfold fundingDue at hpayment
      rw [if_pos (Or.inl (hmarket ▸ hne))] at hpayment
      cases hpayment
    have hamount : dueAmount input funding markPrices position = amount := by
      unfold dueAmount
      rw [hpayment]
      rfl
    have hsome : fundingPayment input funding markPrices position = some
        ⟨user, positionIdText position.userId position.marketId,
          positionSide position.signedQuantity, assetOr position.marginAsset, amount⟩ := by
      unfold fundingPayment
      rw [hpayment, ← huser]
      rfl
    simp only [List.filterMap_cons, hsome, hamount]
    unfold paidTo
    by_cases huserId : user = userId
    · simp [huserId, hsame]
    · simp [huserId]

theorem paidTo_other {userId : AdapterUserId}
    {entries : List (PositionRiskKey × IsolatedPositionState)}
    (hfiled : ∀ e ∈ entries, e.2.userId = e.1.userId ∧ e.2.marketId = e.1.marketId)
    (h : ∀ e ∈ entries, e.1 ≠ ⟨userId, input.marketId⟩) :
    paidTo userId (entries.filterMap fun e => fundingPayment input funding markPrices e.2) = 0 := by
  induction entries with
  | nil => rfl
  | cons entry entries ih =>
    rw [paidTo_cons (hfiled entry List.mem_cons_self), if_neg (h entry List.mem_cons_self),
      zero_add]
    exact ih (fun e he => hfiled e (List.mem_cons_of_mem _ he))
      fun e he => h e (List.mem_cons_of_mem _ he)

theorem paidTo_at {userId : AdapterUserId}
    {entries : List (PositionRiskKey × IsolatedPositionState)}
    (hfiled : ∀ e ∈ entries, e.2.userId = e.1.userId ∧ e.2.marketId = e.1.marketId)
    (hdistinct : (entries.map Prod.fst).Nodup) {position : IsolatedPositionState}
    (h : (⟨userId, input.marketId⟩, position) ∈ entries) :
    paidTo userId (entries.filterMap fun e => fundingPayment input funding markPrices e.2) =
      dueAmount input funding markPrices position := by
  induction entries with
  | nil => cases h
  | cons entry entries ih =>
    rw [List.map_cons, List.nodup_cons] at hdistinct
    have hrest := fun e (he : e ∈ entries) => hfiled e (List.mem_cons_of_mem _ he)
    rw [paidTo_cons (hfiled entry List.mem_cons_self)]
    rcases List.mem_cons.1 h with rfl | h
    · rw [if_pos rfl, paidTo_other hrest fun e he heq =>
        hdistinct.1 (List.mem_map.2 ⟨e, he, heq⟩), add_zero]
    · rw [if_neg fun heq => hdistinct.1 (List.mem_map.2 ⟨_, h, heq.symm⟩), zero_add]
      exact ih hrest hdistinct.2 h

/-- Each key of the market is paid what is due to its position. -/
theorem paidTo_positions (hfiled : ledger.Filed) (key : PositionRiskKey) :
    (if key.marketId = input.marketId then paidTo key.userId (ledger.positions.toList.filterMap
        fun e => fundingPayment input funding markPrices e.2) else 0) =
      ((ledger.positions[key]?).map (dueAmount input funding markPrices)).getD 0 := by
  obtain ⟨user, market⟩ := key
  have hentries : ∀ e ∈ ledger.positions.toList,
      e.2.userId = e.1.userId ∧ e.2.marketId = e.1.marketId := fun _ => hfiled.entry
  dsimp only
  split_ifs with hmarket
  · subst hmarket
    cases hposition : ledger.positions[(⟨user, input.marketId⟩ : PositionRiskKey)]? with
    | none =>
      rw [paidTo_other hentries]
      · rfl
      · rintro ⟨_, position⟩ hmem rfl
        rw [Std.ExtTreeMap.mem_toList_iff_getElem?_eq_some, hposition] at hmem
        cases hmem
    | some position =>
      rw [paidTo_at hentries ledger.nodup_positions
        (Std.ExtTreeMap.mem_toList_iff_getElem?_eq_some.2 hposition)]
      rfl
  · cases hposition : ledger.positions[(⟨user, market⟩ : PositionRiskKey)]? with
    | none => rfl
    | some position =>
      have hother : position.marketId ≠ input.marketId := (hfiled _ _ hposition).2 ▸ hmarket
      exact (dueAmount_of_market hother).symm

theorem fundingRiskOf_eq_some {position : IsolatedPositionState}
    {previous : Option IsolatedRiskState} {risk : IsolatedRiskState}
    (h : fundingRiskOf input funding markPrices position previous = some risk) :
    (risk.userId = position.userId ∧ risk.marketId = position.marketId) ∧
      adjustmentOf (some risk) =
        adjustmentOf previous + dueAmount input funding markPrices position := by
  unfold fundingRiskOf at h
  rw [Option.map_eq_some_iff] at h
  obtain ⟨amount, hamount, rfl⟩ := h
  refine ⟨⟨rfl, rfl⟩, ?_⟩
  have hadjusted := adjustmentOf_riskFromPosition position
    (settlementMarkPriceFor position markPrices) input.settleAtMs previous
  unfold dueAmount
  rw [hamount, ← hadjusted]
  unfold adjustmentOf
  dsimp only
  rw [Option.getD_some]
  ring

/-- A settlement tells its payments, then the risk states that they move. -/
theorem tells_applyFundingPayments (record : InboundEngineRecord)
    (input : FundingSettlementTickInput) (funding : FundingRateState) (markPrices : MarkPrices) :
    Emits id (·.events) Ledger.Tells (applyFundingPayments record input funding markPrices) := by
  intro ledger
  unfold EmitsFrom applyFundingPayments
  rw [ensures_bind, ensures_get]
  dsimp only
  have htold : ledger.Told ((input.marketId, .fundingPaymentApplied input.fundingIntervalId
        (ledger.positions.toList.filterMap fun e => fundingPayment input funding markPrices e.2)) ::
      riskTellings
        (updateRiskStates (fundingRiskOf input funding markPrices) ledger
          ledger.positions.toList).1.riskStates
        (updateRiskStates (fundingRiskOf input funding markPrices) ledger
          ledger.positions.toList).2)
      (updateRiskStates (fundingRiskOf input funding markPrices) ledger
        ledger.positions.toList).1 := by
    intro hfiled
    refine ⟨?_, fun reader h => ?_⟩
    · rw [updateRiskStates_eq]
      exact hfiled
    · refine h.round hfiled (fun _ _ _ hrisk => (fundingRiskOf_eq_some hrisk).1)
        (dueAmount input funding markPrices) (fun _ _ _ hrisk => (fundingRiskOf_eq_some hrisk).2)
          (fun position previous hrisk => ?_) _ fun key => ?_
      · unfold fundingRiskOf at hrisk
        unfold dueAmount
        rw [Option.map_eq_none_iff.1 hrisk]
        rfl
      · rw [paidTo_positions hfiled]
  generalize updateRiskStates (fundingRiskOf input funding markPrices) ledger
    ledger.positions.toList = round at htold ⊢
  have hlost : ∀ l, round.1.SameRisk l → ∃ events, ledger.Tells events l := fun l hsame =>
    (htold.congr hsame).exists_tells (sourceFields record input.inputId)
  rw [ensures_bind, ensures_set]
  apply ensures_bind.2
  refine (ensures_makeRuntimeMarketEvent_told record _ _ _ _ round.1).mono (fun a l ha => ?_) hlost
  apply ensures_bind.2
  refine (ensures_appendRiskUpdates_told record input.inputId round.2 l).mono ?_
    fun l' h => hlost l' (ha.2.trans h)
  rintro b l' ⟨hb, hsame⟩
  have htellings : ((a ++ b).events.map (·.told)) = (input.marketId,
      .fundingPaymentApplied input.fundingIntervalId (ledger.positions.toList.filterMap
        fun e => fundingPayment input funding markPrices e.2)) ::
          riskTellings round.1.riskStates round.2 := by
    rw [EngineProcessResult.events_append, List.map_append, ha.1, hb, ha.2.riskStates]
    rfl
  rw [ensures_pure]
  unfold Ledger.Tells
  rw [htellings]
  exact htold.congr (ha.2.trans hsame)

end Funding
end Rounds
section Runs

theorem tellsFillRule (markPrices : MarkPrices) : FillRule markPrices Ledger.Tells where
  toTraceRule := tellsRule
  event l _ _ h := .event l h
  clock _ := .of_eq rfl rfl
  metadata _ _ _ := .of_eq rfl rfl
  leg context trade timestampMs orderId :=
    tells_appendFillLeg context markPrices trade timestampMs orderId

theorem tellsExecutionRule : ExecutionRule fun rt events rt' =>
    rt.ledger.Tells events rt'.ledger where
  nothing rt := tellsRule.nothing rt.ledger
  append h h' := tellsRule.append h h'
  core _ _ := tellsRule.nothing _
  ledger rt := tellsFillRule rt.markPrices

theorem tellsInputRule : InputRule fun rt events rt' => rt.ledger.Tells events rt'.ledger where
  toOperationRule := tellsExecutionRule.operations
  inputId rt inputId _ := by
    cases inputId <;> exact tellsRule.nothing rt.ledger
  idempotencyKey rt _ _ := tellsRule.nothing rt.ledger
  markPrice record input rt := by
    unfold withLedger
    rw [ensures_zoom]
    exact tells_appendMarkPriceRiskUpdates record input rt.ledger
  fundingRate rt _ := tellsRule.nothing rt.ledger
  funding record input funding rt :=
    emits_withLedger rt (tells_applyFundingPayments record input funding rt.markPrices)
  settled rt _ := tellsRule.nothing rt.ledger

theorem filed_new (config : EngineRuntimeConfig) : (EngineRuntime.new config).ledger.Filed := by
  intro key position hposition
  cases Std.ExtTreeMap.getElem?_empty.symm.trans hposition

/-- A reader of all events of a run. -/
def readerOf (outcomes : List EngineRuntime.Outcome) : EventReader :=
  EventReader.new.reads (eventsOf outcomes)

/-- A run that was all live and in which nothing threw has told a reader all it did. -/
theorem shows_run (config : EngineRuntimeConfig) (steps : List RuntimeStep)
    (hlive : ∀ s ∈ steps, s.Live)
    (hok : ∀ o ∈ ((EngineRuntime.new config).run steps).1, ∃ result, o = .ok result) :
    (readerOf ((EngineRuntime.new config).run steps).1).Shows
      ((EngineRuntime.new config).run steps).2.ledger := by
  have hrestart : ∀ (rt : EngineRuntime) (restarted : EngineRuntimeConfig), True →
      rt.ledger.Tells [] (rt.restarted restarted).ledger := fun _ _ _ => .of_eq rfl rfl
  obtain ⟨events, htells, hevents⟩ := tellsInputRule.run hrestart (positive_new config) steps
    fun _ _ => trivial
  obtain ⟨-, hshows⟩ := htells (filed_new config)
  unfold readerOf
  rw [← hevents hlive hok]
  exact hshows _ (.new config)

variable (config : EngineRuntimeConfig) (steps : List RuntimeStep) (hlive : ∀ s ∈ steps, s.Live)
  (hok : ∀ o ∈ ((EngineRuntime.new config).run steps).1, ∃ result, o = .ok result)
  (key : PositionRiskKey)
include hlive hok

/-- The events alone tell the positions and risk states of the engine, up to their times. -/
theorem readers_know_positions_and_risks :
    (readerOf ((EngineRuntime.new config).run steps).1).positions[key]? =
        (((EngineRuntime.new config).run steps).2.ledger.positions[key]?).map (·.untimed) ∧
      (readerOf ((EngineRuntime.new config).run steps).1).riskStates[key]? =
        (((EngineRuntime.new config).run steps).2.ledger.riskStates[key]?).map (·.untimed) := by
  have hshows := shows_run config steps hlive hok
  exact ⟨hshows.positions key, hshows.riskStates key⟩

/-- Account deltas come to what the fills of a user paid out, less what is still in the position,
and to what divisions of the average price cut off. -/
theorem credits_account_for_every_fill :
    Posting.balance (readerOf ((EngineRuntime.new config).run steps).1).credits key =
      ((EngineRuntime.new config).run steps).2.ledger.entryValue key -
        Posting.balance (readerOf ((EngineRuntime.new config).run steps).1).costs key +
          Posting.balance (readerOf ((EngineRuntime.new config).run steps).1).cuts key := by
  have hprofit := (shows_run config steps hlive hok).profit key
  linarith

/-- Equity is margin, unrealized profit and the funding told since the last fill of the user in the
market: a fill drops what was paid before it. -/
theorem equity_is_margin_profit_and_funding {risk : IsolatedRiskState}
    (hrisk : ((EngineRuntime.new config).run steps).2.ledger.riskStates[key]? = some risk) :
    risk.equity = risk.isolatedMargin + risk.unrealizedPnl +
      (readerOf ((EngineRuntime.new config).run steps).1).funded key := by
  have hfunded := (shows_run config steps hlive hok).funded key
  rw [hrisk] at hfunded
  unfold adjustmentOf at hfunded
  dsimp only at hfunded
  rw [hfunded]
  ring

end Runs
section Samples

/-- A close at a profit, an addition whose average is cut off, then a settlement. -/
def sampleToldSteps : List RuntimeStep :=
  sampleUnevenSteps ++ [samplePlace 7 11 .short 105 5, samplePlace 8 14 .long 105 5,
    samplePlace 9 12 .long 101 3, samplePlace 10 13 .short 101 3, sampleFundingTick 11]

theorem readers_know_positions_and_risks_sample :
    ((readerOf ((EngineRuntime.new sampleRuntimeConfig).run sampleToldSteps).1).positions[
        (⟨13, 1⟩ : PositionRiskKey)]?).map (·.signedQuantity) = some (-23) ∧
      ((readerOf ((EngineRuntime.new sampleRuntimeConfig).run sampleToldSteps).1).riskStates[
        (⟨13, 1⟩ : PositionRiskKey)]?).map (·.signedQuantity) = some (-23) := by
  obtain ⟨hposition, hrisk⟩ := readers_know_positions_and_risks sampleRuntimeConfig sampleToldSteps
    (by decide) (by decide +kernel) ⟨13, 1⟩
  rw [hposition, hrisk]
  exact ⟨by decide +kernel, by decide +kernel⟩

theorem credits_account_for_every_fill_sample :
    Posting.balance (readerOf ((EngineRuntime.new sampleRuntimeConfig).run
      sampleToldSteps).1).credits ⟨11, 1⟩ = 25 := by
  rw [credits_account_for_every_fill sampleRuntimeConfig sampleToldSteps (by decide)
    (by decide +kernel) ⟨11, 1⟩]
  decide +kernel

theorem equity_is_margin_profit_and_funding_sample : ∃ risk : IsolatedRiskState,
    ((EngineRuntime.new sampleRuntimeConfig).run sampleToldSteps).2.ledger.riskStates[
      (⟨13, 1⟩ : PositionRiskKey)]? = some risk ∧
        risk.equity = risk.isolatedMargin + risk.unrealizedPnl + 1 := by
  have hthere : ∃ risk, ((EngineRuntime.new sampleRuntimeConfig).run
      sampleToldSteps).2.ledger.riskStates[(⟨13, 1⟩ : PositionRiskKey)]? = some risk :=
    Option.isSome_iff_exists.1 (by decide +kernel)
  obtain ⟨risk, hrisk⟩ := hthere
  have hequity := equity_is_margin_profit_and_funding sampleRuntimeConfig sampleToldSteps
    (by decide) (by decide +kernel) ⟨13, 1⟩ hrisk
  have hpaid : (readerOf ((EngineRuntime.new sampleRuntimeConfig).run
      sampleToldSteps).1).funded ⟨13, 1⟩ = 1 := by decide +kernel
  rw [hpaid] at hequity
  exact ⟨risk, hrisk, hequity⟩

end Samples
end PerpexEngine
