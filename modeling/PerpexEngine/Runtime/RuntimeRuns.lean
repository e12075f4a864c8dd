import PerpexEngine.Runtime.RuntimeRules

/-! Runs of the runtime: inputs, liquidation scans and restarts from a snapshot in any order. A
step that throws leaves the state it had reached. -/
namespace PerpexEngine
open Program

inductive RuntimeStep where
  | input (record : InboundEngineRecord) (parsed : Except Text EngineInput) (mode : ProcessingMode)
  | evaluate (source : InboundEngineRecord) (mode : ProcessingMode)
  | evaluateMarket (marketId : MarketId) (source : InboundEngineRecord) (mode : ProcessingMode)
  | restart (config : EngineRuntimeConfig)

namespace EngineRuntime

/-- A new runtime that is given the snapshot of this one; ladders that were built once fit again. -/
def restart (config : EngineRuntimeConfig) : RuntimeM Unit := do
  let rt ← get
  set (EngineRuntime.new config)
  restoreState (fun _ => true) rt.snapshotState

/-- The runtime with the state of `rt` on the configuration of a new one. -/
def restarted (rt : EngineRuntime) (config : EngineRuntimeConfig) : EngineRuntime :=
  { rt with
    core := EngineCore.restore rt.core.snapshot
    ledger := { rt.ledger with
      marketSequences := { MarketSequenceGenerator.new config.firstPublicSequence with
        nextByMarket := rt.ledger.marketSequences.nextByMarket }
      clock := ⟨config.clock, 0⟩ }
    firstPublicSequence := config.firstPublicSequence }

end EngineRuntime

namespace RuntimeStep

def program : RuntimeStep → RuntimeM EngineProcessResult
  | input record parsed mode => EngineRuntime.process record parsed mode
  | evaluate source mode =>
    (·.applyProcessingMode mode) <$> evaluateAllAutomaticLiquidations source none
  | evaluateMarket marketId source mode =>
    (·.applyProcessingMode mode) <$> evaluateAutomaticLiquidationsForMarket marketId source none
  | restart config => do
    EngineRuntime.restart config
    pure .new

/-- Nothing is replayed silently. -/
def Live : RuntimeStep → Prop
  | input _ _ mode => mode = .live
  | evaluate _ mode => mode = .live
  | evaluateMarket _ _ mode => mode = .live
  | restart _ => True

instance : DecidablePred Live := fun s => by
  cases s <;> unfold Live <;> infer_instance

end RuntimeStep

namespace EngineRuntime

abbrev Outcome := Except Text EngineProcessResult

instance (o : Outcome) : Decidable (∃ result, o = .ok result) :=
  match o with
  | .ok result => isTrue ⟨result, rfl⟩
  | .error _ => isFalse fun ⟨_, h⟩ => nomatch h

def step (rt : EngineRuntime) (s : RuntimeStep) : Outcome × EngineRuntime := s.program.run.run rt

def run (rt : EngineRuntime) : List RuntimeStep → List Outcome × EngineRuntime
  | [] => ([], rt)
  | s :: steps =>
    let (outcome, rt) := rt.step s
    let (outcomes, rt) := rt.run steps
    (outcome :: outcomes, rt)

theorem run_cons (rt : EngineRuntime) (s : RuntimeStep) (steps : List RuntimeStep) :
    (rt.run (s :: steps)).2 = ((rt.step s).2.run steps).2 := rfl

theorem run_append (rt : EngineRuntime) (steps more : List RuntimeStep) :
    rt.run (steps ++ more) =
      ((rt.run steps).1 ++ ((rt.run steps).2.run more).1, ((rt.run steps).2.run more).2) := by
  induction steps generalizing rt with
  | nil => rfl
  | cons s steps ih =>
    simp only [List.cons_append, run, ih]

end EngineRuntime

def resultsOf (outcomes : List EngineRuntime.Outcome) : List EngineProcessResult :=
  outcomes.filterMap fun
    | .ok result => some result
    | .error _ => none

/-- All events of the results of a run, in order. -/
def eventsOf (outcomes : List EngineRuntime.Outcome) : List EngineEventRecord :=
  (resultsOf outcomes).flatMap (·.events)

section Sequences

/-- A round of risk updates leaves everything else of the ledger. -/
theorem updateRiskStates_eq (riskOf : IsolatedPositionState → Option IsolatedRiskState →
      Option IsolatedRiskState) (ledger : Ledger)
    (entries : List (PositionRiskKey × IsolatedPositionState)) :
    (updateRiskStates riskOf ledger entries).1 =
      { ledger with riskStates := (updateRiskStates riskOf ledger entries).1.riskStates } := by
  induction entries generalizing ledger with
  | nil => rfl
  | cons entry entries ih =>
    unfold updateRiskStates
    split
    · exact ih ledger
    · exact ih _

/-- A relation that only looks at the numbers of the markets. -/
theorem HandlerRule.ofSequences
    {S : MarketSequenceGenerator → List EngineEventRecord → MarketSequenceGenerator → Prop}
    (rule : TraceRule S)
    (event : ∀ (l : Ledger) e, EngineEventRecord.Next l e →
      S l.marketSequences [e] (l.marketSequences.advance e.marketId)) :
    HandlerRule fun rt events rt' => S rt.ledger.marketSequences events rt'.ledger.marketSequences where
  nothing _ := rule.nothing _
  append h h' := rule.append h h'
  core _ _ := rule.nothing _
  ledger _ :=
    { nothing := fun _ => rule.nothing _
      append := fun h h' => rule.append h h'
      clock := fun _ => rule.nothing _
      event := event
      metadata := fun _ _ _ => rule.nothing _
      fill := fun _ _ _ _ _ => rule.nothing _ }
  inputId _ inputId _ := by
    cases inputId <;> exact rule.nothing _
  idempotencyKey _ _ _ := rule.nothing _
  markPrice rt input := by
    unfold EngineRuntime.afterMarkPrice
    rw [updateRiskStates_eq]
    exact rule.nothing _
  fundingRate _ _ := rule.nothing _
  funding rt input funding := by
    unfold EngineRuntime.afterFunding
    rw [updateRiskStates_eq]
    exact rule.nothing _
  settled _ _ := rule.nothing _

namespace MarketSequenceGenerator

/-- Only positive markets have a next number, and it is positive. -/
structure Positive (g : MarketSequenceGenerator) : Prop where
  first : 0 < g.firstSequence
  next : ∀ (marketId : MarketId) n, g.nextByMarket[marketId]? = some n → 0 < marketId ∧ 0 < n

theorem Positive.new (first : EngineSequence) : (MarketSequenceGenerator.new first).Positive where
  first := by
    unfold MarketSequenceGenerator.new
    split_ifs with h
    · exact Nat.one_pos
    · exact Nat.pos_of_ne_zero h
  next marketId n h := by simp [MarketSequenceGenerator.new] at h

theorem Positive.advance {g : MarketSequenceGenerator} (h : g.Positive) {marketId : MarketId}
    (hm : 0 < marketId) : (g.advance marketId).Positive where
  first := h.first
  next id n hn := by
    simp only [MarketSequenceGenerator.advance, Std.ExtTreeMap.getElem?_insert] at hn
    split_ifs at hn with hid
    · rw [Std.LawfulEqCmp.compare_eq_iff_eq] at hid
      cases hn
      exact ⟨hid ▸ hm, Nat.succ_pos _⟩
    · exact h.next id n hn

end MarketSequenceGenerator

theorem positiveRule : HandlerRule fun rt _ rt' =>
    rt.ledger.marketSequences.Positive → rt'.ledger.marketSequences.Positive :=
  .ofSequences (S := fun g _ g' => g.Positive → g'.Positive)
    ⟨fun _ h => h, fun h h' hp => h' (h hp)⟩ fun _ _ he hp => hp.advance he.market

end Sequences

section Replay

/-- What is left of a result in a silent replay. -/
def EngineProcessResult.silenced (result : EngineProcessResult) : EngineProcessResult :=
  result.applyProcessingMode .replaySilent

theorem silenced_duplicate (reason : EngineDuplicateReason) (key : Text)
    (original : ProcessedRuntimeRequest) : (makeDuplicateResult reason key original).silenced =
      makeDuplicateResult reason key original := rfl

theorem fundingSettlementTick_replaySilent (record : InboundEngineRecord)
    (input : FundingSettlementTickInput) : fundingSettlementTick record input .replaySilent =
      EngineProcessResult.silenced <$> fundingSettlementTick record input .live := by
  unfold fundingSettlementTick
  rw [map_bind]
  congr 1
  funext rt
  split
  · rename_i hdup
    obtain ⟨key, original, rfl⟩ := duplicateInputResultFor_eq hdup
    rw [map_pure, silenced_duplicate]
  · dsimp only
    split_ifs
    · rw [map_bind]
      rfl
    · split
      · rw [map_bind]
        rfl
      · simp only [map_bind]
        rfl

/-- A replayed input does to the state what the live one does, and says nothing. -/
theorem processParsed_replaySilent (record : InboundEngineRecord) (parsed : ParsedEngineInput) :
    EngineRuntime.processParsed record .replaySilent parsed =
      EngineProcessResult.silenced <$> EngineRuntime.processParsed record .live parsed := by
  cases parsed with
  | fundingSettlementTick input => exact fundingSettlementTick_replaySilent record input
  | placeOrder | cancelOrder | liquidatePosition =>
    simp only [EngineRuntime.processParsed, placeOrder, cancelOrder, liquidatePosition, map_bind]
    congr 1
    funext rt
    split
    · rename_i hdup
      obtain ⟨reason, key, original, rfl⟩ := duplicateResultFor_eq hdup
      rw [map_pure, silenced_duplicate]
    · simp only [map_bind]
      rfl
  | markPriceUpdated | fundingRateUpdated =>
    simp only [EngineRuntime.processParsed, markPriceUpdated, fundingRateUpdated, map_bind]
    congr 1
    funext rt
    split
    · rename_i hdup
      obtain ⟨key, original, rfl⟩ := duplicateInputResultFor_eq hdup
      rw [map_pure, silenced_duplicate]
    · simp only [map_bind]
      rfl

theorem process_mode (record : InboundEngineRecord) (parsed : Except Text EngineInput)
    (mode : ProcessingMode) : EngineRuntime.process record parsed mode =
      (·.applyProcessingMode mode) <$> EngineRuntime.process record parsed .live := by
  cases mode with
  | live => exact (id_map _).symm
  | replaySilent =>
    unfold EngineRuntime.process
    simp only [processParsed_replaySilent, map_bind]
    rfl

end Replay

section Restart

theorem ensures_restoreSequences (entries : List (MarketId × EngineSequence)) (l : Ledger)
    (h : ∀ entry ∈ entries, 0 < entry.1 ∧ 0 < entry.2) :
    Ensures (EngineRuntime.restoreSequences entries) l
      (fun _ l' => l' = { l with marketSequences := { l.marketSequences with
        nextByMarket := entries.foldl (fun t e => t.insert e.1 e.2)
          l.marketSequences.nextByMarket } }) fun _ => False := by
  induction entries generalizing l with
  | nil => rfl
  | cons entry entries ih =>
    obtain ⟨hm, hn⟩ := h entry (by simp)
    unfold EngineRuntime.restoreSequences MarketSequenceGenerator.restore
    have hm' : ¬entry.1 ≤ 0 := not_le.2 hm
    have hn' : ¬entry.2 = 0 := hn.ne'
    simp only [hm', hn', ↓reduceIte, ensures_bind, ensures_get, ensures_set]
    exact ih _ fun e he => h e (List.mem_cons_of_mem _ he)

theorem foldl_insert_toList {β : Type} (t : Std.ExtTreeMap ℤ β) :
    t.toList.foldl (fun s e => s.insert e.1 e.2) (∅ : Std.ExtTreeMap ℤ β) = t := by
  have hfold : ∀ (entries : List (ℤ × β)) (s : Std.ExtTreeMap ℤ β),
      entries.foldl (fun s e => s.insert e.1 e.2) s = s.insertMany entries := by
    intro entries
    induction entries with
    | nil => exact fun s => Std.ExtTreeMap.insertMany_nil.symm
    | cons e entries ih =>
      intro s
      rw [List.foldl_cons, ih, Std.ExtTreeMap.insertMany_cons]
  rw [hfold, ← Std.ExtTreeMap.ofList_eq_insertMany_empty]
  apply Std.ExtTreeMap.ext_getElem?
  intro k
  cases hk : t[k]? with
  | some v =>
    exact Std.ExtTreeMap.getElem?_ofList_of_mem Std.ReflCmp.compare_self
      Std.ExtTreeMap.distinct_keys_toList (Std.ExtTreeMap.mem_toList_iff_getElem?_eq_some.2 hk)
  | none =>
    apply Std.ExtTreeMap.getElem?_ofList_of_contains_eq_false
    rw [Std.ExtTreeMap.map_fst_toList_eq_keys, ← Bool.not_eq_true, List.contains_iff_mem,
      Std.ExtTreeMap.mem_keys, ← Std.ExtTreeMap.isSome_getElem?_iff_mem, hk]
    exact Bool.false_ne_true

/-- A restart goes through, and keeps all but the clock and the first number. -/
theorem ensures_restart {rt : EngineRuntime} (h : rt.ledger.marketSequences.Positive)
    (config : EngineRuntimeConfig) :
    Ensures (EngineRuntime.restart config) rt (fun _ rt' => rt' = rt.restarted config)
      fun _ => False := by
  unfold EngineRuntime.restart EngineRuntime.restoreState withLedger
  simp only [EngineCore.restoreWithin_true, Bool.true_eq_false, ↓reduceIte, ensures_bind,
    ensures_get, ensures_set, ensures_modify, ensures_zoom]
  refine (ensures_restoreSequences _ _ fun entry hentry => ?_).mono ?_ fun _ h => h
  · exact h.next _ _ (Std.ExtTreeMap.mem_toList_iff_getElem?_eq_some.1 hentry)
  · rintro _ _ rfl
    have hsame := foldl_insert_toList rt.ledger.marketSequences.nextByMarket
    unfold EngineRuntime.restarted
    rw [← hsame]
    rfl

end Restart

section Runs

/-- A relation that holds across every step of a run that restarts on such configurations. -/
structure RunRule (Config : EngineRuntimeConfig → Prop)
    (R : EngineRuntime → List EngineEventRecord → EngineRuntime → Prop) : Prop
    extends HandlerRule R where
  restart : ∀ rt config, Config config → R rt [] (EngineRuntime.restarted rt config)

variable {R : EngineRuntime → List EngineEventRecord → EngineRuntime → Prop} {rt : EngineRuntime}
  {Config : EngineRuntimeConfig → Prop}

namespace RuntimeStep

/-- The program of a step as it would run live. -/
def live : RuntimeStep → RuntimeM EngineProcessResult
  | input record parsed _ => EngineRuntime.process record parsed .live
  | evaluate source _ => evaluateAllAutomaticLiquidations source none
  | evaluateMarket marketId source _ =>
    evaluateAutomaticLiquidationsForMarket marketId source none
  | restart config => do
    EngineRuntime.restart config
    pure .new

def mode : RuntimeStep → ProcessingMode
  | input _ _ mode => mode
  | evaluate _ mode => mode
  | evaluateMarket _ _ mode => mode
  | restart _ => .live

theorem program_eq (s : RuntimeStep) : s.program = (·.applyProcessingMode s.mode) <$> s.live := by
  cases s with
  | input record parsed mode => exact process_mode record parsed mode
  | evaluate source mode => rfl
  | evaluateMarket marketId source mode => rfl
  | restart config =>
    simp only [live, map_bind]
    rfl

theorem mode_eq_live {s : RuntimeStep} (h : s.Live) : s.mode = .live := by
  cases s with
  | restart config => rfl
  | input | evaluate | evaluateMarket => exact h

end RuntimeStep

theorem InputRule.live (rule : InputRule R) {s : RuntimeStep}
    (hrestart : ∀ config, s = .restart config → R rt [] (rt.restarted config))
    (h : rt.ledger.marketSequences.Positive) : EmitsFrom id (·.events) R s.live rt := by
  cases s with
  | input record parsed mode => exact rule.process record parsed rt
  | evaluate source mode => exact rule.evaluateAllAutomaticLiquidations source none rt
  | evaluateMarket marketId source mode =>
    exact rule.evaluateAutomaticLiquidationsForMarket marketId source none rt
  | restart config =>
    unfold EmitsFrom RuntimeStep.live
    rw [ensures_bind]
    refine (ensures_restart h config).mono ?_ fun _ => False.elim
    rintro _ _ rfl
    exact hrestart config rfl

/-- One step of a run, from the state before to the state after, whatever came of it. -/
theorem InputRule.step (rule : InputRule R) {s : RuntimeStep}
    (hrestart : ∀ config, s = .restart config → R rt [] (rt.restarted config))
    (h : rt.ledger.marketSequences.Positive) : ∃ events, R rt events (rt.step s).2 ∧
      (s.Live → ∀ result, (rt.step s).1 = .ok result → events = result.events) := by
  have hlive := rule.live hrestart h
  unfold EmitsFrom at hlive
  have hprogram : Ensures s.program rt (fun a rt' => ∃ events, R rt events rt' ∧
      (s.Live → events = a.events)) fun rt' => ∃ events, R rt events rt' := by
    rw [RuntimeStep.program_eq, ensures_map]
    refine hlive.mono (fun a rt' ha => ⟨a.events, ha, fun hs => ?_⟩) fun _ ht => ht
    rw [RuntimeStep.mode_eq_live hs]
    rfl
  unfold EngineRuntime.step
  rcases hr : s.program.run.run rt with ⟨_ | result, rt'⟩
  · obtain ⟨events, hevents⟩ := hprogram.threw hr
    exact ⟨events, hevents, nofun⟩
  · obtain ⟨events, hevents, heq⟩ := hprogram.returned hr
    refine ⟨events, hevents, fun hs result' hresult => ?_⟩
    cases hresult
    exact heq hs

theorem positive_step (h : rt.ledger.marketSequences.Positive) (s : RuntimeStep) :
    (rt.step s).2.ledger.marketSequences.Positive := by
  obtain ⟨-, hstep, -⟩ := positiveRule.inputs.step (s := s)
    (fun config _ hp => ⟨(MarketSequenceGenerator.Positive.new _).first, hp.next⟩) h
  exact hstep h

theorem positive_run (h : rt.ledger.marketSequences.Positive) (steps : List RuntimeStep) :
    (rt.run steps).2.ledger.marketSequences.Positive := by
  induction steps generalizing rt with
  | nil => exact h
  | cons s steps ih => exact ih (positive_step h s)

/-- A whole run; the events are those of its results if all of it was live and nothing threw. -/
theorem InputRule.run (rule : InputRule R)
    (restart : ∀ rt config, Config config → R rt [] (EngineRuntime.restarted rt config))
    (h : rt.ledger.marketSequences.Positive) (steps : List RuntimeStep)
    (hconfig : ∀ config, .restart config ∈ steps → Config config) :
    ∃ events, R rt events (rt.run steps).2 ∧
      ((∀ s ∈ steps, s.Live) → (∀ o ∈ (rt.run steps).1, ∃ result, o = .ok result) →
        events = eventsOf (rt.run steps).1) := by
  induction steps generalizing rt with
  | nil => exact ⟨[], rule.nothing rt, fun _ _ => rfl⟩
  | cons s steps ih =>
    obtain ⟨events, hstep, hevents⟩ := rule.step (s := s) (fun config hs =>
      restart rt config (hconfig config (hs ▸ List.mem_cons_self))) h
    obtain ⟨rest, hrun, hrest⟩ := ih (positive_step h s) fun config hs =>
      hconfig config (List.mem_cons_of_mem _ hs)
    refine ⟨events ++ rest, rule.append hstep hrun, fun hlive hok => ?_⟩
    have hfirst : ∃ result, (rt.step s).1 = .ok result := hok _ List.mem_cons_self
    obtain ⟨result, hresult⟩ := hfirst
    rw [hevents (hlive _ List.mem_cons_self) result hresult,
      hrest (fun s hs => hlive s (List.mem_cons_of_mem _ hs))
        fun o ho => hok o (List.mem_cons_of_mem _ ho)]
    simp only [EngineRuntime.run, eventsOf, resultsOf, hresult, List.filterMap_cons,
      List.flatMap_cons]

theorem RunRule.run (rule : RunRule Config R) (h : rt.ledger.marketSequences.Positive)
    (steps : List RuntimeStep) (hconfig : ∀ config, .restart config ∈ steps → Config config) :
    ∃ events, R rt events (rt.run steps).2 ∧
      ((∀ s ∈ steps, s.Live) → (∀ o ∈ (rt.run steps).1, ∃ result, o = .ok result) →
        events = eventsOf (rt.run steps).1) :=
  rule.inputs.run rule.restart h steps hconfig

theorem positive_new (config : EngineRuntimeConfig) :
    (EngineRuntime.new config).ledger.marketSequences.Positive := .new _

end Runs
end PerpexEngine
