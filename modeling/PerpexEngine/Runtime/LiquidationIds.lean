import Mathlib.Order.CompletePartialOrder
import PerpexEngine.Core.KnownIds
import PerpexEngine.Runtime.LiquidationProgress

/-! The ids of the liquidations of a run: where the runtime's own come from, which ids the core
knows when one of them starts, and when all of them are new. -/
namespace PerpexEngine
open Program

section Names

/-- The source of the scan that the worker makes when it starts. -/
def startupLiquidationSource : InboundEngineRecord := ⟨ascii "engine.startup", -1, -1⟩

/-- The request id of the order of a liquidation. -/
def coreRequestId (liquidationId : Text) : Text := ascii "liquidation-core-" ++ liquidationId

/-- The runtime could give this id to a liquidation of its own. -/
def IsAutomaticId (id : Text) : Prop :=
  ∃ source sourceInputId key attempt, id = automaticLiquidationId source sourceInputId key attempt

theorem automaticLiquidationId_source {source source' : InboundEngineRecord}
    {sourceInputId sourceInputId' : Option Text} {key key' : PositionRiskKey} {attempt attempt' : ℕ}
    (h : automaticLiquidationId source sourceInputId key attempt =
      automaticLiquidationId source' sourceInputId' key' attempt') :
    key = key' ∧ source.partition = source'.partition ∧ source.offset = source'.offset := by
  have hdash : ascii "-" = [45] := by decide +kernel
  have hform : ∀ (source : InboundEngineRecord) (sourceInputId : Option Text)
      (key : PositionRiskKey) (attempt : ℕ), ∃ tail,
      automaticLiquidationId source sourceInputId key attempt = ascii "auto-liq-" ++
        (text key.marketId ++ 45 :: (text key.userId ++ 45 ::
          (text source.partition ++ 45 :: (text source.offset ++ 45 :: tail)))) := by
    intro source sourceInputId key attempt
    unfold automaticLiquidationId
    cases sourceInputId with
    | none => exact ⟨text attempt, by simp [hdash]⟩
    | some inputId => exact ⟨text attempt ++ 45 :: inputId, by simp [hdash]⟩
  obtain ⟨tail, hid⟩ := hform source sourceInputId key attempt
  obtain ⟨tail', hid'⟩ := hform source' sourceInputId' key' attempt'
  rw [hid, hid'] at h
  obtain ⟨hmarket, h₁⟩ := text_cut (List.append_cancel_left h)
  obtain ⟨huser, h₂⟩ := text_cut h₁
  obtain ⟨hpartition, h₃⟩ := text_cut h₂
  obtain ⟨hoffset, -⟩ := text_cut h₃
  obtain ⟨userId, marketId⟩ := key
  obtain ⟨userId', marketId'⟩ := key'
  cases huser
  cases hmarket
  exact ⟨rfl, hpartition, hoffset⟩

end Names

section Attempts
variable (source : InboundEngineRecord) (sourceInputId : Option Text)

/-- A liquidation of the runtime's own, at one of these attempts. -/
structure LiquidationCall.Automatic (attempts : Set (MarketId × ℕ)) (call : LiquidationCall) :
    Prop where
  quiet : call.emitReplies = false
  record : call.record = source
  input : ∃ candidate attempt, (candidate.key.marketId, attempt) ∈ attempts ∧
    call.input = automaticLiquidationInput source sourceInputId candidate attempt

/-- Between two states of the log, the runtime has made liquidations of its own at these attempts,
each under another id. -/
def LoggedRuntime.Attempted (attempts : Set (MarketId × ℕ)) (o o' : LoggedRuntime) : Prop :=
  ∃ calls, o'.calls = o.calls ++ calls ∧
    (∀ call ∈ calls, call.Automatic source sourceInputId attempts) ∧
    (calls.map (·.input.liquidationId)).Nodup

variable {source sourceInputId} {A B C : Set (MarketId × ℕ)} {o o' o'' : LoggedRuntime}

theorem LiquidationCall.Automatic.id {call : LiquidationCall}
    (h : call.Automatic source sourceInputId A) :
    call.input.liquidationId ∈ automaticIds source sourceInputId A := by
  obtain ⟨candidate, attempt, hmem, hinput⟩ := h.input
  rw [hinput]
  exact ⟨candidate.key, attempt, hmem, rfl⟩

theorem LoggedRuntime.Attempted.refl (o : LoggedRuntime) (A : Set (MarketId × ℕ)) :
    LoggedRuntime.Attempted source sourceInputId A o o :=
  ⟨[], (List.append_nil _).symm, fun _ h => absurd h List.not_mem_nil, List.nodup_nil⟩

theorem LoggedRuntime.Attempted.mono (h : LoggedRuntime.Attempted source sourceInputId A o o')
    (hsub : A ⊆ B) : LoggedRuntime.Attempted source sourceInputId B o o' := by
  obtain ⟨calls, hcalls, hautomatic, hnodup⟩ := h
  refine ⟨calls, hcalls, fun call hcall => ?_, hnodup⟩
  obtain ⟨hquiet, hrecord, candidate, attempt, hmem, hinput⟩ := hautomatic call hcall
  exact ⟨hquiet, hrecord, candidate, attempt, hsub hmem, hinput⟩

/-- Some attempts, then others. -/
theorem LoggedRuntime.Attempted.append
    (h : LoggedRuntime.Attempted source sourceInputId A o o')
    (h' : LoggedRuntime.Attempted source sourceInputId B o' o'') (hdisjoint : Disjoint A B)
    (hsub : A ∪ B ⊆ C) : LoggedRuntime.Attempted source sourceInputId C o o'' := by
  obtain ⟨calls, hcalls, hautomatic, hnodup⟩ := h.mono (Set.subset_union_left.trans hsub)
  obtain ⟨more, hmore, hautomatic', hnodup'⟩ := h'.mono (Set.subset_union_right.trans hsub)
  obtain ⟨calls₀, hcalls₀, hat, -⟩ := h
  obtain ⟨more₀, hmore₀, hat', -⟩ := h'
  cases List.append_cancel_left (hcalls₀.symm.trans hcalls)
  cases List.append_cancel_left (hmore₀.symm.trans hmore)
  refine ⟨calls ++ more, by rw [hmore, hcalls, List.append_assoc], ?_, ?_⟩
  · intro call hcall
    rcases List.mem_append.1 hcall with hcall | hcall
    · exact hautomatic call hcall
    · exact hautomatic' call hcall
  · rw [List.map_append, List.nodup_append]
    refine ⟨hnodup, hnodup', ?_⟩
    intro id hid id' hid' heq
    obtain ⟨call, hcall, rfl⟩ := List.mem_map.1 hid
    obtain ⟨call', hcall', rfl⟩ := List.mem_map.1 hid'
    have hapart := Set.disjoint_left.1 (automaticIds_disjoint source sourceInputId hdisjoint)
    refine hapart (hat call hcall).id ?_
    rw [heq]
    exact (hat' call' hcall').id

/-- Where a program of the log may end: after attempts among these. -/
abbrev Attempts {α : Type} (source : InboundEngineRecord) (sourceInputId : Option Text)
    (A : Set (MarketId × ℕ)) (m : LoggedM α) : Prop :=
  ∀ o, Ensures m o (fun _ => LoggedRuntime.Attempted source sourceInputId A o)
    (LoggedRuntime.Attempted source sourceInputId A o)

theorem logLiquidation_attempted {candidate : AutomaticLiquidationCandidate} {attempt : ℕ}
    (hmem : (candidate.key.marketId, attempt) ∈ A) : Attempts source sourceInputId A
      (logLiquidation source (automaticLiquidationInput source sourceInputId candidate attempt)
        false) := by
  intro o
  unfold logLiquidation
  rw [ensures_bind, ensures_get]
  dsimp only
  rw [ensures_bind, ensures_set, ensures_liftExcept]
  have hnote : LoggedRuntime.Attempted source sourceInputId A o (o.note (o.runtime.liquidation source
      (automaticLiquidationInput source sourceInputId candidate attempt) false)) := by
    refine ⟨[_], rfl, fun call hcall => ?_, List.nodup_singleton _⟩
    rw [List.mem_singleton.1 hcall]
    exact ⟨rfl, rfl, candidate, attempt, hmem, rfl⟩
  exact ⟨fun _ _ => hnote, fun _ _ => hnote⟩

theorem logCandidates_attempted {marketId : MarketId}
    (candidates : List AutomaticLiquidationCandidate)
    (hmarket : ∀ c ∈ candidates, c.key.marketId = marketId) (progress : LiquidationAttempts)
    (o : LoggedRuntime) : Ensures (logCandidates source sourceInputId candidates progress) o
      (fun r o' => progress.attempts ≤ r.2.2.attempts ∧ LoggedRuntime.Attempted source sourceInputId
        (attemptsBetween marketId progress.attempts r.2.2.attempts) o o')
      fun o' => LoggedRuntime.Attempted source sourceInputId
        { x | x.1 = marketId ∧ progress.attempts < x.2 } o o' := by
  induction candidates generalizing progress o with
  | nil => exact ⟨le_rfl, .refl o _⟩
  | cons candidate candidates ih =>
    unfold logCandidates
    apply ensures_ite.2
    refine ⟨fun _ => ⟨le_rfl, .refl o _⟩, fun _ => ?_⟩
    apply ensures_bind.2
    have hfirst : (candidate.key.marketId, progress.attempts + 1) ∈
        attemptsBetween marketId progress.attempts (progress.attempts + 1) :=
      ⟨hmarket _ List.mem_cons_self, Nat.lt_succ_self _, le_rfl⟩
    refine (logLiquidation_attempted hfirst o).mono (fun execution o' h => ?_) fun o' h =>
      h.mono fun x hx => ⟨hx.1, hx.2.1⟩
    apply ensures_ite.2
    refine ⟨fun _ => ?_, fun _ => ⟨Nat.le_succ _, h⟩⟩
    apply ensures_bind.2
    refine (ih (fun c hc => hmarket c (List.mem_cons_of_mem _ hc)) _ o').mono ?_ fun o'' hrest => ?_
    · rintro ⟨rest, shouldRescan, progress'⟩ o'' ⟨hle, hrest⟩
      refine ⟨(Nat.le_succ _).trans hle,
        h.append hrest (attemptsBetween_disjoint fun x hx => hx.2.1) ?_⟩
      rintro x (⟨hm, hfrom, hto⟩ | ⟨hm, hfrom, hto⟩)
      · exact ⟨hm, hfrom, hto.trans hle⟩
      · exact ⟨hm, (Nat.lt_succ_self _).trans hfrom, hto⟩
    · refine h.append hrest (attemptsBetween_disjoint fun x hx => hx.2) ?_
      rintro x (⟨hm, hfrom, -⟩ | ⟨hm, hfrom⟩)
      · exact ⟨hm, hfrom⟩
      · exact ⟨hm, (Nat.lt_succ_self _).trans hfrom⟩

theorem logRounds_attempted (marketId : MarketId) (rounds : ℕ) (progress : LiquidationAttempts) :
    Attempts source sourceInputId { x | x.1 = marketId ∧ progress.attempts < x.2 }
      (logRounds source sourceInputId marketId rounds progress) := by
  induction rounds generalizing progress with
  | zero => exact fun o => .refl o _
  | succ rounds ih =>
    intro o
    unfold logRounds
    apply ensures_ite.2
    refine ⟨fun _ => .refl o _, fun _ => ?_⟩
    rw [ensures_bind]
    change Ensures (if (automaticLiquidationCandidatesFor marketId o.runtime.ledger
      progress.attempted).isEmpty = true then _ else _) o _ _
    apply ensures_ite.2
    refine ⟨fun _ => .refl o _, fun _ => ?_⟩
    apply ensures_bind.2
    refine (logCandidates_attempted _ (automaticLiquidationCandidatesFor_market _ _ _) progress
      o).mono ?_ fun _ h => h
    rintro ⟨result, shouldRescan, progress'⟩ o' ⟨hle, h⟩
    apply ensures_ite.2
    refine ⟨fun _ => ?_, fun _ => h.mono fun x hx => ⟨hx.1, hx.2.1⟩⟩
    have hall : ∀ o'', LoggedRuntime.Attempted source sourceInputId
        { x | x.1 = marketId ∧ progress'.attempts < x.2 } o' o'' →
        LoggedRuntime.Attempted source sourceInputId
          { x | x.1 = marketId ∧ progress.attempts < x.2 } o o'' := by
      intro o'' hrest
      refine h.append hrest (attemptsBetween_disjoint fun x hx => hx.2) ?_
      rintro x (⟨hm, hfrom, -⟩ | ⟨hm, hfrom⟩)
      · exact ⟨hm, hfrom⟩
      · exact ⟨hm, hle.trans_lt hfrom⟩
    apply ensures_bind.2
    exact (ih progress' o').mono (fun _ o'' hrest => hall o'' hrest) hall

/-- The automatic liquidations of a market. -/
theorem logLiquidationsForMarket_attempted (marketId : MarketId) :
    Attempts source sourceInputId { x | x.1 = marketId }
      (logLiquidationsForMarket marketId source sourceInputId) := fun o =>
  (logRounds_attempted marketId _ _ o).mono (fun _ _ h => h.mono fun _ hx => hx.1)
    fun _ h => h.mono fun _ hx => hx.1

theorem logMarkets_attempted (markets : List MarketId) (hnodup : markets.Nodup) :
    Attempts source sourceInputId { x | x.1 ∈ markets }
      (logMarkets source sourceInputId markets) := by
  induction markets with
  | nil => exact fun o => .refl o _
  | cons marketId markets ih =>
    obtain ⟨hnew, hrest⟩ := List.nodup_cons.1 hnodup
    intro o
    have hdisjoint : Disjoint { x : MarketId × ℕ | x.1 = marketId } { x | x.1 ∈ markets } := by
      rw [Set.disjoint_left]
      intro x hx hmem
      have hmarket : x.1 = marketId := hx
      exact hnew (hmarket ▸ hmem)
    have hall : ∀ o' o'', LoggedRuntime.Attempted source sourceInputId { x | x.1 = marketId } o o' →
        LoggedRuntime.Attempted source sourceInputId { x | x.1 ∈ markets } o' o'' →
        LoggedRuntime.Attempted source sourceInputId { x | x.1 ∈ marketId :: markets } o o'' := by
      intro o' o'' h h'
      refine h.append h' hdisjoint ?_
      rintro x (hx | hx)
      · exact List.mem_cons.2 (Or.inl hx)
      · exact List.mem_cons_of_mem _ hx
    apply ensures_bind.2
    refine (logLiquidationsForMarket_attempted marketId o).mono (fun first o' h => ?_) fun o' h =>
      hall o' o' h (.refl o' _)
    apply ensures_bind.2
    exact (ih hrest o').mono (fun _ o'' h' => hall o' o'' h h') fun o'' h' => hall o' o'' h h'

theorem logAllLiquidations_attempted (o : LoggedRuntime) :
    Ensures (logAllLiquidations source sourceInputId) o
      (fun _ => LoggedRuntime.Attempted source sourceInputId
        { x | x.1 ∈ liquidatableMarkets o.runtime.ledger } o)
      (LoggedRuntime.Attempted source sourceInputId
        { x | x.1 ∈ liquidatableMarkets o.runtime.ledger } o) := by
  have hnodup : (liquidatableMarkets o.runtime.ledger).Nodup :=
    ((List.perm_insertionSort _ _).nodup_iff).2 (List.nodup_dedup _)
  unfold logAllLiquidations
  rw [ensures_bind]
  exact logMarkets_attempted _ hnodup o

end Attempts

section Steps

/-- The records and markets for which a step may liquidate by itself. -/
def RuntimeStep.triggers (ledger : Ledger) : RuntimeStep → List (InboundEngineRecord × MarketId)
  | .input record (.ok brought) _ =>
    match brought.parsed with
    | .placeOrder order => [(record, order.marketId)]
    | .markPriceUpdated mark => [(record, mark.marketId)]
    | .fundingSettlementTick tick => [(record, tick.marketId)]
    | _ => []
  | .evaluate source _ => (liquidatableMarkets ledger).map (source, ·)
  | .evaluateMarket marketId source _ => [(source, marketId)]
  | _ => []

/-- The id names the record, the market and the user. -/
def LiquidationCall.Titled (call : LiquidationCall) : Prop :=
  ∃ sourceInputId key attempt, key.marketId = call.input.marketId ∧
    call.input.liquidationId = automaticLiquidationId call.record sourceInputId key attempt

/-- What a step can add to the log. -/
structure RuntimeStep.SetsOff (s : RuntimeStep) (ledger : Ledger) (calls : List LiquidationCall) :
    Prop where
  own : ∀ call ∈ calls, call.emitReplies = false →
    call.Titled ∧ (call.record, call.input.marketId) ∈ s.triggers ledger
  asked : ∀ call ∈ calls, call.emitReplies = true → ∃ record brought mode,
    s = RuntimeStep.input record (.ok brought) mode ∧ brought.parsed = .liquidatePosition call.input
  distinct : (calls.map (·.input.liquidationId)).Nodup

variable {source : InboundEngineRecord} {sourceInputId : Option Text} {A : Set (MarketId × ℕ)}
  {o o' : LoggedRuntime} {s : RuntimeStep}

theorem RuntimeStep.SetsOff.nothing (s : RuntimeStep) (ledger : Ledger) : s.SetsOff ledger [] :=
  ⟨fun _ h => absurd h List.not_mem_nil, fun _ h => absurd h List.not_mem_nil, List.nodup_nil⟩

/-- Attempts for a record and markets of the step. -/
theorem LoggedRuntime.Attempted.setsOff (h : LoggedRuntime.Attempted source sourceInputId A o o')
    (hmarkets : ∀ x ∈ A, (source, x.1) ∈ s.triggers o.runtime.ledger) :
    ∃ calls, o'.calls = o.calls ++ calls ∧ s.SetsOff o.runtime.ledger calls := by
  obtain ⟨calls, hcalls, hautomatic, hnodup⟩ := h
  refine ⟨calls, hcalls, fun call hcall _ => ?_, fun call hcall hreplies => ?_, hnodup⟩
  · obtain ⟨-, hrecord, candidate, attempt, hmem, hinput⟩ := hautomatic call hcall
    rw [hrecord, hinput]
    refine ⟨⟨sourceInputId, candidate.key, attempt, ?_, ?_⟩, hmarkets _ hmem⟩
    · rw [hinput]
      rfl
    · rw [hinput, hrecord]
      rfl
  · rw [(hautomatic call hcall).quiet] at hreplies
    cases hreplies

namespace Attempts
variable {α β : Type} {B C : Set (MarketId × ℕ)} {m : LoggedM α} {f : α → LoggedM β}

theorem pure (a : α) : Attempts source sourceInputId A (Pure.pure a : LoggedM α) :=
  fun o => .refl o A

theorem unlogged (m : RuntimeM α) :
    Attempts source sourceInputId A (PerpexEngine.unlogged m) := by
  intro o
  unfold PerpexEngine.unlogged
  rw [ensures_zoom]
  have hsame : ∀ rt, LoggedRuntime.Attempted source sourceInputId A o { o with runtime := rt } :=
    fun rt => ⟨[], (List.append_nil _).symm, fun _ h => absurd h List.not_mem_nil, List.nodup_nil⟩
  unfold Ensures
  split
  · exact hsame _
  · exact hsame _

theorem ite {c : Prop} [Decidable c] {n : LoggedM α} (hm : Attempts source sourceInputId A m)
    (hn : Attempts source sourceInputId A n) :
    Attempts source sourceInputId A (if c then m else n) := by
  split_ifs
  · exact hm
  · exact hn

/-- A program after one that makes no attempt. -/
theorem after (hm : Attempts source sourceInputId ∅ m) (hf : ∀ a, Attempts source sourceInputId A (f a)) :
    Attempts source sourceInputId A (m >>= f) := by
  have hall : ∀ {o o' o'' : LoggedRuntime}, LoggedRuntime.Attempted source sourceInputId ∅ o o' →
      LoggedRuntime.Attempted source sourceInputId A o' o'' →
      LoggedRuntime.Attempted source sourceInputId A o o'' :=
    fun h h' => h.append h' (Set.empty_disjoint A) (Set.empty_union A).subset
  intro o
  apply ensures_bind.2
  refine (hm o).mono (fun a o' h => ?_) fun o' h => h.mono (Set.empty_subset A)
  exact (hf a o').mono (fun _ _ h' => hall h h') fun _ h' => hall h h'

/-- A program before one that makes no attempt. -/
theorem before (hm : Attempts source sourceInputId A m)
    (hf : ∀ a, Attempts source sourceInputId ∅ (f a)) :
    Attempts source sourceInputId A (m >>= f) := by
  have hall : ∀ {o o' o'' : LoggedRuntime}, LoggedRuntime.Attempted source sourceInputId A o o' →
      LoggedRuntime.Attempted source sourceInputId ∅ o' o'' →
      LoggedRuntime.Attempted source sourceInputId A o o'' :=
    fun h h' => h.append h' (Set.disjoint_empty A) (Set.union_empty A).subset
  intro o
  apply ensures_bind.2
  refine (hm o).mono (fun a o' h => ?_) fun _ h => h
  exact (hf a o').mono (fun _ _ h' => hall h h') fun _ h' => hall h h'

/-- The attempts of a program that is run, if the step may make them. -/
theorem setsOff {m : LoggedM α} (hm : Attempts source sourceInputId A m) (o : LoggedRuntime)
    (hmarkets : ∀ x ∈ A, (source, x.1) ∈ s.triggers o.runtime.ledger) :
    ∃ calls, (m.run.run o).2.calls = o.calls ++ calls ∧ s.SetsOff o.runtime.ledger calls :=
  LoggedRuntime.Attempted.setsOff (hm o).whatever hmarkets

end Attempts

section Inputs
variable (record : InboundEngineRecord) (mode : ProcessingMode)

theorem logPlaceOrder_attempted (input : PlaceOrderInput) :
    Attempts record input.inputId { x | x.1 = input.marketId } (logPlaceOrder record input mode) := by
  refine Attempts.after (.unlogged _) fun rt => ?_
  cases duplicateResultFor rt input.inputId input.envelope.idempotencyKey with
  | some duplicate => exact .pure _
  | none =>
    refine Attempts.before ?_ fun _ => .after (.unlogged _) fun _ => .pure _
    refine Attempts.after (.unlogged _) fun rt => ?_
    cases checkReduceOnlyOrder input rt.ledger with
    | error reason => exact .unlogged _
    | ok capped =>
      refine Attempts.after (.unlogged _) fun placed => .before ?_ fun _ => .pure _
      exact .ite (logLiquidationsForMarket_attempted _) (.pure _)

theorem logMarkPriceUpdated_attempted (input : MarkPriceUpdatedInput) :
    Attempts record input.inputId { x | x.1 = input.marketId }
      (logMarkPriceUpdated record input mode) := by
  refine Attempts.after (.unlogged _) fun rt => ?_
  cases duplicateInputResultFor rt input.inputId with
  | some duplicate => exact .pure _
  | none =>
    refine Attempts.after (.unlogged _) fun _ => ?_
    refine (logLiquidationsForMarket_attempted _).before fun _ => ?_
    exact .after (.unlogged _) fun _ => .pure _

theorem logFundingSettlementTick_attempted (input : FundingSettlementTickInput) :
    Attempts record input.inputId { x | x.1 = input.marketId }
      (logFundingSettlementTick record input mode) := by
  refine Attempts.after (.unlogged _) fun rt => ?_
  cases duplicateInputResultFor rt input.inputId with
  | some duplicate => exact .pure _
  | none =>
    refine .ite (.after (.unlogged _) fun _ => .pure _) ?_
    cases rt.fundingRates[input.marketId]?.filter
      (·.fundingIntervalId = input.fundingIntervalId) with
    | none => exact .after (.unlogged _) fun _ => .pure _
    | some funding =>
      refine Attempts.after (.unlogged _) fun _ => ?_
      refine (logLiquidationsForMarket_attempted _).before fun _ => ?_
      exact .after (.unlogged _) fun _ => .pure _

/-- A request makes one liquidation at most, its own. -/
theorem logLiquidatePosition_calls (input : LiquidatePositionInput) (o : LoggedRuntime) :
    ∃ calls, ((logLiquidatePosition record input mode).run.run o).2.calls = o.calls ++ calls ∧
      (calls = [] ∨ ∃ call : LiquidationCall, calls = [call] ∧ call.emitReplies = true ∧
        call.input = input) := by
  refine Ensures.whatever (E := fun o' : LoggedRuntime => ∃ calls, o'.calls = o.calls ++ calls ∧
    (calls = [] ∨ ∃ call : LiquidationCall, calls = [call] ∧ call.emitReplies = true ∧
      call.input = input)) ?_
  have hnothing : ∃ calls, o.calls = o.calls ++ calls ∧ (calls = [] ∨
      ∃ call : LiquidationCall, calls = [call] ∧ call.emitReplies = true ∧ call.input = input) :=
    ⟨[], (List.append_nil _).symm, Or.inl rfl⟩
  unfold logLiquidatePosition PerpexEngine.unlogged
  rw [ensures_bind, ensures_zoom, ensures_get]
  cases duplicateResultFor o.runtime input.inputId input.envelope.idempotencyKey with
  | some duplicate => exact hnothing
  | none =>
    have hone : ∀ rt : EngineRuntime, ∃ calls,
        (⟨rt, (o.note (o.runtime.liquidation record input true)).calls⟩ : LoggedRuntime).calls =
          o.calls ++ calls ∧ (calls = [] ∨
            ∃ call : LiquidationCall, calls = [call] ∧ call.emitReplies = true ∧
              call.input = input) :=
      fun _ => ⟨[_], rfl, Or.inr ⟨_, rfl, rfl, rfl⟩⟩
    unfold logLiquidation
    rw [ensures_bind, ensures_bind, ensures_get]
    dsimp only
    rw [ensures_bind, ensures_set, ensures_liftExcept]
    refine ⟨fun result _ => ?_, fun _ _ => hone _⟩
    rw [ensures_bind, ensures_zoom]
    unfold Ensures
    split
    · exact hone _
    · exact hone _

end Inputs

theorem calls_unlogged {α : Type} (m : RuntimeM α) (o : LoggedRuntime) :
    ((unlogged m).run.run o).2.calls = o.calls := by
  refine Ensures.whatever (E := fun o' : LoggedRuntime => o'.calls = o.calls) ?_
  unfold unlogged
  rw [ensures_zoom]
  unfold Ensures
  split <;> rfl

theorem logAllLiquidations_setsOff (source : InboundEngineRecord) (mode : ProcessingMode)
    (o : LoggedRuntime) : ∃ calls,
      ((RuntimeStep.logged (.evaluate source mode)).run.run o).2.calls = o.calls ++ calls ∧
        (RuntimeStep.evaluate source mode).SetsOff o.runtime.ledger calls := by
  have hattempts : Ensures (RuntimeStep.logged (.evaluate source mode)) o
      (fun _ => LoggedRuntime.Attempted source none
        { x | x.1 ∈ liquidatableMarkets o.runtime.ledger } o)
      (LoggedRuntime.Attempted source none
        { x | x.1 ∈ liquidatableMarkets o.runtime.ledger } o) := by
    unfold RuntimeStep.logged
    rw [ensures_map]
    exact logAllLiquidations_attempted o
  exact hattempts.whatever.setsOff fun x hx => List.mem_map_of_mem hx

theorem logged_ok (record : InboundEngineRecord) (brought : EngineInput) (mode : ProcessingMode) :
    (RuntimeStep.input record (.ok brought) mode).logged = logParsed record mode brought.parsed := rfl

/-- What a step adds to the log. -/
theorem step_setsOff (o : LoggedRuntime) (s : RuntimeStep) :
    ∃ calls, (s.logged.run.run o).2.calls = o.calls ++ calls ∧
      s.SetsOff o.runtime.ledger calls := by
  have hquiet : (s.logged.run.run o).2.calls = o.calls → ∃ calls,
      (s.logged.run.run o).2.calls = o.calls ++ calls ∧ s.SetsOff o.runtime.ledger calls :=
    fun h => ⟨[], h.trans (List.append_nil _).symm, .nothing _ _⟩
  cases s with
  | restart config => exact hquiet (calls_unlogged _ o)
  | evaluate source mode => exact logAllLiquidations_setsOff source mode o
  | evaluateMarket marketId source mode =>
    have hattempts : Attempts source none { x | x.1 = marketId }
        (RuntimeStep.logged (.evaluateMarket marketId source mode)) := by
      intro o
      unfold RuntimeStep.logged
      rw [ensures_map]
      exact logLiquidationsForMarket_attempted marketId o
    refine hattempts.setsOff o ?_
    rintro ⟨_, _⟩ rfl
    exact List.mem_singleton_self _
  | input record parsed mode =>
    cases parsed with
    | error e => exact hquiet rfl
    | ok brought =>
      obtain ⟨parsed, hwell⟩ := brought
      rw [logged_ok] at hquiet ⊢
      cases parsed with
      | placeOrder input =>
        refine (logPlaceOrder_attempted record mode input).setsOff o ?_
        rintro ⟨_, _⟩ rfl
        exact List.mem_singleton_self _
      | cancelOrder input => exact hquiet (calls_unlogged _ o)
      | liquidatePosition input =>
        obtain ⟨calls, hcalls, hnone | ⟨call, hone, hreplies, hinput⟩⟩ :=
          logLiquidatePosition_calls record mode input o
        · exact ⟨calls, hcalls, hnone ▸ .nothing _ _⟩
        · refine ⟨calls, hcalls, ?_⟩
          rw [hone]
          refine ⟨fun other hother hquiet => ?_, fun other hother _ => ?_, List.nodup_singleton _⟩
          · rw [List.mem_singleton.1 hother, hreplies] at hquiet
            cases hquiet
          · rw [List.mem_singleton.1 hother, hinput]
            exact ⟨record, _, mode, rfl, rfl⟩
      | markPriceUpdated input =>
        refine (logMarkPriceUpdated_attempted record mode input).setsOff o ?_
        rintro ⟨_, _⟩ rfl
        exact List.mem_singleton_self _
      | fundingRateUpdated input => exact hquiet (calls_unlogged _ o)
      | fundingSettlementTick input =>
        refine (logFundingSettlementTick_attempted record mode input).setsOff o ?_
        rintro ⟨_, _⟩ rfl
        exact List.mem_singleton_self _

end Steps

section Runs
variable {o : LoggedRuntime} {s : RuntimeStep}

/-- No liquidation of the runtime's own has come before for the same market and from the same place
of a log. -/
def LoggedRuntime.Unrepeated (o : LoggedRuntime) (s : RuntimeStep) : Prop :=
  ∀ trigger ∈ s.triggers o.runtime.ledger, ∀ call ∈ o.calls, call.emitReplies = false →
    call.input.marketId = trigger.2 →
      ¬(call.record.partition = trigger.1.partition ∧ call.record.offset = trigger.1.offset)

/-- The input does not ask for a liquidation under an id that the runtime could give. -/
def ParsedEngineInput.SparesIds : ParsedEngineInput → Prop
  | .liquidatePosition input => ¬IsAutomaticId input.liquidationId
  | _ => True

/-- Every step of the run meets the condition where it starts. -/
def LoggedRuntime.Throughout (P : LoggedRuntime → RuntimeStep → Prop) :
    LoggedRuntime → List RuntimeStep → Prop
  | _, [] => True
  | o, s :: steps => P o s ∧ Throughout P (s.logged.run.run o).2 steps

/-- A log in which the runtime's own liquidations went under new ids. -/
structure LoggedRuntime.NewIds (o : LoggedRuntime) : Prop where
  titled : ∀ call ∈ o.calls, call.emitReplies = false → call.Titled
  spared : ∀ call ∈ o.calls, call.emitReplies = true → ¬IsAutomaticId call.input.liquidationId
  new : o.calls.Pairwise fun earlier call => call.emitReplies = false →
    earlier.input.liquidationId ≠ call.input.liquidationId

theorem LiquidationCall.Titled.isAutomaticId {call : LiquidationCall} (h : call.Titled) :
    IsAutomaticId call.input.liquidationId := by
  obtain ⟨sourceInputId, key, attempt, -, hid⟩ := h
  exact ⟨call.record, sourceInputId, key, attempt, hid⟩

/-- Two liquidations of the runtime's own under one id are for one market, from one place. -/
theorem LiquidationCall.Titled.same {call call' : LiquidationCall} (h : call.Titled)
    (h' : call'.Titled) (heq : call.input.liquidationId = call'.input.liquidationId) :
    call.input.marketId = call'.input.marketId ∧ call.record.partition = call'.record.partition ∧
      call.record.offset = call'.record.offset := by
  obtain ⟨sourceInputId, key, attempt, hmarket, hid⟩ := h
  obtain ⟨sourceInputId', key', attempt', hmarket', hid'⟩ := h'
  rw [hid, hid'] at heq
  obtain ⟨hkey, hplace⟩ := automaticLiquidationId_source heq
  rw [← hmarket, ← hmarket', hkey]
  exact ⟨rfl, hplace⟩

/-- A step adds new ids if it repeats no trigger. -/
theorem LoggedRuntime.NewIds.step (h : o.NewIds) (hunrepeated : o.Unrepeated s)
    (hspares : s.Brings ParsedEngineInput.SparesIds) : (s.logged.run.run o).2.NewIds := by
  obtain ⟨calls, hcalls, hown, hasked, hdistinct⟩ := step_setsOff o s
  have htitled : ∀ call ∈ calls, call.emitReplies = false → call.Titled :=
    fun call hcall hquiet => (hown call hcall hquiet).1
  refine ⟨fun call hcall hquiet => ?_, fun call hcall hreplies => ?_, ?_⟩
  · rw [hcalls] at hcall
    rcases List.mem_append.1 hcall with hcall | hcall
    · exact h.titled call hcall hquiet
    · exact htitled call hcall hquiet
  · rw [hcalls] at hcall
    rcases List.mem_append.1 hcall with hcall | hcall
    · exact h.spared call hcall hreplies
    · obtain ⟨record, brought, mode, rfl, hinput⟩ := hasked call hcall hreplies
      have hspared : brought.parsed.SparesIds := hspares
      rw [hinput] at hspared
      exact hspared
  · rw [hcalls, List.pairwise_append]
    refine ⟨h.new, ?_, fun earlier hearlier call hcall hquiet heq => ?_⟩
    · refine (List.pairwise_map.1 hdistinct).imp ?_
      intro _ _ hne _
      exact hne
    · obtain ⟨htitle, htrigger⟩ := hown call hcall hquiet
      cases hreplies : earlier.emitReplies with
      | true =>
        refine h.spared earlier hearlier hreplies ?_
        rw [heq]
        exact htitle.isAutomaticId
      | false =>
        obtain ⟨hmarket, hplace⟩ := (h.titled earlier hearlier hreplies).same htitle heq
        exact hunrepeated _ htrigger earlier hearlier hreplies hmarket hplace

/-- A run of such steps makes no id twice. -/
theorem LoggedRuntime.NewIds.run (h : o.NewIds) {steps : List RuntimeStep}
    (hunrepeated : LoggedRuntime.Throughout LoggedRuntime.Unrepeated o steps)
    (hspares : ∀ s ∈ steps, s.Brings ParsedEngineInput.SparesIds) : (o.run steps).NewIds := by
  induction steps generalizing o with
  | nil => exact h
  | cons s steps ih =>
    exact ih (h.step hunrepeated.1 (hspares s List.mem_cons_self)) hunrepeated.2
      fun t ht => hspares t (List.mem_cons_of_mem _ ht)

theorem LoggedRuntime.NewIds.start (config : EngineRuntimeConfig) :
    (LoggedRuntime.new config).NewIds :=
  ⟨fun _ h => absurd h List.not_mem_nil, fun _ h => absurd h List.not_mem_nil, .nil⟩

/-- The record that a step comes from. -/
def RuntimeStep.record? : RuntimeStep → Option InboundEngineRecord
  | .input record _ _ => some record
  | .evaluate source _ => some source
  | .evaluateMarket _ source _ => some source
  | .restart _ => none

theorem RuntimeStep.record?_of_mem_triggers {ledger : Ledger}
    {trigger : InboundEngineRecord × MarketId} (h : trigger ∈ s.triggers ledger) :
    s.record? = some trigger.1 := by
  cases s with
  | input record parsed mode =>
    cases parsed with
    | error e => exact absurd h List.not_mem_nil
    | ok brought =>
      obtain ⟨parsed, hwell⟩ := brought
      cases parsed with
      | placeOrder input => exact congrArg (some ·.1) (List.mem_singleton.1 h).symm
      | cancelOrder input => exact absurd h List.not_mem_nil
      | liquidatePosition input => exact absurd h List.not_mem_nil
      | markPriceUpdated input => exact congrArg (some ·.1) (List.mem_singleton.1 h).symm
      | fundingRateUpdated input => exact absurd h List.not_mem_nil
      | fundingSettlementTick input => exact congrArg (some ·.1) (List.mem_singleton.1 h).symm
  | evaluate source mode =>
    obtain ⟨marketId, -, rfl⟩ := List.mem_map.1 h
    rfl
  | evaluateMarket marketId source mode => exact congrArg (some ·.1) (List.mem_singleton.1 h).symm
  | restart config => exact absurd h List.not_mem_nil

/-- Every liquidation of the runtime's own comes from the record of a step. -/
theorem record_of_mem_calls (config : EngineRuntimeConfig) (steps : List RuntimeStep) :
    ∀ call ∈ ((LoggedRuntime.new config).run steps).calls, call.emitReplies = false →
      ∃ s ∈ steps, s.record? = some call.record := by
  induction steps using List.reverseRecOn with
  | nil => exact fun _ h => absurd h List.not_mem_nil
  | append_singleton steps s ih =>
    intro call hcall hquiet
    have hrun : (LoggedRuntime.new config).run (steps ++ [s]) =
        (s.logged.run.run ((LoggedRuntime.new config).run steps)).2 := List.foldl_append
    obtain ⟨calls, hcalls, hsets⟩ := step_setsOff ((LoggedRuntime.new config).run steps) s
    rw [hrun, hcalls] at hcall
    rcases List.mem_append.1 hcall with hcall | hcall
    · obtain ⟨t, ht, hrecord⟩ := ih call hcall hquiet
      exact ⟨t, List.mem_append_left _ ht, hrecord⟩
    · exact ⟨s, List.mem_append_right _ List.mem_cons_self,
        RuntimeStep.record?_of_mem_triggers (hsets.own call hcall hquiet).2⟩

/-- A step from a place of the log that no earlier step came from repeats no trigger. -/
theorem unrepeated_of_place (config : EngineRuntimeConfig) {steps : List RuntimeStep}
    (h : ∀ t ∈ steps, ∀ r ∈ t.record?, ∀ r' ∈ s.record?,
      ¬(r.partition = r'.partition ∧ r.offset = r'.offset)) :
    ((LoggedRuntime.new config).run steps).Unrepeated s := by
  intro trigger htrigger call hcall hquiet _
  obtain ⟨t, ht, hrecord⟩ := record_of_mem_calls config steps call hcall hquiet
  exact h t ht call.record hrecord trigger.1 (RuntimeStep.record?_of_mem_triggers htrigger)

theorem throughout_of_forall {P : LoggedRuntime → RuntimeStep → Prop} {steps : List RuntimeStep}
    (h : ∀ before s after, steps = before ++ s :: after → P (o.run before) s) :
    LoggedRuntime.Throughout P o steps := by
  induction steps generalizing o with
  | nil => trivial
  | cons s steps ih =>
    refine ⟨h [] s steps rfl, ih fun before t after heq => ?_⟩
    exact h (s :: before) t after (congrArg (s :: ·) heq)

/-- Where all steps come from different places, as live inputs and one scan do, no trigger is
repeated. -/
theorem unrepeated_of_places (config : EngineRuntimeConfig) {steps : List RuntimeStep}
    (h : steps.Pairwise fun t s => ∀ r ∈ t.record?, ∀ r' ∈ s.record?,
      ¬(r.partition = r'.partition ∧ r.offset = r'.offset)) :
    LoggedRuntime.Throughout LoggedRuntime.Unrepeated (.new config) steps := by
  refine throughout_of_forall fun before s after heq => unrepeated_of_place config fun t ht => ?_
  rw [heq, List.pairwise_append] at h
  exact h.2.2 t ht s List.mem_cons_self

end Runs
end PerpexEngine
