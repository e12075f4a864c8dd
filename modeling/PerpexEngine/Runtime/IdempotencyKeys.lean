import PerpexEngine.Runtime.Replies
import PerpexEngine.Runtime.Statuses
import Mathlib.Data.List.Induction

/-! Which earlier inputs make a command a duplicate: those that returned under its idempotency key,
whoever sent them. -/
namespace PerpexEngine
open Program

namespace EngineRuntime

/-- The tables of processed requests stay as they are. -/
def SameTables (rt rt' : EngineRuntime) : Prop :=
  rt'.processedInputIds = rt.processedInputIds ∧
    rt'.processedIdempotencyKeys = rt.processedIdempotencyKeys

theorem sameTablesRule : RuntimeRule fun rt _ rt' => rt.SameTables rt' where
  nothing _ := ⟨rfl, rfl⟩
  append h h' := ⟨h'.1.trans h.1, h'.2.trans h.2⟩
  core _ _ := ⟨rfl, rfl⟩
  ledger _ :=
    { nothing := fun _ => ⟨rfl, rfl⟩
      append := fun _ _ => ⟨rfl, rfl⟩
      clock := fun _ => ⟨rfl, rfl⟩
      event := fun _ _ _ => ⟨rfl, rfl⟩
      metadata := fun _ _ _ => ⟨rfl, rfl⟩
      fill := fun _ _ _ _ _ => ⟨rfl, rfl⟩ }

/-- Operations touch neither table, whatever orders they place. -/
theorem sameTablesOperations : OperationRule (fun _ => True) fun rt _ rt' => rt.SameTables rt' :=
  sameTablesRule.executions.operations

/-- What an input that returned has added to the tables. -/
structure Records (rt : EngineRuntime) (parsed : ParsedEngineInput) (rt' : EngineRuntime) : Prop where
  inputIds : ∀ i ∈ rt'.processedInputIds, i ∈ rt.processedInputIds ∨ i ∈ parsed.inputId
  keys : ∀ k, k ∈ rt'.processedIdempotencyKeys ↔
    k ∈ rt.processedIdempotencyKeys ∨ k ∈ parsed.idempotencyKey

end EngineRuntime

section Handlers
variable {rt : EngineRuntime} {α : Type}

theorem keeps_of_emits {out : α → List EngineEventRecord} {m : RuntimeM α}
    (hm : Emits id out (fun rt _ rt' => rt.SameTables rt') m) :
    Yields rt.SameTables (fun _ => True) m := by
  intro t ht
  have hrule := EngineRuntime.sameTablesRule.toTraceRule
  refine (hm t).mono (fun a u hu => ⟨trivial, ?_⟩) fun u hu => ?_
  · exact ⟨hu.1.trans ht.1, hu.2.trans ht.2⟩
  · obtain ⟨-, hu⟩ := hu
    exact ⟨hu.1.trans ht.1, hu.2.trans ht.2⟩

theorem keeps_withLedger (m : LedgerM α) : Yields rt.SameTables (fun _ => True) (withLedger m) :=
  Yields.zoom (I := fun _ => True)
    (fun l _ => by
      unfold Ensures
      rcases m.run.run l with ⟨_ | _, _⟩
      · trivial
      · exact ⟨trivial, trivial⟩)
    (fun _ _ => trivial) fun _ _ ht _ => ht

theorem keeps_modify {f : EngineRuntime → EngineRuntime} (hf : ∀ t : EngineRuntime,
      t.SameTables (f t)) :
    Yields rt.SameTables (fun _ => True) (modify f : RuntimeM PUnit) := by
  intro t ht
  rw [ensures_modify]
  exact ⟨trivial, (hf t).1.trans ht.1, (hf t).2.trans ht.2⟩

theorem keeps_automatic (marketId : MarketId) (source : InboundEngineRecord)
    (sourceInputId : Option Text) : Yields rt.SameTables (fun _ => True)
      (evaluateAutomaticLiquidationsForMarket marketId source sourceInputId) :=
  keeps_of_emits (EngineRuntime.sameTablesOperations.evaluateAutomaticLiquidationsForMarket _ _ _)

/-- The last step of every handler but the duplicates. -/
theorem ensures_insertInputId {t : EngineRuntime} (ht : rt.SameTables t) (inputId : Option Text)
    (processed : ProcessedRuntimeRequest) :
    (∀ i ∈ (insertInputId inputId processed t).processedInputIds,
        i ∈ rt.processedInputIds ∨ i ∈ inputId) ∧
      (insertInputId inputId processed t).processedIdempotencyKeys =
        rt.processedIdempotencyKeys := by
  rw [← ht.1, ← ht.2]
  cases inputId with
  | none => exact ⟨fun i hi => Or.inl hi, rfl⟩
  | some inputId =>
    refine ⟨fun i hi => ?_, rfl⟩
    rcases Std.ExtTreeMap.mem_insertIfNew.1 hi with heq | hi
    · rw [Std.LawfulEqCmp.compare_eq_iff_eq] at heq
      exact Or.inr (congrArg some heq)
    · exact Or.inl hi

theorem ensures_markProcessed_records {t : EngineRuntime} (ht : rt.SameTables t)
    (parsed : ParsedEngineInput) {key : Text} (hkey : parsed.idempotencyKey = some key)
    (kind : RuntimeCommandKind) (record : InboundEngineRecord) (result : EngineProcessResult) :
    Ensures (do
      markProcessed kind record parsed.inputId key
      pure result) t (fun _ u => rt.Records parsed u) rt.SameTables := by
  unfold markProcessed
  rw [ensures_bind, ensures_modify, ensures_pure]
  obtain ⟨hids, hkeys⟩ := ensures_insertInputId ht parsed.inputId
    ⟨kind, record.topic, record.partition, record.offset, parsed.inputId, key⟩
  refine ⟨hids, fun k => ?_⟩
  rw [Std.ExtTreeMap.mem_insertIfNew, hkeys, Std.LawfulEqCmp.compare_eq_iff_eq, or_comm, hkey,
    Option.mem_some_iff]

theorem ensures_markInputProcessed_records {t : EngineRuntime} (ht : rt.SameTables t)
    (parsed : ParsedEngineInput) (hkey : parsed.idempotencyKey = none) (kind : RuntimeCommandKind)
    (record : InboundEngineRecord) (result : EngineProcessResult) :
    Ensures (do
      markInputProcessed kind record parsed.inputId
      pure result) t (fun _ u => rt.Records parsed u) rt.SameTables := by
  unfold markInputProcessed
  rw [ensures_bind, ensures_modify, ensures_pure]
  obtain ⟨hids, hkeys⟩ := ensures_insertInputId ht parsed.inputId
    ⟨kind, record.topic, record.partition, record.offset, parsed.inputId, []⟩
  refine ⟨hids, fun k => ?_⟩
  rw [hkeys, hkey]
  simp

/-- A sequence whose first program keeps the tables. -/
theorem Program.Yields.records {β : Type} {m : RuntimeM α} {f : α → RuntimeM β}
    {Q : β → EngineRuntime → Prop} {t : EngineRuntime}
    (hm : Yields rt.SameTables (fun _ => True) m) (ht : rt.SameTables t)
    (hf : ∀ a u, rt.SameTables u → Ensures (f a) u Q rt.SameTables) :
    Ensures (m >>= f) t Q rt.SameTables :=
  ensures_bind.2 ((hm t ht).mono (fun a u hu => hf a u hu.2) fun _ hu => hu)

theorem processParsed_records (record : InboundEngineRecord) (mode : ProcessingMode)
    (parsed : ParsedEngineInput) (hnew : ¬rt.Knows parsed) :
    Ensures (EngineRuntime.processParsed record mode parsed) rt (fun _ t => rt.Records parsed t)
      rt.SameTables := by
  have hrt : rt.SameTables rt := ⟨rfl, rfl⟩
  cases parsed with
  | placeOrder input =>
    unfold EngineRuntime.processParsed placeOrder
    dsimp only
    rw [ensures_bind, ensures_get]
    split
    · rename_i hdup
      exact absurd (knows_of_duplicate (.placeOrder input) rfl hdup) hnew
    · refine (keeps_of_emits (EngineRuntime.sameTablesOperations.placeNewOrder record trivial)).records hrt
        fun result t ht => ?_
      exact ensures_markProcessed_records ht (.placeOrder input) rfl _ _ _
  | cancelOrder input =>
    unfold EngineRuntime.processParsed cancelOrder
    dsimp only
    rw [ensures_bind, ensures_get]
    split
    · rename_i hdup
      exact absurd (knows_of_duplicate (.cancelOrder input) rfl hdup) hnew
    · refine (keeps_of_emits (EngineRuntime.sameTablesRule.liftExcept _)).records hrt
        fun command t ht => ?_
      refine (keeps_of_emits (EngineRuntime.sameTablesRule.executions.processCore _)).records ht
        fun coreEvents u hu => ?_
      refine (keeps_withLedger _).records hu fun translated v hv => ?_
      refine (keeps_withLedger _).records hv fun _ w hw => ?_
      exact ensures_markProcessed_records hw (.cancelOrder input) rfl _ _ _
  | liquidatePosition input =>
    unfold EngineRuntime.processParsed liquidatePosition
    dsimp only
    rw [ensures_bind, ensures_get]
    split
    · rename_i hdup
      exact absurd (knows_of_duplicate (.liquidatePosition input) rfl hdup) hnew
    · refine (keeps_of_emits (EngineRuntime.sameTablesRule.executions.executeLiquidation record input
        true)).records hrt fun result t ht => ?_
      exact ensures_markProcessed_records ht (.liquidatePosition input) rfl _ _ _
  | markPriceUpdated input =>
    unfold EngineRuntime.processParsed markPriceUpdated
    dsimp only
    rw [ensures_bind, ensures_get]
    split
    · rename_i hdup
      exact absurd (knows_of_duplicateInput (.markPriceUpdated input) hdup) hnew
    · refine (keeps_withLedger _).records hrt fun updated t ht => ?_
      refine (keeps_modify fun _ => ⟨rfl, rfl⟩).records ht fun _ u hu => ?_
      refine (keeps_withLedger _).records hu fun risks v hv => ?_
      refine (keeps_automatic _ _ _).records hv fun liquidations w hw => ?_
      exact ensures_markInputProcessed_records hw (.markPriceUpdated input) rfl _ _ _
  | fundingRateUpdated input =>
    unfold EngineRuntime.processParsed fundingRateUpdated
    dsimp only
    rw [ensures_bind, ensures_get]
    split
    · rename_i hdup
      exact absurd (knows_of_duplicateInput (.fundingRateUpdated input) hdup) hnew
    · refine (keeps_withLedger _).records hrt fun updated t ht => ?_
      refine (keeps_modify ?_).records ht fun _ u hu => ?_
      · exact fun _ => ⟨rfl, rfl⟩
      · exact ensures_markInputProcessed_records hu (.fundingRateUpdated input) rfl _ _ _
  | fundingSettlementTick input =>
    have hmark := fun {t} (ht : rt.SameTables t) => ensures_markInputProcessed_records ht
      (.fundingSettlementTick input) rfl .fundingSettlementTick record
    unfold EngineRuntime.processParsed fundingSettlementTick
    dsimp only
    rw [ensures_bind, ensures_get]
    split
    · rename_i hdup
      exact absurd (knows_of_duplicateInput (.fundingSettlementTick input) hdup) hnew
    · split_ifs
      · exact hmark hrt _
      · split
        · exact hmark hrt _
        · refine (keeps_withLedger _).records hrt fun paid t ht => ?_
          refine (keeps_modify fun _ => ⟨rfl, rfl⟩).records ht fun _ u hu => ?_
          refine (keeps_automatic _ _ _).records hu fun liquidations v hv => ?_
          exact hmark hv _

/-- A command that was not seen before is processed, in either mode. -/
theorem processParsed_processed (record : InboundEngineRecord) (mode : ProcessingMode)
    (parsed : ParsedEngineInput) (hcommand : parsed.replyTypes.isSome) (hnew : ¬rt.Knows parsed) :
    Ensures (EngineRuntime.processParsed record mode parsed) rt
      (fun a _ => a.status = .processed) fun _ => True := by
  have hlive : Ensures (EngineRuntime.processParsed record .live parsed) rt
      (fun a _ => a.status = .processed) fun _ => True := by
    refine ((processParsed_answered record parsed hnew).and
      (processParsed_quiet record parsed rt)).mono ?_ fun _ _ => trivial
    rintro a t ⟨hanswered, hquiet⟩
    obtain ⟨⟨envelope, types⟩, htypes⟩ := Option.isSome_iff_exists.1 hcommand
    unfold ParsedEngineInput.Answered at hanswered
    rw [htypes] at hanswered
    obtain ⟨reply, hreplies, -⟩ := hanswered
    by_contra hstatus
    rw [(hquiet hstatus).1] at hreplies
    cases hreplies
  cases mode with
  | live => exact hlive
  | replaySilent =>
    rw [processParsed_replaySilent, ensures_map]
    exact hlive

end Handlers

section Histories

/-- What the parser made of the input of a step. -/
def RuntimeStep.parsed : RuntimeStep → Option ParsedEngineInput
  | input _ (.ok request) _ => some request.parsed
  | _ => none

/-- The step is a command under this idempotency key. -/
def RuntimeStep.HasKey (s : RuntimeStep) (key : Text) : Prop :=
  ∃ parsed ∈ s.parsed, key ∈ parsed.idempotencyKey

def inputIdsOf (steps : List RuntimeStep) : List Text :=
  steps.filterMap fun s => s.parsed.bind (·.inputId)

/-- Some command of the history under this key returned. -/
def KeyReturned (config : EngineRuntimeConfig) (steps : List RuntimeStep) (key : Text) : Prop :=
  ∃ before s after, steps = before ++ s :: after ∧ s.HasKey key ∧
    ∃ result, (((EngineRuntime.new config).run before).2.step s).1 = .ok result

theorem keyReturned_snoc {config : EngineRuntimeConfig} {steps : List RuntimeStep}
    {s : RuntimeStep} {key : Text} : KeyReturned config (steps ++ [s]) key ↔
      KeyReturned config steps key ∨ s.HasKey key ∧
        ∃ result, (((EngineRuntime.new config).run steps).2.step s).1 = .ok result := by
  constructor
  · rintro ⟨before, s', after, hsplit, hkey, hreturned⟩
    rcases List.eq_nil_or_concat after with rfl | ⟨after, last, rfl⟩
    · obtain ⟨rfl, hlast⟩ := List.append_inj' hsplit rfl
      cases hlast
      exact Or.inr ⟨hkey, hreturned⟩
    · rw [List.concat_eq_append, ← List.cons_append, ← List.append_assoc] at hsplit
      obtain ⟨rfl, -⟩ := List.append_inj' hsplit rfl
      exact Or.inl ⟨before, s', after, rfl, hkey, hreturned⟩
  · rintro (⟨before, s', after, rfl, hkey, hreturned⟩ | ⟨hkey, hreturned⟩)
    · exact ⟨before, s', after ++ [s], by simp, hkey, hreturned⟩
    · exact ⟨steps, s, [], rfl, hkey, hreturned⟩

variable {rt : EngineRuntime}

theorem step_sameTables (hpositive : rt.ledger.marketSequences.Positive) {s : RuntimeStep}
    (hnone : s.parsed = none) : rt.SameTables (rt.step s).2 := by
  have hsame : Ensures s.live rt (fun _ t => rt.SameTables t) rt.SameTables := by
    have hrule := EngineRuntime.sameTablesOperations
    have hout : ∀ {m : RuntimeM EngineProcessResult},
        Emits id (·.events) (fun rt _ rt' => rt.SameTables rt') m →
        Ensures m rt (fun _ t => rt.SameTables t) rt.SameTables := fun hm =>
      (hm rt).mono (fun _ _ h => h) fun _ ⟨_, h⟩ => h
    cases s with
    | input record parsed mode =>
      cases parsed with
      | error e => exact ⟨rfl, rfl⟩
      | ok request => cases hnone
    | evaluate source mode => exact hout (hrule.evaluateAllAutomaticLiquidations source none)
    | evaluateMarket marketId source mode =>
      exact hout (hrule.evaluateAutomaticLiquidationsForMarket marketId source none)
    | restart config =>
      unfold RuntimeStep.live
      rw [ensures_bind]
      refine (ensures_restart hpositive config).mono ?_ fun _ => False.elim
      rintro _ _ rfl
      exact ⟨rfl, rfl⟩
  unfold EngineRuntime.step
  rw [RuntimeStep.program_eq]
  refine Ensures.whatever ?_
  rw [ensures_map]
  exact hsame

/-- What one step adds to the tables, if its input id is new. -/
theorem step_tables (hpositive : rt.ledger.marketSequences.Positive) (s : RuntimeStep)
    (hfresh : ∀ parsed ∈ s.parsed, ∀ i ∈ parsed.inputId, i ∉ rt.processedInputIds) :
    (∀ i ∈ (rt.step s).2.processedInputIds,
        i ∈ rt.processedInputIds ∨ i ∈ s.parsed.bind (·.inputId)) ∧
      ∀ k, k ∈ (rt.step s).2.processedIdempotencyKeys ↔ k ∈ rt.processedIdempotencyKeys ∨
        s.HasKey k ∧ ∃ result, (rt.step s).1 = .ok result := by
  cases hparsed : s.parsed with
  | none =>
    obtain ⟨hids, hkeys⟩ := step_sameTables hpositive hparsed
    rw [hids, hkeys]
    refine ⟨fun i hi => Or.inl hi, fun k => ⟨Or.inl, ?_⟩⟩
    rintro (hk | ⟨⟨parsed, hsome, -⟩, -⟩)
    · exact hk
    · rw [hparsed] at hsome
      cases hsome
  | some parsed =>
    have hkey : ∀ k, s.HasKey k ↔ k ∈ parsed.idempotencyKey := by
      intro k
      unfold RuntimeStep.HasKey
      rw [hparsed]
      simp
    simp only [hkey]
    have hfresh := hfresh parsed hparsed
    cases s with
    | evaluate | evaluateMarket | restart => cases hparsed
    | input record outcome mode =>
      cases outcome with
      | error e => cases hparsed
      | ok request =>
        obtain rfl : request.parsed = parsed := Option.some.inj hparsed
        by_cases hknows : rt.Knows request.parsed
        · obtain ⟨reason, key, original, hstep⟩ := step_known hknows record mode
          rw [hstep]
          refine ⟨fun i hi => Or.inl hi, fun k => ⟨Or.inl, ?_⟩⟩
          rintro (hk | ⟨hk, -⟩)
          · exact hk
          · rcases hknows with ⟨i, hi, hin⟩ | ⟨k', hk', hin⟩
            · exact absurd hin (hfresh i hi)
            · rwa [Option.mem_unique hk hk']
        · have hrecords := processParsed_records record mode request.parsed hknows
          rw [step_input]
          rcases hr : (EngineRuntime.processParsed record mode request.parsed).run.run rt with
            ⟨_ | result, t⟩
          · obtain ⟨hids, hkeys⟩ := hrecords.threw hr
            dsimp only
            rw [hids, hkeys]
            exact ⟨fun i hi => Or.inl hi, fun k => by simp⟩
          · obtain ⟨hids, hkeys⟩ := hrecords.returned hr
            refine ⟨hids, fun k => ?_⟩
            dsimp only
            rw [hkeys]
            simp

/-- The tables after a run with distinct input ids. -/
theorem run_tables (config : EngineRuntimeConfig) (steps : List RuntimeStep)
    (hdistinct : (inputIdsOf steps).Nodup) :
    (∀ i ∈ ((EngineRuntime.new config).run steps).2.processedInputIds, i ∈ inputIdsOf steps) ∧
      ∀ k, k ∈ ((EngineRuntime.new config).run steps).2.processedIdempotencyKeys ↔
        KeyReturned config steps k := by
  induction steps using List.reverseRecOn with
  | nil =>
    have hids : ∀ i : Text, i ∉ (EngineRuntime.new config).processedInputIds := fun i hi =>
      Std.ExtTreeMap.not_mem_empty hi
    have hkeys : ∀ k : Text, k ∉ (EngineRuntime.new config).processedIdempotencyKeys := fun k hk =>
      Std.ExtTreeMap.not_mem_empty hk
    refine ⟨fun i hi => absurd hi (hids i), fun k => iff_of_false (hkeys k) ?_⟩
    rintro ⟨before, s, after, hsplit, -⟩
    simp at hsplit
  | append_singleton steps s ih =>
    unfold inputIdsOf at hdistinct
    rw [List.filterMap_append, List.nodup_append] at hdistinct
    obtain ⟨hids, hkeys⟩ := ih hdistinct.1
    have hfresh : ∀ parsed ∈ s.parsed, ∀ i ∈ parsed.inputId,
        i ∉ ((EngineRuntime.new config).run steps).2.processedInputIds := by
      intro parsed hparsed i hi hin
      refine hdistinct.2.2 i (hids i hin) i ?_ rfl
      rw [List.mem_filterMap]
      exact ⟨s, List.mem_singleton_self s, by rw [Option.mem_def.1 hparsed]; exact hi⟩
    obtain ⟨hids', hkeys'⟩ := step_tables (positive_run (positive_new config) steps) s hfresh
    have hrun : ((EngineRuntime.new config).run (steps ++ [s])).2 =
        (((EngineRuntime.new config).run steps).2.step s).2 := by
      rw [EngineRuntime.run_append]
      rfl
    rw [hrun]
    refine ⟨fun i hi => ?_, fun k => ?_⟩
    · unfold inputIdsOf
      rw [List.filterMap_append, List.mem_append]
      rcases hids' i hi with hi | hi
      · exact Or.inl (hids i hi)
      · right
        rw [List.mem_filterMap]
        exact ⟨s, List.mem_singleton_self s, hi⟩
    · rw [hkeys', hkeys, keyReturned_snoc]

/-- After this history the request is answered as a duplicate. -/
def Suppressed (config : EngineRuntimeConfig) (history : List RuntimeStep) (request : RuntimeStep) :
    Prop :=
  ∃ result, (((EngineRuntime.new config).run history).2.step request).1 = .ok result ∧
    result.status = .duplicate

instance (config : EngineRuntimeConfig) (history : List RuntimeStep) (request : RuntimeStep) :
    Decidable (Suppressed config history request) :=
  match h : (((EngineRuntime.new config).run history).2.step request).1 with
  | .ok result => decidable_of_iff (result.status = .duplicate) (by
      unfold Suppressed
      simp [h])
  | .error _ => isFalse (by
      unfold Suppressed
      simp [h])

/-- Every command of the history under this key returned. -/
def AllReturned (config : EngineRuntimeConfig) (history : List RuntimeStep) (key : Text) : Prop :=
  ∀ before s after, history = before ++ s :: after → s.HasKey key →
    ∃ result, (((EngineRuntime.new config).run before).2.step s).1 = .ok result

theorem AllReturned.keyReturned_iff {config : EngineRuntimeConfig} {history : List RuntimeStep}
    {key : Text} (h : AllReturned config history key) :
    KeyReturned config history key ↔ ∃ s ∈ history, s.HasKey key := by
  constructor
  · rintro ⟨before, s, after, rfl, hkey, -⟩
    exact ⟨s, by simp, hkey⟩
  · rintro ⟨s, hs, hkey⟩
    obtain ⟨before, after, rfl⟩ := List.append_of_mem hs
    exact ⟨before, s, after, rfl, hkey, h before s after rfl hkey⟩

variable {config : EngineRuntimeConfig} {history : List RuntimeStep} {record : InboundEngineRecord}
  {request : EngineInput} {mode : ProcessingMode} {key : Text}

theorem suppressed_iff_keyReturned (hkey : key ∈ request.parsed.idempotencyKey)
    (hdistinct : (inputIdsOf (history ++ [.input record (.ok request) mode])).Nodup) :
    Suppressed config history (.input record (.ok request) mode) ↔
      KeyReturned config history key := by
  unfold inputIdsOf at hdistinct
  rw [List.filterMap_append, List.nodup_append] at hdistinct
  obtain ⟨hids, hkeys⟩ := run_tables config history hdistinct.1
  rw [← hkeys]
  constructor
  · rintro ⟨result, hresult, hstatus⟩
    by_contra hunknown
    have hnew : ¬((EngineRuntime.new config).run history).2.Knows request.parsed := by
      rintro (⟨i, hi, hin⟩ | ⟨k, hk, hin⟩)
      · refine hdistinct.2.2 i (hids i hin) i ?_ rfl
        rw [List.mem_filterMap]
        exact ⟨_, List.mem_singleton_self _, hi⟩
      · rw [Option.mem_unique hk hkey] at hin
        exact hunknown hin
    have hcommand : request.parsed.replyTypes.isSome := by
      cases hparsed : request.parsed with
      | placeOrder | cancelOrder | liquidatePosition => rfl
      | markPriceUpdated | fundingRateUpdated | fundingSettlementTick =>
        rw [hparsed] at hkey
        cases hkey
    have hprocessed := (processParsed_processed record mode request.parsed hcommand hnew).returned
      (Prod.ext hresult rfl)
    rw [hprocessed] at hstatus
    cases hstatus
  · intro hknown
    have hknows : ((EngineRuntime.new config).run history).2.Knows request.parsed :=
      Or.inr ⟨key, hkey, hknown⟩
    obtain ⟨reason, found, original, hstep⟩ := step_known hknows record mode
    exact ⟨_, congrArg Prod.fst hstep, rfl⟩

/-- The user whose command the step is. -/
def RuntimeStep.sender (s : RuntimeStep) : Option AdapterUserId :=
  s.parsed.bind fun parsed => parsed.replyTypes.map (·.1.userId)

/-- A command is suppressed exactly if an earlier one under its key returned, whoever sent it; so
histories with the same inputs of its sender agree as long as nobody else uses the key and the
commands under it return. -/
theorem suppression_follows_key (hkey : key ∈ request.parsed.idempotencyKey)
    (hdistinct : (inputIdsOf (history ++ [.input record (.ok request) mode])).Nodup) :
    (Suppressed config history (.input record (.ok request) mode) ↔
      KeyReturned config history key) ∧
    ∀ history' : List RuntimeStep,
      (inputIdsOf (history' ++ [.input record (.ok request) mode])).Nodup →
      (∀ s ∈ history ++ history', s.HasKey key →
        s.sender = RuntimeStep.sender (.input record (.ok request) mode)) →
      history.filter (·.sender = RuntimeStep.sender (.input record (.ok request) mode)) =
        history'.filter (·.sender = RuntimeStep.sender (.input record (.ok request) mode)) →
      AllReturned config history key → AllReturned config history' key →
      (Suppressed config history (.input record (.ok request) mode) ↔
        Suppressed config history' (.input record (.ok request) mode)) := by
  refine ⟨suppressed_iff_keyReturned hkey hdistinct, ?_⟩
  intro history' hdistinct' hothers hown hreturned hreturned'
  rw [suppressed_iff_keyReturned hkey hdistinct, suppressed_iff_keyReturned hkey hdistinct',
    hreturned.keyReturned_iff, hreturned'.keyReturned_iff]
  have hmem : ∀ s, s.HasKey key → s ∈ history ++ history' → (s ∈ history ↔ s ∈ history') := by
    intro s hs hin
    have hsame := congrArg (s ∈ ·) hown
    simpa [hothers s hin hs] using hsame
  constructor
  · rintro ⟨s, hs, hhas⟩
    exact ⟨s, (hmem s hhas (List.mem_append_left _ hs)).1 hs, hhas⟩
  · rintro ⟨s, hs, hhas⟩
    exact ⟨s, (hmem s hhas (List.mem_append_right _ hs)).2 hs, hhas⟩

/-- An order of another user under the key of `samplePlace 1`. -/
def sampleSharedInput : EngineInput where
  parsed := .placeOrder
    { inputId := some (ascii "in-2")
      envelope := ⟨ascii "req-2", ascii "idem-1", 12, 3⟩
      orderId := 2
      reservationId := ascii "res-2"
      marketId := 1
      side := .short
      orderType := .limit
      timeInForce := .gtc
      price := 110
      quantity := 5
      reduceOnly := false
      marginAsset := ascii "USDC"
      reservedMarginAmount := 100
      leverage := 10 }
  wellFormed := by decide

def sampleShared : RuntimeStep := .input ⟨engineInputTopic, 0, 2⟩ (.ok sampleSharedInput) .live

theorem suppression_follows_key_sample :
    Suppressed sampleRuntimeConfig [samplePlace 1 11 .long 100 10] sampleShared := by
  have hreturned : KeyReturned sampleRuntimeConfig [samplePlace 1 11 .long 100 10]
      (ascii "idem-1") := by
    refine ⟨[], samplePlace 1 11 .long 100 10, [], rfl, ⟨_, rfl, rfl⟩, ?_⟩
    decide +kernel
  exact (suppression_follows_key rfl (by decide +kernel)).1.2 hreturned

/-- Without the order of user 11 that of user 12 is processed. -/
theorem suppressed_by_another_user :
    (inputIdsOf [samplePlace 1 11 .long 100 10, sampleShared]).Nodup ∧
      (samplePlace 1 11 .long 100 10).sender = some 11 ∧ sampleShared.sender = some 12 ∧
      Suppressed sampleRuntimeConfig [samplePlace 1 11 .long 100 10] sampleShared ∧
      ¬Suppressed sampleRuntimeConfig [] sampleShared ∧
      ∃ result, (((EngineRuntime.new sampleRuntimeConfig).run []).2.step sampleShared).1 =
        .ok result := by
  refine ⟨by decide +kernel, rfl, rfl, by decide +kernel, by decide +kernel, by decide +kernel⟩

end Histories
end PerpexEngine
