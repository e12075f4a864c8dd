import PerpexEngine.Broker.PartitionWorker
import PerpexEngine.Recovery.Handover

/-! The workers of a partition one after the other, each of them ended anywhere: no input is processed
live twice, and a checkpoint holds only inputs that were delivered or replayed. -/
namespace PerpexEngine
open Program

section History

def polledRecords (journal : List AppAction) : List ConsumedRecord :=
  journal.filterMap fun
    | .polled record => some record
    | _ => none

/-- All outputs of the live processing of a record were accepted. -/
def DeliveredIn (journal : List AppAction) (record : ConsumedRecord) : Prop :=
  ∃ earlier result since, journal = earlier ++ .polled record :: .processed record result :: since ∧
    ∀ output ∈ result.outputs, .produced output.request .ok ∈ since

/-- The state was reached by processing these records, live or replayed, over any number of
checkpoints and startup scans. -/
inductive EngineRuntime.Incorporates (parse : Text → Except Text EngineInput) :
    EngineRuntime → List ConsumedRecord → Prop
  | new (config : EngineRuntimeConfig) : Incorporates parse (.new config) []
  | record {rt : EngineRuntime} {records : List ConsumedRecord} (h : Incorporates parse rt records)
      (record : ConsumedRecord) (mode : ProcessingMode) :
      Incorporates parse (rt.step (.input record.inbound (parse record.value) mode)).2
        (records ++ [record])
  | scan {rt : EngineRuntime} {records : List ConsumedRecord} (h : Incorporates parse rt records)
      (source : InboundEngineRecord) :
      Incorporates parse (rt.step (.evaluate source .live)).2 records
  | restored {rt fresh base : EngineRuntime} {records : List ConsumedRecord}
      (h : Incorporates parse rt records) {checkpoint : EngineCheckpoint}
      (hmade : createCheckpoint rt checkpoint.sourcePosition checkpoint.checkpointId =
        .ok checkpoint) (hrestored : Restores checkpoint fresh base) :
      Incorporates parse base records

/-- The checkpoint was made of a state that incorporates only such records. -/
def EngineCheckpoint.HoldsOnly (parse : Text → Except Text EngineInput)
    (checkpoint : EngineCheckpoint) (P : ConsumedRecord → Prop) : Prop :=
  ∃ rt records, EngineRuntime.Incorporates parse rt records ∧
    createCheckpoint rt checkpoint.sourcePosition checkpoint.checkpointId = .ok checkpoint ∧
    ∀ record ∈ records, P record

/-- What one worker did: the records it replayed, whether it got through its recovery, and its
journal. -/
structure WorkerLife where
  replayed : List ConsumedRecord
  recovered : Bool
  journal : List AppAction

def WorkerLife.polled (life : WorkerLife) : List ConsumedRecord := polledRecords life.journal

/-- What the one replayed comes before all that the other polled live. -/
def WorkerLife.ReplaysBefore (life other : WorkerLife) : Prop :=
  ∀ record ∈ life.replayed, ∀ polled ∈ other.polled, record.offset < polled.offset

/-- What is left of the workers so far: the checkpoints that were ever stored, an offset up to which
the log is known to be written, and what each of them did. -/
structure PartitionHistory where
  stored : List EngineCheckpoint
  written : ℤ
  lives : List WorkerLife

/-- Whether the worker takes the recovery for complete. -/
def completes : Except Text (Option RecoveryResult) → Bool
  | .ok (some result) => (failIfRecoveryIncomplete result).isOk
  | _ => false

namespace PartitionHistory
variable (history : PartitionHistory)

def polled : List ConsumedRecord := history.lives.flatMap (·.polled)

def Delivered (record : ConsumedRecord) : Prop :=
  ∃ life ∈ history.lives, DeliveredIn life.journal record

def Replayed (record : ConsumedRecord) : Prop := ∃ life ∈ history.lives, record ∈ life.replayed

/-- A worker that got through its recovery replayed the record. -/
def Recovered (record : ConsumedRecord) : Prop :=
  ∃ life ∈ history.lives, life.recovered = true ∧ record ∈ life.replayed

/-- A worker before it has done anything. -/
def start (market : EngineMarketWorker) : EngineAppState PartitionWorld :=
  .start ⟨⟨0, 0⟩, history.stored, 0⟩ (.new ⟨[], 1, 1, market.clock⟩)

/-- A worker where it ends. A process that dies at a call is one whose call throws. -/
def worker (services : PartitionServices) (market : EngineMarketWorker) (rounds turns : ℕ) :
    EngineAppState PartitionWorld :=
  ((runEnginePartitionWorker services market rounds turns).run.run (history.start market)).2

/-- The records that a worker replays, however its recovery ends, and whether it gets through it. -/
def replays (services : PartitionServices) (market : EngineMarketWorker) (rounds : ℕ) :
    List ConsumedRecord × Bool :=
  match firstTradeIdForMarket market.marketId with
  | .error _ => ([], false)
  | .ok firstTradeId =>
    let recovery := services.recovery market.toEngineWorkerConfig rounds
      (.new ⟨[market.symbolConfig], 1, firstTradeId, market.clock⟩) (history.start market).world
    (recovery.2.applied, completes recovery.1)

/-- The history with one more worker. -/
def extend (services : PartitionServices) (market : EngineMarketWorker) (rounds turns : ℕ)
    (written : ℤ) : PartitionHistory where
  stored := (history.worker services market rounds turns).world.stored
  written := written
  lives := history.lives ++
    [⟨(history.replays services market rounds).1, (history.replays services market rounds).2,
      (history.worker services market rounds turns).journal⟩]

/-- Any number of workers on one log, which is only written at its end: the high watermark is past all
that was read before. The store answers a load with an error, with nothing or with any checkpoint that
was ever stored. -/
inductive Possible (parse : Text → Except Text EngineInput) (log : List ConsumedRecord) :
    PartitionHistory → Prop
  | new : Possible parse log ⟨[], 0, []⟩
  | worker {history : PartitionHistory} (h : Possible parse log history)
      (services : PartitionServices) (hparse : services.parse = parse)
      (hlog : services.log.records = log) (hend : history.written ≤ services.log.watermark.high)
      (hload : ∀ checkpoint, services.loadAnswer = .ok (some checkpoint) →
        checkpoint ∈ history.stored) (market : EngineMarketWorker) (rounds turns : ℕ) (written : ℤ)
      (hhigh : services.log.watermark.high ≤ written)
      (hread : ∀ record ∈ polledRecords (history.worker services market rounds turns).journal,
        record.offset < written) :
      Possible parse log (history.extend services market rounds turns written)

end PartitionHistory
end History

section Live
variable {services : PartitionServices} {known : ConsumedRecord → Prop} {start : ℤ}
  {s : EngineAppState PartitionWorld} {journal : List AppAction} {record : ConsumedRecord}

/-- The record whose cycle is not yet over. -/
def CycleStage.current : CycleStage → Option ConsumedRecord
  | polled record => some record
  | publishing record _ _ => some record
  | _ => none

/-- What the journal shows of the cycle. -/
def CycleStage.Shown (journal : List AppAction) : CycleStage → Prop
  | polled record => ∃ earlier, journal = earlier ++ [.polled record]
  | publishing record outputs clean => ∃ earlier result since,
      journal = earlier ++ .polled record :: .processed record result :: since ∧
      (clean = true → ∃ tried, result.outputs = tried ++ outputs ∧
        ∀ output ∈ tried, .produced output.request .ok ∈ since)
  | checkpointed record => DeliveredIn journal record
  | _ => True

/-- A live worker: what it has read, what its state holds, and what its checkpoint does. -/
structure LiveWorker (services : PartitionServices) (known : ConsumedRecord → Prop) (start : ℤ)
    (stage : CycleStage) (s : EngineAppState PartitionWorld) : Prop where
  le : start ≤ s.world.cursor.position
  read : polledRecords s.journal = services.log.between start s.world.cursor.position
  shown : stage.Shown s.journal
  holds : ∃ records, EngineRuntime.Incorporates services.parse s.runtime records ∧
    ∀ record ∈ records, (known record ∨ DeliveredIn s.journal record) ∨
      stage.current = some record
  stored : ∀ checkpoint ∈ s.world.stored, checkpoint.HoldsOnly services.parse fun record =>
    known record ∨ DeliveredIn s.journal record

theorem DeliveredIn.append (h : DeliveredIn journal record) (action : AppAction) :
    DeliveredIn (journal ++ [action]) record := by
  obtain ⟨earlier, result, since, rfl, houtputs⟩ := h
  refine ⟨earlier, result, since ++ [action], by simp, fun output houtput => ?_⟩
  exact List.mem_append_left _ (houtputs output houtput)

theorem polledRecords_append (journal : List AppAction) (action : AppAction) :
    polledRecords (journal ++ [action]) = polledRecords journal ++ polledRecords [action] :=
  List.filterMap_append

theorem EngineCheckpoint.HoldsOnly.mono {parse : Text → Except Text EngineInput}
    {checkpoint : EngineCheckpoint} {P Q : ConsumedRecord → Prop}
    (h : checkpoint.HoldsOnly parse P) (hPQ : ∀ record, P record → Q record) :
    checkpoint.HoldsOnly parse Q := by
  obtain ⟨rt, records, hrt, hmade, hrecords⟩ := h
  exact ⟨rt, records, hrt, hmade, fun record hrecord => hPQ record (hrecords record hrecord)⟩

theorem createCheckpoint_made {rt : EngineRuntime} {position : CheckpointSourcePosition} {id : Text}
    {checkpoint : EngineCheckpoint} (h : createCheckpoint rt position id = .ok checkpoint) :
    createCheckpoint rt checkpoint.sourcePosition checkpoint.checkpointId = .ok checkpoint := by
  have hfields : checkpoint.sourcePosition = position ∧ checkpoint.checkpointId = id := by
    unfold createCheckpoint at h
    split at h
    · cases h
    · cases h
      exact ⟨rfl, rfl⟩
  rw [hfields.1, hfields.2, h]

/-- A save leaves the cursor, and what is stored afterwards was stored before or is made of the
runtime. -/
theorem saveCheckpointForSource_spec (services : PartitionServices)
    (position : CheckpointSourcePosition) (rt : EngineRuntime) (world : PartitionWorld) :
    (services.saveCheckpointForSource position rt world).2.cursor = world.cursor ∧
      ∀ checkpoint ∈ (services.saveCheckpointForSource position rt world).2.stored,
        checkpoint ∈ world.stored ∨
          createCheckpoint rt checkpoint.sourcePosition checkpoint.checkpointId =
            .ok checkpoint := by
  unfold PartitionServices.saveCheckpointForSource
  cases hmade : createCheckpoint rt position (checkpointIdFor position) with
  | error message => exact ⟨rfl, fun _ h => .inl h⟩
  | ok made =>
    refine ⟨rfl, fun checkpoint hstored => ?_⟩
    unfold PartitionServices.saveCheckpoint at hstored
    dsimp only at hstored
    split at hstored
    · rcases List.mem_append.1 hstored with hold | hnew
      · exact .inl hold
      · cases List.mem_singleton.1 hnew
        exact .inr (createCheckpoint_made hmade)
    · exact .inl hstored

theorem saveCheckpointForRecord_spec (services : PartitionServices) (source : ConsumedRecord)
    (rt : EngineRuntime) (world : PartitionWorld) :
    (services.saveCheckpointForRecord source rt world).2.cursor = world.cursor ∧
      ∀ checkpoint ∈ (services.saveCheckpointForRecord source rt world).2.stored,
        checkpoint ∈ world.stored ∨
          createCheckpoint rt checkpoint.sourcePosition checkpoint.checkpointId =
            .ok checkpoint := by
  unfold PartitionServices.saveCheckpointForRecord
  cases PartitionServices.nextOffset source with
  | error message => exact ⟨rfl, fun _ h => .inl h⟩
  | ok next => exact saveCheckpointForSource_spec services _ rt world

namespace LiveWorker
variable {stage : CycleStage}

/-- A call that reads nothing; what it saves is accounted for. -/
theorem call (h : LiveWorker services known start stage s) (stage' : CycleStage)
    (world : PartitionWorld) (action : AppAction) (hcursor : world.cursor = s.world.cursor)
    (hstored : ∀ checkpoint ∈ world.stored, checkpoint ∈ s.world.stored ∨
      checkpoint.HoldsOnly services.parse fun record =>
        known record ∨ DeliveredIn (s.journal ++ [action]) record)
    (hquiet : polledRecords [action] = []) (hshown : stage'.Shown (s.journal ++ [action]))
    (hcurrent : ∀ record, stage.current = some record → stage'.current = some record ∨
      DeliveredIn (s.journal ++ [action]) record) :
    LiveWorker services known start stage' (s.after world action) where
  le := by
    change start ≤ world.cursor.position
    rw [hcursor]
    exact h.le
  read := by
    change polledRecords (s.journal ++ [action]) = services.log.between start world.cursor.position
    rw [polledRecords_append, hquiet, List.append_nil, hcursor]
    exact h.read
  shown := hshown
  holds := by
    obtain ⟨records, hrt, hrecords⟩ := h.holds
    refine ⟨records, hrt, fun record hrecord => ?_⟩
    rcases hrecords record hrecord with (hknown | hdelivered) | hcurrent'
    · exact .inl (.inl hknown)
    · exact .inl (.inr (hdelivered.append action))
    · exact (hcurrent record hcurrent').symm.imp Or.inr id
  stored := by
    intro checkpoint hcheckpoint
    rcases hstored checkpoint hcheckpoint with hold | hnew
    · refine (h.stored checkpoint hold).mono fun record hrecord => ?_
      exact hrecord.imp id fun hdelivered => hdelivered.append action
    · exact hnew

/-- All that the state holds is accounted for once the cycle of the last record is. -/
theorem accounted (h : LiveWorker services known start stage s)
    (hcurrent : ∀ record, stage.current = some record → DeliveredIn s.journal record) :
    ∃ records, EngineRuntime.Incorporates services.parse s.runtime records ∧
      ∀ record ∈ records, known record ∨ DeliveredIn s.journal record := by
  obtain ⟨records, hrt, hrecords⟩ := h.holds
  refine ⟨records, hrt, fun record hrecord => ?_⟩
  rcases hrecords record hrecord with haccounted | hcurrent'
  · exact haccounted
  · exact .inr (hcurrent record hcurrent')

theorem polls (h : LiveWorker services known start .idle s)
    (hpoll : (services.app.poll s.world).1 = .ok (some record)) :
    LiveWorker services known start (.polled record)
      (s.after (services.app.poll s.world).2 (.polled record)) := by
  obtain ⟨hnext, hposition⟩ := @poll_some services.log s.world.cursor record hpoll
  change (services.app.poll s.world).2.cursor.position = _ at hposition
  have hle := OffsetLog.le_next hnext
  refine ⟨?_, ?_, ⟨s.journal, rfl⟩, ?_, ?_⟩
  · change start ≤ (services.app.poll s.world).2.cursor.position
    rw [hposition]
    exact (h.le.trans hle).trans (by omega)
  · change polledRecords (s.journal ++ [.polled record]) =
      services.log.between start (services.app.poll s.world).2.cursor.position
    rw [polledRecords_append, h.read, hposition]
    exact (OffsetLog.between_next services.log.increasing h.le hnext).symm
  · obtain ⟨records, hrt, hrecords⟩ := h.accounted (by simp [CycleStage.current])
    refine ⟨records, hrt, fun other hother => .inl ?_⟩
    exact (hrecords other hother).imp id fun hdelivered => hdelivered.append _
  · intro checkpoint hcheckpoint
    refine (h.stored checkpoint hcheckpoint).mono fun other hother => ?_
    exact hother.imp id fun hdelivered => hdelivered.append _

/-- The runtime takes the record that was polled. -/
theorem takes (h : LiveWorker services known start (.polled record) s) :
    ∃ records, EngineRuntime.Incorporates services.parse (s.runtime.step
        (.input record.inbound (services.parse record.value) .live)).2 records ∧
      ∀ other ∈ records, (known other ∨ DeliveredIn s.journal other) ∨ some record = some other := by
  obtain ⟨records, hrt, hrecords⟩ := h.holds
  refine ⟨records ++ [record], hrt.record record .live, fun other hother => ?_⟩
  rcases List.mem_append.1 hother with hother | hother
  · exact hrecords other hother
  · exact .inr (by rw [List.mem_singleton.1 hother])

end LiveWorker

theorem cycleRule_liveWorker (services : PartitionServices) (known : ConsumedRecord → Prop)
    (start : ℤ) : CycleRule services.app (LiveWorker services known start) where
  asked s h := ⟨h.le, h.read, h.shown, h.holds, h.stored⟩
  nothing s h hnothing := by
    have hposition : (services.app.poll s.world).2.cursor.position = s.world.cursor.position :=
      poll_other hnothing
    refine ⟨?_, ?_, h.shown, h.holds, h.stored⟩
    · change start ≤ (services.app.poll s.world).2.cursor.position
      rw [hposition]
      exact h.le
    · change polledRecords s.journal =
        services.log.between start (services.app.poll s.world).2.cursor.position
      rw [hposition]
      exact h.read
  polled s record h hpoll := h.polls hpoll
  threw s record message rt h hstep := by
    have htakes := h.takes
    rw [show services.parse = services.app.parse from rfl, hstep] at htakes
    exact ⟨h.le, h.read, h.shown, htakes, h.stored⟩
  processed s record result rt h hstep := by
    have htakes := h.takes
    rw [show services.parse = services.app.parse from rfl, hstep] at htakes
    obtain ⟨records, hrt, hrecords⟩ := htakes
    obtain ⟨earlier, hjournal⟩ := h.shown
    refine ⟨h.le, ?_, ?_, ⟨records, hrt, fun other hother => ?_⟩, fun checkpoint hcheckpoint => ?_⟩
    · rw [polledRecords_append]
      exact (List.append_nil _).trans h.read
    · exact ⟨earlier, result, [], by rw [hjournal, List.append_assoc]; rfl, fun _ =>
        ⟨[], rfl, fun _ hnone => absurd hnone List.not_mem_nil⟩⟩
    · exact (hrecords other hother).imp (fun h => h.imp id fun hdelivered => hdelivered.append _) id
    · refine (h.stored checkpoint hcheckpoint).mono fun other hother => ?_
      exact hother.imp id fun hdelivered => hdelivered.append _
  produced s record output outputs clean h := by
    obtain ⟨earlier, result, since, hjournal, htried⟩ := h.shown
    refine h.call _ _ _ rfl (fun _ hstored => .inl hstored) rfl ?_ fun other hcurrent => .inl hcurrent
    refine ⟨earlier, result, since ++ [.produced output.request
      (services.app.produce output.request s.world).1], by rw [hjournal]; simp, fun hclean => ?_⟩
    obtain ⟨hclean, hok⟩ := Bool.and_eq_true_iff.1 hclean
    obtain ⟨tried, houtputs, haccepted⟩ := htried hclean
    refine ⟨tried ++ [output], by rw [houtputs]; simp, fun other hother => ?_⟩
    rcases List.mem_append.1 hother with hother | hother
    · exact List.mem_append_left _ (haccepted other hother)
    · rw [List.mem_singleton.1 hother, of_decide_eq_true hok]
      exact List.mem_append_right _ List.mem_cons_self
  hooked s record h := by
    have hdelivered : DeliveredIn s.journal record := by
      obtain ⟨earlier, result, since, hjournal, htried⟩ := h.shown
      obtain ⟨tried, houtputs, haccepted⟩ := htried rfl
      rw [List.append_nil] at houtputs
      exact ⟨earlier, result, since, hjournal, houtputs ▸ haccepted⟩
    have haccounted := h.accounted fun other hcurrent => by
      cases hcurrent
      exact hdelivered
    obtain ⟨hcursor, hstored⟩ := saveCheckpointForRecord_spec services record s.runtime s.world
    have hmade : ∀ checkpoint ∈ (services.saveCheckpointForRecord record s.runtime s.world).2.stored,
        checkpoint ∈ s.world.stored ∨ checkpoint.HoldsOnly services.parse fun other =>
          known other ∨ DeliveredIn (s.journal ++ [.hooked record
            (services.saveCheckpointForRecord record s.runtime s.world).1]) other := by
      intro checkpoint hcheckpoint
      refine (hstored checkpoint hcheckpoint).imp id fun hmade => ?_
      obtain ⟨records, hrt, hrecords⟩ := haccounted
      refine ⟨s.runtime, records, hrt, hmade, fun other hother => ?_⟩
      exact (hrecords other hother).imp id fun hdelivered => hdelivered.append _
    have hcurrent : ∀ other, some record = some other → DeliveredIn (s.journal ++ [.hooked record
        (services.saveCheckpointForRecord record s.runtime s.world).1]) other := by
      intro other hother
      cases hother
      exact hdelivered.append _
    have hcheckpointed := h.call (.checkpointed record) _ _ hcursor hmade rfl (hdelivered.append _)
      fun other hother => .inr (hcurrent other hother)
    have hstopped := h.call .stopped _ _ hcursor hmade rfl trivial
      fun other hother => .inr (hcurrent other hother)
    split
    · exact hcheckpointed
    · exact hstopped
  committed s record h := by
    split
    · exact h.call .idle _ _ rfl (fun _ hstored => .inl hstored) rfl trivial
        (by simp [CycleStage.current])
    · exact h.call .stopped _ _ rfl (fun _ hstored => .inl hstored) rfl trivial
        (by simp [CycleStage.current])
  known s offsets h := ⟨h.le, h.read, h.shown, h.holds, h.stored⟩

namespace LiveWorker

/-- Publishing outside of a cycle. -/
theorem publishes (h : LiveWorker services known start .idle s) (records : List EngineOutputRecord)
    (published : EnginePublishResult) : Ensures (publishRecords services.app records published) s
      (fun _ => LiveWorker services known start .idle) (LiveWorker services known start .idle) := by
  induction records generalizing s published with
  | nil => exact h
  | cons output records ih =>
    unfold publishRecords produceRecord
    simp only [ensures_bind, ensures_inWorld, ensures_note]
    have hnext := h.call .idle (services.app.produce output.request s.world).2
      (.produced output.request (services.app.produce output.request s.world).1) rfl
      (fun _ hstored => .inl hstored) rfl trivial (by simp [CycleStage.current])
    exact ensures_returned (fun _ => ih hnext _) (fun _ => ih hnext _) hnext

theorem publish (h : LiveWorker services known start .idle s) (result : EngineProcessResult) :
    Ensures (publish services.app result) s (fun _ => LiveWorker services known start .idle)
      (LiveWorker services known start .idle) := by
  unfold PerpexEngine.publish
  apply ensures_ite.2
  exact ⟨fun _ => h, fun _ => h.publishes _ _⟩

theorem saves (h : LiveWorker services known start .idle s) (config : EngineWorkerConfig)
    (result : RecoveryResult) : Ensures (saveStartupCheckpoint services config result) s
      (fun _ => LiveWorker services known start .idle) (LiveWorker services known start .idle) := by
  unfold saveStartupCheckpoint
  rw [ensures_bind, ensures_get, ensures_bind, ensures_inWorld]
  generalize startupCheckpointPosition result config.inputTopic config.inputPartition = position
  obtain ⟨hcursor, hstored⟩ := saveCheckpointForSource_spec services position s.runtime s.world
  generalize services.saveCheckpointForSource position s.runtime s.world = reply at hcursor hstored ⊢
  obtain ⟨outcome, world⟩ := reply
  obtain ⟨records, hrt, hrecords⟩ := h.accounted (by simp [CycleStage.current])
  have hsafe : LiveWorker services known start .idle { s with world := world } := by
    dsimp only at hcursor hstored
    refine ⟨by rw [hcursor]; exact h.le, by rw [hcursor]; exact h.read, trivial, h.holds, ?_⟩
    intro checkpoint hcheckpoint
    rcases hstored checkpoint hcheckpoint with hold | hmade
    · exact h.stored checkpoint hold
    · exact ⟨s.runtime, records, hrt, hmade, hrecords⟩
  cases outcome <;> exact hsafe

theorem scans (start : ℤ) (h : LiveWorker services known start .idle s)
    (config : EngineWorkerConfig) (result : RecoveryResult) :
    Ensures (runStartupAutomaticLiquidationScan services config result) s
      (fun _ => LiveWorker services known start .idle) (LiveWorker services known start .idle) := by
  unfold runStartupAutomaticLiquidationScan
  rw [ensures_bind, ensures_get, ensures_bind, ensures_set, ensures_bind, ensures_liftExcept]
  have hscanned : LiveWorker services known start .idle { s with
      runtime := (s.runtime.step (.evaluate startupLiquidationSource .live)).2 } := by
    obtain ⟨records, hrt, hrecords⟩ := h.holds
    exact ⟨h.le, h.read, h.shown, ⟨records, hrt.scan _, hrecords⟩, h.stored⟩
  refine ⟨fun processResult _ => ?_, fun _ _ => hscanned⟩
  apply ensures_ite.2
  refine ⟨fun _ => hscanned, fun _ => ?_⟩
  rw [ensures_bind]
  refine (hscanned.publish _).mono (fun published t ht => ?_) fun _ ht => ht
  split
  · exact ht
  · exact ht.saves config result

end LiveWorker

end Live
section Recovery
variable {σ : Type} (consumer : EngineInputConsumer σ) (parse : Text → Except Text EngineInput)

theorem ensures_askConsumer_any {α : Type} {call : σ → α × σ} {s : RecoveryState σ}
    {Q : α → RecoveryState σ → Prop} {E : RecoveryState σ → Prop} (h : ∀ a t, Q a t) :
    Ensures (askConsumer call) s Q E := h _ _

/-- The replay keeps the position it was given. -/
theorem replayLoop_position (position : CheckpointSourcePosition) (high : ℤ) (rounds : ℕ)
    (result : RecoveryResult) (s : RecoveryState σ) :
    Ensures (replayLoop consumer parse position high rounds result) s
      (fun outcome _ => ∀ ended ∈ outcome, ended.sourcePosition = result.sourcePosition)
      fun _ => True := by
  have hsome : ∀ {ended : RecoveryResult}, ended.sourcePosition = result.sourcePosition →
      ∀ other ∈ some ended, other.sourcePosition = result.sourcePosition := by
    intro ended heq other hother
    rw [← Option.mem_some.1 hother, heq]
  induction rounds generalizing result s with
  | zero =>
    unfold replayLoop
    apply ensures_ite.2
    exact ⟨fun _ => hsome rfl, fun _ => by simp⟩
  | succ rounds ih =>
    unfold replayLoop
    apply ensures_ite.2
    refine ⟨fun _ => hsome rfl, fun _ => ?_⟩
    dsimp only
    rw [ensures_bind]
    refine ensures_askConsumer_any fun polled t => ?_
    rcases polled with message | _ | record
    · exact hsome rfl
    · exact hsome rfl
    · dsimp only
      rw [ensures_bind]
      unfold replayPolled
      apply ensures_ite.2
      refine ⟨fun _ => hsome rfl, fun _ => ?_⟩
      apply ensures_ite.2
      refine ⟨fun _ => hsome rfl, fun _ => ?_⟩
      unfold replayRecord
      rw [ensures_bind, ensures_bind, ensures_get]
      dsimp only
      cases (t.runtime.step (.input record.inbound (parse record.value) .replaySilent)).1 with
      | error message => exact hsome rfl
      | ok processed => exact ih _ _ fun heq => hsome heq

/-- The position of a replay is that of the result it started with. -/
theorem replayUntilCaughtUp_position (rounds : ℕ) (position : CheckpointSourcePosition)
    (watermark : BrokerWatermarkOffsets) {result : RecoveryResult}
    (h : result.sourcePosition.isSome = true) (s : RecoveryState σ) :
    Ensures (replayUntilCaughtUp consumer parse rounds position watermark result) s
      (fun outcome _ => ∀ ended ∈ outcome, ended.sourcePosition.isSome = true) fun _ => True := by
  refine (replayLoop_position consumer parse position watermark.high rounds _ s).mono
    (fun outcome _ heq ended hended => ?_) fun _ ht => ht
  rw [heq ended hended]
  exact h

/-- A recovery of an expected source that is well has a position. -/
theorem recoverAndReplay_position (rounds : ℕ) (source : RecoverySource)
    (loaded : Except Text (Option EngineCheckpoint)) (s : RecoveryState σ) :
    Ensures (recoverAndReplay consumer parse rounds (some source) loaded) s
      (fun outcome _ => ∀ result ∈ outcome, result.ok = true → result.sourcePosition.isSome = true)
      fun _ => True := by
  have hsome : ∀ {ended : RecoveryResult}, ended.sourcePosition.isSome = true →
      ∀ result ∈ some ended, result.sourcePosition.isSome = true := by
    intro ended hposition result hresult
    rwa [← Option.mem_some.1 hresult]
  have hall : ∀ {m : RecoveryM σ (Option RecoveryResult)}, Ensures m s
      (fun outcome _ => ∀ result ∈ outcome, result.sourcePosition.isSome = true) (fun _ => True) →
      Ensures m s (fun outcome _ => ∀ result ∈ outcome, result.ok = true →
        result.sourcePosition.isSome = true) fun _ => True :=
    fun h => h.mono (fun _ _ hpositions result hresult _ => hpositions result hresult) fun _ ht => ht
  unfold recoverAndReplay recoverImpl
  rcases loaded with message | _ | checkpoint
  · intro result hresult hok
    cases Option.mem_some.1 hresult
    cases hok
  · refine hall ?_
    dsimp only
    unfold recoverFromLow
    rw [ensures_bind]
    refine ensures_askConsumer_any fun watermark t => ?_
    cases watermark with
    | error message => exact hsome rfl
    | ok watermark =>
      apply ensures_ite.2
      refine ⟨fun _ => hsome rfl, fun _ => ?_⟩
      rw [ensures_bind]
      refine ensures_askConsumer_any fun sought u => ?_
      cases sought with
      | some message => exact hsome rfl
      | none =>
        apply ensures_ite.2
        exact ⟨fun _ => replayUntilCaughtUp_position consumer parse rounds _ _ rfl u,
          fun _ => hsome rfl⟩
  · refine hall ?_
    dsimp only
    split
    · exact hsome rfl
    · unfold recoverFromCheckpoint
      dsimp only
      rw [ensures_bind]
      refine ensures_askConsumer_any fun watermark t => ?_
      cases watermark with
      | error message => exact hsome rfl
      | ok watermark =>
        dsimp only
        split
        · exact hsome rfl
        · unfold restoreCheckpoint
          rw [ensures_bind, ensures_bind, ensures_get]
          rcases (restoreRuntime checkpoint).run.run t.runtime with ⟨message | ⟨⟩, base⟩
          · exact hsome rfl
          · dsimp only
            rw [ensures_bind, ensures_set, ensures_pure]
            unfold resumeFrom
            rw [ensures_bind]
            refine ensures_askConsumer_any fun sought u => ?_
            cases sought with
            | some message => exact hsome rfl
            | none => exact replayUntilCaughtUp_position consumer parse rounds _ _ rfl u

end Recovery
section Applied
variable {log : BrokerLog} {parse : Text → Except Text EngineInput} {σ α : Type} {high : ℤ}

/-- All that has been replayed lies below the high watermark. -/
def RecoveryState.Below (high : ℤ) (s : RecoveryState σ) : Prop :=
  ∀ record ∈ s.applied, record.offset < high

theorem yields_askConsumer {call : σ → α × σ} {P : α → Prop} (h : ∀ world, P (call world).1) :
    Yields (RecoveryState.Below high) P (askConsumer call) := fun s hs => ⟨h s.world, hs⟩

theorem yields_replayPolled (position : CheckpointSourcePosition) (result : RecoveryResult)
    (record : ConsumedRecord) : Yields (RecoveryState.Below high) (fun _ => True)
      (replayPolled parse position high result record : RecoveryM σ _) := by
  unfold replayPolled
  refine Yields.ite (fun _ => .pure trivial) fun _ => ?_
  refine Yields.ite (fun _ => .pure trivial) fun hbelow => ?_
  have hreplay : Yields (RecoveryState.Below high) (fun _ => True)
      (replayRecord parse record : RecoveryM σ _) := by
    intro s hs
    unfold replayRecord
    rw [ensures_bind, ensures_get]
    dsimp only
    cases (s.runtime.step (.input record.inbound (parse record.value) .replaySilent)).1 with
    | error message => exact ⟨trivial, hs⟩
    | ok result =>
      refine ⟨trivial, fun other hother => ?_⟩
      rcases List.mem_append.1 hother with hold | hnew
      · exact hs other hold
      · rw [List.mem_singleton.1 hnew]
        exact not_le.1 hbelow
  refine hreplay.bind fun outcome _ => ?_
  cases outcome <;> exact .pure trivial

theorem yields_replayLoop (consumer : EngineInputConsumer σ) (position : CheckpointSourcePosition)
    (rounds : ℕ) (result : RecoveryResult) : Yields (RecoveryState.Below high) (fun _ => True)
      (replayLoop consumer parse position high rounds result) := by
  induction rounds generalizing result with
  | zero =>
    unfold replayLoop
    exact Yields.ite (fun _ => .pure trivial) fun _ => .pure trivial
  | succ rounds ih =>
    unfold replayLoop
    refine Yields.ite (fun _ => .pure trivial) fun _ => ?_
    refine (yields_askConsumer (P := fun _ => True) fun _ => trivial).bind fun polled _ => ?_
    rcases polled with message | _ | record
    · exact .pure trivial
    · exact .pure trivial
    · refine (yields_replayPolled position result record).bind fun outcome _ => ?_
      cases outcome with
      | inl ended => exact .pure trivial
      | inr advanced => exact ih advanced

/-- However a recovery ends, it has replayed nothing at or past the high watermark. -/
theorem yields_recoverAndReplay (rounds : ℕ) (source : Option RecoverySource)
    (loaded : Except Text (Option EngineCheckpoint)) :
    Yields (RecoveryState.Below log.watermark.high) (fun _ => True)
      (recoverAndReplay log.consumer parse rounds source loaded) := by
  have hwatermark : ∀ topic partition, Yields (RecoveryState.Below log.watermark.high)
      (fun answer => ∀ watermark, answer = .ok watermark → watermark = log.watermark)
      (askConsumer (log.consumer.getWatermark topic partition)) :=
    fun _ _ => yields_askConsumer fun _ _ h => getWatermark_ok h
  have hseek : ∀ topic partition offset, Yields (RecoveryState.Below log.watermark.high)
      (fun _ => True) (askConsumer (log.consumer.seek topic partition offset)) :=
    fun _ _ _ => yields_askConsumer fun _ => trivial
  have hreplay : ∀ position result, Yields (RecoveryState.Below log.watermark.high) (fun _ => True)
      (replayUntilCaughtUp log.consumer parse rounds position log.watermark result) :=
    fun _ _ => yields_replayLoop _ _ _ _
  unfold recoverAndReplay recoverImpl
  rcases loaded with message | _ | checkpoint
  · exact .pure trivial
  · cases source with
    | none => exact .pure trivial
    | some expected =>
      dsimp only
      unfold recoverFromLow
      refine (hwatermark _ _).bind fun answer hanswer => ?_
      cases answer with
      | error message => exact .pure trivial
      | ok watermark =>
        rw [hanswer watermark rfl]
        refine Yields.ite (fun _ => .pure trivial) fun _ => (hseek _ _ _).bind fun sought _ => ?_
        cases sought with
        | some message => exact .pure trivial
        | none => exact Yields.ite (fun _ => hreplay _ _) fun _ => .pure trivial
  · dsimp only
    split
    · exact .pure trivial
    · unfold recoverFromCheckpoint
      refine (hwatermark _ _).bind fun answer hanswer => ?_
      cases answer with
      | error message => exact .pure trivial
      | ok watermark =>
        rw [hanswer watermark rfl]
        dsimp only
        split
        · exact .pure trivial
        · have hrestore : Yields (RecoveryState.Below log.watermark.high) (fun _ => True)
              (restoreCheckpoint checkpoint : RecoveryM LogCursor _) := fun s hs => ⟨trivial, hs⟩
          refine hrestore.bind fun restored _ => ?_
          cases restored with
          | error message => exact .pure trivial
          | ok u =>
            refine (hseek _ _ _).bind fun sought _ => ?_
            cases sought with
            | some message => exact .pure trivial
            | none => exact hreplay _ _

end Applied
section Lives
variable {parse : Text → Except Text EngineInput} {log : List ConsumedRecord}
  {history : PartitionHistory} {services : PartitionServices}

theorem failIfRecoveryIncomplete_ok {result : RecoveryResult} {u : Unit}
    (h : failIfRecoveryIncomplete result = .ok u) :
    result.ok = true ∧ (result.sourcePosition.isSome = true → result.caughtUp = true) := by
  unfold failIfRecoveryIncomplete at h
  split at h
  · cases h
  · rename_i hok
    split at h
    · cases h
    · rename_i hcaught
      refine ⟨Bool.not_eq_false _ ▸ hok, fun hposition => ?_⟩
      by_contra hnot
      exact hcaught ⟨hposition, Bool.eq_false_of_not_eq_true hnot⟩

/-- What the workers so far have in common. -/
structure PartitionHistory.Sound (parse : Text → Except Text EngineInput)
    (history : PartitionHistory) : Prop where
  ranked : Ranked ConsumedRecord.offset history.polled
  within : ∀ life ∈ history.lives, life.ReplaysBefore life
  across : history.lives.Pairwise WorkerLife.ReplaysBefore
  polled : ∀ record ∈ history.polled, record.offset < history.written
  replayed : ∀ record, history.Replayed record → record.offset < history.written
  stored : ∀ checkpoint ∈ history.stored, checkpoint.HoldsOnly parse fun record =>
    history.Delivered record ∨ history.Recovered record

theorem EngineRuntime.Incorporates.replayed {rt : EngineRuntime} {records : List ConsumedRecord}
    (h : EngineRuntime.Incorporates parse rt records) (more : List ConsumedRecord) :
    EngineRuntime.Incorporates parse (rt.replayed parse more) (records ++ more) := by
  induction more generalizing rt records with
  | nil => rwa [List.append_nil]
  | cons record more ih =>
    have hnext := ih (h.record record .replaySilent)
    rwa [List.append_assoc] at hnext

theorem Ended.high_le {high nextOffset : ℤ} {cursor : LogCursor}
    (h : Ended services.log high nextOffset cursor) : high ≤ cursor.position := by
  rcases h with ⟨hle, hcursor⟩ | ⟨-, record, -, hhigh, hcursor⟩ <;> omega

/-- A recovery that got through leaves the worker at the high watermark, with a state whose records
are all accounted for. -/
theorem recovered_liveWorker (hsound : history.Sound services.parse)
    (hload : ∀ checkpoint, services.loadAnswer = .ok (some checkpoint) →
      checkpoint ∈ history.stored) {rt : EngineRuntime}
    (hrt : EngineRuntime.Incorporates services.parse rt []) {config : EngineWorkerConfig}
    {rounds : ℕ} {world : PartitionWorld} {result : RecoveryResult}
    {recovered : RecoveryState LogCursor}
    (hrun : services.recovery config rounds rt world = (.ok (some result), recovered)) {u : Unit}
    (hcomplete : failIfRecoveryIncomplete result = .ok u) :
    services.log.watermark.high ≤ recovered.world.position ∧
      ∃ records, EngineRuntime.Incorporates services.parse recovered.runtime records ∧
        ∀ record ∈ records, (history.Delivered record ∨ history.Recovered record) ∨
          record ∈ recovered.applied := by
  obtain ⟨hok, hcaught⟩ := failIfRecoveryIncomplete_ok hcomplete
  unfold PartitionServices.recovery at hrun
  have hposition := (recoverAndReplay_position services.log.consumer services.parse rounds
    ⟨config.inputTopic, config.inputPartition⟩ _ _).returned hrun result rfl hok
  have hfrom := (ensures_recoverAndReplay rfl rounds _ _).returned hrun result rfl
    (hcaught hposition)
  have hall : ∀ {base : EngineRuntime} {records : List ConsumedRecord} {start : ℤ},
      EngineRuntime.Incorporates services.parse base records →
      (∀ record ∈ records, history.Delivered record ∨ history.Recovered record) →
      Replaying services.log services.parse base start services.log.watermark.high
        result.nextOffset recovered →
      ∃ records, EngineRuntime.Incorporates services.parse recovered.runtime records ∧
        ∀ record ∈ records, (history.Delivered record ∨ history.Recovered record) ∨
          record ∈ recovered.applied := by
    intro base records start hbase hrecords hreplaying
    refine ⟨records ++ recovered.applied, ?_, fun record hrecord => ?_⟩
    · rw [hreplaying.runtime]
      exact hbase.replayed recovered.applied
    · exact (List.mem_append.1 hrecord).imp (hrecords record) id
  cases hfrom with
  | checkpoint checkpoint base hloaded hrestored _ _ hreplaying hended =>
    obtain ⟨made, records, hmade, hcreated, hrecords⟩ :=
      hsound.stored checkpoint (hload checkpoint hloaded)
    exact ⟨hended.high_le, hall (hmade.restored hcreated hrestored) hrecords hreplaying⟩
  | low source _ _ _ hreplaying hended =>
    exact ⟨hended.high_le, hall hrt (fun record hnone => absurd hnone List.not_mem_nil) hreplaying⟩
  | nowhere _ hexpected => cases hexpected

/-- No worker replays anything at or past its high watermark. -/
theorem PartitionHistory.replays_below (market : EngineMarketWorker) (rounds : ℕ) :
    ∀ record ∈ (history.replays services market rounds).1,
      record.offset < services.log.watermark.high := by
  unfold PartitionHistory.replays
  cases firstTradeIdForMarket market.marketId with
  | error message => exact fun _ hnone => absurd hnone List.not_mem_nil
  | ok firstTradeId =>
    refine Ensures.whatever ((yields_recoverAndReplay rounds _ services.loadAnswer _ ?_).mono
      (fun _ _ h => h.2) fun _ h => h)
    exact fun _ hnone => absurd hnone List.not_mem_nil

/-- A worker that did not get through its recovery left the store as it was and polled nothing live;
any other one was live from the high watermark on. -/
def EndsWell (history : PartitionHistory) (services : PartitionServices)
    (replays : List ConsumedRecord × Bool) (s : EngineAppState PartitionWorld) : Prop :=
  (s.journal = [] ∧ s.world.stored = history.stored) ∨
  replays.2 = true ∧ ∃ start stage, services.log.watermark.high ≤ start ∧
    LiveWorker services (fun record => (history.Delivered record ∨ history.Recovered record) ∨
      record ∈ replays.1) start stage s

theorem worker_endsWell (hsound : history.Sound services.parse)
    (hload : ∀ checkpoint, services.loadAnswer = .ok (some checkpoint) →
      checkpoint ∈ history.stored) (market : EngineMarketWorker) (rounds turns : ℕ) :
    EndsWell history services (history.replays services market rounds)
      (history.worker services market rounds turns) := by
  unfold PartitionHistory.worker
  refine Ensures.whatever ?_
  unfold runEnginePartitionWorker
  rw [ensures_bind, ensures_liftExcept]
  refine ⟨fun firstTradeId hfirst => ?_, fun _ _ => .inl ⟨rfl, rfl⟩⟩
  rw [ensures_bind, ensures_modify, ensures_bind]
  unfold recoverPartition
  rw [ensures_bind, ensures_get, ensures_bind, ensures_set]
  generalize hrun : services.recovery market.toEngineWorkerConfig rounds
    (.new ⟨[market.symbolConfig], 1, firstTradeId, market.clock⟩)
    (history.start market).world = recovery
  have hreplays : history.replays services market rounds =
      (recovery.2.applied, completes recovery.1) := by
    unfold PartitionHistory.replays
    rw [hfirst, ← hrun]
  obtain ⟨outcome, recovered⟩ := recovery
  apply ensures_liftExcept.2
  refine ⟨?_, fun _ _ => .inl ⟨rfl, rfl⟩⟩
  rintro (_ | result) hresult
  · exact .inl ⟨rfl, rfl⟩
  · change outcome = .ok (some result) at hresult
    rw [hresult] at hreplays hrun
    dsimp only
    rw [ensures_bind, ensures_liftExcept]
    refine ⟨fun u hcomplete => ?_, fun _ _ => .inl ⟨rfl, rfl⟩⟩
    have hnew : EngineRuntime.Incorporates services.parse
        (.new ⟨[market.symbolConfig], 1, firstTradeId, market.clock⟩) [] := .new _
    obtain ⟨hhigh, hstate⟩ := recovered_liveWorker hsound hload hnew hrun hcomplete
    have hcompleted : completes (.ok (some result)) = true := by
      change (failIfRecoveryIncomplete result).isOk = true
      rw [hcomplete]
      rfl
    rw [hreplays, hcompleted]
    have hlive : ∀ {s : EngineAppState PartitionWorld} {stage : CycleStage},
        LiveWorker services (fun record => (history.Delivered record ∨ history.Recovered record) ∨
          record ∈ recovered.applied) recovered.world.position stage s →
        EndsWell history services (recovered.applied, true) s :=
      fun h => .inr ⟨rfl, _, _, hhigh, h⟩
    rw [ensures_bind]
    refine (LiveWorker.scans recovered.world.position ⟨le_rfl, ?_, trivial, ?_, ?_⟩ _
      result).mono (fun _ s hs => ?_) fun s hs => hlive hs
    · exact OffsetLog.between_self.symm
    · obtain ⟨records, hrt, hrecords⟩ := hstate
      exact ⟨records, hrt, fun record hrecord => .inl (.inl (hrecords record hrecord))⟩
    · intro checkpoint hcheckpoint
      exact (hsound.stored checkpoint hcheckpoint).mono fun record hrecord => .inl (.inl hrecord)
    · refine ((cycleRule_liveWorker services _ _).workerLoop market.toEngineWorkerConfig turns 0
        hs).mono (fun _ t ht => ?_) fun t ht => ?_
      · obtain ⟨stage, ht⟩ := ht
        exact hlive ht
      · obtain ⟨stage, ht⟩ := ht
        exact hlive ht

namespace PartitionHistory

theorem polled_extend {market : EngineMarketWorker} {rounds turns : ℕ} {written : ℤ} :
    (history.extend services market rounds turns written).polled = history.polled ++
      polledRecords (history.worker services market rounds turns).journal := by
  simp [polled, extend, WorkerLife.polled]

theorem Delivered.extend {record : ConsumedRecord} (h : history.Delivered record)
    {market : EngineMarketWorker} {rounds turns : ℕ} {written : ℤ} :
    (history.extend services market rounds turns written).Delivered record := by
  obtain ⟨life, hlife, hdelivered⟩ := h
  exact ⟨life, List.mem_append_left _ hlife, hdelivered⟩

theorem replayed_extend {market : EngineMarketWorker} {rounds turns : ℕ} {written : ℤ}
    {record : ConsumedRecord} :
    (history.extend services market rounds turns written).Replayed record ↔
      history.Replayed record ∨ record ∈ (history.replays services market rounds).1 := by
  simp [Replayed, PartitionHistory.extend, or_and_right, exists_or]

theorem recovered_extend {market : EngineMarketWorker} {rounds turns : ℕ} {written : ℤ}
    {record : ConsumedRecord} :
    (history.extend services market rounds turns written).Recovered record ↔
      history.Recovered record ∨ (history.replays services market rounds).2 = true ∧
        record ∈ (history.replays services market rounds).1 := by
  simp [Recovered, PartitionHistory.extend, or_and_right, exists_or]

theorem Sound.extend (h : history.Sound services.parse) (hend : history.written ≤
      services.log.watermark.high)
    (hload : ∀ checkpoint, services.loadAnswer = .ok (some checkpoint) →
      checkpoint ∈ history.stored) (market : EngineMarketWorker) (rounds turns : ℕ) {written : ℤ}
    (hhigh : services.log.watermark.high ≤ written)
    (hread : ∀ record ∈ polledRecords (history.worker services market rounds turns).journal,
      record.offset < written) :
    (history.extend services market rounds turns written).Sound services.parse := by
  have hends := worker_endsWell h hload market rounds turns
  have hbelow : ∀ record ∈ (history.replays services market rounds).1,
      record.offset < services.log.watermark.high := replays_below market rounds
  -- whatever the new worker polled live is past all that was read before
  have hnew : Ranked ConsumedRecord.offset
        (polledRecords (history.worker services market rounds turns).journal) ∧
      ∀ record ∈ polledRecords (history.worker services market rounds turns).journal,
        services.log.watermark.high ≤ record.offset := by
    rcases hends with ⟨hjournal, -⟩ | ⟨-, start, stage, hstart, hlive⟩
    · rw [hjournal]
      exact ⟨.nil _, fun _ hnone => absurd hnone List.not_mem_nil⟩
    · rw [hlive.read]
      refine ⟨List.Pairwise.sublist List.filter_sublist services.log.increasing, ?_⟩
      exact fun record hrecord => hstart.trans (OffsetLog.mem_between.1 hrecord).2.1
  obtain ⟨hranked, hfrom⟩ := hnew
  refine ⟨?_, ?_, ?_, ?_, ?_, ?_⟩
  · rw [polled_extend]
    refine List.pairwise_append.2 ⟨h.ranked, hranked, fun a ha b hb => ?_⟩
    exact (h.polled a ha).trans_le (hend.trans (hfrom b hb))
  · intro life hlife
    rcases List.mem_append.1 hlife with hold | hlast
    · exact h.within life hold
    · rw [List.mem_singleton.1 hlast]
      exact fun record hrecord polled hpolled =>
        (hbelow record hrecord).trans_le (hfrom polled hpolled)
  · refine List.pairwise_append.2 ⟨h.across, List.pairwise_singleton _ _, fun life hlife last hlast => ?_⟩
    rw [List.mem_singleton.1 hlast]
    intro record hrecord polled hpolled
    exact (h.replayed record ⟨life, hlife, hrecord⟩).trans_le (hend.trans (hfrom polled hpolled))
  · intro record hrecord
    rw [polled_extend] at hrecord
    rcases List.mem_append.1 hrecord with hold | hlast
    · exact (h.polled record hold).trans_le (hend.trans hhigh)
    · exact hread record hlast
  · intro record hrecord
    rcases replayed_extend.1 hrecord with hold | hlast
    · exact (h.replayed record hold).trans_le (hend.trans hhigh)
    · exact (hbelow record hlast).trans_le hhigh
  · intro checkpoint hcheckpoint
    rcases hends with ⟨-, hstored⟩ | ⟨hcomplete, start, stage, -, hlive⟩
    · have hold : checkpoint ∈ history.stored := by
        rw [← hstored]
        exact hcheckpoint
      refine (h.stored checkpoint hold).mono fun record hrecord => ?_
      exact hrecord.imp (fun hdelivered => hdelivered.extend) fun hrecovered =>
        recovered_extend.2 (.inl hrecovered)
    · refine (hlive.stored checkpoint hcheckpoint).mono fun record hrecord => ?_
      rcases hrecord with ((hdelivered | hrecovered) | hreplayed) | hdelivered
      · exact .inl hdelivered.extend
      · exact .inr (recovered_extend.2 (.inl hrecovered))
      · exact .inr (recovered_extend.2 (.inr ⟨hcomplete, hreplayed⟩))
      · exact .inl ⟨_, List.mem_append_right _ List.mem_cons_self, hdelivered⟩

theorem Possible.sound (h : Possible parse log history) : history.Sound parse := by
  induction h with
  | new =>
    refine ⟨.nil _, fun _ hlife => absurd hlife List.not_mem_nil, .nil, fun _ hrecord => ?_,
      fun _ hrecord => ?_, fun _ hstored => absurd hstored List.not_mem_nil⟩
    · exact absurd hrecord List.not_mem_nil
    · obtain ⟨life, hlife, -⟩ := hrecord
      exact absurd hlife List.not_mem_nil
  | worker h services hparse hlog hend hload market rounds turns written hhigh hread ih =>
    subst hparse
    exact ih.extend hend hload market rounds turns hhigh hread

end PartitionHistory

theorem sampleOffsets_increasing : ([0, 1, 2].map sampleRecord).Pairwise
    fun a b => a.offset < b.offset := by decide

/-- Three records, of which so many are written when the worker starts; the store has nothing that
could be read. -/
def sampleServices (high : ℤ) : PartitionServices where
  log := sampleLog [0, 1, 2] sampleOffsets_increasing ⟨0, high⟩
  parse := sampleParse
  loadAnswer := .ok none
  produceAnswer := fun _ => .ok
  saveAnswer := fun _ => .ok
  storesAnyway := fun _ => false
  commitAnswer := fun _ => .ok
  stopAnswer := fun _ => false

def sampleMarketWorker : EngineMarketWorker where
  inputTopic := engineInputTopic
  inputPartition := 0
  marketId := 1
  pollLoopLimit := none
  symbolConfig := sampleConfig
  clock := fun n => n

/-- A worker that replays the first record and takes the second one live. -/
def sampleEarlyHistory : PartitionHistory :=
  (⟨[], 0, []⟩ : PartitionHistory).extend (sampleServices 1) sampleMarketWorker 4 1 2

/-- Another one after it, which replays them both. -/
def sampleHistory : PartitionHistory :=
  sampleEarlyHistory.extend (sampleServices 2) sampleMarketWorker 4 2 3

theorem possible_sampleHistory :
    PartitionHistory.Possible sampleParse (sampleServices 0).log.records sampleHistory := by
  have hfirst : ∀ record ∈ polledRecords ((⟨[], 0, []⟩ : PartitionHistory).worker
      (sampleServices 1) sampleMarketWorker 4 1).journal, record.offset < 2 := by decide +kernel
  have hsecond : ∀ record ∈ polledRecords (sampleEarlyHistory.worker (sampleServices 2)
      sampleMarketWorker 4 2).journal, record.offset < 3 := by decide +kernel
  have hone : PartitionHistory.Possible sampleParse (sampleServices 0).log.records
      sampleEarlyHistory := by
    exact .worker .new (sampleServices 1) rfl rfl zero_le_one nofun sampleMarketWorker 4 1 2
      one_le_two hfirst
  exact .worker hone (sampleServices 2) rfl rfl (le_refl (2 : ℤ)) nofun sampleMarketWorker 4 2 3
    (by decide) hsecond

/-- Over all workers of a partition, wherever each of them ends, every record is polled live at most
once and in order, and none that was replayed is polled live afterwards. -/
theorem live_processing_is_at_most_once (h : PartitionHistory.Possible parse log history) :
    Ranked ConsumedRecord.offset history.polled ∧
      (∀ life ∈ history.lives, life.ReplaysBefore life) ∧
      history.lives.Pairwise WorkerLife.ReplaysBefore :=
  ⟨h.sound.ranked, h.sound.within, h.sound.across⟩

theorem live_processing_is_at_most_once_sample :
    sampleHistory.polled.map (·.offset) = [1, 2] ∧
      sampleHistory.lives.map (fun life => life.replayed.map (·.offset)) = [[0], [0, 1]] ∧
      Ranked ConsumedRecord.offset sampleHistory.polled ∧
      (∀ life ∈ sampleHistory.lives, life.ReplaysBefore life) ∧
      sampleHistory.lives.Pairwise WorkerLife.ReplaysBefore :=
  ⟨by decide +kernel, by decide +kernel, live_processing_is_at_most_once possible_sampleHistory⟩

/-- Every checkpoint that was ever stored was made of a state every input of which had all its outputs
accepted or was replayed by a worker that got through its recovery. -/
theorem checkpoints_hold_settled_inputs (h : PartitionHistory.Possible parse log history)
    {checkpoint : EngineCheckpoint} (hstored : checkpoint ∈ history.stored) :
    checkpoint.HoldsOnly parse fun record =>
      history.Delivered record ∨ history.Recovered record :=
  h.sound.stored checkpoint hstored

theorem checkpoints_hold_settled_inputs_sample :
    ∃ checkpoint ∈ sampleHistory.stored, checkpoint.HoldsOnly sampleParse fun record =>
      sampleHistory.Delivered record ∨ sampleHistory.Recovered record := by
  obtain ⟨checkpoint, hstored⟩ : ∃ checkpoint, sampleHistory.stored.head? = some checkpoint :=
    Option.isSome_iff_exists.1 (by decide +kernel)
  have hmem := List.mem_of_head? hstored
  exact ⟨checkpoint, hmem, checkpoints_hold_settled_inputs possible_sampleHistory hmem⟩

end Lives
end PerpexEngine
