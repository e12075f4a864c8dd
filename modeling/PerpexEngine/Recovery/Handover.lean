import PerpexEngine.Recovery.BrokerLog
import PerpexEngine.Recovery.CheckpointReader
import PerpexEngine.Runtime.EventNumbers

/-! What a recovery that caught up has behind it, and the hand-over to live polling, which loses a
record when the replay had to poll beyond the high watermark. -/
namespace PerpexEngine
open Program

/-- What was applied, with what any number of later polls returns, is the log from the start on, but
for what is still left to poll. -/
def HandedOver (log : BrokerLog) (start : ℤ) (s : RecoveryState LogCursor) : Prop :=
  ∀ polls, s.applied ++ (log.pollMany polls s.world).1 ++
    log.since (log.pollMany polls s.world).2.position = log.since start

section Handover
variable {log : BrokerLog} {parse : Text → Except Text EngineInput} {base : EngineRuntime}
  {start high nextOffset : ℤ} {s : RecoveryState LogCursor}

/-- Polling is in order, so all depends on where the replay left the cursor. -/
theorem handedOver_iff_since :
    HandedOver log start s ↔ s.applied ++ log.since s.world.position = log.since start := by
  unfold HandedOver
  simp only [List.append_assoc, pollMany_append_since, forall_const]

theorem Replaying.handedOver (h : Replaying log parse base start high nextOffset s)
    (hcursor : s.world.position = nextOffset) : HandedOver log start s := by
  rw [handedOver_iff_since, h.applied, hcursor]
  exact OffsetLog.between_append_since log.increasing h.le

/-- A record polled beyond the high watermark is neither applied nor polled again. -/
theorem Replaying.not_handedOver (h : Replaying log parse base start high nextOffset s)
    {record : ConsumedRecord}
    (hnext : OffsetLog.next ConsumedRecord.offset nextOffset log.records = some record)
    (hcursor : s.world.position = record.offset + 1) : ¬HandedOver log start s := by
  rw [handedOver_iff_since, h.applied, hcursor]
  intro heq
  have hle := OffsetLog.le_next hnext
  have hstart : record ∈ log.since start :=
    OffsetLog.mem_since.2 ⟨OffsetLog.next_mem hnext, h.le.trans hle⟩
  rw [← heq, List.mem_append] at hstart
  rcases hstart with hmem | hmem
  · have hlt := (OffsetLog.mem_between.1 hmem).2.2
    omega
  · have hgt := (OffsetLog.mem_since.1 hmem).2
    omega

/-- A replay that reached the high watermark applied the record below it, or had nothing to do. -/
theorem Replaying.reached (h : Replaying log parse base start high nextOffset s)
    (hle : high ≤ nextOffset) :
    high ≤ start ∨ ∃ record ∈ log.records, record.offset = high - 1 := by
  rcases h.last with hstart | ⟨record, hmem, hlt, hnext⟩
  · exact .inl (hstart ▸ hle)
  · exact .inr ⟨record, hmem, by omega⟩

/-- A replay that polled beyond the high watermark found no record right below it. -/
theorem Replaying.gap (h : Replaying log parse base start high nextOffset s)
    (hlt : nextOffset < high) {record : ConsumedRecord}
    (hnext : OffsetLog.next ConsumedRecord.offset nextOffset log.records = some record)
    (hhigh : high ≤ record.offset) :
    ¬(high ≤ start ∨ ∃ record ∈ log.records, record.offset = high - 1) := by
  rintro (hle | ⟨last, hlast, heq⟩)
  · exact absurd (hle.trans h.le) (not_le.2 hlt)
  · have hleft : last ∈ log.since nextOffset := OffsetLog.mem_since.2 ⟨hlast, by omega⟩
    have hfirst := (OffsetLog.ranked_since log.increasing).head_le
      (OffsetLog.head?_since.trans hnext) hleft
    omega

theorem Replaying.handedOver_or_gap (h : Replaying log parse base start high nextOffset s)
    (hended : Ended log high nextOffset s.world) : HandedOver log start s ↔
      high ≤ start ∨ ∃ record ∈ log.records, record.offset = high - 1 := by
  rcases hended with ⟨hle, hcursor⟩ | ⟨hlt, record, hnext, hhigh, hcursor⟩
  · exact iff_of_true (h.handedOver hcursor) (h.reached hle)
  · exact iff_of_false (h.not_handedOver hnext hcursor) (h.gap hlt hnext hhigh)

end Handover

section Samples

/-- The `n`-th input of a log. -/
def sampleRecord (n : ℕ) : ConsumedRecord := ⟨engineInputTopic, 0, n, List.replicate (n + 1) 120⟩

def sampleParse (value : Text) : Except Text EngineInput :=
  .ok (samplePlaceInput value.length 11 .long 100 10)

def sampleLog (offsets : List ℕ) (increasing : (offsets.map sampleRecord).Pairwise
    fun a b => a.offset < b.offset) (watermark : BrokerWatermarkOffsets) : BrokerLog where
  topic := engineInputTopic
  partition := 0
  records := offsets.map sampleRecord
  increasing := increasing
  watermark := watermark
  watermarkError := none
  seekError := none
  visible := fun polls => polls + 2
  pollError := fun _ => none

/-- A file that is cut short after its second line. -/
def sampleDirectory : Option (List DirectoryEntry) :=
  some [⟨ascii "broken.checkpoint", true,
    some (ascii "cex.engine.checkpoint.file.v1" ++ 10 :: (ascii "schema_version" ++ [9, 49, 10]))⟩]

/-- The reader, of files without risk states. -/
def sampleRead (content : Text) : Option EngineCheckpoint := do
  let stored ← tryDeserializeCheckpoint content
  if stored.riskStates.isEmpty then
    some
      { coreSnapshot := stored.coreSnapshot
        metadataStore := stored.metadataStore
        publicSequences := stored.publicSequences
        markPrices := stored.markPrices
        fundingRates := stored.fundingRates
        settledFundingIntervals := stored.settledFundingIntervals
        positions := stored.positions
        riskStates := ∅
        processedInputIds := stored.processedInputIds
        processedIdempotencyKeys := stored.processedIdempotencyKeys
        schemaVersion := stored.schemaVersion
        checkpointId := stored.checkpointId
        sourcePosition := stored.sourcePosition }
  else none

/-- Recovery over a log from a new runtime, with the broken file as the latest. -/
def sampleRecovery (log : BrokerLog) :
    Except Text (Option RecoveryResult) × RecoveryState LogCursor :=
  (recoverAndReplay log.consumer sampleParse 8 (some ⟨engineInputTopic, 0⟩)
    (.ok (loadLatest sampleRead sampleDirectory))).run.run ⟨⟨0, 0⟩, .new sampleRuntimeConfig, []⟩

def RecoveryResult.Complete (result : RecoveryResult) (start : ℤ) : Prop :=
  result.ok = true ∧ result.caughtUp = true ∧
    result.sourcePosition = some ⟨engineInputTopic, 0, start⟩

instance (result : RecoveryResult) (start : ℤ) : Decidable (result.Complete start) :=
  inferInstanceAs (Decidable (_ ∧ _ ∧ _))

/-- What is checked of a recovery that reports a result holds of that result. -/
theorem exists_reported {σ : Type} {recovery : Except Text (Option RecoveryResult) × σ}
    {P : RecoveryResult → σ → Prop} [∀ result s, Decidable (P result s)]
    (h : (match recovery with
      | (.ok (some result), s) => decide (P result s)
      | _ => false) = true) : ∃ result s, recovery = (.ok (some result), s) ∧ P result s := by
  split at h
  · exact ⟨_, _, rfl, of_decide_eq_true h⟩
  · cases h

end Samples

section Recovered
variable (log : BrokerLog) (parse : Text → Except Text EngineInput) (rounds : ℕ)
  (expected : Option RecoverySource) (rt : EngineRuntime) (cursor : LogCursor)
  {result : RecoveryResult} {s : RecoveryState LogCursor}

/-- The hand-over is complete exactly when there was nothing to replay or the log has a record right
below the high watermark. -/
theorem handedOver_iff (loaded : Except Text (Option EngineCheckpoint))
    (hrun : (recoverAndReplay log.consumer parse rounds expected loaded).run.run ⟨cursor, rt, []⟩ =
      (.ok (some result), s)) (_hok : result.ok = true) (hdone : result.caughtUp = true)
    (start : CheckpointSourcePosition) (hstart : result.sourcePosition = some start) :
    HandedOver log start.nextOffset s ↔ log.watermark.high ≤ start.nextOffset ∨
      ∃ record ∈ log.records, record.offset = log.watermark.high - 1 := by
  have hfrom := (ensures_recoverAndReplay rfl rounds expected loaded).returned hrun result rfl hdone
  cases hfrom with
  | checkpoint checkpoint base _ _ hposition _ hreplaying hended =>
    rw [hstart] at hposition
    cases hposition
    exact hreplaying.handedOver_or_gap hended
  | low source _ _ hposition hreplaying hended =>
    rw [hstart] at hposition
    cases hposition
    exact hreplaying.handedOver_or_gap hended
  | nowhere _ _ hposition =>
    rw [hstart] at hposition
    cases hposition

theorem handedOver_iff_sample :
    let log := sampleLog [0, 1, 2, 3] (by decide) ⟨0, 3⟩
    ∃ result s, sampleRecovery log = (.ok (some result), s) ∧ HandedOver log 0 s := by
  intro log
  have hreported : ∃ result s, sampleRecovery log = (.ok (some result), s) ∧ result.Complete 0 :=
    exists_reported (by decide +kernel)
  obtain ⟨result, s, hrun, hok, hdone, hstart⟩ := hreported
  exact ⟨result, s, hrun, (handedOver_iff log sampleParse 8 _ _ _ _ hrun hok hdone _ hstart).2
    (.inr (by decide))⟩

/-- The record at offset 3 comes in during the replay, and nothing is at offset 2. -/
theorem handover_loses_record :
    let log := sampleLog [0, 1, 3] (by decide) ⟨0, 3⟩
    ∃ result s, sampleRecovery log = (.ok (some result), s) ∧ result.ok = true ∧
      result.caughtUp = true ∧ result.sourcePosition = some ⟨engineInputTopic, 0, 0⟩ ∧
      ¬HandedOver log 0 s := by
  intro log
  have hreported : ∃ result s, sampleRecovery log = (.ok (some result), s) ∧ result.Complete 0 ∧
      s.applied ++ log.since s.world.position ≠ log.since 0 := exists_reported (by decide +kernel)
  obtain ⟨result, s, hrun, ⟨hok, hdone, hstart⟩, hlost⟩ := hreported
  exact ⟨result, s, hrun, hok, hdone, hstart, fun h => hlost (handedOver_iff_since.1 h)⟩

/-- Where the state of a recovery that caught up comes from. -/
def RecoveredState (loaded : Option EngineCheckpoint) (result : RecoveryResult)
    (recovered : EngineRuntime) : Prop :=
  (∃ checkpoint base, loaded = some checkpoint ∧ Restores checkpoint rt base ∧
    log.watermark.low ≤ checkpoint.sourcePosition.nextOffset ∧
    checkpoint.sourcePosition.nextOffset ≤ result.nextOffset ∧
    recovered = base.replayed parse
      (log.between checkpoint.sourcePosition.nextOffset result.nextOffset)) ∨
  (loaded = none ∧ (∃ source, expected = some source) ∧ log.watermark.low ≤ result.nextOffset ∧
    recovered = rt.replayed parse (log.between log.watermark.low result.nextOffset)) ∨
  (loaded = none ∧ expected = none ∧ result.nextOffset = 0 ∧ recovered = rt)

/-- A recovery that caught up has restored the latest checkpoint and replayed from its offset, or,
where none could be loaded, replayed from the low watermark, or had no source to replay. -/
theorem recovered_from (read : Text → Option EngineCheckpoint)
    (directory : Option (List DirectoryEntry))
    (hrun : (recoverAndReplay log.consumer parse rounds expected
      (.ok (loadLatest read directory))).run.run ⟨cursor, rt, []⟩ = (.ok (some result), s))
    (_hok : result.ok = true) (hdone : result.caughtUp = true) :
    RecoveredState log parse expected rt (loadLatest read directory) result s.runtime := by
  have hfrom := (ensures_recoverAndReplay rfl rounds expected _).returned hrun result rfl hdone
  cases hfrom with
  | checkpoint checkpoint base hloaded hrestored _ hretained hreplaying _ =>
    refine .inl ⟨checkpoint, base, Except.ok.inj hloaded, hrestored, hretained, hreplaying.le, ?_⟩
    rw [hreplaying.runtime, hreplaying.applied]
  | low source hloaded hexpected _ hreplaying _ =>
    refine .inr (.inl ⟨Except.ok.inj hloaded, ⟨source, hexpected⟩, hreplaying.le, ?_⟩)
    rw [hreplaying.runtime, hreplaying.applied]
  | nowhere hloaded hexpected _ hnext hstate =>
    exact .inr (.inr ⟨Except.ok.inj hloaded, hexpected, hnext, by rw [hstate]⟩)

theorem recovered_from_sample :
    let log := sampleLog [0, 1, 2, 3] (by decide) ⟨0, 3⟩
    ∃ result s, sampleRecovery log = (.ok (some result), s) ∧
      RecoveredState log sampleParse (some ⟨engineInputTopic, 0⟩) (.new sampleRuntimeConfig)
        (loadLatest sampleRead sampleDirectory) result s.runtime := by
  intro log
  have hreported : ∃ result s, sampleRecovery log = (.ok (some result), s) ∧ result.Complete 0 :=
    exists_reported (by decide +kernel)
  obtain ⟨result, s, hrun, hok, hdone, -⟩ := hreported
  exact ⟨result, s, hrun, recovered_from log sampleParse 8 _ _ _ _ _ hrun hok hdone⟩

/-- Inputs below the low watermark are not in the state, though all is reported to be well: the
latest checkpoint could not be read. -/
theorem recovery_misses_inputs :
    let log := sampleLog [1, 2] (by decide) ⟨2, 3⟩
    ∃ result s, sampleRecovery log = (.ok (some result), s) ∧ result.ok = true ∧
      result.caughtUp = true ∧ result.nextOffset = 3 ∧
      ¬((∃ checkpoint base, loadLatest sampleRead sampleDirectory = some checkpoint ∧
          Restores checkpoint (.new sampleRuntimeConfig) base ∧
          s.runtime = base.replayed sampleParse
            (log.between checkpoint.sourcePosition.nextOffset result.nextOffset)) ∨
        s.runtime = (EngineRuntime.new sampleRuntimeConfig).replayed sampleParse
          (log.between 0 result.nextOffset)) := by
  intro log
  have hreported : ∃ result s, sampleRecovery log = (.ok (some result), s) ∧ result.Complete 2 ∧
      result.nextOffset = 3 ∧ s.runtime.processedInputIds.contains (ascii "in-2") = false :=
    exists_reported (by decide +kernel)
  obtain ⟨result, s, hrun, ⟨hok, hdone, -⟩, hnext, hmissing⟩ := hreported
  refine ⟨result, s, hrun, hok, hdone, hnext, ?_⟩
  rintro (⟨checkpoint, -, hloaded, -⟩ | hall)
  · have hnone : (loadLatest sampleRead sampleDirectory).isNone = true := by decide +kernel
    rw [hloaded] at hnone
    cases hnone
  · have hthere : ((EngineRuntime.new sampleRuntimeConfig).replayed sampleParse
        (log.between 0 3)).processedInputIds.contains (ascii "in-2") = true := by decide +kernel
    rw [hall, hnext, hthere] at hmissing
    cases hmissing

end Recovered
end PerpexEngine
