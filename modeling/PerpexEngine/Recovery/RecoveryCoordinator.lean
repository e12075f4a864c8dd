import PerpexEngine.Broker.EngineApp
import PerpexEngine.Recovery.Checkpoint

/-! Startup recovery: restore the latest checkpoint, seek to its position and replay silently up to
the high watermark. -/
namespace PerpexEngine

structure BrokerWatermarkOffsets where
  low : ℤ
  high : ℤ
deriving DecidableEq, Repr

def BrokerWatermarkOffsets.Invalid (watermark : BrokerWatermarkOffsets) : Prop :=
  watermark.low < 0 ∨ watermark.high < 0 ∨ watermark.high < watermark.low

instance (watermark : BrokerWatermarkOffsets) : Decidable watermark.Invalid :=
  inferInstanceAs (Decidable (_ ∨ _))

structure RecoverySource where
  topic : Text
  partition : ℤ
deriving DecidableEq, Repr

inductive RecoveryStatus where
  | noCheckpoint
  | recovered
  | replayed
  | sourceMismatch
  | checkpointLoadFailed
  | watermarkUnavailable
  | invalidWatermark
  | offsetBelowLowWatermark
  | offsetAboveHighWatermark
  | restoreFailed
  | seekFailed
  | replayFailed
deriving DecidableEq, Repr

structure RecoveryResult where
  status : RecoveryStatus
  checkpointId : Text
  sourcePosition : Option CheckpointSourcePosition
  watermark : Option BrokerWatermarkOffsets
  nextOffset : ℤ
  replayedRecords : ℤ
  replayOutputRecords : ℤ
  lastReplayedOffset : Option ℤ
  caughtUp : Bool
  error : Text

namespace RecoveryResult

def ok (result : RecoveryResult) : Bool :=
  result.status = .noCheckpoint || result.status = .recovered || result.status = .replayed

def new : RecoveryResult where
  status := .noCheckpoint
  checkpointId := []
  sourcePosition := none
  watermark := none
  nextOffset := 0
  replayedRecords := 0
  replayOutputRecords := 0
  lastReplayedOffset := none
  caughtUp := false
  error := []

def fail (result : RecoveryResult) (status : RecoveryStatus) (error : Text) : RecoveryResult :=
  { result with status := status, error := error, caughtUp := false }

def withCheckpoint (checkpoint : EngineCheckpoint) : RecoveryResult :=
  { new with
    checkpointId := checkpoint.checkpointId
    sourcePosition := some checkpoint.sourcePosition
    nextOffset := checkpoint.sourcePosition.nextOffset }

end RecoveryResult

section Texts

def describePartition (topic : Text) (partition : ℤ) : Text :=
  topic ++ ascii "[" ++ text partition ++ ascii "]"

def describePosition (position : CheckpointSourcePosition) : Text :=
  describePartition position.topic position.partition ++ ascii " next_offset=" ++
    text position.nextOffset

def describeSource (source : RecoverySource) : Text :=
  describePartition source.topic source.partition

def invalidWatermarkError (place : Text) (watermark : BrokerWatermarkOffsets) : Text :=
  ascii "invalid broker watermark for " ++ place ++ ascii ": low=" ++ text watermark.low ++
    ascii ", high=" ++ text watermark.high

def validateSeekOffset (topic : Text) (partition offset : ℤ) (watermark : BrokerWatermarkOffsets) :
    Option Text :=
  if topic = [] then some (ascii "topic must not be empty")
  else if partition < 0 then some (ascii "partition must not be negative")
  else if offset < 0 then some (ascii "offset must not be negative")
  else if watermark.Invalid then
    some (invalidWatermarkError (describePartition topic partition) watermark)
  else if offset < watermark.low then
    some (ascii "seek offset " ++ text offset ++ ascii " for " ++ describePartition topic partition ++
      ascii " is below low watermark " ++ text watermark.low ++
      ascii "; checkpoint is no longer recoverable from broker retention")
  else if watermark.high < offset then
    some (ascii "seek offset " ++ text offset ++ ascii " for " ++ describePartition topic partition ++
      ascii " is above high watermark " ++ text watermark.high ++
      ascii "; offset is not available yet")
  else none

def invalidOffsetError (position : CheckpointSourcePosition) (watermark : BrokerWatermarkOffsets) :
    Text :=
  (validateSeekOffset position.topic position.partition position.nextOffset watermark).getD
    (invalidWatermarkError (describePartition position.topic position.partition) watermark)

end Texts

def validateRecoveryOffset (position : CheckpointSourcePosition)
    (watermark : BrokerWatermarkOffsets) : Option RecoveryStatus :=
  if watermark.Invalid then some .invalidWatermark
  else if position.nextOffset < watermark.low then some .offsetBelowLowWatermark
  else if watermark.high < position.nextOffset then some .offsetAboveHighWatermark
  else none

/-- The calls of the consumer that recovery makes, as they return. -/
structure EngineInputConsumer (σ : Type) where
  poll : σ → Except Text (Option ConsumedRecord) × σ
  seek : Text → ℤ → ℤ → σ → Option Text × σ
  getWatermark : Text → ℤ → σ → Except (Option Text) BrokerWatermarkOffsets × σ

/-- The consumer and the runtime, with the records that were applied to it. -/
structure RecoveryState (σ : Type) where
  world : σ
  runtime : EngineRuntime
  applied : List ConsumedRecord

abbrev RecoveryM (σ : Type) := Program Text (RecoveryState σ)

section Recover
variable {σ : Type} (consumer : EngineInputConsumer σ) (parse : Text → Except Text EngineInput)

def askConsumer {α : Type} (call : σ → α × σ) : RecoveryM σ α := do
  let s ← get
  let (a, world) := call s.world
  set { s with world := world }
  pure a

/-- `process_replay` of a record; one that throws is not counted as applied. -/
def replayRecord (record : ConsumedRecord) : RecoveryM σ EngineRuntime.Outcome := do
  let s ← get
  let (outcome, runtime) :=
    s.runtime.step (.input record.inbound (parse record.value) .replaySilent)
  match outcome with
  | .ok result => do
    set { s with runtime := runtime, applied := s.applied ++ [record] }
    pure (.ok result)
  | .error message => do
    set { s with runtime := runtime }
    pure (.error message)

/-- The result after a record has been replayed. -/
def RecoveryResult.advance (result : RecoveryResult) (record : ConsumedRecord)
    (processResult : EngineProcessResult) (high : ℤ) : RecoveryResult :=
  { result with
    replayOutputRecords := result.replayOutputRecords +
      (processResult.replies.length + processResult.events.length : ℕ)
    replayedRecords := result.replayedRecords + 1
    lastReplayedOffset := some record.offset
    nextOffset := record.offset + 1
    caughtUp := high ≤ record.offset + 1 }

/-- The replay of one polled record: the result is final, or the loop goes on with it. -/
def replayPolled (position : CheckpointSourcePosition) (high : ℤ) (result : RecoveryResult)
    (record : ConsumedRecord) : RecoveryM σ (RecoveryResult ⊕ RecoveryResult) :=
  if record.topic ≠ position.topic ∨ record.partition ≠ position.partition then
    pure (.inl (result.fail .replayFailed (ascii "polled " ++
      describePartition record.topic record.partition ++ ascii " during recovery for " ++
      describePosition position)))
  else if high ≤ record.offset then pure (.inl { result with caughtUp := true })
  else do
    match ← replayRecord parse record with
    | .error message => pure (.inl (result.fail .replayFailed message))
    | .ok processResult => pure (.inr (result.advance record processResult high))

/-- The loop of `replay_until_caught_up`; nothing comes of it if it takes more than `rounds`. -/
def replayLoop (position : CheckpointSourcePosition) (high : ℤ) :
    ℕ → RecoveryResult → RecoveryM σ (Option RecoveryResult)
  | rounds, result =>
    if high ≤ result.nextOffset then pure (some result)
    else
      match rounds with
      | 0 => pure none
      | rounds + 1 => do
        match ← askConsumer consumer.poll with
        | .error message => pure (some (result.fail .replayFailed message))
        | .ok none => pure (some { result with caughtUp := false })
        | .ok (some record) => do
          match ← replayPolled parse position high result record with
          | .inl result => pure (some result)
          | .inr result => replayLoop position high rounds result

def replayUntilCaughtUp (rounds : ℕ) (position : CheckpointSourcePosition)
    (watermark : BrokerWatermarkOffsets) (result : RecoveryResult) :
    RecoveryM σ (Option RecoveryResult) :=
  replayLoop consumer parse position watermark.high rounds
    { result with
      status := .replayed
      caughtUp := watermark.high ≤ result.nextOffset }

/-- `recover_impl` without a checkpoint: it starts at the low watermark. -/
def recoverFromLow (rounds : ℕ) (replay : Bool) (expected : RecoverySource) :
    RecoveryM σ (Option RecoveryResult) := do
  let start : CheckpointSourcePosition := ⟨expected.topic, expected.partition, 0⟩
  let result : RecoveryResult := { RecoveryResult.new with sourcePosition := some start }
  match ← askConsumer (consumer.getWatermark expected.topic expected.partition) with
  | .error error => pure (some (result.fail .watermarkUnavailable
      (error.getD (ascii "broker watermark unavailable for " ++ describeSource expected))))
  | .ok watermark =>
    let position := { start with nextOffset := watermark.low }
    let result := { result with watermark := some watermark, sourcePosition := some position }
    if watermark.Invalid then
      pure (some (result.fail .invalidWatermark
        (invalidWatermarkError (describeSource expected) watermark)))
    else do
      let result := { result with nextOffset := watermark.low }
      match ← askConsumer (consumer.seek expected.topic expected.partition watermark.low) with
      | some error => pure (some (result.fail .seekFailed error))
      | none =>
        let result := { result with caughtUp := watermark.high ≤ watermark.low }
        if replay = true ∧ result.caughtUp = false then
          replayUntilCaughtUp consumer parse rounds position watermark result
        else pure (some result)

/-- Restoring the runtime; an error leaves it as it was reached. -/
def restoreCheckpoint (checkpoint : EngineCheckpoint) : RecoveryM σ (Except Text Unit) := do
  let s ← get
  let (outcome, runtime) := (restoreRuntime checkpoint).run.run s.runtime
  set { s with runtime := runtime }
  pure outcome

/-- `recover_impl` once the checkpoint has been restored. -/
def resumeFrom (rounds : ℕ) (replay : Bool) (position : CheckpointSourcePosition)
    (watermark : BrokerWatermarkOffsets) (result : RecoveryResult) :
    RecoveryM σ (Option RecoveryResult) := do
  match ← askConsumer (consumer.seek position.topic position.partition position.nextOffset) with
  | some error => pure (some (result.fail .seekFailed error))
  | none =>
    if replay then replayUntilCaughtUp consumer parse rounds position watermark result
    else pure (some { result with
      status := .recovered
      caughtUp := watermark.high ≤ position.nextOffset })

/-- `recover_impl` with a checkpoint of the right source. -/
def recoverFromCheckpoint (rounds : ℕ) (replay : Bool) (checkpoint : EngineCheckpoint) :
    RecoveryM σ (Option RecoveryResult) := do
  let position := checkpoint.sourcePosition
  let result := RecoveryResult.withCheckpoint checkpoint
  match ← askConsumer (consumer.getWatermark position.topic position.partition) with
  | .error error => pure (some (result.fail .watermarkUnavailable
      (error.getD (ascii "broker watermark unavailable for " ++ describePosition position))))
  | .ok watermark =>
    let result := { result with watermark := some watermark }
    match validateRecoveryOffset position watermark with
    | some status =>
      pure (some (result.fail status (invalidOffsetError position watermark)))
    | none => do
      match ← restoreCheckpoint checkpoint with
      | .error error => pure (some (result.fail .restoreFailed error))
      | .ok () => resumeFrom consumer parse rounds replay position watermark result

def sameSource (position : CheckpointSourcePosition) (expected : RecoverySource) : Bool :=
  position.topic = expected.topic && position.partition = expected.partition

/-- `recover_impl`, given what the store loaded; an error is what it threw. -/
def recoverImpl (rounds : ℕ) (replay : Bool) (expectedSource : Option RecoverySource)
    (loaded : Except Text (Option EngineCheckpoint)) : RecoveryM σ (Option RecoveryResult) :=
  match loaded with
  | .error message => pure (some (RecoveryResult.new.fail .checkpointLoadFailed message))
  | .ok none =>
    match expectedSource with
    | none => pure (some { RecoveryResult.new with caughtUp := true })
    | some expected => recoverFromLow consumer parse rounds replay expected
  | .ok (some checkpoint) =>
    match expectedSource.filter fun expected => !sameSource checkpoint.sourcePosition expected with
    | some expected => pure (some ((RecoveryResult.withCheckpoint checkpoint).fail .sourceMismatch
        (ascii "checkpoint source " ++ describePosition checkpoint.sourcePosition ++
          ascii " does not match expected " ++ describeSource expected)))
    | none => recoverFromCheckpoint consumer parse rounds replay checkpoint

def recover := recoverImpl consumer parse 0 false

def recoverAndReplay (rounds : ℕ) := recoverImpl consumer parse rounds true

end Recover
end PerpexEngine
