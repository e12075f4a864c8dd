import PerpexEngine.Broker.Cycles
import PerpexEngine.Recovery.BrokerLog
import PerpexEngine.Recovery.LatestCheckpoint
import PerpexEngine.Runtime.LiquidationIds

/-! A partition worker from its start on: recovery, the startup scan, then the live loop. -/
namespace PerpexEngine
open Program

/-- What the worker of a partition shares with those before and after it, and where it reads. -/
structure PartitionWorld where
  cursor : LogCursor
  stored : List EngineCheckpoint
  calls : ℕ

/-- The broker and the store while one worker runs: the log, and how they answer the calls that do not
read it. A save that fails may have stored its checkpoint all the same. -/
structure PartitionServices where
  log : BrokerLog
  parse : Text → Except Text EngineInput
  loadAnswer : Except Text (Option EngineCheckpoint)
  produceAnswer : ℕ → CallResult
  saveAnswer : ℕ → CallResult
  storesAnyway : ℕ → Bool
  commitAnswer : ℕ → CallResult
  stopAnswer : ℕ → Bool

structure EngineMarketWorker extends EngineWorkerConfig where
  symbolConfig : SymbolConfig
  clock : ℕ → ℤ

namespace PartitionServices
variable (services : PartitionServices)

/-- The answer to the next call. -/
def answer {α : Type} (answers : ℕ → α) (world : PartitionWorld) : α × PartitionWorld :=
  (answers world.calls, { world with calls := world.calls + 1 })

def poll (world : PartitionWorld) : Except Text (Option ConsumedRecord) × PartitionWorld :=
  let (polled, cursor) := services.log.poll world.cursor
  (polled, { world with cursor := cursor })

/-- `ICheckpointStore::save`. -/
def saveCheckpoint (checkpoint : EngineCheckpoint) (world : PartitionWorld) :
    CallResult × PartitionWorld :=
  let outcome := services.saveAnswer world.calls
  let stored := outcome = .ok || services.storesAnyway world.calls
  (outcome,
    { world with
      stored := if stored then world.stored ++ [checkpoint] else world.stored
      calls := world.calls + 1 })

/-- `save_checkpoint_for_source`. -/
def saveCheckpointForSource (sourcePosition : CheckpointSourcePosition) (rt : EngineRuntime)
    (world : PartitionWorld) : CallResult × PartitionWorld :=
  match createCheckpoint rt sourcePosition (checkpointIdFor sourcePosition) with
  | .error message => (.threw message, world)
  | .ok checkpoint => services.saveCheckpoint checkpoint world

/-- `next_offset` of a record. -/
def nextOffset (source : ConsumedRecord) : Except Text ℤ :=
  if source.offset = 2 ^ 63 - 1 then
    .error (ascii "cannot checkpoint source offset without overflow")
  else .ok (source.offset + 1)

/-- The pre-commit hook of the worker. -/
def saveCheckpointForRecord (source : ConsumedRecord) (rt : EngineRuntime)
    (world : PartitionWorld) : CallResult × PartitionWorld :=
  match nextOffset source with
  | .error message => (.threw message, world)
  | .ok next => services.saveCheckpointForSource ⟨source.topic, source.partition, next⟩ rt world

/-- What the live loop is given. -/
def app : Environment PartitionWorld where
  parse := services.parse
  poll := services.poll
  produce _ := answer services.produceAnswer
  preCommitHook := services.saveCheckpointForRecord
  commit _ := answer services.commitAnswer
  stopRequested := answer services.stopAnswer

end PartitionServices

section Worker

def RecoveryStatus.name : RecoveryStatus → Text
  | noCheckpoint => ascii "NoCheckpoint"
  | recovered => ascii "Recovered"
  | replayed => ascii "Replayed"
  | sourceMismatch => ascii "SourceMismatch"
  | checkpointLoadFailed => ascii "CheckpointLoadFailed"
  | watermarkUnavailable => ascii "WatermarkUnavailable"
  | invalidWatermark => ascii "InvalidWatermark"
  | offsetBelowLowWatermark => ascii "OffsetBelowLowWatermark"
  | offsetAboveHighWatermark => ascii "OffsetAboveHighWatermark"
  | restoreFailed => ascii "RestoreFailed"
  | seekFailed => ascii "SeekFailed"
  | replayFailed => ascii "ReplayFailed"

def failIfRecoveryIncomplete (result : RecoveryResult) : Except Text Unit :=
  if result.ok = false then
    throw (ascii "startup recovery failed with status " ++ result.status.name ++
      (if result.error = [] then [] else ascii ": " ++ result.error))
  else if result.sourcePosition.isSome = true ∧ result.caughtUp = false then
    throw (ascii "startup recovery did not catch up before live polling")
  else pure ()

/-- Trade ids of a market start in a range of its own. -/
def firstTradeIdForMarket (marketId : MarketId) : Except Text TradeId :=
  let tradeIdNamespaceSize : ℕ := 1000000000000
  if marketId ≤ 0 then throw (ascii "market_id must be positive for trade id seed")
  else if (2 ^ 64 - 1 - 1) / tradeIdNamespaceSize < marketId.toNat then
    throw (ascii "market_id is too large for trade id seed")
  else pure (marketId.toNat * tradeIdNamespaceSize + 1)

def startupCheckpointPosition (result : RecoveryResult) (fallbackTopic : Text)
    (fallbackPartition : ℤ) : CheckpointSourcePosition :=
  match result.sourcePosition with
  | some position => { position with nextOffset := result.nextOffset }
  | none => ⟨fallbackTopic, fallbackPartition, result.nextOffset⟩

/-- The recovery of a worker with the runtime it has just made. -/
def PartitionServices.recovery (services : PartitionServices) (config : EngineWorkerConfig)
    (rounds : ℕ) (rt : EngineRuntime) (world : PartitionWorld) :
    Except Text (Option RecoveryResult) × RecoveryState LogCursor :=
  (recoverAndReplay services.log.consumer services.parse rounds
    (some ⟨config.inputTopic, config.inputPartition⟩) services.loadAnswer).run.run
    ⟨world.cursor, rt, []⟩

/-- Recovery within the worker: nothing is journaled, and nothing comes of a replay that takes more
than `rounds`. -/
def recoverPartition (services : PartitionServices) (config : EngineWorkerConfig) (rounds : ℕ) :
    AppM PartitionWorld (Option RecoveryResult) := do
  let s ← get
  let recovered := services.recovery config rounds s.runtime s.world
  set { s with
    world := { s.world with cursor := recovered.2.world }
    runtime := recovered.2.runtime }
  liftExcept recovered.1

/-- The checkpoint of the startup scan. -/
def saveStartupCheckpoint (services : PartitionServices) (config : EngineWorkerConfig)
    (result : RecoveryResult) : AppM PartitionWorld Unit := do
  let s ← get
  let position := startupCheckpointPosition result config.inputTopic config.inputPartition
  match ← inWorld (services.saveCheckpointForSource position s.runtime) with
  | .ok => pure ()
  | .error message => throw (ascii "startup automatic liquidation checkpoint failed: " ++ message)
  | .threw message => throw message

def runStartupAutomaticLiquidationScan (services : PartitionServices)
    (config : EngineWorkerConfig) (result : RecoveryResult) : AppM PartitionWorld Unit := do
  let s ← get
  let scanned := s.runtime.step (.evaluate startupLiquidationSource .live)
  set { s with runtime := scanned.2 }
  let processResult ← liftExcept scanned.1
  if processResult.replies = [] ∧ processResult.events = [] then pure ()
  else
    let publishResult ← publish services.app processResult
    match publishResult.failures with
    | failure :: _ =>
      throw (ascii "startup automatic liquidation publish failed: " ++ failure.error)
    | [] => saveStartupCheckpoint services config result

/-- `run_engine_partition_worker`, for so many rounds of replay and turns of the loop. -/
def runEnginePartitionWorker (services : PartitionServices) (market : EngineMarketWorker)
    (rounds turns : ℕ) : AppM PartitionWorld Unit := do
  let firstTradeId ← liftExcept (firstTradeIdForMarket market.marketId)
  modify fun s => { s with runtime := .new ⟨[market.symbolConfig], 1, firstTradeId, market.clock⟩ }
  match ← recoverPartition services market.toEngineWorkerConfig rounds with
  | none => pure ()
  | some result => do
    liftExcept (failIfRecoveryIncomplete result)
    runStartupAutomaticLiquidationScan services market.toEngineWorkerConfig result
    workerLoop services.app market.toEngineWorkerConfig turns 0

end Worker
end PerpexEngine
