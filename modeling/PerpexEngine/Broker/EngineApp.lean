import PerpexEngine.Runtime.RuntimeRuns

/-! A worker's live loop: poll, process, publish, checkpoint, commit. The broker and the checkpoint
store are an environment with a state of its own, which may answer each call as it likes. -/
namespace PerpexEngine
open Program

structure ConsumedRecord where
  topic : Text
  partition : ℤ
  offset : ℤ
  value : Text
deriving DecidableEq, Repr

def ConsumedRecord.inbound (record : ConsumedRecord) : InboundEngineRecord :=
  ⟨record.topic, record.partition, record.offset⟩

structure OffsetCommitRequest where
  topic : Text
  partition : ℤ
  offset : ℤ
deriving DecidableEq, Repr

def ConsumedRecord.sourceOffset (record : ConsumedRecord) : OffsetCommitRequest :=
  ⟨record.topic, record.partition, record.offset⟩

def EngineDuplicateInfo.sourceOffset (duplicate : EngineDuplicateInfo) : OffsetCommitRequest :=
  ⟨duplicate.originalTopic, duplicate.originalPartition, duplicate.originalOffset⟩

inductive EngineOutputRecord where
  | reply (reply : EngineReply)
  | event (event : EngineEventRecord)
deriving DecidableEq, Repr

/-- What is given to the producer; the value stands for its serialized text. -/
structure ProduceRequest where
  topic : Text
  key : Text
  partition : Option ℤ
  value : EngineOutputRecord
deriving DecidableEq, Repr

def EngineOutputRecord.request : EngineOutputRecord → ProduceRequest
  | reply r => ⟨engineRepliesTopic, r.requestId, some r.partition, reply r⟩
  | event e => ⟨engineEventsTopic, text e.marketId, none, event e⟩

/-- The replies, then the events. -/
def EngineProcessResult.outputs (result : EngineProcessResult) : List EngineOutputRecord :=
  result.replies.map .reply ++ result.events.map .event

/-- How a call comes back. -/
inductive CallResult where
  | ok
  | error (message : Text)
  | threw (message : Text)
deriving DecidableEq, Repr

structure Environment (σ : Type) where
  parse : Text → Except Text EngineInput
  poll : σ → Except Text (Option ConsumedRecord) × σ
  produce : ProduceRequest → σ → CallResult × σ
  preCommitHook : ConsumedRecord → EngineRuntime → σ → CallResult × σ
  commit : OffsetCommitRequest → σ → CallResult × σ
  stopRequested : σ → Bool × σ

/-- What the worker did, as an observer sees it. -/
inductive AppAction where
  | polled (record : ConsumedRecord)
  | processed (record : ConsumedRecord) (result : EngineProcessResult)
  | produced (request : ProduceRequest) (outcome : CallResult)
  | hooked (record : ConsumedRecord) (outcome : CallResult)
  | committed (request : OffsetCommitRequest) (outcome : CallResult)
deriving DecidableEq, Repr

structure EngineAppState (σ : Type) where
  world : σ
  runtime : EngineRuntime
  committedOffsets : List OffsetCommitRequest
  journal : List AppAction

abbrev AppM (σ : Type) := Program Text (EngineAppState σ)

structure EngineInputGuardConfig where
  topic : Text
  partition : Option ℤ
  marketIds : List MarketId

inductive EngineBrokerAppStatus where
  | noRecord
  | processed
  | rejectedInputTopic
  | rejectedInputPartition
  | rejectedInputMarket
  | publishFailed
  | checkpointFailed
  | commitFailed
  | processingFailed
  | unsafeDuplicate
deriving DecidableEq, Repr

/-- The failed request has the topic, key, partition and type of the failure. -/
structure EnginePublishFailure where
  request : ProduceRequest
  error : Text
deriving DecidableEq, Repr

structure EnginePublishResult where
  attempted : ℕ
  published : ℕ
  failures : List EnginePublishFailure
deriving DecidableEq, Repr

structure EngineBrokerAppResult where
  status : EngineBrokerAppStatus
  source : Option ConsumedRecord
  processStatus : Option EngineProcessStatus
  publishResult : EnginePublishResult
  committed : Bool
  error : Text

def EngineBrokerAppResult.ok (result : EngineBrokerAppResult) : Bool :=
  result.status = .noRecord || result.status = .processed

section Calls
variable {σ : Type}

/-- An action becomes part of the journal as it happens. -/
def note (action : AppAction) : AppM σ Unit :=
  modify fun s => { s with journal := s.journal ++ [action] }

/-- The error a call came back with; what it threw is thrown on. -/
def CallResult.returned : CallResult → AppM σ (Option Text)
  | ok => pure none
  | error message => pure (some message)
  | threw message => throw message

/-- The error of a call whose caller catches. -/
def CallResult.caught : CallResult → Option Text
  | ok => none
  | error message => some message
  | threw message => some message

def inWorld {α : Type} (call : σ → α × σ) : AppM σ α := do
  let s ← get
  let (a, world) := call s.world
  set { s with world := world }
  pure a

def produceRecord (env : Environment σ) (request : ProduceRequest) : AppM σ (Option Text) := do
  let outcome ← inWorld (env.produce request)
  note (.produced request outcome)
  outcome.returned

def commitOffset (env : Environment σ) (request : OffsetCommitRequest) : AppM σ (Option Text) := do
  let outcome ← inWorld (env.commit request)
  note (.committed request outcome)
  outcome.returned

def runPreCommitHook (env : Environment σ) (record : ConsumedRecord) : AppM σ (Option Text) := do
  let s ← get
  let outcome ← inWorld (env.preCommitHook record s.runtime)
  note (.hooked record outcome)
  pure outcome.caught

/-- The runtime on the record; what it throws is caught, and it keeps the state it reached. -/
def processRecord (env : Environment σ) (record : ConsumedRecord) :
    AppM σ (Except Text EngineProcessResult) := do
  let s ← get
  let (outcome, runtime) := s.runtime.step (.input record.inbound (env.parse record.value) .live)
  set { s with runtime := runtime }
  match outcome with
  | .ok result => do
    note (.processed record result)
    pure (.ok result)
  | .error message => pure (.error message)

end Calls

section Outbox
variable {σ : Type} (env : Environment σ)

/-- The count after one attempt. -/
def EnginePublishResult.attempt (result : EnginePublishResult) (request : ProduceRequest) :
    Option Text → EnginePublishResult
  | none => { result with attempted := result.attempted + 1, published := result.published + 1 }
  | some error => { result with
      attempted := result.attempted + 1
      failures := result.failures ++ [⟨request, error⟩] }

/-- A failure does not keep the records after it from being tried. -/
def publishRecords : List EngineOutputRecord → EnginePublishResult → AppM σ EnginePublishResult
  | [], result => pure result
  | record :: records, result => do
    let error ← produceRecord env record.request
    publishRecords records (result.attempt record.request error)

/-- `EngineOutbox::publish`: duplicates and rejected inputs have nothing to publish. -/
def publish (processResult : EngineProcessResult) : AppM σ EnginePublishResult :=
  if processResult.status = .duplicate ∨ processResult.status = .rejected then pure ⟨0, 0, []⟩
  else publishRecords env processResult.outputs ⟨0, 0, []⟩

end Outbox

section Consume
variable {σ : Type}

def marketIdFor : ParsedEngineInput → MarketId
  | .placeOrder input => input.marketId
  | .cancelOrder input => input.marketId
  | .liquidatePosition input => input.marketId
  | .markPriceUpdated input => input.marketId
  | .fundingRateUpdated input => input.marketId
  | .fundingSettlementTick input => input.marketId

/-- Why a record of another market is not consumed. -/
def checkMarket (env : Environment σ) (guard : EngineInputGuardConfig) (record : ConsumedRecord) :
    Option (EngineBrokerAppStatus × Text) :=
  if guard.marketIds = [] then none
  else
    match env.parse record.value with
    | .error message => some (.processingFailed, message)
    | .ok input =>
      let marketId := marketIdFor input.parsed
      if marketId ∈ guard.marketIds then none
      else some (.rejectedInputMarket,
        ascii "market_id " ++ text marketId ++ ascii " is not owned by this engine worker")

/-- The checks before the runtime sees a record. -/
def checkSource (env : Environment σ) (guard : EngineInputGuardConfig) (record : ConsumedRecord) :
    Option (EngineBrokerAppStatus × Text) :=
  if record.topic ≠ guard.topic then
    some (.rejectedInputTopic,
      ascii "expected input topic " ++ guard.topic ++ ascii ", received " ++ record.topic)
  else
    match guard.partition.filter (· ≠ record.partition) with
    | some partition => some (.rejectedInputPartition,
        ascii "expected input partition " ++ text partition ++ ascii ", received " ++
          text record.partition)
    | none => checkMarket env guard record

def duplicateSourceIsSafe (processResult : EngineProcessResult)
    (committedOffsets : List OffsetCommitRequest) : Bool :=
  match processResult.duplicate with
  | none => false
  | some duplicate => committedOffsets.contains duplicate.sourceOffset

def markCommitted (request : OffsetCommitRequest) : AppM σ Unit :=
  modify fun s =>
    if s.committedOffsets.contains request then s
    else { s with committedOffsets := s.committedOffsets ++ [request] }

/-- The result of consuming a record, before its status is known. -/
def consumedResult (record : ConsumedRecord) (processStatus : Option EngineProcessStatus)
    (publishResult : EnginePublishResult) (status : EngineBrokerAppStatus) (error : Text) :
    EngineBrokerAppResult where
  status := status
  source := some record
  processStatus := processStatus
  publishResult := publishResult
  committed := status = .processed
  error := error

/-- The last part of consuming a record: checkpoint, then commit. -/
def checkpointAndCommit (env : Environment σ) (record : ConsumedRecord) :
    AppM σ (EngineBrokerAppStatus × Text) := do
  match ← runPreCommitHook env record with
  | some error => pure (.checkpointFailed, error)
  | none =>
    match ← commitOffset env record.sourceOffset with
    | some error => pure (.commitFailed, error)
    | none =>
      markCommitted record.sourceOffset
      pure (.processed, [])

/-- What follows once the outputs of a record have been tried. -/
def settleRecord (env : Environment σ) (record : ConsumedRecord)
    (processResult : EngineProcessResult) (publishResult : EnginePublishResult) :
    AppM σ (EngineBrokerAppStatus × Text) := do
  match publishResult.failures with
  | failure :: _ => pure (.publishFailed, failure.error)
  | [] =>
    let s ← get
    if processResult.status = .duplicate ∧
        duplicateSourceIsSafe processResult s.committedOffsets = false then
      pure (.unsafeDuplicate, ascii "duplicate source offset has not been committed")
    else checkpointAndCommit env record

def consume (env : Environment σ) (guard : EngineInputGuardConfig) (record : ConsumedRecord) :
    AppM σ EngineBrokerAppResult :=
  match checkSource env guard record with
  | some (status, error) => pure (consumedResult record none ⟨0, 0, []⟩ status error)
  | none => do
    match ← processRecord env record with
    | .error message => pure (consumedResult record none ⟨0, 0, []⟩ .processingFailed message)
    | .ok processResult => do
      let publishResult ← publish env processResult
      let (status, error) ← settleRecord env record processResult publishResult
      pure (consumedResult record (some processResult.status) publishResult status error)

def pollOnce (env : Environment σ) (guard : EngineInputGuardConfig) :
    AppM σ EngineBrokerAppResult := do
  match ← inWorld env.poll with
  | .error message => throw message
  | .ok none => pure ⟨.noRecord, none, none, ⟨0, 0, []⟩, false, []⟩
  | .ok (some record) => do
    note (.polled record)
    consume env guard record

end Consume

section Worker
variable {σ : Type}

structure EngineWorkerConfig where
  inputTopic : Text
  inputPartition : ℤ
  marketId : MarketId
  pollLoopLimit : Option ℕ

def EngineWorkerConfig.guard (config : EngineWorkerConfig) : EngineInputGuardConfig :=
  ⟨config.inputTopic, some config.inputPartition, [config.marketId]⟩

/-- At most `turns` turns of the loop of `run_engine_partition_worker`, which a failed poll ends. -/
def workerLoop (env : Environment σ) (config : EngineWorkerConfig) :
    ℕ → ℕ → AppM σ Unit
  | 0, _ => pure ()
  | turns + 1, pollCount => do
    let stop ← inWorld env.stopRequested
    if stop = true ∨ config.pollLoopLimit.any (· ≤ pollCount) = true then pure ()
    else
      let result ← pollOnce env config.guard
      if result.ok then workerLoop env config turns (pollCount + 1)
      else throw result.error

/-- The worker as its loop starts. -/
def EngineAppState.start (world : σ) (runtime : EngineRuntime) : EngineAppState σ where
  world := world
  runtime := runtime
  committedOffsets := []
  journal := []

/-- What a worker has done by the end of so many turns. -/
def workerJournal (env : Environment σ) (config : EngineWorkerConfig) (world : σ)
    (runtime : EngineRuntime) (turns : ℕ) : List AppAction :=
  ((workerLoop env config turns 0).run.run (.start world runtime)).2.journal

end Worker
end PerpexEngine
