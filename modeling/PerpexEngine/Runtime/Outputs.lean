import PerpexEngine.Runtime.Messages

/-! Replies and events, with the fields of their payloads. -/
namespace PerpexEngine

/-- `source_input_id`, `source_input_topic`, `source_input_partition`, `source_input_offset`. -/
structure SourceFields where
  sourceInputId : Option Text
  sourceInputTopic : Text
  sourceInputPartition : ℤ
  sourceInputOffset : ℤ
deriving DecidableEq, Repr

def sourceFields (record : InboundEngineRecord) (inputId : Option Text) : SourceFields :=
  ⟨inputId, record.topic, record.partition, record.offset⟩

inductive ReplyType where
  | orderAccepted
  | orderRejected
  | cancelAccepted
  | cancelRejected
  | liquidationAccepted
  | liquidationRejected
deriving DecidableEq, Repr

/-- The payload fields a reply may have beside its source. -/
structure ReplyFields where
  orderId : Option ℤ
  reservationId : Option Text
  liquidationId : Option Text
  reason : Option Text
deriving DecidableEq, Repr

/-- A record for `engine.replies`; its key is the request id. -/
structure EngineReply where
  type : ReplyType
  requestId : Text
  partition : ℤ
  source : SourceFields
  fields : ReplyFields
deriving DecidableEq, Repr

structure FeeDelta where
  userId : AdapterUserId
  asset : Text
  amount : ℤ
  feeType : Text
deriving DecidableEq, Repr

structure Settlement where
  reservationId : Text
  debitAsset : Text
  debitAmount : ℤ
  creditAsset : Text
  creditAmount : ℤ
deriving DecidableEq, Repr

structure OrderParty where
  userId : AdapterUserId
  reservationId : Text
deriving DecidableEq, Repr

structure LiquidationFields where
  liquidationId : Text
  liquidatedUserId : AdapterUserId
  positionSide : AdapterSide
  liquidationFee : ℤ
deriving DecidableEq, Repr

structure AdlFields where
  adlId : Text
  counterpartyUserId : AdapterUserId
  adlPriorityRank : ℤ
deriving DecidableEq, Repr

/-- `fill_id` repeats `trade_id`. -/
structure TradeExecutedPayload where
  tradeId : TradeId
  price : ℤ
  quantity : ℤ
  makerOrderId : OrderId
  takerOrderId : OrderId
  executionReason : Text
  feeDeltas : List FeeDelta
  settlements : List Settlement
  maker : Option OrderParty
  taker : Option OrderParty
  liquidation : Option LiquidationFields
  adl : Option AdlFields
deriving DecidableEq, Repr

structure LiquidationExecutedPayload where
  liquidation : LiquidationFields
  tradeId : TradeId
  price : ℤ
  quantity : ℤ
  executionReason : Text
  feeAsset : Text
deriving DecidableEq, Repr

structure AdlExecutedPayload where
  adlId : Text
  liquidationId : Text
  liquidatedUserId : AdapterUserId
  deleveragedUserId : AdapterUserId
  positionSide : AdapterSide
  quantity : ℤ
  price : ℤ
  rank : ℤ
  reason : Text
deriving DecidableEq, Repr

structure AccountDeltaPayload where
  accountDeltaId : Text
  userId : AdapterUserId
  asset : Text
  totalDelta : ℤ
  lockedDelta : ℤ
  reason : Text
  referenceId : Text
deriving DecidableEq, Repr

structure PositionChangedPayload where
  position : IsolatedPositionState
  markPrice : ℤ
  realizedPnl : ℤ
  unrealizedPnl : ℤ
  maintenanceMargin : ℤ
  reason : Text
  lastFillQuantity : ℤ
  lastFillPrice : ℤ
deriving DecidableEq, Repr

structure OrderOpenedPayload where
  orderId : OrderId
  userId : UserId
  side : Side
  price : ℤ
  quantity : ℤ
  reservationId : Option Text
deriving DecidableEq, Repr

structure OrderCancelledPayload where
  orderId : OrderId
  releasedQuantity : ℤ
  party : Option OrderParty
  releasedAmount : ℤ
deriving DecidableEq, Repr

structure ReservationReleasedPayload where
  reservationId : Text
  userId : AdapterUserId
  asset : Text
  releasedAmount : ℤ
  reason : Text
deriving DecidableEq, Repr

structure OrderExpiredPayload where
  orderId : OrderId
  reservationId : Text
  userId : AdapterUserId
  expiredQuantity : ℤ
  releasedAmount : ℤ
  reason : Text
deriving DecidableEq, Repr

/-- The level also stands in `bids` or `asks`, by its side. -/
structure OrderBookDeltaPayload where
  side : Side
  price : ℤ
  quantity : ℤ
deriving DecidableEq, Repr

structure FundingPayment where
  userId : AdapterUserId
  positionId : Text
  side : RiskSide
  asset : Text
  amount : ℤ
deriving DecidableEq, Repr

structure LiquidationStartedPayload where
  liquidationId : Text
  userId : AdapterUserId
  positionId : Text
  side : RiskSide
  quantity : ℤ
  markPrice : ℤ
  maintenanceMargin : ℤ
  equity : ℤ
  reason : Text
deriving DecidableEq, Repr

structure LiquidationCompletedPayload where
  liquidationId : Text
  userId : AdapterUserId
  positionId : Text
  finalStatus : Text
  remainingQuantity : ℤ
  insuranceFundDelta : ℤ
  badDebt : ℤ
deriving DecidableEq, Repr

/-- The type of an event with its payload. A risk update shows the risk state it is about. -/
inductive EventPayload where
  | orderOpened (p : OrderOpenedPayload)
  | orderCancelled (p : OrderCancelledPayload)
  | orderExpired (p : OrderExpiredPayload)
  | reservationReleased (p : ReservationReleasedPayload)
  | tradeExecuted (p : TradeExecutedPayload)
  | liquidationExecuted (p : LiquidationExecutedPayload)
  | adlExecuted (p : AdlExecutedPayload)
  | accountDelta (p : AccountDeltaPayload)
  | positionChanged (p : PositionChangedPayload)
  | riskStateUpdated (risk : IsolatedRiskState)
  | orderBookDelta (p : OrderBookDeltaPayload)
  | markPriceUpdated (input : MarkPriceUpdatedInput)
  | fundingRateUpdated (input : FundingRateUpdatedInput)
  | fundingPaymentApplied (fundingIntervalId : Text) (payments : List FundingPayment)
  | liquidationStarted (p : LiquidationStartedPayload)
  | liquidationCompleted (p : LiquidationCompletedPayload)
deriving DecidableEq, Repr

/-- A record for `engine.events`; its key is the market id. -/
structure EngineEventRecord where
  marketId : MarketId
  engineSequence : EngineSequence
  engineEventId : Text
  engineTimestampMs : ℤ
  source : SourceFields
  requestId : Option Text
  payload : EventPayload
deriving DecidableEq, Repr

inductive EngineDuplicateReason where
  | inputId
  | idempotencyKey
deriving DecidableEq, Repr

structure EngineDuplicateInfo where
  reason : EngineDuplicateReason
  key : Text
  originalTopic : Text
  originalPartition : ℤ
  originalOffset : ℤ
  originalInputId : Option Text
  originalIdempotencyKey : Text
deriving DecidableEq, Repr

inductive EngineProcessStatus where
  | processed
  | duplicate
  | rejected
deriving DecidableEq, Repr

structure EngineProcessResult where
  status : EngineProcessStatus
  duplicate : Option EngineDuplicateInfo
  replies : List EngineReply
  events : List EngineEventRecord
deriving DecidableEq, Repr

namespace EngineProcessResult

def new : EngineProcessResult := ⟨.processed, none, [], []⟩

def reply (r : EngineReply) : EngineProcessResult := { new with replies := [r] }

def event (e : EngineEventRecord) : EngineProcessResult := { new with events := [e] }

/-- `append_process_result`: the status of the first stays. -/
def append (result translated : EngineProcessResult) : EngineProcessResult :=
  { result with
    replies := result.replies ++ translated.replies
    events := result.events ++ translated.events }

instance : Append EngineProcessResult := ⟨append⟩

@[simp] theorem replies_append (r t : EngineProcessResult) :
    (r ++ t).replies = r.replies ++ t.replies := rfl

@[simp] theorem events_append (r t : EngineProcessResult) :
    (r ++ t).events = r.events ++ t.events := rfl

@[simp] theorem replies_reply (r : EngineReply) : (reply r).replies = [r] := rfl
@[simp] theorem events_reply (r : EngineReply) : (reply r).events = [] := rfl
@[simp] theorem replies_event (e : EngineEventRecord) : (event e).replies = [] := rfl
@[simp] theorem events_event (e : EngineEventRecord) : (event e).events = [e] := rfl
@[simp] theorem replies_new : new.replies = [] := rfl
@[simp] theorem events_new : new.events = [] := rfl

end EngineProcessResult

inductive ProcessingMode where
  | live
  | replaySilent
deriving DecidableEq, Repr

/-- `apply_processing_mode`. -/
def EngineProcessResult.applyProcessingMode (result : EngineProcessResult) :
    ProcessingMode → EngineProcessResult
  | .live => result
  | .replaySilent => { result with replies := [], events := [] }

end PerpexEngine
