import PerpexEngine.Core.Types
import PerpexEngine.Lib.Decimal
import Mathlib.Data.Prod.Lex

/-! What the runtime reads and writes: parsed inputs, replies, events. Amounts are exact integers. -/
namespace PerpexEngine

abbrev MarketId := ℤ
abbrev AdapterUserId := ℤ
abbrev AdapterOrderId := ℤ
abbrev AdapterPrice := ℤ
abbrev AdapterQuantity := ℤ

def engineInputTopic : Text := ascii "engine.input"
def engineRepliesTopic : Text := ascii "engine.replies"
def engineEventsTopic : Text := ascii "engine.events"

inductive AdapterSide where
  | long
  | short
deriving DecidableEq, Repr

inductive AdapterOrderType where
  | limit
  | market
deriving DecidableEq, Repr

inductive AdapterTimeInForce where
  | gtc
  | ioc
  | fok
  | postOnly
deriving DecidableEq, Repr

structure CommandEnvelope where
  requestId : Text
  idempotencyKey : Text
  userId : AdapterUserId
  replyPartition : ℤ
deriving DecidableEq, Repr

structure PlaceOrderInput where
  inputId : Option Text
  envelope : CommandEnvelope
  orderId : AdapterOrderId
  reservationId : Text
  marketId : MarketId
  side : AdapterSide
  orderType : AdapterOrderType
  timeInForce : AdapterTimeInForce
  price : AdapterPrice
  quantity : AdapterQuantity
  reduceOnly : Bool
  marginAsset : Text
  reservedMarginAmount : ℤ
  leverage : ℤ
deriving DecidableEq, Repr

structure CancelOrderInput where
  inputId : Option Text
  envelope : CommandEnvelope
  marketId : MarketId
  orderId : AdapterOrderId
deriving DecidableEq, Repr

structure LiquidatePositionInput where
  inputId : Option Text
  envelope : CommandEnvelope
  liquidationId : Text
  marketId : MarketId
  liquidatedUserId : AdapterUserId
  positionSide : AdapterSide
  quantity : AdapterQuantity
  price : AdapterPrice
deriving DecidableEq, Repr

structure MarkPriceUpdatedInput where
  inputId : Option Text
  marketId : MarketId
  markPrice : AdapterPrice
  indexPrice : AdapterPrice
  sourceTimestampMs : ℤ
  publishedAtMs : ℤ
  validUntilMs : ℤ
  sourceSequence : ℤ
  sourceStatus : Text
deriving DecidableEq, Repr

structure FundingRateUpdatedInput where
  inputId : Option Text
  marketId : MarketId
  fundingIntervalId : Text
  rate : ℤ
  rateScale : ℤ
  intervalStartMs : ℤ
  intervalEndMs : ℤ
  sourceTimestampMs : ℤ
deriving DecidableEq, Repr

structure FundingSettlementTickInput where
  inputId : Option Text
  marketId : MarketId
  fundingIntervalId : Text
  settleAtMs : ℤ
deriving DecidableEq, Repr

inductive ParsedEngineInput where
  | placeOrder (input : PlaceOrderInput)
  | cancelOrder (input : CancelOrderInput)
  | liquidatePosition (input : LiquidatePositionInput)
  | markPriceUpdated (input : MarkPriceUpdatedInput)
  | fundingRateUpdated (input : FundingRateUpdatedInput)
  | fundingSettlementTick (input : FundingSettlementTickInput)
deriving DecidableEq, Repr

/-- An `int64_t`. -/
def FitsInt64 (n : ℤ) : Prop := -2 ^ 63 ≤ n ∧ n < 2 ^ 63

instance (n : ℤ) : Decidable (FitsInt64 n) := inferInstanceAs (Decidable (_ ∧ _))

/-- An `int32_t`. -/
def FitsInt32 (n : ℤ) : Prop := -2 ^ 31 ≤ n ∧ n < 2 ^ 31

instance (n : ℤ) : Decidable (FitsInt32 n) := inferInstanceAs (Decidable (_ ∧ _))

/-- What the parser has checked of an input that it returns, as far as later code relies on it. -/
def ParsedEngineInput.WellFormed : ParsedEngineInput → Prop
  | placeOrder input => FitsInt64 input.price ∧ FitsInt64 input.quantity
  | fundingRateUpdated input => 0 < input.rateScale ∧ input.intervalStartMs < input.intervalEndMs
  | _ => True

instance (input : ParsedEngineInput) : Decidable input.WellFormed := by
  cases input <;> unfold ParsedEngineInput.WellFormed <;> infer_instance

/-- What `EngineInputParser::parse` returns. -/
structure EngineInput where
  parsed : ParsedEngineInput
  wellFormed : parsed.WellFormed

/-- Where an input comes from; its text is the parsed input beside it. -/
structure InboundEngineRecord where
  topic : Text
  partition : ℤ
  offset : ℤ
deriving DecidableEq, Repr

inductive RuntimeCommandKind where
  | placeOrder
  | cancelOrder
  | markPriceUpdated
  | fundingRateUpdated
  | fundingSettlementTick
  | liquidatePosition
deriving DecidableEq, Repr

structure OrderMetadata where
  orderId : OrderId
  marketId : MarketId
  userId : AdapterUserId
  side : AdapterSide
  originalQuantity : AdapterQuantity
  remainingQuantity : AdapterQuantity
  reduceOnly : Bool
  marginAsset : Text
  reservedMarginAmount : ℤ
  remainingReservedMargin : ℤ
  leverage : ℤ
  reservationId : Text
  placeRequestId : Text
  placeIdempotencyKey : Text
  placeInputId : Option Text
  replyPartition : ℤ
  coreClientOrderId : ClientOrderId
  corePlaceCommandId : CommandId
deriving DecidableEq, Repr

/-- Ordered by user, then by market. -/
structure PositionRiskKey where
  userId : AdapterUserId
  marketId : MarketId
deriving DecidableEq, Repr

instance : Ord PositionRiskKey where
  compare := compareLex (compareOn PositionRiskKey.userId) (compareOn PositionRiskKey.marketId)

instance : Std.TransOrd PositionRiskKey :=
  inferInstanceAs (Std.TransCmp (compareLex (compareOn _) (compareOn _)))

instance : Std.LawfulEqOrd PositionRiskKey where
  eq_of_compare {a b} h := by
    obtain ⟨hu, hm⟩ := compareLex_eq_eq.1 h
    cases a
    cases b
    rw [PositionRiskKey.mk.injEq]
    exact ⟨Std.LawfulEqCmp.eq_of_compare hu, Std.LawfulEqCmp.eq_of_compare hm⟩

structure IsolatedPositionState where
  userId : AdapterUserId
  marketId : MarketId
  signedQuantity : ℤ
  averageEntryPrice : AdapterPrice
  marginAsset : Text
  isolatedMargin : ℤ
  leverage : ℤ
  updatedAtMs : ℤ
deriving DecidableEq, Repr

/-- `position_side_text`. -/
inductive RiskSide where
  | long
  | short
  | flat
deriving DecidableEq, Repr

inductive RiskStatus where
  | flat
  | liquidatable
  | healthy
deriving DecidableEq, Repr

structure IsolatedRiskState where
  userId : AdapterUserId
  marketId : MarketId
  status : RiskStatus
  marginAsset : Text
  signedQuantity : ℤ
  averageEntryPrice : AdapterPrice
  markPrice : AdapterPrice
  isolatedMargin : ℤ
  unrealizedPnl : ℤ
  equity : ℤ
  maintenanceMargin : ℤ
  marginRatio : ℤ
  leverage : ℤ
  updatedAtMs : ℤ
deriving DecidableEq, Repr

structure MarkPriceState where
  marketId : MarketId
  markPrice : AdapterPrice
  indexPrice : AdapterPrice
  sourceTimestampMs : ℤ
  publishedAtMs : ℤ
  validUntilMs : ℤ
  sourceSequence : ℤ
  sourceStatus : Text
deriving DecidableEq, Repr

structure FundingRateState where
  marketId : MarketId
  fundingIntervalId : Text
  rate : ℤ
  rateScale : ℤ
  intervalStartMs : ℤ
  intervalEndMs : ℤ
  sourceTimestampMs : ℤ
deriving DecidableEq, Repr

end PerpexEngine
