import PerpexEngine.Protocol.JsonValues
import PerpexEngine.Runtime.InputParser

/-! What an input message says, read off its members, and that the parser returns just that. -/
namespace PerpexEngine

section Members

namespace JsonValue
variable {object : JsonValue} {field path : String}

/-- The member is a string that is not empty. -/
def HasString (object : JsonValue) (field : String) (text : Text) : Prop :=
  object.find (ascii field) = some (.string text) ∧ text ≠ []

/-- Such a string, or no member, or null. -/
def HasOptionalString (object : JsonValue) (field : String) : Option Text → Prop
  | none => object.find (ascii field) = none ∨ object.find (ascii field) = some .null
  | some text => object.HasString field text

/-- A number or a string of digits, of the 64 bits. -/
def HasInteger (object : JsonValue) (field : String) (z : ℤ) : Prop :=
  FitsInt64 z ∧ ∃ text, DenotesInteger text z ∧
    (object.find (ascii field) = some (.number text) ∨
      object.find (ascii field) = some (.string text))

def HasBool (object : JsonValue) (field : String) (value : Bool) : Prop :=
  object.find (ascii field) = some (.bool value)

/-- The words for a side. -/
def sideWord : AdapterSide → Text
  | .long => ascii "LONG"
  | .short => ascii "SHORT"

def orderTypeWord : AdapterOrderType → Text
  | .limit => ascii "LIMIT"
  | .market => ascii "MARKET"

/-- The words for a time in force. -/
def IsTimeInForceWord (text : Text) : AdapterTimeInForce → Prop
  | .gtc => text = ascii "GTC"
  | .ioc => text = ascii "IOC"
  | .fok => text = ascii "FOK"
  | .postOnly => text = ascii "POST_ONLY" ∨ text = ascii "PO"

/-- Good till cancelled where no word is given. -/
def HasTimeInForce (object : JsonValue) (timeInForce : AdapterTimeInForce) : Prop :=
  object.HasOptionalString "time_in_force" none ∧ timeInForce = .gtc ∨
    ∃ word, object.HasString "time_in_force" word ∧ IsTimeInForceWord word timeInForce

theorem requireField_eq_ok {value : JsonValue} :
    requireField object field path = .ok value ↔ object.find (ascii field) = some value := by
  unfold requireField
  cases object.find (ascii field) <;> simp [fail]

theorem requireString_eq_ok {text : Text} :
    requireString object field path = .ok text ↔ object.HasString field text := by
  unfold requireString HasString
  rw [bind_eq_ok]
  constructor
  · rintro ⟨value, hvalue, h⟩
    rw [requireField_eq_ok] at hvalue
    cases value with
    | string other =>
      obtain ⟨hne, hother⟩ := fail_ite_eq_ok.1 h
      cases hother
      exact ⟨hvalue, hne⟩
    | _ => cases h
  · rintro ⟨hfind, hne⟩
    exact ⟨_, requireField_eq_ok.2 hfind, fail_ite_eq_ok.2 ⟨hne, rfl⟩⟩

theorem requirePayloadString_eq_ok {type text : Text} :
    requirePayloadString ⟨type, object⟩ field = .ok text ↔ object.HasString field text :=
  requireString_eq_ok

theorem optionalPayloadString_eq_ok {type : Text} {text : Option Text} :
    optionalPayloadString ⟨type, object⟩ field = .ok text ↔ object.HasOptionalString field text := by
  unfold optionalPayloadString
  dsimp only
  cases hfind : object.find (ascii field) with
  | none => cases text <;> simp [HasOptionalString, HasString, hfind]
  | some value =>
    cases value with
    | null => cases text <;> simp [HasOptionalString, HasString, hfind]
    | string other =>
      rw [fail_ite_eq_ok]
      cases text with
      | none => simp [HasOptionalString, hfind]
      | some text =>
        simp only [HasOptionalString, HasString, hfind, Option.some.injEq, JsonValue.string.injEq,
          Except.ok.injEq]
        constructor
        · rintro ⟨hne, rfl⟩
          exact ⟨rfl, hne⟩
        · rintro ⟨rfl, hne⟩
          exact ⟨hne, rfl⟩
    | _ => cases text <;> simp [HasOptionalString, HasString, hfind, fail]

theorem parseIntegerText_eq_ok {text : Text} {z : ℤ} :
    parseIntegerText text path = .ok z ↔ DenotesInteger text z ∧ FitsInt64 z := by
  have hiff := @fromCharsSigned_eq_some 64 text z
  unfold parseIntegerText FitsInt64
  rw [← hiff]
  cases fromCharsSigned 64 text <;> simp [fail]

theorem requireI64_eq_ok {z : ℤ} :
    requireI64 object field path = .ok z ↔ object.HasInteger field z := by
  unfold requireI64 HasInteger
  rw [bind_eq_ok]
  constructor
  · rintro ⟨value, hvalue, h⟩
    rw [requireField_eq_ok] at hvalue
    cases value with
    | number lexeme =>
      obtain ⟨hdenotes, hfits⟩ := parseIntegerText_eq_ok.1 h
      exact ⟨hfits, lexeme, hdenotes, Or.inl hvalue⟩
    | string text =>
      obtain ⟨hdenotes, hfits⟩ := parseIntegerText_eq_ok.1 h
      exact ⟨hfits, text, hdenotes, Or.inr hvalue⟩
    | _ => cases h
  · rintro ⟨hfits, text, hdenotes, hfind | hfind⟩
    · exact ⟨_, requireField_eq_ok.2 hfind, parseIntegerText_eq_ok.2 ⟨hdenotes, hfits⟩⟩
    · exact ⟨_, requireField_eq_ok.2 hfind, parseIntegerText_eq_ok.2 ⟨hdenotes, hfits⟩⟩

theorem requireI32_eq_ok {z : ℤ} :
    requireI32 object field path = .ok z ↔ object.HasInteger field z ∧ FitsInt32 z := by
  unfold requireI32
  simp only [bind_eq_ok, requireI64_eq_ok, ite_fail_eq_ok, pure_eq_ok]
  constructor
  · rintro ⟨_, hinteger, hfits, rfl⟩
    exact ⟨hinteger, hfits⟩
  · rintro ⟨hinteger, hfits⟩
    exact ⟨z, hinteger, hfits, rfl⟩

theorem requireBool_eq_ok {b : Bool} :
    requireBool object field path = .ok b ↔ object.HasBool field b := by
  unfold requireBool HasBool
  rw [bind_eq_ok]
  constructor
  · rintro ⟨value, hvalue, h⟩
    rw [requireField_eq_ok] at hvalue
    cases value with
    | bool other =>
      cases h
      exact hvalue
    | _ => cases h
  · exact fun hfind => ⟨_, requireField_eq_ok.2 hfind, rfl⟩

theorem parseLongOrShort_eq_ok {text : Text} {side : AdapterSide} :
    parseLongOrShort text path = .ok side ↔ text = sideWord side := by
  unfold parseLongOrShort
  have hne : ascii "SHORT" ≠ ascii "LONG" := by decide
  split_ifs with hlong hshort
  · cases side <;> simp [sideWord, hlong, hne.symm]
  · cases side <;> simp [sideWord, hshort, hne]
  · cases side <;> simp [sideWord, hlong, hshort, fail]

theorem parseOrderType_eq_ok {text : Text} {orderType : AdapterOrderType} :
    parseOrderType text = .ok orderType ↔ text = orderTypeWord orderType := by
  unfold parseOrderType
  have hne : ascii "MARKET" ≠ ascii "LIMIT" := by decide
  split_ifs with hlimit hmarket
  · cases orderType <;> simp [orderTypeWord, hlimit, hne.symm]
  · cases orderType <;> simp [orderTypeWord, hmarket, hne]
  · cases orderType <;> simp [orderTypeWord, hlimit, hmarket, fail]

theorem parseTimeInForce_eq_ok {text : Text} {timeInForce : AdapterTimeInForce} :
    parseTimeInForce text = .ok timeInForce ↔ IsTimeInForceWord text timeInForce := by
  have hwords : [ascii "GTC", ascii "IOC", ascii "FOK", ascii "POST_ONLY", ascii "PO"].Nodup := by
    decide
  simp only [List.nodup_cons, List.mem_cons, List.not_mem_nil, or_false, not_or] at hwords
  unfold parseTimeInForce
  split_ifs with hgtc hioc hfok hpost
  · subst hgtc
    cases timeInForce <;> simp [IsTimeInForceWord, hwords]
  · subst hioc
    cases timeInForce <;> simp [IsTimeInForceWord, hwords, hgtc]
  · subst hfok
    cases timeInForce <;> simp [IsTimeInForceWord, hwords, hgtc, hioc]
  · cases timeInForce <;> simp [IsTimeInForceWord, hgtc, hioc, hfok, hpost]
  · cases timeInForce <;> simp [IsTimeInForceWord, hgtc, hioc, hfok, hpost, fail]

theorem optionalTimeInForce_eq_ok {timeInForce : AdapterTimeInForce} :
    optionalTimeInForce object = .ok timeInForce ↔ object.HasTimeInForce timeInForce := by
  unfold optionalTimeInForce HasTimeInForce HasOptionalString HasString
  cases hfind : object.find (ascii "time_in_force") with
  | none => simp [eq_comm]
  | some value =>
    cases value with
    | null => simp [eq_comm]
    | string word =>
      simp only [fail_ite_eq_ok, parseTimeInForce_eq_ok, Option.some.injEq, JsonValue.string.injEq,
        reduceCtorEq, or_self, false_and, false_or]
      constructor
      · rintro ⟨hne, hword⟩
        exact ⟨word, ⟨rfl, hne⟩, hword⟩
      · rintro ⟨_, ⟨rfl, hne⟩, hword⟩
        exact ⟨hne, hword⟩
    | _ => simp [fail]

end JsonValue

/-- The payload says this envelope. -/
structure CommandEnvelope.SaidBy (envelope : CommandEnvelope) (payload : JsonValue) : Prop where
  members : ∃ members, payload.find (ascii "envelope") = some (.object members) ∧
    JsonValue.HasString (.object members) "request_id" envelope.requestId ∧
    JsonValue.HasString (.object members) "idempotency_key" envelope.idempotencyKey ∧
    JsonValue.HasInteger (.object members) "user_id" envelope.userId ∧
    JsonValue.HasInteger (.object members) "reply_partition" envelope.replyPartition
  replyPartition : FitsInt32 envelope.replyPartition

structure PlaceOrderInput.SaidBy (input : PlaceOrderInput) (payload : JsonValue) : Prop where
  inputId : payload.HasOptionalString "input_id" input.inputId
  envelope : input.envelope.SaidBy payload
  orderId : payload.HasInteger "order_id" input.orderId
  reservationId : payload.HasString "reservation_id" input.reservationId
  marketId : payload.HasInteger "market_id" input.marketId
  marketName : ∃ marketName, payload.HasString "market_name" marketName
  side : payload.HasString "side" (JsonValue.sideWord input.side)
  orderType : payload.HasString "order_type" (JsonValue.orderTypeWord input.orderType)
  timeInForce : payload.HasTimeInForce input.timeInForce
  price : payload.HasInteger "price" input.price
  quantity : payload.HasInteger "quantity" input.quantity
  reduceOnly : payload.HasBool "reduce_only" input.reduceOnly
  marginAsset : payload.HasString "margin_asset" input.marginAsset
  reservedMarginAmount : payload.HasInteger "reserved_margin_amount" input.reservedMarginAmount
  leverage : payload.HasInteger "leverage" input.leverage
  leverageFits : FitsInt32 input.leverage

structure CancelOrderInput.SaidBy (input : CancelOrderInput) (payload : JsonValue) : Prop where
  inputId : payload.HasOptionalString "input_id" input.inputId
  envelope : input.envelope.SaidBy payload
  marketId : payload.HasInteger "market_id" input.marketId
  orderId : payload.HasInteger "order_id" input.orderId

structure LiquidatePositionInput.SaidBy (input : LiquidatePositionInput) (payload : JsonValue) :
    Prop where
  inputId : payload.HasOptionalString "input_id" input.inputId
  envelope : input.envelope.SaidBy payload
  liquidationId : payload.HasString "liquidation_id" input.liquidationId
  marketId : payload.HasInteger "market_id" input.marketId
  marketName : ∃ marketName, payload.HasString "market_name" marketName
  liquidatedUserId : payload.HasInteger "liquidated_user_id" input.liquidatedUserId
  positionSide : payload.HasString "position_side" (JsonValue.sideWord input.positionSide)
  quantity : payload.HasInteger "quantity" input.quantity
  price : payload.HasInteger "price" input.price
  requestSource : ∃ requestSource, payload.HasOptionalString "request_source" requestSource

structure MarkPriceUpdatedInput.SaidBy (input : MarkPriceUpdatedInput) (payload : JsonValue) :
    Prop where
  inputId : payload.HasOptionalString "input_id" input.inputId
  marketId : payload.HasInteger "market_id" input.marketId
  markPrice : payload.HasInteger "mark_price" input.markPrice
  indexPrice : payload.HasInteger "index_price" input.indexPrice
  sourceTimestampMs : payload.HasInteger "source_timestamp_ms" input.sourceTimestampMs
  publishedAtMs : payload.HasInteger "published_at_ms" input.publishedAtMs
  validUntilMs : payload.HasInteger "valid_until_ms" input.validUntilMs
  sourceSequence : payload.HasInteger "source_sequence" input.sourceSequence
  sourceStatus : payload.HasString "source_status" input.sourceStatus

structure FundingRateUpdatedInput.SaidBy (input : FundingRateUpdatedInput) (payload : JsonValue) :
    Prop where
  inputId : payload.HasOptionalString "input_id" input.inputId
  marketId : payload.HasInteger "market_id" input.marketId
  fundingIntervalId : payload.HasString "funding_interval_id" input.fundingIntervalId
  rate : payload.HasInteger "rate" input.rate
  rateScale : payload.HasInteger "rate_scale" input.rateScale
  intervalStartMs : payload.HasInteger "interval_start_ms" input.intervalStartMs
  intervalEndMs : payload.HasInteger "interval_end_ms" input.intervalEndMs
  sourceTimestampMs : payload.HasInteger "source_timestamp_ms" input.sourceTimestampMs
  positiveScale : 0 < input.rateScale
  interval : input.intervalStartMs < input.intervalEndMs

structure FundingSettlementTickInput.SaidBy (input : FundingSettlementTickInput)
    (payload : JsonValue) : Prop where
  inputId : payload.HasOptionalString "input_id" input.inputId
  marketId : payload.HasInteger "market_id" input.marketId
  fundingIntervalId : payload.HasString "funding_interval_id" input.fundingIntervalId
  settleAtMs : payload.HasInteger "settle_at_ms" input.settleAtMs

end Members

section Parse
open JsonValue
variable {payload : JsonValue}

theorem requireEnvelope_eq_ok {envelope : CommandEnvelope} :
    requireEnvelope payload = .ok envelope ↔ envelope.SaidBy payload := by
  unfold requireEnvelope
  rw [bind_eq_ok]
  constructor
  · rintro ⟨value, hvalue, h⟩
    rw [requireField_eq_ok] at hvalue
    cases value with
    | object members =>
      simp only [bind_eq_ok, requireString_eq_ok, requireI64_eq_ok, requireI32_eq_ok,
        pure_eq_ok] at h
      obtain ⟨_, hrequest, _, hkey, _, huser, _, ⟨hreply, hfits⟩, rfl⟩ := h
      exact ⟨⟨members, hvalue, hrequest, hkey, huser, hreply⟩, hfits⟩
    | _ => cases h
  · rintro ⟨⟨members, hvalue, hrequest, hkey, huser, hreply⟩, hfits⟩
    refine ⟨_, requireField_eq_ok.2 hvalue, ?_⟩
    simp only [bind_eq_ok, requireString_eq_ok, requireI64_eq_ok, requireI32_eq_ok, pure_eq_ok]
    exact ⟨_, hrequest, _, hkey, _, huser, _, ⟨hreply, hfits⟩, rfl⟩

theorem parsePlaceOrder_eq_ok {input : PlaceOrderInput} :
    parsePlaceOrder ⟨ascii "PlaceOrder", payload⟩ = .ok input ↔ input.SaidBy payload := by
  unfold parsePlaceOrder parsePlaceSide
  simp only [fail_ite_eq_ok, bind_eq_ok, optionalPayloadString_eq_ok, requireEnvelope_eq_ok,
    requireI64_eq_ok, requireI32_eq_ok, requirePayloadString_eq_ok, parseLongOrShort_eq_ok,
    parseOrderType_eq_ok, optionalTimeInForce_eq_ok, requireBool_eq_ok, pure_eq_ok]
  constructor
  · rintro ⟨-, _, h₁, _, h₂, _, h₃, _, h₄, _, h₅, _, h₆, _, h₇, _, rfl, _, h₈, _, rfl, _, h₉, _, h₁₀,
      _, h₁₁, _, h₁₂, _, h₁₃, _, h₁₄, _, ⟨h₁₅, h₁₆⟩, rfl⟩
    exact ⟨h₁, h₂, h₃, h₄, h₅, ⟨_, h₆⟩, h₇, h₈, h₉, h₁₀, h₁₁, h₁₂, h₁₃, h₁₄, h₁₅, h₁₆⟩
  · rintro ⟨h₁, h₂, h₃, h₄, h₅, ⟨_, h₆⟩, h₇, h₈, h₉, h₁₀, h₁₁, h₁₂, h₁₃, h₁₄, h₁₅, h₁₆⟩
    exact ⟨by simp, _, h₁, _, h₂, _, h₃, _, h₄, _, h₅, _, h₆, _, h₇, _, rfl, _, h₈, _, rfl, _, h₉, _,
      h₁₀, _, h₁₁, _, h₁₂, _, h₁₃, _, h₁₄, _, ⟨h₁₅, h₁₆⟩, rfl⟩

theorem parseCancelOrder_eq_ok {input : CancelOrderInput} :
    parseCancelOrder ⟨ascii "CancelOrder", payload⟩ = .ok input ↔ input.SaidBy payload := by
  unfold parseCancelOrder
  simp only [fail_ite_eq_ok, bind_eq_ok, optionalPayloadString_eq_ok, requireEnvelope_eq_ok,
    requireI64_eq_ok, pure_eq_ok]
  constructor
  · rintro ⟨-, _, hid, _, henvelope, _, hmarket, _, horder, rfl⟩
    exact ⟨hid, henvelope, hmarket, horder⟩
  · rintro ⟨hid, henvelope, hmarket, horder⟩
    exact ⟨by simp, _, hid, _, henvelope, _, hmarket, _, horder, rfl⟩

theorem parseLiquidatePosition_eq_ok {input : LiquidatePositionInput} :
    parseLiquidatePosition ⟨ascii "LiquidatePosition", payload⟩ = .ok input ↔
      input.SaidBy payload := by
  unfold parseLiquidatePosition parsePositionSide
  simp only [fail_ite_eq_ok, bind_eq_ok, optionalPayloadString_eq_ok, requireEnvelope_eq_ok,
    requireI64_eq_ok, requirePayloadString_eq_ok, parseLongOrShort_eq_ok, pure_eq_ok]
  constructor
  · rintro ⟨-, _, h₁, _, h₂, _, h₃, _, h₄, _, h₅, _, h₆, _, h₇, _, rfl, _, h₈, _, h₉, _, h₁₀, rfl⟩
    exact ⟨h₁, h₂, h₃, h₄, ⟨_, h₅⟩, h₆, h₇, h₈, h₉, ⟨_, h₁₀⟩⟩
  · rintro ⟨h₁, h₂, h₃, h₄, ⟨_, h₅⟩, h₆, h₇, h₈, h₉, ⟨_, h₁₀⟩⟩
    exact ⟨by simp, _, h₁, _, h₂, _, h₃, _, h₄, _, h₅, _, h₆, _, h₇, _, rfl, _, h₈, _, h₉, _, h₁₀,
      rfl⟩

theorem parseMarkPriceUpdated_eq_ok {input : MarkPriceUpdatedInput} :
    parseMarkPriceUpdated ⟨ascii "MarkPriceUpdated", payload⟩ = .ok input ↔
      input.SaidBy payload := by
  unfold parseMarkPriceUpdated
  simp only [fail_ite_eq_ok, bind_eq_ok, optionalPayloadString_eq_ok, requireI64_eq_ok,
    requirePayloadString_eq_ok, pure_eq_ok]
  constructor
  · rintro ⟨-, _, h₁, _, h₂, _, h₃, _, h₄, _, h₅, _, h₆, _, h₇, _, h₈, _, h₉, rfl⟩
    exact ⟨h₁, h₂, h₃, h₄, h₅, h₆, h₇, h₈, h₉⟩
  · rintro ⟨h₁, h₂, h₃, h₄, h₅, h₆, h₇, h₈, h₉⟩
    exact ⟨by simp, _, h₁, _, h₂, _, h₃, _, h₄, _, h₅, _, h₆, _, h₇, _, h₈, _, h₉, rfl⟩

theorem parseFundingRateUpdated_eq_ok {input : FundingRateUpdatedInput} :
    parseFundingRateUpdated ⟨ascii "FundingRateUpdated", payload⟩ = .ok input ↔
      input.SaidBy payload := by
  unfold parseFundingRateUpdated
  simp only [fail_ite_eq_ok, bind_eq_ok, optionalPayloadString_eq_ok, requireI64_eq_ok,
    requirePayloadString_eq_ok, pure_eq_ok, not_le]
  constructor
  · rintro ⟨-, _, h₁, _, h₂, _, h₃, _, h₄, _, h₅, _, h₆, _, h₇, _, h₈, hscale, hinterval, rfl⟩
    exact ⟨h₁, h₂, h₃, h₄, h₅, h₆, h₇, h₈, hscale, hinterval⟩
  · rintro ⟨h₁, h₂, h₃, h₄, h₅, h₆, h₇, h₈, hscale, hinterval⟩
    exact ⟨by simp, _, h₁, _, h₂, _, h₃, _, h₄, _, h₅, _, h₆, _, h₇, _, h₈, hscale, hinterval, rfl⟩

theorem parseFundingSettlementTick_eq_ok {input : FundingSettlementTickInput} :
    parseFundingSettlementTick ⟨ascii "FundingSettlementTick", payload⟩ = .ok input ↔
      input.SaidBy payload := by
  unfold parseFundingSettlementTick
  simp only [fail_ite_eq_ok, bind_eq_ok, optionalPayloadString_eq_ok, requireI64_eq_ok,
    requirePayloadString_eq_ok, pure_eq_ok]
  constructor
  · rintro ⟨-, _, hid, _, hmarket, _, hinterval, _, hsettle, rfl⟩
    exact ⟨hid, hmarket, hinterval, hsettle⟩
  · rintro ⟨hid, hmarket, hinterval, hsettle⟩
    exact ⟨by simp, _, hid, _, hmarket, _, hinterval, _, hsettle, rfl⟩

/-- The word for the kind of an input. -/
def ParsedEngineInput.kindWord : ParsedEngineInput → Text
  | placeOrder _ => ascii "PlaceOrder"
  | cancelOrder _ => ascii "CancelOrder"
  | liquidatePosition _ => ascii "LiquidatePosition"
  | markPriceUpdated _ => ascii "MarkPriceUpdated"
  | fundingRateUpdated _ => ascii "FundingRateUpdated"
  | fundingSettlementTick _ => ascii "FundingSettlementTick"

def ParsedEngineInput.SaidBy : ParsedEngineInput → JsonValue → Prop
  | placeOrder input => input.SaidBy
  | cancelOrder input => input.SaidBy
  | liquidatePosition input => input.SaidBy
  | markPriceUpdated input => input.SaidBy
  | fundingRateUpdated input => input.SaidBy
  | fundingSettlementTick input => input.SaidBy

/-- The message is an object with this kind and a payload that says the input. -/
def ParsedEngineInput.IsMessage (input : ParsedEngineInput) (root : JsonValue) : Prop :=
  root.find (ascii "type") = some (.string input.kindWord) ∧ ∃ members,
    root.find (ascii "payload") = some (.object members) ∧ input.SaidBy (.object members)

theorem parseProtocolMessage_eq_ok {raw : Text} {message : ProtocolMessage} :
    parseProtocolMessage raw = .ok message ↔ ∃ root, Json.IsText raw root ∧
      root.find (ascii "type") = some (.string message.type) ∧ message.type ≠ [] ∧ ∃ members,
        root.find (ascii "payload") = some (.object members) ∧ message.payload = .object members := by
  unfold parseProtocolMessage
  rw [bind_eq_ok]
  refine exists_congr fun root => ?_
  rw [parseJson_eq_ok]
  refine and_congr_right fun _ => ?_
  cases root with
  | object top =>
    dsimp only
    cases htype : JsonValue.find (ascii "type") (.object top) with
    | none => simp [fail]
    | some typeValue =>
      cases typeValue with
      | string type =>
        dsimp only
        rw [fail_ite_eq_ok]
        cases hpayload : JsonValue.find (ascii "payload") (.object top) with
        | none => simp [fail]
        | some payloadValue =>
          cases payloadValue with
          | object members =>
            simp only [pure_eq_ok, Option.some.injEq, JsonValue.string.injEq,
              JsonValue.object.injEq]
            constructor
            · rintro ⟨hne, rfl⟩
              exact ⟨rfl, hne, members, rfl, rfl⟩
            · rintro ⟨rfl, hne, _, rfl, hmembers⟩
              exact ⟨hne, by rw [← hmembers]⟩
          | _ => simp [fail]
      | _ => simp [fail]
  | _ => simp [fail, JsonValue.find]

theorem map_eq_ok {ε α β : Type} {f : α → β} {x : Except ε α} {b : β} :
    f <$> x = .ok b ↔ ∃ a, x = .ok a ∧ f a = b := by
  cases x with
  | error e => simp [Functor.map, Except.map]
  | ok a => simp [Functor.map, Except.map]

theorem parseInputMessage_eq_ok {type : Text} {input : ParsedEngineInput} :
    parseInputMessage ⟨type, payload⟩ = .ok input ↔ type = input.kindWord ∧ input.SaidBy payload := by
  unfold parseInputMessage
  constructor
  · intro h
    dsimp only at h
    split_ifs at h with h₁ h₂ h₃ h₄ h₅ h₆
    all_goals
      obtain ⟨_, hparsed, rfl⟩ := map_eq_ok.1 h
      subst type
      refine ⟨rfl, ?_⟩
    · exact parsePlaceOrder_eq_ok.1 hparsed
    · exact parseCancelOrder_eq_ok.1 hparsed
    · exact parseLiquidatePosition_eq_ok.1 hparsed
    · exact parseMarkPriceUpdated_eq_ok.1 hparsed
    · exact parseFundingRateUpdated_eq_ok.1 hparsed
    · exact parseFundingSettlementTick_eq_ok.1 hparsed
  · rintro ⟨hkind, hsaid⟩
    have hwords : [ascii "FundingSettlementTick", ascii "FundingRateUpdated",
        ascii "MarkPriceUpdated", ascii "LiquidatePosition", ascii "CancelOrder",
        ascii "PlaceOrder"].Nodup := by decide
    simp only [List.nodup_cons, List.mem_cons, List.not_mem_nil, or_false, not_or] at hwords
    cases input with
    | placeOrder input =>
      simp only [hkind, ParsedEngineInput.kindWord, if_true]
      exact map_eq_ok.2 ⟨input, parsePlaceOrder_eq_ok.2 hsaid, rfl⟩
    | cancelOrder input =>
      simp only [hkind, ParsedEngineInput.kindWord, hwords, if_true, if_false]
      exact map_eq_ok.2 ⟨input, parseCancelOrder_eq_ok.2 hsaid, rfl⟩
    | liquidatePosition input =>
      simp only [hkind, ParsedEngineInput.kindWord, hwords, if_true, if_false]
      exact map_eq_ok.2 ⟨input, parseLiquidatePosition_eq_ok.2 hsaid, rfl⟩
    | markPriceUpdated input =>
      simp only [hkind, ParsedEngineInput.kindWord, hwords, if_true, if_false]
      exact map_eq_ok.2 ⟨input, parseMarkPriceUpdated_eq_ok.2 hsaid, rfl⟩
    | fundingRateUpdated input =>
      simp only [hkind, ParsedEngineInput.kindWord, hwords, if_true, if_false]
      exact map_eq_ok.2 ⟨input, parseFundingRateUpdated_eq_ok.2 hsaid, rfl⟩
    | fundingSettlementTick input =>
      simp only [hkind, ParsedEngineInput.kindWord, hwords, if_true, if_false]
      exact map_eq_ok.2 ⟨input, parseFundingSettlementTick_eq_ok.2 hsaid, rfl⟩

theorem ParsedEngineInput.kindWord_ne_nil (input : ParsedEngineInput) : input.kindWord ≠ [] := by
  cases input <;> exact List.cons_ne_nil _ _

theorem parseEngineInput_eq_ok {raw : Text} {input : ParsedEngineInput} :
    parseEngineInput raw = .ok input ↔ ∃ root, Json.IsText raw root ∧ input.IsMessage root := by
  unfold parseEngineInput
  constructor
  · intro h
    cases hmessage : parseProtocolMessage raw with
    | error error =>
      rw [hmessage] at h
      cases h
    | ok message =>
      rw [hmessage] at h
      obtain ⟨hkind, hsaid⟩ := parseInputMessage_eq_ok.1 h
      obtain ⟨root, htext, htype, -, members, hpayload, hmembers⟩ :=
        parseProtocolMessage_eq_ok.1 hmessage
      rw [hkind] at htype
      rw [hmembers] at hsaid
      exact ⟨root, htext, htype, members, hpayload, hsaid⟩
  · rintro ⟨root, htext, htype, members, hpayload, hsaid⟩
    have hmessage : parseProtocolMessage raw = .ok ⟨input.kindWord, .object members⟩ :=
      parseProtocolMessage_eq_ok.2
        ⟨root, htext, htype, input.kindWord_ne_nil, members, hpayload, rfl⟩
    rw [hmessage]
    exact parseInputMessage_eq_ok.2 ⟨rfl, hsaid⟩

/-- The parser accepts exactly the JSON texts of input messages, and returns what the message says. -/
theorem parses_input_messages (raw : Text) :
    ((∃ input, parseEngineInput raw = .ok input) ↔
        ∃ root input, Json.IsText raw root ∧ ParsedEngineInput.IsMessage input root) ∧
      ∀ root input, Json.IsText raw root → ParsedEngineInput.IsMessage input root →
        parseEngineInput raw = .ok input := by
  refine ⟨?_, fun root input htext hmessage =>
    parseEngineInput_eq_ok.2 ⟨root, htext, hmessage⟩⟩
  rw [exists_comm]
  exact exists_congr fun _ => parseEngineInput_eq_ok

end Parse

end PerpexEngine
