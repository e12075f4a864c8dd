import PerpexEngine.Runtime.InputMessages

/-! Which inputs the parser can return: each of them has a message. -/
namespace PerpexEngine

section Admitted

def CommandEnvelope.Admitted (envelope : CommandEnvelope) : Prop :=
  envelope.requestId ≠ [] ∧ envelope.idempotencyKey ≠ [] ∧ FitsInt64 envelope.userId ∧
    FitsInt32 envelope.replyPartition

/-- Its integers are machine integers, its texts are not empty, and a funding rate has a scale and
an interval. -/
def ParsedEngineInput.Admitted : ParsedEngineInput → Prop
  | placeOrder input => input.inputId ≠ some [] ∧ input.envelope.Admitted ∧
      FitsInt64 input.orderId ∧ input.reservationId ≠ [] ∧ FitsInt64 input.marketId ∧
      FitsInt64 input.price ∧ FitsInt64 input.quantity ∧ input.marginAsset ≠ [] ∧
      FitsInt64 input.reservedMarginAmount ∧ FitsInt32 input.leverage
  | cancelOrder input => input.inputId ≠ some [] ∧ input.envelope.Admitted ∧
      FitsInt64 input.marketId ∧ FitsInt64 input.orderId
  | liquidatePosition input => input.inputId ≠ some [] ∧ input.envelope.Admitted ∧
      input.liquidationId ≠ [] ∧ FitsInt64 input.marketId ∧ FitsInt64 input.liquidatedUserId ∧
      FitsInt64 input.quantity ∧ FitsInt64 input.price
  | markPriceUpdated input => input.inputId ≠ some [] ∧ FitsInt64 input.marketId ∧
      FitsInt64 input.markPrice ∧ FitsInt64 input.indexPrice ∧
      FitsInt64 input.sourceTimestampMs ∧ FitsInt64 input.publishedAtMs ∧
      FitsInt64 input.validUntilMs ∧ FitsInt64 input.sourceSequence ∧ input.sourceStatus ≠ []
  | fundingRateUpdated input => input.inputId ≠ some [] ∧ FitsInt64 input.marketId ∧
      input.fundingIntervalId ≠ [] ∧ FitsInt64 input.rate ∧ FitsInt64 input.rateScale ∧
      FitsInt64 input.intervalStartMs ∧ FitsInt64 input.intervalEndMs ∧
      FitsInt64 input.sourceTimestampMs ∧ 0 < input.rateScale ∧
      input.intervalStartMs < input.intervalEndMs
  | fundingSettlementTick input => input.inputId ≠ some [] ∧ FitsInt64 input.marketId ∧
      input.fundingIntervalId ≠ [] ∧ FitsInt64 input.settleAtMs

variable {payload : JsonValue}

theorem JsonValue.HasOptionalString.ne {field : String} {text : Option Text}
    (h : payload.HasOptionalString field text) : text ≠ some [] := by
  cases text with
  | none => simp
  | some text => simpa using h.2

theorem CommandEnvelope.SaidBy.admitted {envelope : CommandEnvelope} (h : envelope.SaidBy payload) :
    envelope.Admitted := by
  obtain ⟨_, -, hrequest, hkey, huser, -⟩ := h.members
  exact ⟨hrequest.2, hkey.2, huser.1, h.replyPartition⟩

theorem ParsedEngineInput.SaidBy.admitted {input : ParsedEngineInput} (h : input.SaidBy payload) :
    input.Admitted := by
  cases input with
  | placeOrder input =>
    exact ⟨h.inputId.ne, h.envelope.admitted, h.orderId.1, h.reservationId.2, h.marketId.1,
      h.price.1, h.quantity.1, h.marginAsset.2, h.reservedMarginAmount.1, h.leverageFits⟩
  | cancelOrder input => exact ⟨h.inputId.ne, h.envelope.admitted, h.marketId.1, h.orderId.1⟩
  | liquidatePosition input =>
    exact ⟨h.inputId.ne, h.envelope.admitted, h.liquidationId.2, h.marketId.1,
      h.liquidatedUserId.1, h.quantity.1, h.price.1⟩
  | markPriceUpdated input =>
    exact ⟨h.inputId.ne, h.marketId.1, h.markPrice.1, h.indexPrice.1, h.sourceTimestampMs.1,
      h.publishedAtMs.1, h.validUntilMs.1, h.sourceSequence.1, h.sourceStatus.2⟩
  | fundingRateUpdated input =>
    exact ⟨h.inputId.ne, h.marketId.1, h.fundingIntervalId.2, h.rate.1, h.rateScale.1,
      h.intervalStartMs.1, h.intervalEndMs.1, h.sourceTimestampMs.1, h.positiveScale, h.interval⟩
  | fundingSettlementTick input =>
    exact ⟨h.inputId.ne, h.marketId.1, h.fundingIntervalId.2, h.settleAtMs.1⟩

/-- The runtime's inputs come from the parser. -/
theorem ParsedEngineInput.Admitted.wellFormed {input : ParsedEngineInput} (h : input.Admitted) :
    input.WellFormed := by
  cases input with
  | placeOrder input =>
    obtain ⟨-, -, -, -, -, hprice, hquantity, -⟩ := h
    exact ⟨hprice, hquantity⟩
  | fundingRateUpdated input =>
    obtain ⟨-, -, -, -, -, -, -, -, hscale, hinterval⟩ := h
    exact ⟨hscale, hinterval⟩
  | _ => trivial

section Written

def optionalMember : Option Text → JsonValue
  | none => .null
  | some text => .string text

/-- Integers are written as strings. -/
def integerMember (z : ℤ) : JsonValue := .string (text z)

def CommandEnvelope.members (envelope : CommandEnvelope) : List (Text × JsonValue) :=
  [(ascii "idempotency_key", .string envelope.idempotencyKey),
    (ascii "reply_partition", integerMember envelope.replyPartition),
    (ascii "request_id", .string envelope.requestId),
    (ascii "user_id", integerMember envelope.userId)]

def timeInForceWord : AdapterTimeInForce → Text
  | .gtc => ascii "GTC"
  | .ioc => ascii "IOC"
  | .fok => ascii "FOK"
  | .postOnly => ascii "POST_ONLY"

/-- The payload of a message of the input. -/
def ParsedEngineInput.members : ParsedEngineInput → List (Text × JsonValue)
  | placeOrder input =>
    [(ascii "envelope", .object input.envelope.members),
      (ascii "input_id", optionalMember input.inputId),
      (ascii "leverage", integerMember input.leverage),
      (ascii "margin_asset", .string input.marginAsset),
      (ascii "market_id", integerMember input.marketId),
      (ascii "market_name", .string (ascii "market")),
      (ascii "order_id", integerMember input.orderId),
      (ascii "order_type", .string (JsonValue.orderTypeWord input.orderType)),
      (ascii "price", integerMember input.price),
      (ascii "quantity", integerMember input.quantity),
      (ascii "reduce_only", .bool input.reduceOnly),
      (ascii "reservation_id", .string input.reservationId),
      (ascii "reserved_margin_amount", integerMember input.reservedMarginAmount),
      (ascii "side", .string (JsonValue.sideWord input.side)),
      (ascii "time_in_force", .string (timeInForceWord input.timeInForce))]
  | cancelOrder input =>
    [(ascii "envelope", .object input.envelope.members),
      (ascii "input_id", optionalMember input.inputId),
      (ascii "market_id", integerMember input.marketId),
      (ascii "order_id", integerMember input.orderId)]
  | liquidatePosition input =>
    [(ascii "envelope", .object input.envelope.members),
      (ascii "input_id", optionalMember input.inputId),
      (ascii "liquidated_user_id", integerMember input.liquidatedUserId),
      (ascii "liquidation_id", .string input.liquidationId),
      (ascii "market_id", integerMember input.marketId),
      (ascii "market_name", .string (ascii "market")),
      (ascii "position_side", .string (JsonValue.sideWord input.positionSide)),
      (ascii "price", integerMember input.price),
      (ascii "quantity", integerMember input.quantity)]
  | markPriceUpdated input =>
    [(ascii "index_price", integerMember input.indexPrice),
      (ascii "input_id", optionalMember input.inputId),
      (ascii "mark_price", integerMember input.markPrice),
      (ascii "market_id", integerMember input.marketId),
      (ascii "published_at_ms", integerMember input.publishedAtMs),
      (ascii "source_sequence", integerMember input.sourceSequence),
      (ascii "source_status", .string input.sourceStatus),
      (ascii "source_timestamp_ms", integerMember input.sourceTimestampMs),
      (ascii "valid_until_ms", integerMember input.validUntilMs)]
  | fundingRateUpdated input =>
    [(ascii "funding_interval_id", .string input.fundingIntervalId),
      (ascii "input_id", optionalMember input.inputId),
      (ascii "interval_end_ms", integerMember input.intervalEndMs),
      (ascii "interval_start_ms", integerMember input.intervalStartMs),
      (ascii "market_id", integerMember input.marketId),
      (ascii "rate", integerMember input.rate),
      (ascii "rate_scale", integerMember input.rateScale),
      (ascii "source_timestamp_ms", integerMember input.sourceTimestampMs)]
  | fundingSettlementTick input =>
    [(ascii "funding_interval_id", .string input.fundingIntervalId),
      (ascii "input_id", optionalMember input.inputId),
      (ascii "market_id", integerMember input.marketId),
      (ascii "settle_at_ms", integerMember input.settleAtMs)]

def ParsedEngineInput.message (input : ParsedEngineInput) : JsonValue :=
  .object [(ascii "payload", .object input.members), (ascii "type", .string input.kindWord)]

open JsonValue
variable {members : List (Text × JsonValue)} {field : String}

theorem hasString_of_lookup {word : Text} (h : members.lookup (ascii field) = some (.string word))
    (hne : word ≠ []) : (JsonValue.object members).HasString field word := ⟨h, hne⟩

theorem hasInteger_of_lookup {z : ℤ} (h : members.lookup (ascii field) = some (integerMember z))
    (hz : FitsInt64 z) : (JsonValue.object members).HasInteger field z :=
  ⟨hz, text z, denotesInteger_text z, Or.inr h⟩

theorem hasOptional_of_lookup {word : Option Text}
    (h : members.lookup (ascii field) = some (optionalMember word)) (hne : word ≠ some []) :
    (JsonValue.object members).HasOptionalString field word := by
  cases word with
  | none => exact Or.inr h
  | some word => exact ⟨h, fun hnil => hne (by rw [hnil])⟩

theorem FitsInt32.fitsInt64 {z : ℤ} (h : FitsInt32 z) : FitsInt64 z := by
  unfold FitsInt32 at h
  unfold FitsInt64
  omega

theorem CommandEnvelope.Admitted.saidBy {envelope : CommandEnvelope} (h : envelope.Admitted)
    (hfind : members.lookup (ascii "envelope") = some (.object envelope.members)) :
    envelope.SaidBy (.object members) := by
  obtain ⟨hrequest, hkey, huser, hreply⟩ := h
  exact ⟨⟨_, hfind, hasString_of_lookup rfl hrequest, hasString_of_lookup rfl hkey,
    hasInteger_of_lookup rfl huser, hasInteger_of_lookup rfl hreply.fitsInt64⟩, hreply⟩

theorem sideWord_ne_nil (side : AdapterSide) : sideWord side ≠ [] := by
  cases side <;> exact List.cons_ne_nil _ _

theorem orderTypeWord_ne_nil (orderType : AdapterOrderType) : orderTypeWord orderType ≠ [] := by
  cases orderType <;> exact List.cons_ne_nil _ _

theorem isTimeInForceWord (timeInForce : AdapterTimeInForce) :
    timeInForceWord timeInForce ≠ [] ∧
      IsTimeInForceWord (timeInForceWord timeInForce) timeInForce := by
  cases timeInForce with
  | postOnly => exact ⟨List.cons_ne_nil _ _, Or.inl rfl⟩
  | _ => exact ⟨List.cons_ne_nil _ _, rfl⟩

theorem ParsedEngineInput.Admitted.saidBy {input : ParsedEngineInput} (h : input.Admitted) :
    input.SaidBy (.object input.members) := by
  cases input with
  | placeOrder input =>
    obtain ⟨hid, henvelope, horder, hreservation, hmarket, hprice, hquantity, hasset, hmargin,
      hleverage⟩ := h
    exact
      { inputId := hasOptional_of_lookup rfl hid
        envelope := henvelope.saidBy rfl
        orderId := hasInteger_of_lookup rfl horder
        reservationId := hasString_of_lookup rfl hreservation
        marketId := hasInteger_of_lookup rfl hmarket
        marketName := ⟨_, hasString_of_lookup rfl (List.cons_ne_nil _ _)⟩
        side := hasString_of_lookup rfl (sideWord_ne_nil _)
        orderType := hasString_of_lookup rfl (orderTypeWord_ne_nil _)
        timeInForce := Or.inr ⟨_, hasString_of_lookup rfl (isTimeInForceWord _).1,
          (isTimeInForceWord _).2⟩
        price := hasInteger_of_lookup rfl hprice
        quantity := hasInteger_of_lookup rfl hquantity
        reduceOnly := rfl
        marginAsset := hasString_of_lookup rfl hasset
        reservedMarginAmount := hasInteger_of_lookup rfl hmargin
        leverage := hasInteger_of_lookup rfl hleverage.fitsInt64
        leverageFits := hleverage }
  | cancelOrder input =>
    obtain ⟨hid, henvelope, hmarket, horder⟩ := h
    exact ⟨hasOptional_of_lookup rfl hid, henvelope.saidBy rfl, hasInteger_of_lookup rfl hmarket,
      hasInteger_of_lookup rfl horder⟩
  | liquidatePosition input =>
    obtain ⟨hid, henvelope, hliquidation, hmarket, huser, hquantity, hprice⟩ := h
    exact
      { inputId := hasOptional_of_lookup rfl hid
        envelope := henvelope.saidBy rfl
        liquidationId := hasString_of_lookup rfl hliquidation
        marketId := hasInteger_of_lookup rfl hmarket
        marketName := ⟨_, hasString_of_lookup rfl (List.cons_ne_nil _ _)⟩
        liquidatedUserId := hasInteger_of_lookup rfl huser
        positionSide := hasString_of_lookup rfl (sideWord_ne_nil _)
        quantity := hasInteger_of_lookup rfl hquantity
        price := hasInteger_of_lookup rfl hprice
        requestSource := ⟨none, Or.inl rfl⟩ }
  | markPriceUpdated input =>
    obtain ⟨hid, hmarket, hmark, hindex, hsource, hpublished, huntil, hsequence, hstatus⟩ := h
    exact ⟨hasOptional_of_lookup rfl hid, hasInteger_of_lookup rfl hmarket,
      hasInteger_of_lookup rfl hmark, hasInteger_of_lookup rfl hindex,
      hasInteger_of_lookup rfl hsource, hasInteger_of_lookup rfl hpublished,
      hasInteger_of_lookup rfl huntil, hasInteger_of_lookup rfl hsequence,
      hasString_of_lookup rfl hstatus⟩
  | fundingRateUpdated input =>
    obtain ⟨hid, hmarket, hinterval, hrate, hscale, hstart, hend, hsource, hpositive, hless⟩ := h
    exact ⟨hasOptional_of_lookup rfl hid, hasInteger_of_lookup rfl hmarket,
      hasString_of_lookup rfl hinterval, hasInteger_of_lookup rfl hrate,
      hasInteger_of_lookup rfl hscale, hasInteger_of_lookup rfl hstart,
      hasInteger_of_lookup rfl hend, hasInteger_of_lookup rfl hsource, hpositive, hless⟩
  | fundingSettlementTick input =>
    obtain ⟨hid, hmarket, hinterval, hsettle⟩ := h
    exact ⟨hasOptional_of_lookup rfl hid, hasInteger_of_lookup rfl hmarket,
      hasString_of_lookup rfl hinterval, hasInteger_of_lookup rfl hsettle⟩

theorem isValue_optionalMember (word : Option Text) : Json.IsValue (optionalMember word) := by
  cases word with
  | none => exact .null
  | some word => exact .string word

/-- Whether the keys stand in order. -/
def keysRanked (members : List (Text × JsonValue)) : Bool :=
  decide ((members.map Prod.fst).Pairwise fun key key' => byteOrder key < byteOrder key')

theorem isValue_object (hranked : keysRanked members = true)
    (h : ∀ member ∈ members, Json.IsValue member.2) : Json.IsValue (.object members) := by
  have hkeys := of_decide_eq_true hranked
  rw [List.pairwise_map] at hkeys
  exact .object hkeys h

theorem CommandEnvelope.isValue (envelope : CommandEnvelope) :
    Json.IsValue (.object envelope.members) := by
  refine isValue_object rfl ?_
  simp [members, integerMember, Json.IsValue.string]

theorem ParsedEngineInput.isValue (input : ParsedEngineInput) : Json.IsValue input.message := by
  have hmembers : Json.IsValue (.object input.members) := by
    cases input with
    | placeOrder input =>
      refine isValue_object rfl ?_
      simp [ParsedEngineInput.members, integerMember, Json.IsValue.string, Json.IsValue.bool,
        isValue_optionalMember, input.envelope.isValue]
    | cancelOrder input =>
      refine isValue_object rfl ?_
      simp [ParsedEngineInput.members, integerMember, Json.IsValue.string, isValue_optionalMember,
        input.envelope.isValue]
    | liquidatePosition input =>
      refine isValue_object rfl ?_
      simp [ParsedEngineInput.members, integerMember, Json.IsValue.string, isValue_optionalMember,
        input.envelope.isValue]
    | _ =>
      refine isValue_object rfl ?_
      simp [ParsedEngineInput.members, integerMember, Json.IsValue.string, isValue_optionalMember]
  refine isValue_object rfl ?_
  simp [hmembers, Json.IsValue.string]

/-- The inputs that the parser returns are exactly the admitted ones, and all of them are as the
runtime relies on. -/
theorem parsed_inputs_are_admitted (input : ParsedEngineInput) :
    ((∃ raw, parseEngineInput raw = .ok input) ↔ input.Admitted) ∧
      (input.Admitted → input.WellFormed) := by
  refine ⟨⟨?_, fun h => ?_⟩, fun h => h.wellFormed⟩
  · rintro ⟨raw, hraw⟩
    obtain ⟨root, -, -, members, -, hsaid⟩ := parseEngineInput_eq_ok.1 hraw
    exact hsaid.admitted
  · obtain ⟨raw, hraw⟩ := Json.exists_isText_iff.2 input.isValue
    exact ⟨raw, parseEngineInput_eq_ok.2 ⟨_, hraw, rfl, _, rfl, h.saidBy⟩⟩

end Written

end Admitted
end PerpexEngine
