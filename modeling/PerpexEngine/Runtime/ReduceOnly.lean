import Mathlib.Algebra.BigOperators.Ring.Finset
import PerpexEngine.Core.TimeInForce
import PerpexEngine.Runtime.Failures
import PerpexEngine.Runtime.LiquidationBounds

/-! Reduce-only orders: they take the position of their user toward zero and leave nothing behind. -/
namespace PerpexEngine
open Program

/-- Placing a new order up to the liquidations that its trades may set off. -/
def placeBeforeLiquidations (record : InboundEngineRecord) (input : PlaceOrderInput) :
    RuntimeM (EngineProcessResult × List EngineEvent) := do
  let rt ← get
  match checkReduceOnlyOrder input rt.ledger with
  | .error reason =>
    let result ← withLedger (reduceOnlyRejectedResult record input reason)
    pure (result, [])
  | .ok cappedQuantity => placeOnBook record input cappedQuantity

theorem EngineProcessResult.append_new (result : EngineProcessResult) :
    result ++ (.new : EngineProcessResult) = result := by
  change EngineProcessResult.append _ _ = _
  unfold EngineProcessResult.append EngineProcessResult.new
  simp

/-- The rest of placing an order is the automatic liquidations. -/
theorem placeNewOrder_eq (record : InboundEngineRecord) (input : PlaceOrderInput) :
    placeNewOrder record input = (do
      let (result, coreEvents) ← placeBeforeLiquidations record input
      let liquidations ← emitWhen (hasTradeExecuted coreEvents = true)
        (evaluateAutomaticLiquidationsForMarket input.marketId record input.inputId)
      pure (result ++ liquidations)) := by
  unfold placeNewOrder placeBeforeLiquidations
  rw [bind_assoc]
  congr 1
  funext rt
  cases checkReduceOnlyOrder input rt.ledger with
  | error reason =>
    have hquiet : hasTradeExecuted [] = false := rfl
    simp [hquiet, emitWhen, EngineProcessResult.append_new]
  | ok capped => exact placeAllowedOrder_eq record input capped

/-- What a reduce-only order leaves of the runtime, once its own trades are applied. -/
structure ReducesOnly (rt : EngineRuntime) (input : PlaceOrderInput)
    (placed : EngineProcessResult × List EngineEvent) (after : EngineRuntime) : Prop where
  position : TowardZero (rt.ledger.signed input.key) (after.ledger.signed input.key)
  rests : ∀ orderId, after.core.Rests orderId → rt.core.Rests orderId
  filed : ∀ orderId : OrderId, rt.ledger.metadataStore[orderId]? = none →
    after.ledger.metadataStore[orderId]? = none
  gone : hasOrderAccepted placed.2 = true → ¬after.core.Rests input.orderId.toNat ∧
    after.ledger.metadataStore[input.orderId.toNat]? = none
  expired : hasOrderAccepted placed.2 = true → tradedLots placed.2 < input.quantity →
    ∃ payload, projected EventPayload.expired? placed.1.events = [payload] ∧
      payload.orderId = input.orderId.toNat ∧ payload.userId = input.envelope.userId ∧
      payload.expiredQuantity = input.quantity - tradedLots placed.2
  unexpired : ¬(hasOrderAccepted placed.2 = true ∧ tradedLots placed.2 < input.quantity) →
    projected EventPayload.expired? placed.1.events = []

section Bounds
variable {rt after : EngineRuntime} {input : PlaceOrderInput} {capped : AdapterQuantity}

theorem reduceOnlyFilledQuantity_eq {orderId : OrderId} {events : List EngineEvent}
    (h : ∀ t ∈ tradesOf events, t.takerOrderId = orderId) :
    reduceOnlyFilledQuantity orderId events = tradedLots events := by
  unfold reduceOnlyFilledQuantity tradedLots
  induction events with
  | nil => rfl
  | cons e events ih =>
    cases e with
    | tradeExecuted t =>
      have hrest := ih fun u hu => h u (List.mem_cons_of_mem _ hu)
      have hown : t.takerOrderId = orderId := h t List.mem_cons_self
      rw [List.map_cons, List.sum_cons, hrest]
      simp [tradesOf, hown]
    | _ => simpa [tradesOf] using ih h

theorem sideReducesPosition_facing {side : AdapterSide} {signedQuantity : ℤ}
    (h : sideReducesPosition side signedQuantity = true) : Facing side signedQuantity := by
  unfold sideReducesPosition at h
  unfold Facing
  cases side with
  | long => exact (of_decide_eq_true h).le
  | short => exact (of_decide_eq_true h).le

/-- An allowed reduce-only order faces its position and is capped by it. -/
theorem checkReduceOnlyOrder_facing (hreduce : input.reduceOnly = true)
    (h : checkReduceOnlyOrder input rt.ledger = .ok capped) :
    Facing input.side (rt.ledger.signed input.key) ∧
      capped ≤ absQuantity (rt.ledger.signed input.key) := by
  unfold checkReduceOnlyOrder at h
  have hkey : (⟨input.envelope.userId, input.marketId⟩ : PositionRiskKey) = input.key := rfl
  rw [if_neg (by simp [hreduce]), hkey] at h
  unfold Ledger.signed signedAt
  cases hposition : rt.ledger.positions[input.key]? with
  | none =>
    rw [hposition] at h
    cases h
  | some position =>
    rw [hposition] at h
    dsimp only at h ⊢
    split at h
    · cases h
    · split at h
      · cases h
      · rename_i hside
        cases h
        exact ⟨sideReducesPosition_facing (Bool.not_eq_false _ ▸ hside), min_le_right _ _⟩

/-- The trades of an allowed reduce-only order take its position toward zero. -/
theorem reduceOnly_towardZero (hreduce : input.reduceOnly = true)
    (hcapped : checkReduceOnlyOrder input rt.ledger = .ok capped)
    {ts : List (Transfer PositionRiskKey)} (htaken : TakenBy input.side input.key ts)
    (hfits : Transfer.total ts ≤ capped) :
    TowardZero (rt.ledger.signed input.key)
      (Transfer.settle rt.ledger.signed ts input.key) := by
  obtain ⟨hfacing, hcap⟩ := checkReduceOnlyOrder_facing hreduce hcapped
  exact (htaken.along_taker (htaken.facing hfacing (hfits.trans hcap))).towardZero

theorem EngineRuntime.Places.reducesOnly {placed : EngineProcessResult × List EngineEvent}
    (hreduce : input.reduceOnly = true)
    (hcapped : checkReduceOnlyOrder input rt.ledger = .ok capped)
    (h : rt.Places input capped placed after) : ReducesOnly rt input placed after := by
  have hinput : coreInputOf input capped =
      { input with quantity := capped, timeInForce := .ioc } := if_pos hreduce
  cases h with
  | rejected store signed rests expired =>
    refine ⟨signed ▸ .refl _, rests, fun id hid => store ▸ hid, nofun, nofun, fun _ => expired⟩
  | @accepted place p ts result after takes orderId ioc core signed store expired =>
    rw [hinput] at takes
    have hown : p.orderId = place.orderId := by
      rw [takes.continues, orderId]
      rfl
    have huser : p.userId = input.envelope.userId := by
      rw [takes.continues]
      rfl
    have hrests : ∀ id, after.core.Rests id → rt.core.Rests id := by
      intro id hid
      rw [core] at hid
      rcases takes.rests id hid with hkept | ⟨-, hrest⟩
      · exact hkept
      · rw [ioc hreduce] at hrest
        cases hrest
    have hfilled : reduceOnlyFilledQuantity p.orderId
        (rt.core.process (.placeOrder place)).1 =
          tradedLots (rt.core.process (.placeOrder place)).1 :=
      reduceOnlyFilledQuantity_eq fun t ht => (takes.takers t ht).trans hown.symm
    rw [hfilled] at expired
    refine ⟨?_, hrests, ?_, fun _ => ⟨fun hid => ?_, ?_⟩, fun _ hless => ?_, fun hnot => ?_⟩
    · rw [signed]
      exact reduceOnly_towardZero hreduce hcapped takes.taken takes.fits
    · intro id hid
      rw [store]
      split_ifs with hreduced hclosed hsame
      · rfl
      · rfl
      · exact absurd ⟨hreduce, hsame⟩ hreduced
      · exact Holdings.store_settle_none (h := rt.ledger.holdings _) hid _
    · exact takes.new (orderId ▸ hrests _ hid)
    · rw [store, if_pos ⟨hreduce, orderId.symm.trans hown.symm⟩]
    · refine ⟨_, expired.trans (if_pos ⟨hreduce, sub_pos.2 hless⟩), ?_, huser, rfl⟩
      exact hown.trans orderId
    · refine expired.trans (if_neg fun h => hnot ⟨takes.accepted, sub_pos.1 h.2⟩)

theorem ensures_placeBeforeLiquidations (h : rt.InLockstep) (record : InboundEngineRecord)
    (hreduce : input.reduceOnly = true) : Ensures (placeBeforeLiquidations record input) rt
      (ReducesOnly rt input) fun after => after = rt := by
  unfold placeBeforeLiquidations
  rw [ensures_bind, ensures_get]
  cases hcapped : checkReduceOnlyOrder input rt.ledger with
  | error reason =>
    dsimp only
    rw [ensures_bind]
    refine (ensures_reduceOnlyRejected record input reason).mono ?_ fun _ h => h
    rintro result after ⟨hsame, hquiet⟩
    refine ⟨?_, fun id hid => hsame.core ▸ hid, fun id hid => hsame.metadataStore ▸ hid, nofun,
      nofun, fun _ => hquiet⟩
    have hsigned : after.ledger.signed = rt.ledger.signed := congrArg signedAt hsame.positions
    rw [hsigned]
    exact .refl _
  | ok capped =>
    have hnarrow : input.reduceOnly = false → FitsInt64 input.quantity := by
      rw [hreduce]
      nofun
    refine (h.placeOnBook record hnarrow hcapped).mono ?_ fun _ h => h
    exact fun placed after hplaced => hplaced.2.reducesOnly hreduce hcapped

end Bounds

/-- An order of a user that is long, against the user's own bid among others. -/
def sampleReduceOnly : PlaceOrderInput where
  inputId := none
  envelope := sampleEnvelope 9 11
  orderId := 9
  reservationId := ascii "res-9"
  marketId := 1
  side := .short
  orderType := .limit
  timeInForce := .gtc
  price := 100
  quantity := 9
  reduceOnly := true
  marginAsset := ascii "USDC"
  reservedMarginAmount := 0
  leverage := 10

end PerpexEngine
