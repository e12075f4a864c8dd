import PerpexEngine.Lib.Errors
import PerpexEngine.Runtime.OrderlyRuns

/-! What a liquidation can throw: the error of an ADL fill without an order id, or, before anything
has moved, that of an empty liquidation id. -/
namespace PerpexEngine
open Program

def adlOrderIdError : Text := ascii "unable to allocate deterministic ADL order id"

theorem ends_liftExcept {σ α : Type} {s : σ} {e : Except Text α} {Q : α → σ → Prop}
    {T : Text → σ → Prop} : Ends (liftExcept e : Program Text σ α) s Q T ↔
      (∀ a, e = .ok a → Q a s) ∧ ∀ x, e = .error x → T x s := by
  cases e <;> simp [liftExcept]

section Fills
variable {context : EngineEventTranslationContext} {markPrices : MarkPrices}
  {input : LiquidatePositionInput} {price : AdapterPrice} {side : AdapterSide}
  {key : PositionRiskKey}

theorem appendAdlFill_error {candidate : AdlCandidate} {fillQuantity rank : ℤ}
    {state : TranslationState} {p : OrderMetadata}
    (hkind : context.commandKind = .liquidatePosition)
    (hmarket : 0 < input.marketId ∧ input.marketId ≤ 2 ^ 32 - 1)
    (hpending : state.pending = some p) (hp : p.marketId = input.marketId)
    (hside : liquidationOrderSide candidate.position.signedQuantity = oppositeSide p.side) :
    Ends (appendAdlFill context markPrices input price candidate fillQuantity rank) state
      (fun _ _ => True) fun e _ => e = adlOrderIdError := by
  have htaker : (state.pending.map (·.orderId)).getD 0 = p.orderId := by
    rw [hpending]
    rfl
  cases hid : adlOrderIdOf input candidate rank p.orderId state.ledger.metadataStore with
  | none =>
    unfold adlOrderIdOf at hid
    unfold appendAdlFill
    rw [ends_bind, ends_get]
    dsimp only
    rw [htaker, hid]
    rfl
  | some id =>
    have hfill := @appendAdlFill_transfers context markPrices input price candidate fillQuantity rank
      state p hkind hmarket hpending hp hside
    refine hfill.ends.mono (fun _ _ _ => trivial) fun _ _ ⟨_, hnone⟩ => ?_
    cases hid.symm.trans hnone

theorem appendAdlFillsFrom_error (hkind : context.commandKind = .liquidatePosition)
    (hmarket : 0 < input.marketId ∧ input.marketId ≤ 2 ^ 32 - 1)
    (hkey : key.marketId = input.marketId) {signed : PositionRiskKey → ℤ}
    (candidates : List AdlCandidate) (hfaces : ∀ c ∈ candidates, c.Faces side key signed)
    (remaining rank : ℤ) (state : TranslationState)
    (hpending : ∃ p, state.pending = some p ∧ p.side = side ∧ p.key = key) :
    Ends (appendAdlFillsFrom context markPrices input price candidates remaining rank) state
      (fun _ _ => True) fun e _ => e = adlOrderIdError := by
  induction candidates generalizing remaining rank state with
  | nil => trivial
  | cons c candidates ih =>
    have hrest := fun d hd => hfaces d (List.mem_cons_of_mem _ hd)
    unfold appendAdlFillsFrom
    apply ends_ite.2
    refine ⟨fun _ => trivial, fun _ => ends_ite.2 ⟨fun _ => ih hrest _ _ _ hpending, fun _ => ?_⟩⟩
    obtain ⟨p, hp, rfl, rfl⟩ := hpending
    have hside := (hfaces c List.mem_cons_self).orderSide
    rw [ends_bind]
    refine ((appendAdlFill_transfers hkind hmarket hp hkey hside).and_ends
      (appendAdlFill_error hkind hmarket hp hkey hside)).mono ?_ fun _ _ h => h.2
    rintro r mid ⟨⟨-, -, ⟨p', hp', hcontinues⟩, -⟩, -⟩
    have hsame : p'.side = p.side ∧ p'.key = p.key := by
      rw [hcontinues]
      exact ⟨rfl, rfl⟩
    rw [ends_bind]
    exact (ih hrest _ _ mid ⟨p', hp', hsame⟩).mono (fun _ _ _ => trivial) fun _ _ h => h

theorem appendAdlFills_error (hkind : context.commandKind = .liquidatePosition)
    (hmarket : 0 < input.marketId ∧ input.marketId ≤ 2 ^ 32 - 1) (remaining : ℤ)
    (state : TranslationState)
    (hpending : ∃ p, state.pending = some p ∧ p.side = side ∧ p.key = input.key)
    (hfacing : Facing side (state.ledger.signed input.key)) :
    Ends (appendAdlFills context markPrices input remaining price) state
      (fun _ _ => True) fun e _ => e = adlOrderIdError := by
  have hfaces := fun c => @faces_adlCandidatesAt input state.ledger _ hfacing c
  unfold adlCandidatesAt at hfaces
  unfold appendAdlFills
  rw [ends_bind, ends_get]
  unfold LiquidatePositionInput.key at *
  cases hposition : state.ledger.positions[(⟨input.liquidatedUserId, input.marketId⟩ :
      PositionRiskKey)]? with
  | none => trivial
  | some position =>
    rw [hposition] at hfaces
    apply ends_ite.2
    exact ⟨fun _ => trivial, fun _ =>
      appendAdlFillsFrom_error hkind hmarket rfl _ hfaces remaining 1 state hpending⟩

end Fills
section Execute
variable {rt₀ rt : EngineRuntime} {order : PlaceOrderInput} {seq : EngineSequence}
  {record : InboundEngineRecord} {input : LiquidatePositionInput}
  {coreEvents : Option (List EngineEvent)}

/-- Once a liquidation has been decided on, nothing but an ADL fill can throw. -/
theorem runLiquidation_error (h : rt₀.Orderly) (hm : order.Mappable)
    (hioc : canRest (mappedCommand order seq) = false)
    (horder : LiquidationOrder input rt₀.ledger.signed order) (orderId : AdapterOrderId)
    (hstore : rt.ledger.metadataStore = rt₀.ledger.metadataStore)
    (hpositions : rt.ledger.positions = rt₀.ledger.positions)
    (hcore : coreEvents = none ∧ rt.core = rt₀.core ∨
      coreEvents = some (rt₀.core.process (.placeOrder (mappedCommand order seq))).1 ∧
        rt.core = (rt₀.core.process (.placeOrder (mappedCommand order seq))).2)
    (price : AdapterPrice) (previousPosition : IsolatedPositionState)
    (previousRisk : IsolatedRiskState) :
    Ends (runLiquidation record input (liquidationContext record input orderId)
        (mappedMetadata order) coreEvents price previousPosition previousRisk) rt
      (fun _ _ => True) fun e _ => e = adlOrderIdError := by
  have hmarket : 0 < input.marketId ∧ input.marketId ≤ 2 ^ 32 - 1 := horder.market ▸ hm.market
  unfold runLiquidation
  dsimp only
  rw [ends_bind]
  refine Ends.mono (makeLiquidationEvent_frame hmarket.1 rfl).noThrow ?_ fun _ _ h => h
  rintro started rt₁ ⟨hcore₁, hstore₁, hpositions₁, -⟩
  have hsigned₁ : rt₁.ledger.signed = rt₀.ledger.signed := by
    unfold Ledger.signed
    rw [hpositions₁, hpositions]
  rw [ends_bind]
  refine Ends.mono (liquidateAgainstBook_moves h.lockstep hm hioc hmarket.1 rfl
    (hstore₁.trans hstore) hsigned₁ (hcore₁.symm ▸ hcore)).noThrow ?_ fun _ _ h => h
  rintro ⟨booked, pending⟩ rt₂ ⟨p, ts, hbook⟩
  have hpending : pending = some p := hbook.pending
  subst hpending
  rw [ends_bind, ends_get, ends_bind]
  have hlast : ∀ rt₃ : EngineRuntime, ∀ deleveraged : EngineProcessResult, Ends (do
      let rt ← get
      let completed ← makeLiquidationEvent record input (.liquidationCompleted
        (liquidationCompletedPayload input (openQuantity rt.ledger input.key)))
      pure (started ++ booked ++ deleveraged ++ completed)) rt₃
        (fun _ _ => True) fun e _ => e = adlOrderIdError := by
    intro rt₃ deleveraged
    rw [ends_bind, ends_get, ends_bind]
    exact Ends.mono (makeLiquidationEvent_frame hmarket.1 rfl).noThrow (fun _ _ _ => trivial)
      fun _ _ h => h
  have hsame : p.side = order.side ∧ p.key = order.key := by
    rw [hbook.continues]
    exact ⟨rfl, rfl⟩
  unfold emitWhen
  apply ends_ite.2
  refine ⟨fun _ => ?_, fun _ => hlast rt₂ .new⟩
  unfold withLedger withPending
  rw [ends_map, ends_zoom, ends_zoom, ends_bind]
  refine (@appendAdlFills_error (liquidationContext record input orderId) rt₂.markPrices input price _
    rfl hmarket _ ⟨rt₂.ledger, some p⟩
      ⟨p, rfl, hsame.1.trans horder.side, hsame.2.trans horder.key⟩ (hbook.facing horder)).mono
        (fun deleveraged state _ => ?_) fun _ _ h => h
  exact hlast _ deleveraged

theorem liquidationRejectionReason_eq_none {ledger : Ledger}
    (h : liquidationRejectionReason input ledger = none) : ∃ position risk,
      ledger.positions[input.key]? = some position ∧ position.signedQuantity ≠ 0 ∧
        ledger.riskStates[input.key]? = some risk := by
  unfold liquidationRejectionReason at h
  have hkey : (⟨input.liquidatedUserId, input.marketId⟩ : PositionRiskKey) = input.key := rfl
  dsimp only at h
  rw [hkey] at h
  cases hposition : ledger.positions[input.key]? with
  | none =>
    rw [hposition] at h
    cases h
  | some position =>
    rw [hposition] at h
    dsimp only at h
    split at h
    · cases h
    · rename_i hopen
      split at h
      · cases h
      · cases hrisk : ledger.riskStates[input.key]? with
        | none =>
          rw [hrisk] at h
          cases h
        | some risk => exact ⟨position, risk, rfl, hopen, rfl⟩

theorem liquidationOrderId_eq_ok {liquidationId : Text} {orderId : AdapterOrderId}
    (h : liquidationOrderId liquidationId = .ok orderId) : 0 < orderId := by
  unfold liquidationOrderId at h
  obtain ⟨raw, -, h⟩ := bind_eq_ok.1 h
  rw [← Except.ok.inj h]
  split_ifs with hzero
  · exact Int.one_pos
  · exact Int.natCast_pos.2 (Nat.pos_of_ne_zero hzero)

theorem liquidationOrderId_eq_error {liquidationId error : Text}
    (h : liquidationOrderId liquidationId = .error error) : liquidationId = [] := by
  by_contra hid
  unfold liquidationOrderId at h
  rw [(commandIdFromRequestId_eq_ok (n := stableStringId liquidationId)).2 ⟨hid, rfl⟩] at h
  cases h

/-- The adapter takes the order of every liquidation that goes ahead. -/
theorem syntheticLiquidationOrder_mappable (h : rt.Accounted) {position : IsolatedPositionState}
    (hposition : rt.ledger.positions[input.key]? = some position)
    (hopen : position.signedQuantity ≠ 0) {orderId : AdapterOrderId} (hid : 0 < orderId)
    {quantity : AdapterQuantity} (hquantity : 0 < quantity) {price : AdapterPrice}
    (hprice : 0 < price) :
    (syntheticLiquidationOrder input position orderId quantity price).Mappable := by
  have hsigned : rt.ledger.signed input.key ≠ 0 := by
    rw [signed_of_position hposition]
    exact hopen
  have hnonempty : ∀ (s : String) (id : Text), ascii s ≠ [] → ascii s ++ id ≠ [] :=
    fun s id hs => List.append_ne_nil_of_left_ne_nil hs id
  exact
    { requestId := hnonempty _ _ (by decide)
      idempotencyKey := hnonempty _ _ (by decide)
      userId := h.users _ hsigned
      reservationId := hnonempty _ _ (by decide)
      orderId := hid
      market := h.markets _ hsigned
      price := ⟨hprice.le, fun _ => hprice.ne'⟩
      quantity := hquantity }

/-- A liquidation throws for want of an ADL order id, or at once for want of an id of its own. -/
theorem executeLiquidation_error (h : rt.Accounted) (record : InboundEngineRecord)
    (input : LiquidatePositionInput) (emitReplies : Bool) :
    Ends (executeLiquidation record input emitReplies) rt (fun _ _ => True)
      fun e after => e = adlOrderIdError ∨ (input.liquidationId = [] ∧ after = rt) := by
  unfold executeLiquidation
  rw [ends_bind, ends_get]
  dsimp only
  cases hreason : liquidationRejectionReason input rt.ledger with
  | some reason => trivial
  | none =>
    obtain ⟨position, risk, hposition, hopen, hrisk⟩ := liquidationRejectionReason_eq_none hreason
    unfold LiquidatePositionInput.key at hposition hrisk
    rw [hposition, hrisk]
    apply ends_ite.2
    refine ⟨fun _ => trivial, fun hahead => ?_⟩
    rw [not_or, not_or, not_le, not_le] at hahead
    rw [ends_bind, ends_liftExcept]
    refine ⟨fun orderId hid => ?_, fun _ herror =>
      Or.inr ⟨liquidationOrderId_eq_error herror, rfl⟩⟩
    have hm := syntheticLiquidationOrder_mappable h hposition hopen (liquidationOrderId_eq_ok hid)
      hahead.1 hahead.2.1
    have horder := @syntheticLiquidationOrder_liquidates rt input position hposition orderId
      (liquidationPrice input position rt.markPrices)
    have hioc : canRest (mappedCommand (syntheticLiquidationOrder input position orderId
      (liquidationQuantity input position) (liquidationPrice input position rt.markPrices))
        (receivedSequence record)) = false := rfl
    rw [mapPlaceOrderToCore_eq_ok.2 ⟨hm, rfl⟩]
    generalize syntheticLiquidationOrder input position orderId _ _ = order at *
    have hrun : ∀ (coreEvents : Option (List EngineEvent)) (core : EngineCore OrderBook),
        (coreEvents = none ∧ core = rt.core ∨
          coreEvents = some (rt.core.process (.placeOrder (mappedCommand order
            (receivedSequence record)))).1 ∧ core = (rt.core.process (.placeOrder
              (mappedCommand order (receivedSequence record)))).2) →
        Ends (do
          let result ← runLiquidation record input (liquidationContext record input orderId)
            (mappedMetadata order) coreEvents (liquidationPrice input position rt.markPrices)
              position risk
          pure (result.repliesIf emitReplies)) { rt with core := core } (fun _ _ => True)
          fun e after => e = adlOrderIdError ∨ (input.liquidationId = [] ∧ after = rt) := by
      intro coreEvents core hcore
      rw [ends_bind]
      exact (@runLiquidation_error rt { rt with core := core } order (receivedSequence record) record
        input coreEvents h.toOrderly hm hioc horder orderId rfl rfl hcore _ _ _).mono
          (fun _ _ _ => trivial) fun _ _ h => Or.inl h
    change Ends (askBook _ _ >>= fun coreEvents => _) rt _ _
    rw [ends_bind]
    unfold askBook
    apply ends_ite.2
    refine ⟨fun _ => ?_, fun hquiet => ?_⟩
    · rw [ends_map]
      apply ends_ite.2
      exact ⟨fun _ => trivial, fun _ => hrun _ _ (Or.inr ⟨rfl, rfl⟩)⟩
    · rw [ends_pure, if_neg fun hnone => hquiet hnone.1]
      exact hrun none rt.core (Or.inl ⟨rfl, rfl⟩)

end Execute
end PerpexEngine
