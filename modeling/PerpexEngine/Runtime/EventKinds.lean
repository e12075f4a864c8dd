import PerpexEngine.Core.TradeParties
import PerpexEngine.Runtime.LedgerRules

/-! Which kinds of events a translation writes: expirations never, deleveragings one for each trade
of a deleveraging. -/
namespace PerpexEngine
open Program

/-- The kinds that any translation may write. -/
def EventPayload.Ordinary : EventPayload → Prop
  | orderOpened _ => True
  | orderCancelled _ => True
  | reservationReleased _ => True
  | tradeExecuted _ => True
  | liquidationExecuted _ => True
  | accountDelta _ => True
  | positionChanged _ => True
  | riskStateUpdated _ => True
  | orderBookDelta _ => True
  | _ => False

def EventPayload.expired? : EventPayload → Option OrderExpiredPayload
  | orderExpired p => some p
  | _ => none

/-- The user that was deleveraged, and by how much. -/
def EventPayload.deleveraged? : EventPayload → Option (AdapterUserId × ℤ)
  | adlExecuted p => some (p.deleveragedUserId, p.quantity)
  | _ => none

section Projection
variable {σ β : Type} {f : EventPayload → Option β}

/-- What one projection sees of the events. -/
def projected (f : EventPayload → Option β) (events : List EngineEventRecord) : List β :=
  events.filterMap (f ·.payload)

@[simp] theorem projected_nil : projected f [] = [] := rfl

@[simp] theorem projected_append (xs ys : List EngineEventRecord) :
    projected f (xs ++ ys) = projected f xs ++ projected f ys := List.filterMap_append

def Projects (f : EventPayload → Option β) (m : Program Text σ EngineProcessResult)
    (xs : List β) : Prop := ∀ s, Ensures m s (fun a _ => projected f a.events = xs) fun _ => True

/-- Nothing of the ordinary kinds is seen. -/
def Skips (f : EventPayload → Option β) : Prop := ∀ payload, payload.Ordinary → f payload = none

/-- What is seen of an opened order is up to its id, and of the other ordinary kinds nothing is. -/
structure Sees (f : EventPayload → Option β) (opens : OrderId → Option β) : Prop where
  opened : ∀ p, f (.orderOpened p) = opens p.orderId
  others : ∀ payload, payload.Ordinary → (∀ p, payload ≠ .orderOpened p) → f payload = none

theorem Skips.sees (h : Skips f) : Sees f fun _ => none where
  opened _ := h _ trivial
  others payload hordinary _ := h payload hordinary

theorem skips_expired : Skips EventPayload.expired? := fun payload h => by
  cases payload <;> first | rfl | exact h.elim

theorem skips_deleveraged : Skips EventPayload.deleveraged? := fun payload h => by
  cases payload <;> first | rfl | exact h.elim

theorem Projects.emitWhen {m : Program Text σ EngineProcessResult} {c : Prop} [Decidable c]
    {xs : List β} (h : Projects f m xs) :
    Projects f (emitWhen c m) (if c then xs else []) := by
  intro s
  unfold PerpexEngine.emitWhen
  split_ifs
  · exact h s
  · rfl

theorem projects_makeEvent (context : EngineEventTranslationContext) (marketId : MarketId)
    (payload : EventPayload) : Projects f (makeEvent context marketId payload)
      (f payload).toList := by
  intro s
  unfold makeEvent onLedger
  rw [ensures_map, ensures_zoom]
  refine (ensures_makeMarketEvent _ _ _ _ _).mono ?_ fun _ _ => trivial
  rintro e _ ⟨-, -, rfl, -⟩
  unfold projected
  cases h : f e.payload <;> simp [h]

theorem projects_makeEvent_nil (context : EngineEventTranslationContext) (marketId : MarketId)
    {payload : EventPayload} (h : f payload = none) :
    Projects f (makeEvent context marketId payload) [] := by
  have hevent := @projects_makeEvent _ f context marketId payload
  rw [h] at hevent
  exact hevent

end Projection

section Translator
variable {β : Type} {f : EventPayload → Option β} {opens : OrderId → Option β} (hf : Sees f opens)
  (context : EngineEventTranslationContext) (markPrices : MarkPrices)

/-- What is seen of the executions that a liquidation reports. -/
def projectedFills (f : EventPayload → Option β) (context : EngineEventTranslationContext)
    (trades : List TradeExecuted) : List β :=
  if context.commandKind = .liquidatePosition then
    trades.filterMap fun trade => f (liquidationExecutedPayload trade none context)
  else []

/-- What is seen of the translation of one core event. -/
def projectedEvent (f : EventPayload → Option β) (opens : OrderId → Option β)
    (context : EngineEventTranslationContext) (filled : List OrderId) : EngineEvent → List β
  | .orderAccepted accepted =>
    if context.commandKind = .liquidatePosition ∨ context.canOpenRestingOrder = false ∨
        accepted.orderId ∈ filled then []
    else (opens accepted.orderId).toList
  | .tradeExecuted trade => projectedFills f context [trade]
  | _ => []

include hf

theorem projected_taker (trade : TradeExecuted) (taker : Option OrderMetadata) :
    f (liquidationExecutedPayload trade taker context) =
      f (liquidationExecutedPayload trade none context) := by
  unfold liquidationExecutedPayload
  cases context.adl with
  | none =>
    dsimp only
    rw [hf.others (.liquidationExecuted _) trivial nofun, hf.others (.liquidationExecuted _) trivial nofun]
  | some adl => rfl

theorem projects_appendFillLeg (trade : TradeExecuted) (timestampMs : ℤ) (orderId : OrderId) :
    Projects f (appendFillLeg context markPrices trade timestampMs orderId) [] := by
  intro s
  unfold appendFillLeg
  rw [ensures_bind, ensures_get]
  split
  · rfl
  · rw [ensures_bind, ensures_set]
    refine ((projects_makeEvent_nil _ _ (hf.others (.accountDelta _) trivial nofun)).emitWhen _).andThen
      fun a t ha => ?_
    refine (projects_makeEvent_nil _ _ (hf.others (.positionChanged _) trivial nofun) t).andThen
      fun b u hb => ?_
    refine (projects_makeEvent_nil _ _ (hf.others (.riskStateUpdated _) trivial nofun) u).andThen
      fun c v hc => ?_
    rw [ite_self] at ha
    simp [ha, hb, hc]

theorem projects_appendTradeExecuted (trade : TradeExecuted) :
    Projects f (appendTradeExecuted context markPrices trade)
      (projectedFills f context [trade]) := by
  intro s
  unfold appendTradeExecuted appendPositionAndRiskUpdates
  rw [ensures_bind, ensures_get]
  refine (projects_makeEvent_nil _ _ (hf.others (.tradeExecuted _) trivial nofun) s).andThen fun a t ha => ?_
  refine ((@projects_makeEvent _ f _ _ _).emitWhen t).andThen fun b u hb => ?_
  rw [bind_assoc]
  refine ensures_bind_of_forall fun timestampMs v => ?_
  rw [bind_assoc]
  refine (projects_appendFillLeg hf context markPrices trade timestampMs _ v).andThen
    fun maker w hmaker => ?_
  rw [bind_assoc]
  refine (projects_appendFillLeg hf context markPrices trade timestampMs _ w).andThen
    fun taker x htaker => ?_
  rw [projected_taker hf] at hb
  rw [pure_bind, ensures_pure]
  simp only [EngineProcessResult.events_append, projected_append, ha, hb, hmaker, htaker]
  unfold projectedFills
  split_ifs
  · cases h : f (liquidationExecutedPayload trade none context) <;> simp [h]
  · rfl

theorem projects_translateEvent (filled : List OrderId) (event : EngineEvent) :
    Projects f (translateEvent context markPrices filled event)
      (projectedEvent f opens context filled event) := by
  intro s
  cases event with
  | orderAccepted accepted =>
    have hcond : (decide (context.commandKind = .liquidatePosition) ||
        !context.canOpenRestingOrder || filled.contains accepted.orderId) = true ↔
          context.commandKind = .liquidatePosition ∨ context.canOpenRestingOrder = false ∨
            accepted.orderId ∈ filled := by
      simp [or_assoc]
    unfold translateEvent appendOrderAccepted projectedEvent
    rw [ensures_bind, ensures_get]
    dsimp only
    apply ensures_ite.2
    refine ⟨fun hquiet => ?_, fun hopens => ?_⟩
    · rw [ensures_pure, if_pos (hcond.1 hquiet)]
      rfl
    · refine (@projects_makeEvent _ f context _ _ s).andThen fun a t ha => ?_
      rw [hf.opened] at ha
      rw [if_neg fun h => hopens (hcond.2 h)]
      simp [ha]
  | orderRejected rejected =>
    unfold translateEvent appendOrderRejected
    rw [ensures_bind, ensures_get]
    dsimp only
    generalize findMetadata _ s = found
    cases found with
    | none => rfl
    | some metadata =>
      apply ensures_ite.2
      refine ⟨fun _ => rfl, fun _ => ?_⟩
      refine (projects_makeEvent_nil _ _ (hf.others (.reservationReleased _) trivial nofun) s).andThen
        fun a t ha => ?_
      simp [ha, projectedEvent]
  | tradeExecuted trade => exact projects_appendTradeExecuted hf context markPrices trade s
  | orderPartial e => rfl
  | orderFilled e => rfl
  | orderCancelled cancelled =>
    unfold translateEvent appendOrderCancelled
    rw [ensures_bind, ensures_get]
    refine (projects_makeEvent_nil _ _ (hf.others (.orderCancelled _) trivial nofun) s).andThen
      fun a t ha => ?_
    simp [ha, projectedEvent]
  | orderBookDelta delta =>
    exact projects_makeEvent_nil _ _ (hf.others (.orderBookDelta _) trivial nofun) s

/-- Of a translation the opened orders are seen and the executions of a liquidation. -/
theorem projects_translate_sees (events : List EngineEvent) :
    Projects f (translate context markPrices events)
      (events.flatMap (projectedEvent f opens context (filledOrderIds events))) := by
  unfold translate
  generalize filledOrderIds events = filled
  induction events with
  | nil => exact fun s => rfl
  | cons event events ih =>
    intro s
    refine (projects_translateEvent hf context markPrices filled event s).andThen fun a t ha => ?_
    refine (ih t).andThen fun b u hb => ?_
    rw [ensures_pure, EngineProcessResult.events_append, projected_append, ha, hb]
    rfl

omit hf in
theorem flatMap_projectedEvent (filled : List OrderId) (events : List EngineEvent) :
    events.flatMap (projectedEvent f (fun _ => none) context filled) =
      projectedFills f context (tradesOf events) := by
  have hsplit : ∀ xs ys, projectedFills f context (xs ++ ys) =
      projectedFills f context xs ++ projectedFills f context ys := by
    intro xs ys
    unfold projectedFills
    split_ifs
    · exact List.filterMap_append
    · rfl
  have hnone : projectedFills f context [] = [] := by
    unfold projectedFills
    split_ifs <;> rfl
  induction events with
  | nil => exact hnone.symm
  | cons event events ih =>
    have htrades : tradesOf (event :: events) = tradesOf [event] ++ tradesOf events :=
      tradesOf_append [event] events
    rw [List.flatMap_cons, htrades, hsplit, ih]
    congr 1
    cases event with
    | tradeExecuted trade => rfl
    | orderAccepted accepted =>
      refine Eq.trans ?_ hnone.symm
      unfold projectedEvent
      exact ite_self []
    | _ => exact hnone.symm

end Translator

/-- Of a translation only the executions of a liquidation are seen. -/
theorem projects_translate {β : Type} {f : EventPayload → Option β} (hf : Skips f)
    (context : EngineEventTranslationContext) (markPrices : MarkPrices)
    (events : List EngineEvent) : Projects f (translate context markPrices events)
      (projectedFills f context (tradesOf events)) := by
  rw [← flatMap_projectedEvent context (filledOrderIds events)]
  exact projects_translate_sees hf.sees context markPrices events
end PerpexEngine
