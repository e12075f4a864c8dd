import PerpexEngine.Runtime.LiquidationIds

/-! The core knows a liquidation's order only by the ids of earlier commands, so that an order with
a new id is not rejected as a duplicate. -/
namespace PerpexEngine
open Program

section Moves

/-- The core is as it was, or has processed the command. -/
def EngineCore.Took (core : EngineCore OrderBook) (command : EngineCommand)
    (after : EngineCore OrderBook) : Prop :=
  after = core ∨ after = (core.process command).2

variable {rt : EngineRuntime} {core : EngineCore OrderBook} {command : EngineCommand}

/-- The program does nothing to the core. -/
abbrev LeavesCore {α : Type} (core : EngineCore OrderBook) (m : RuntimeM α) : Prop :=
  Yields (fun rt : EngineRuntime => rt.core = core) (fun _ => True) m

namespace LeavesCore
variable {α β : Type} {m : RuntimeM α} {f : α → RuntimeM β}

theorem ledger (m : LedgerM α) : LeavesCore core (withLedger m) := by
  intro rt h
  unfold withLedger
  rw [ensures_zoom]
  unfold Ensures
  split
  · exact ⟨trivial, h⟩
  · exact h

theorem bind (hm : LeavesCore core m) (hf : ∀ a, LeavesCore core (f a)) :
    LeavesCore core (m >>= f) := Yields.bind hm fun a _ => hf a

theorem get {f : EngineRuntime → RuntimeM α} (hf : ∀ rt, LeavesCore core (f rt)) :
    LeavesCore core (MonadState.get >>= f) := Yields.get fun rt h => hf rt rt h

theorem pure (a : α) : LeavesCore core (Pure.pure a) := Yields.pure trivial

end LeavesCore

/-- What follows the core's work leaves the core alone. -/
theorem leavesCore_runLiquidation (record : InboundEngineRecord) (input : LiquidatePositionInput)
    (context : EngineEventTranslationContext) (metadata : OrderMetadata)
    (coreEvents : Option (List EngineEvent)) (price : AdapterPrice)
    (position : IsolatedPositionState) (risk : IsolatedRiskState) :
    LeavesCore core
      (runLiquidation record input context metadata coreEvents price position risk) := by
  refine LeavesCore.bind (.ledger _) fun started => LeavesCore.bind ?_ fun booked => ?_
  · refine LeavesCore.get fun rt => ?_
    cases coreEvents with
    | none => exact .pure _
    | some coreEvents =>
      exact LeavesCore.bind (.ledger _) fun _ => LeavesCore.bind (.ledger _) fun _ => .pure _
  · refine LeavesCore.get fun rt => LeavesCore.bind ?_ fun deleveraged => ?_
    · exact Yields.ite (fun _ => (LeavesCore.ledger _).map fun _ _ => trivial) fun _ => LeavesCore.pure _
    · exact LeavesCore.get fun rt => LeavesCore.bind (.ledger _) fun _ => .pure _

/-- A liquidation gives the core its own order, if any. -/
theorem executeLiquidation_took (record : InboundEngineRecord) (input : LiquidatePositionInput)
    (emitReplies : Bool) (rt : EngineRuntime) :
    ((executeLiquidation record input emitReplies).run.run rt).2.core = rt.core ∨
      ∃ position orderId, liquidationOrderId input.liquidationId = .ok orderId ∧
        ((executeLiquidation record input emitReplies).run.run rt).2.core =
          (rt.core.process (.placeOrder (liquidationCommand rt record input position orderId))).2 := by
  refine Ensures.whatever (E := fun after : EngineRuntime => after.core = rt.core ∨
    ∃ position orderId, liquidationOrderId input.liquidationId = .ok orderId ∧ after.core =
      (rt.core.process (.placeOrder (liquidationCommand rt record input position orderId))).2) ?_
  unfold executeLiquidation
  rw [ensures_bind, ensures_get]
  dsimp only
  split
  · exact Or.inl rfl
  · split
    · rename_i position risk hposition hrisk
      apply ensures_ite.2
      refine ⟨fun _ => Or.inl rfl, fun _ => ?_⟩
      rw [ensures_bind, ensures_liftExcept]
      refine ⟨fun orderId hid => ?_, fun _ _ => Or.inl rfl⟩
      rw [ensures_bind, ensures_liftExcept]
      refine ⟨fun mapped hmapped => ?_, fun _ _ => Or.inl rfl⟩
      obtain ⟨-, rfl⟩ := mapPlaceOrderToCore_eq_ok.1 hmapped
      rw [ensures_bind]
      refine Ensures.mono (Q := fun _ after => after.core = rt.core ∨ after.core =
        (rt.core.process (.placeOrder (liquidationCommand rt record input position orderId))).2)
        (E := fun _ => False) ?_ (fun coreEvents after h => ?_) fun _ h => h.elim
      · unfold askBook
        apply ensures_ite.2
        refine ⟨fun _ => ?_, fun _ => Or.inl rfl⟩
        rw [ensures_map, ensures_processCore]
        exact Or.inr rfl
      · have hclaim : after.core = rt.core ∨ ∃ position orderId,
            liquidationOrderId input.liquidationId = .ok orderId ∧ after.core = (rt.core.process
              (.placeOrder (liquidationCommand rt record input position orderId))).2 :=
          h.imp_right fun h => ⟨position, orderId, hid, h⟩
        apply ensures_ite.2
        refine ⟨fun _ => hclaim, fun _ => ?_⟩
        rw [ensures_bind]
        refine (leavesCore_runLiquidation record input _ _ _ _ _ _ after rfl).mono
          (fun _ final hfinal => ?_) fun final hfinal => ?_
        · rw [ensures_pure, hfinal.2]
          exact hclaim
        · rw [hfinal]
          exact hclaim
    · exact Or.inl rfl

theorem placeOnBook_took (record : InboundEngineRecord) (input : PlaceOrderInput)
    (capped : AdapterQuantity) (rt : EngineRuntime) :
    rt.core.Took (.placeOrder (mappedCommand (coreInputOf input capped) (receivedSequence record)))
      ((placeOnBook record input capped).run.run rt).2.core := by
  refine Ensures.whatever (E := fun after : EngineRuntime => rt.core.Took (.placeOrder
    (mappedCommand (coreInputOf input capped) (receivedSequence record))) after.core) ?_
  unfold placeOnBook
  dsimp only
  rw [ensures_bind, ensures_liftExcept]
  refine ⟨fun mapped hmapped => ?_, fun _ _ => Or.inl rfl⟩
  obtain ⟨-, rfl⟩ := mapPlaceOrderToCore_eq_ok.1 hmapped
  rw [ensures_bind, ensures_get, ensures_bind, ensures_processCore, ensures_bind]
  refine (LeavesCore.ledger _ _ rfl).mono (fun _ after h => ?_) fun after h => ?_
  · exact Or.inr h.2
  · exact Or.inr h

theorem mapCancelOrderToCore_commandId {input : CancelOrderInput} {receivedSequence : EngineSequence}
    {command : CancelOrderCommand} (h : mapCancelOrderToCore input receivedSequence = .ok command) :
    command.commandId = stableStringId input.envelope.requestId := by
  unfold mapCancelOrderToCore at h
  simp only [bind_eq_ok, commandIdFromRequestId_eq_ok, pure_eq_ok] at h
  obtain ⟨-, -, commandId, ⟨-, rfl⟩, -, -, -, -, -, -, -, -, rfl⟩ := h
  rfl

theorem cancelOnBook_took (record : InboundEngineRecord) (input : CancelOrderInput)
    (markPrices : MarkPrices) (rt : EngineRuntime) :
    ((cancelOnBook record input markPrices).run.run rt).2.core = rt.core ∨
      ∃ command : CancelOrderCommand,
        command.commandId = stableStringId input.envelope.requestId ∧
        ((cancelOnBook record input markPrices).run.run rt).2.core =
          (rt.core.process (.cancelOrder command)).2 := by
  refine Ensures.whatever (E := fun after : EngineRuntime => after.core = rt.core ∨
    ∃ command : CancelOrderCommand, command.commandId = stableStringId input.envelope.requestId ∧
      after.core = (rt.core.process (.cancelOrder command)).2) ?_
  unfold cancelOnBook
  rw [ensures_bind, ensures_liftExcept]
  refine ⟨fun command hcommand => ?_, fun _ _ => Or.inl rfl⟩
  have hid := mapCancelOrderToCore_commandId hcommand
  rw [ensures_bind, ensures_processCore]
  refine Ensures.mono (Q := fun _ after => True ∧ after.core =
      (rt.core.process (.cancelOrder command)).2)
    (E := fun after => after.core = (rt.core.process (.cancelOrder command)).2) ?_
    (fun _ after h => Or.inr ⟨command, hid, h.2⟩) fun after h => Or.inr ⟨command, hid, h⟩
  exact LeavesCore.bind (.ledger _) (fun _ => LeavesCore.bind (.ledger _) fun _ => .pure _) _ rfl

end Moves

section Known

namespace ParsedEngineInput

/-- The texts that an input's command ids are hashes of. -/
def requestIds : ParsedEngineInput → List Text
  | .placeOrder input => [input.envelope.requestId]
  | .cancelOrder input => [input.envelope.requestId]
  | _ => []

/-- The texts that an input's client order ids are hashes of. -/
def idempotencyKeys : ParsedEngineInput → List Text
  | .placeOrder input => [input.envelope.idempotencyKey]
  | _ => []

def orderIds : ParsedEngineInput → List AdapterOrderId
  | .placeOrder input => [input.orderId]
  | _ => []

end ParsedEngineInput

def RuntimeStep.brought? : RuntimeStep → Option ParsedEngineInput
  | .input _ (.ok brought) _ => some brought.parsed
  | _ => none

/-- The request ids that the core has seen the hashes of, after these inputs and liquidations. -/
def commandTexts (inputs : List ParsedEngineInput) (calls : List LiquidationCall) : List Text :=
  inputs.flatMap (·.requestIds) ++ calls.map fun call => coreRequestId call.input.liquidationId

def clientTexts (inputs : List ParsedEngineInput) (calls : List LiquidationCall) : List Text :=
  inputs.flatMap (·.idempotencyKeys) ++ calls.map fun call => coreRequestId call.input.liquidationId

/-- The ids that the core may know after these inputs and liquidations. -/
def knownIds (inputs : List ParsedEngineInput) (calls : List LiquidationCall) : CoreIds where
  commands := { id | ∃ t ∈ commandTexts inputs calls, id = stableStringId t }
  orders := { id | (∃ n ∈ inputs.flatMap (·.orderIds), id = n.toNat) ∨
    ∃ call ∈ calls, ∃ n, liquidationOrderId call.input.liquidationId = .ok n ∧ id = n.toNat }
  clients := { id | ∃ t ∈ clientTexts inputs calls, id = stableStringId t }

variable {inputs : List ParsedEngineInput} {calls : List LiquidationCall}

theorem knownIds_within (inputs : List ParsedEngineInput) (calls : List LiquidationCall)
    (call : LiquidationCall) : (knownIds inputs calls).Within (knownIds inputs (calls ++ [call])) := by
  have hmem : ∀ {f : LiquidationCall → Text} {t : Text} {texts : List Text},
      t ∈ texts ++ calls.map f → t ∈ texts ++ (calls ++ [call]).map f := by
    intro f t texts ht
    rw [List.map_append, ← List.append_assoc]
    exact List.mem_append_left _ ht
  refine ⟨?_, ?_, ?_⟩
  · rintro _ ⟨t, ht, rfl⟩
    exact ⟨t, hmem ht, rfl⟩
  · rintro id (hplaced | ⟨other, hother, hid⟩)
    · exact Or.inl hplaced
    · exact Or.inr ⟨other, List.mem_append_left _ hother, hid⟩
  · rintro _ ⟨t, ht, rfl⟩
    exact ⟨t, hmem ht, rfl⟩

/-- The core knows no ids but these. -/
def EngineRuntime.KnowsOnly (rt : EngineRuntime) (inputs : List ParsedEngineInput)
    (calls : List LiquidationCall) : Prop :=
  ∃ queues, Tracks rt.core queues ∧ queues.Knows (knownIds inputs calls)

/-- The core knows no ids but those of the inputs and of the liquidations so far, and so it was
whenever a liquidation started. -/
structure LoggedRuntime.KnowsOnly (inputs : List ParsedEngineInput) (o : LoggedRuntime) : Prop where
  now : o.runtime.KnowsOnly inputs o.calls
  starts : ∀ earlier call later, o.calls = earlier ++ call :: later →
    call.before.KnowsOnly inputs earlier

theorem EngineRuntime.KnowsOnly.of_core {rt rt' : EngineRuntime} (h : rt.KnowsOnly inputs calls)
    (hcore : rt'.core = rt.core) : rt'.KnowsOnly inputs calls := by
  obtain ⟨queues, htracks, hknows⟩ := h
  exact ⟨queues, hcore ▸ htracks, hknows⟩

/-- A command of these inputs and liquidations. -/
theorem EngineRuntime.KnowsOnly.took {rt rt' : EngineRuntime} (h : rt.KnowsOnly inputs calls)
    {command : EngineCommand} (hcovers : (knownIds inputs calls).Covers command)
    (htook : rt.core.Took command rt'.core) : rt'.KnowsOnly inputs calls := by
  rcases htook with hcore | hcore
  · exact h.of_core hcore
  · obtain ⟨queues, htracks, hknows⟩ := h
    exact ⟨_, hcore ▸ htracks.process command,
      hknows.process (fun id q hq => (htracks.live id q hq).ok) hcovers⟩

theorem covers_mappedCommand {input : PlaceOrderInput} (hinput : .placeOrder input ∈ inputs)
    (capped : AdapterQuantity) (seq : EngineSequence) : (knownIds inputs calls).Covers
      (.placeOrder (mappedCommand (coreInputOf input capped) seq)) := by
  have hsame : (coreInputOf input capped).envelope = input.envelope ∧
      (coreInputOf input capped).orderId = input.orderId := by
    unfold coreInputOf
    split_ifs <;> exact ⟨rfl, rfl⟩
  unfold CoreIds.Covers mappedCommand
  rw [hsame.1, hsame.2]
  refine ⟨⟨_, List.mem_append_left _ (List.mem_flatMap.2 ⟨_, hinput, List.mem_cons_self⟩), rfl⟩,
    Or.inl ⟨_, List.mem_flatMap.2 ⟨_, hinput, List.mem_cons_self⟩, rfl⟩,
    ⟨_, List.mem_append_left _ (List.mem_flatMap.2 ⟨_, hinput, List.mem_cons_self⟩), rfl⟩⟩

/-- The order of a liquidation goes under the ids of the liquidation. -/
theorem covers_liquidationCommand {call : LiquidationCall} {orderId : AdapterOrderId}
    (hid : liquidationOrderId call.input.liquidationId = .ok orderId)
    (position : IsolatedPositionState) : (knownIds inputs (calls ++ [call])).Covers
      (.placeOrder (liquidationCommand call.before call.record call.input position orderId)) := by
  have hmem : ∀ texts : List Text, coreRequestId call.input.liquidationId ∈ texts ++
      (calls ++ [call]).map fun call => coreRequestId call.input.liquidationId :=
    fun texts => List.mem_append_right _ (List.mem_map_of_mem (List.mem_append_right _
      List.mem_cons_self))
  exact ⟨⟨_, hmem _, rfl⟩,
    Or.inr ⟨call, List.mem_append_right _ List.mem_cons_self, orderId, hid, rfl⟩, ⟨_, hmem _, rfl⟩⟩

theorem knowsOnlyRule (inputs : List ParsedEngineInput) :
    LogRuleFor (· ∈ inputs) (LoggedRuntime.KnowsOnly inputs) where
  frame o rt hsame h := ⟨h.now.of_core hsame.core, h.starts⟩
  place o record input capped hinput _ _ h := by
    have htook := placeOnBook_took record input capped o.runtime
    have hafter := h.now.took (covers_mappedCommand hinput capped (receivedSequence record)) htook
    unfold Ensures
    split
    · rename_i heq
      rw [heq] at hafter
      exact ⟨hafter, h.starts⟩
    · rename_i heq
      rw [heq] at hafter
      exact ⟨hafter, h.starts⟩
  cancel o record input markPrices hinput h := by
    have hafter : EngineRuntime.KnowsOnly ((cancelOnBook record input markPrices).run.run
        o.runtime).2 inputs o.calls := by
      rcases cancelOnBook_took record input markPrices o.runtime with hsame | ⟨command, hid, htook⟩
      · exact h.now.of_core hsame
      · have hcovers : (knownIds inputs o.calls).Covers (.cancelOrder command) :=
          ⟨_, List.mem_append_left _ (List.mem_flatMap.2 ⟨_, hinput, List.mem_cons_self⟩), hid⟩
        exact h.now.took hcovers (Or.inr htook)
    unfold Ensures
    split
    · rename_i heq
      rw [heq] at hafter
      exact ⟨hafter, h.starts⟩
    · rename_i heq
      rw [heq] at hafter
      exact ⟨hafter, h.starts⟩
  liquidate o record input emitReplies h := by
    obtain ⟨queues, htracks, hknows⟩ := h.now
    have hbefore : o.runtime.KnowsOnly inputs
        (o.calls ++ [o.runtime.liquidation record input emitReplies]) :=
      ⟨queues, htracks, hknows.mono (knownIds_within _ _ _)⟩
    refine ⟨?_, fun earlier call later heq => ?_⟩
    · rcases executeLiquidation_took record input emitReplies o.runtime with hsame |
        ⟨position, orderId, hid, htook⟩
      · exact hbefore.of_core hsame
      · have hcovers : (knownIds inputs (o.calls ++ [o.runtime.liquidation record input
            emitReplies])).Covers (.placeOrder (liquidationCommand o.runtime record input position
              orderId)) := covers_liquidationCommand hid position
        exact hbefore.took hcovers (Or.inr htook)
    · rcases List.eq_nil_or_concat later with rfl | ⟨later, last, rfl⟩
      · obtain ⟨rfl, hcall⟩ := List.append_inj' heq rfl
        cases hcall
        exact h.now
      · rw [List.concat_eq_append, ← List.cons_append, ← List.append_assoc] at heq
        exact h.starts earlier call later (List.append_inj' heq rfl).1
  restart o config h := by
    obtain ⟨queues, htracks, hknows⟩ := h.now
    exact ⟨⟨_, htracks.restart, hknows.restarted⟩, h.starts⟩

theorem knowsOnly_new (config : EngineRuntimeConfig) (inputs : List ParsedEngineInput) :
    (LoggedRuntime.new config).KnowsOnly inputs := by
  have hfold : ∀ (configs : List SymbolConfig) (core : EngineCore OrderBook)
      (queues : EngineCore QueueBook), Tracks core queues → queues.Knows (knownIds inputs []) →
      ∃ queues, Tracks (configs.foldl EngineCore.addSymbol core) queues ∧
        queues.Knows (knownIds inputs []) := by
    intro configs
    induction configs with
    | nil => exact fun core queues h h' => ⟨queues, h, h'⟩
    | cons config configs ih =>
      exact fun core queues h h' => ih _ _ (h.addSymbol config) (h'.addSymbol config)
  have hempty := Tracks.empty
  have hnothing := @EngineCore.Knows.empty (knownIds inputs [])
  refine ⟨hfold config.symbols { EngineCore.empty with sequenceGenerator :=
    { SequenceGenerator.new with nextTradeId := config.firstTradeId } }
    { EngineCore.empty with sequenceGenerator :=
      { SequenceGenerator.new with nextTradeId := config.firstTradeId } }
    ⟨⟨hempty.rel.books, hempty.rel.symbolConfigs, rfl, hempty.rel.idempotencyIndex⟩, hempty.live,
      hempty.configs⟩ ⟨hnothing.commands, hnothing.orders, hnothing.clients, hnothing.resting⟩, ?_⟩
  intro earlier call later heq
  cases earlier <;> cases heq

/-- In every run the core knows no ids but those of the inputs and liquidations before. -/
theorem knowsOnly_run (config : EngineRuntimeConfig) (steps : List RuntimeStep) :
    ((LoggedRuntime.new config).run steps).KnowsOnly (steps.filterMap RuntimeStep.brought?) := by
  refine (knowsOnlyRule _).run (positive_new config) (knowsOnly_new config _) fun s hs => ?_
  unfold RuntimeStep.Brings
  split
  · exact List.mem_filterMap.2 ⟨_, hs, rfl⟩
  · trivial

end Known

section Fresh

/-- The core would reject the order of the liquidation as one that came before. -/
def LiquidationCall.RejectedAsDuplicate (call : LiquidationCall) : Prop :=
  ∃ position orderId, call.before.ledger.positions[call.input.key]? = some position ∧
    liquidationOrderId call.input.liquidationId = .ok orderId ∧
    ∃ e ∈ (call.before.core.process (.placeOrder
      (liquidationCommand call.before call.record call.input position orderId))).1,
        e.rejectsDuplicate = true

/-- Different texts and liquidation ids of a run have different hashes. -/
structure HashedApart (inputs : List ParsedEngineInput) (calls : List LiquidationCall) : Prop where
  texts : ∀ t ∈ commandTexts inputs calls ++ clientTexts inputs calls,
    ∀ t' ∈ commandTexts inputs calls ++ clientTexts inputs calls,
      stableStringId t = stableStringId t' → t = t'
  orders : ∀ call ∈ calls, ∀ call' ∈ calls, liquidationOrderId call.input.liquidationId =
    liquidationOrderId call'.input.liquidationId →
      call.input.liquidationId = call'.input.liquidationId

/-- No input goes under an id of a liquidation of the runtime's own. -/
structure SparesLiquidations (inputs : List ParsedEngineInput) (calls : List LiquidationCall) :
    Prop where
  liquidations : ∀ input, .liquidatePosition input ∈ inputs → ¬IsAutomaticId input.liquidationId
  requests : ∀ t ∈ inputs.flatMap (·.requestIds) ++ inputs.flatMap (·.idempotencyKeys),
    ∀ id, IsAutomaticId id → t ≠ coreRequestId id
  orders : ∀ n ∈ inputs.flatMap (·.orderIds), ∀ call ∈ calls, call.emitReplies = false →
    liquidationOrderId call.input.liquidationId ≠ .ok n

variable {inputs : List ParsedEngineInput} {calls earlier later : List LiquidationCall}
  {call : LiquidationCall}

theorem eq_of_toNat_eq {a b : ℤ} (ha : 0 < a) (h : a.toNat = b.toNat) : a = b := by omega

/-- A new liquidation id gives the order new ids. -/
theorem misses_liquidationCommand (hcalls : calls = earlier ++ call :: later)
    (hspares : SparesLiquidations inputs calls) (hhash : HashedApart inputs calls)
    (hquiet : call.emitReplies = false) (hautomatic : IsAutomaticId call.input.liquidationId)
    (hnew : ∀ c ∈ earlier, c.input.liquidationId ≠ call.input.liquidationId)
    {orderId : AdapterOrderId} (hid : liquidationOrderId call.input.liquidationId = .ok orderId)
    (position : IsolatedPositionState) : (knownIds inputs earlier).Misses
      (liquidationCommand call.before call.record call.input position orderId) := by
  have hsub : ∀ c ∈ earlier, c ∈ calls := fun c hc => hcalls ▸ List.mem_append_left _ hc
  have hcall : call ∈ calls := hcalls ▸ List.mem_append_right _ List.mem_cons_self
  have hown : coreRequestId call.input.liquidationId ∈ commandTexts inputs calls :=
    List.mem_append_right _ (List.mem_map_of_mem hcall)
  -- a text of an input is no request id of a liquidation, one of another liquidation is another
  have htexts : ∀ texts : List Text,
      (∀ t ∈ texts, t ∈ inputs.flatMap (·.requestIds) ++ inputs.flatMap (·.idempotencyKeys)) →
      (∀ t ∈ texts, t ∈ commandTexts inputs calls ++ clientTexts inputs calls) →
      ∀ t ∈ texts ++ earlier.map (fun c => coreRequestId c.input.liquidationId),
        stableStringId (coreRequestId call.input.liquidationId) ≠ stableStringId t := by
    intro texts hinputs hknown t ht hsame
    rcases List.mem_append.1 ht with ht | ht
    · have heq := hhash.texts _ (List.mem_append_left _ hown) t (hknown t ht) hsame
      exact hspares.requests t (hinputs t ht) _ hautomatic heq.symm
    · obtain ⟨c, hc, rfl⟩ := List.mem_map.1 ht
      have heq := hhash.texts _ (List.mem_append_left _ hown) _ (List.mem_append_left _
        (List.mem_append_right _ (List.mem_map_of_mem (hsub c hc)))) hsame
      exact hnew c hc (List.append_cancel_left heq).symm
  refine ⟨?_, ?_, ?_⟩
  · rintro ⟨t, ht, hsame⟩
    exact htexts _ (fun t ht => List.mem_append_left _ ht)
      (fun t ht => List.mem_append_left _ (List.mem_append_left _ ht)) t ht hsame
  · have hpositive := liquidationOrderId_eq_ok hid
    rintro (⟨n, hn, hsame⟩ | ⟨c, hc, n, hcid, hsame⟩)
    · have heq : orderId = n := eq_of_toNat_eq hpositive hsame
      exact hspares.orders n hn call hcall hquiet (heq ▸ hid)
    · have heq : orderId = n := eq_of_toNat_eq hpositive hsame
      refine hnew c hc (hhash.orders c (hsub c hc) call hcall ?_)
      rw [hcid, hid, heq]
  · rintro ⟨t, ht, hsame⟩
    exact htexts _ (fun t ht => List.mem_append_right _ ht)
      (fun t ht => List.mem_append_right _ (List.mem_append_left _ ht)) t ht hsame

/-- In a run whose steps repeat no trigger and whose inputs spare the ids of the runtime's own
liquidations, each of these goes under a new id, and the core rejects no order of theirs as a
duplicate. -/
theorem automatic_liquidation_ids_new (config : EngineRuntimeConfig) (steps : List RuntimeStep)
    {o : LoggedRuntime} (ho : o = (LoggedRuntime.new config).run steps)
    (hunrepeated : LoggedRuntime.Throughout LoggedRuntime.Unrepeated (.new config) steps)
    (hspares : SparesLiquidations (steps.filterMap RuntimeStep.brought?) o.calls)
    (hhash : HashedApart (steps.filterMap RuntimeStep.brought?) o.calls) :
    (o.calls.Pairwise fun earlier call => call.emitReplies = false →
      earlier.input.liquidationId ≠ call.input.liquidationId) ∧
    ∀ call ∈ o.calls, call.emitReplies = false → ¬call.RejectedAsDuplicate := by
  have hids : o.NewIds := by
    rw [ho]
    refine (LoggedRuntime.NewIds.start config).run hunrepeated fun s hs => ?_
    unfold RuntimeStep.Brings
    split
    · rename_i brought _
      unfold ParsedEngineInput.SparesIds
      split
      · rename_i input hinput
        exact hspares.liquidations input (hinput ▸ List.mem_filterMap.2 ⟨_, hs, rfl⟩)
      · trivial
    · trivial
  have hknows := knowsOnly_run config steps
  rw [← ho] at hknows
  refine ⟨hids.new, fun call hcall hquiet => ?_⟩
  rintro ⟨position, orderId, -, hid, e, he, hduplicate⟩
  obtain ⟨earlier, later, hcalls⟩ := List.append_of_mem hcall
  obtain ⟨queues, htracks, hknown⟩ := hknows.starts earlier call later hcalls
  have hnew : ∀ c ∈ earlier, c.input.liquidationId ≠ call.input.liquidationId := by
    have hpairwise := hids.new
    rw [hcalls, List.pairwise_append] at hpairwise
    exact fun c hc => hpairwise.2.2 c hc call List.mem_cons_self hquiet
  have hmisses := misses_liquidationCommand hcalls hspares hhash hquiet
    (hids.titled call hcall hquiet).isAutomaticId hnew hid position
  rw [htracks.not_rejectsDuplicate hknown hmisses e he] at hduplicate
  cases hduplicate

end Fresh

section Samples

/-- User 31 is long on little margin when the mark falls to 93 and nobody bids or can be deleveraged;
34 bids for four lots, and the engine starts again. -/
def sampleScan : List RuntimeStep :=
  [sampleMark 1 100, sampleOrderOn 2 31 .long 100 10 60, sampleOrderOn 3 32 .short 100 10 1000,
    sampleOrderOn 4 33 .short 80 10 1000, sampleOrderOn 5 32 .long 80 10 1000, sampleMark 6 93,
    sampleOrderOn 7 34 .long 93 4 1000, .restart sampleRuntimeConfig,
    .evaluate startupLiquidationSource .live]

/-- 34 bids for ten more, and the engine starts once more. -/
def sampleRescan : List RuntimeStep :=
  sampleScan ++ [sampleOrderOn 8 34 .long 93 10 1000, .restart sampleRuntimeConfig,
    .evaluate startupLiquidationSource .live]

@[irreducible] def sampleScanned : LoggedRuntime :=
  (LoggedRuntime.new sampleRuntimeConfig).run sampleScan

@[irreducible] def sampleRescanned : LoggedRuntime :=
  (LoggedRuntime.new sampleRuntimeConfig).run sampleRescan

theorem sparesLiquidations_sample {calls : List LiquidationCall} {steps : List RuntimeStep}
    (hliquidations : (steps.filterMap RuntimeStep.brought?).all (fun
      | .liquidatePosition _ => false
      | _ => true) = true)
    (hrequests : ∀ t ∈ (steps.filterMap RuntimeStep.brought?).flatMap (·.requestIds) ++
      (steps.filterMap RuntimeStep.brought?).flatMap (·.idempotencyKeys), t.head? ≠ some 108)
    (horders : ∀ n ∈ (steps.filterMap RuntimeStep.brought?).flatMap (·.orderIds), ∀ call ∈ calls,
      (liquidationOrderId call.input.liquidationId).toOption ≠ some n) :
    SparesLiquidations (steps.filterMap RuntimeStep.brought?) calls where
  liquidations input hinput := absurd (List.all_eq_true.1 hliquidations _ hinput) nofun
  requests t ht id _ heq := by
    refine hrequests t ht ?_
    rw [heq]
    rfl
  orders n hn call hcall _ heq := by
    refine horders n hn call hcall ?_
    rw [heq]
    rfl

/-- One scan: its liquidation sells the four lots. -/
theorem automatic_liquidation_ids_new_sample :
    (sampleScanned.calls.map (·.input.liquidationId) =
      [ascii "auto-liq-1-31-0-6-1", ascii "auto-liq-1-31--1--1-1"] ∧
      sampleScanned.runtime.ledger.signed ⟨31, 1⟩ = 6) ∧
    (sampleScanned.calls.Pairwise fun earlier call => call.emitReplies = false →
      earlier.input.liquidationId ≠ call.input.liquidationId) ∧
    ∀ call ∈ sampleScanned.calls, call.emitReplies = false → ¬call.RejectedAsDuplicate := by
  refine ⟨⟨by decide +kernel, by decide +kernel⟩, ?_⟩
  refine automatic_liquidation_ids_new sampleRuntimeConfig sampleScan (by unfold sampleScanned; rfl)
    (unrepeated_of_places _ (by decide +kernel)) ?_
    ⟨by decide +kernel, by decide +kernel⟩
  exact sparesLiquidations_sample (by decide +kernel) (by decide +kernel) (by decide +kernel)

/-- A second scan: ten lots are bid for the six that are left, but the liquidation goes under the id
of the first scan's, and its order is rejected as a duplicate. -/
theorem startup_scans_share_ids :
    ((sampleRescan.filterMap fun s => match s with
      | .input record _ _ => some (record.partition, record.offset)
      | _ => none).Nodup ∧
    SparesLiquidations (sampleRescan.filterMap RuntimeStep.brought?) sampleRescanned.calls ∧
    HashedApart (sampleRescan.filterMap RuntimeStep.brought?) sampleRescanned.calls) ∧
    sampleRescanned.calls.map (·.input.liquidationId) = [ascii "auto-liq-1-31-0-6-1",
      ascii "auto-liq-1-31--1--1-1", ascii "auto-liq-1-31--1--1-1"] ∧
    (∃ call ∈ sampleRescanned.calls.getLast?, call.emitReplies = false ∧
      crossingLiquidityExists call.before.core 1 .short 93 = true ∧ call.RejectedAsDuplicate) ∧
    sampleRescanned.runtime.ledger.signed ⟨31, 1⟩ = 6 := by
  have hlast : (sampleRescanned.calls.getLast?.any fun call => !call.emitReplies &&
      crossingLiquidityExists call.before.core 1 .short 93 &&
      (call.before.ledger.positions[call.input.key]?).any fun position =>
        (liquidationOrderId call.input.liquidationId).toOption.any fun orderId =>
          (call.before.core.process (.placeOrder (liquidationCommand call.before call.record
            call.input position orderId))).1.any (·.rejectsDuplicate)) = true := by decide +kernel
  refine ⟨⟨by decide +kernel, ?_, by decide +kernel, by decide +kernel⟩, by decide +kernel, ?_,
    by decide +kernel⟩
  · exact sparesLiquidations_sample (by decide +kernel) (by decide +kernel) (by decide +kernel)
  · generalize sampleRescanned.calls.getLast? = last at hlast ⊢
    cases last with
    | none => cases hlast
    | some call =>
      rw [Option.any_some, Bool.and_eq_true, Bool.and_eq_true, Bool.not_eq_true'] at hlast
      obtain ⟨⟨hquiet, hcrossing⟩, hrejected⟩ := hlast
      refine ⟨call, rfl, hquiet, hcrossing, ?_⟩
      cases hposition : call.before.ledger.positions[call.input.key]? with
      | none =>
        rw [hposition] at hrejected
        cases hrejected
      | some position =>
        cases hid : liquidationOrderId call.input.liquidationId with
        | error e =>
          rw [hposition, hid] at hrejected
          cases hrejected
        | ok orderId =>
          rw [hposition, hid] at hrejected
          exact ⟨position, orderId, hposition, hid, List.any_eq_true.1 hrejected⟩

end Samples
end PerpexEngine
