import PerpexEngine.Runtime.IdempotencyKeys
import PerpexEngine.Runtime.LiquidationErrors
import PerpexEngine.Runtime.RestingOrders

/-! Cancels of orders that rest for somebody else: what their replies give away. -/
namespace PerpexEngine
open Program

section Core

/-- The order that an answer to a cancel names. -/
def EngineEvent.NamesOrder (orderId : OrderId) : EngineEvent → Prop
  | orderRejected e => e.orderId = some orderId
  | orderCancelled e => e.orderId = orderId
  | _ => True

theorem OrderBook.processCancel_names (book : OrderBook) {command : CancelOrderCommand}
    (hid : command.orderId ≠ 0) (g : SequenceGenerator) :
    ∀ e ∈ (book.processCancel command g).1, e.NamesOrder command.orderId := by
  have htarget : book.cancelTarget command = command.orderId := if_neg hid
  have hsome : optionalOrderId command.orderId = some command.orderId := if_neg hid
  intro e he
  unfold processCancel at he
  dsimp only at he
  rw [htarget, hsome] at he
  split_ifs at he
  · unfold cancelExistingOrder at he
    split at he
    · rw [List.mem_singleton.1 he]
      exact hsome
    · simp only [List.mem_cons, List.not_mem_nil, or_false] at he
      rcases he with rfl | rfl
      · rfl
      · trivial
  · rw [List.mem_singleton.1 he]
    rfl

/-- The answer to a cancel names the order that was asked for. -/
theorem EngineCore.cancelOrder_names (core : EngineCore OrderBook) {command : CancelOrderCommand}
    (hid : command.orderId ≠ 0) :
    ∀ e ∈ (core.process (.cancelOrder command)).1, e.NamesOrder command.orderId := by
  simp only [process]
  rcases core.processCancelOrder_cases command with ⟨reason, record, heq⟩ |
    ⟨config, book, accepted, -, -, heq⟩
  · rw [heq]
    intro e he
    rw [List.mem_singleton.1 he]
    exact if_neg hid
  · rw [heq]
    exact book.processCancel_names hid core.sequenceGenerator

/-- Nobody cancels the order of somebody else. -/
theorem QueueBook.processCancel_other {q : QueueBook} {command : CancelOrderCommand}
    (hid : command.orderId ≠ 0)
    (hother : ∀ o ∈ q.activeOrders, o.orderId = command.orderId → o.userId ≠ command.userId)
    (g : SequenceGenerator) : ∃ e, (q.processCancel command g).1 = [.orderRejected e] := by
  have htarget : q.cancelTarget command = command.orderId := if_neg hid
  have hnone : (q.lookup command.orderId).filter (fun o => o.userId = command.userId) = none := by
    rw [Option.filter_eq_none_iff]
    intro o ho
    have hmem := List.mem_of_find?_eq_some ho
    have hsame := List.find?_some ho
    simp only [decide_eq_true_eq] at hsame ⊢
    exact hother o hmem hsame
  unfold processCancel
  dsimp only
  rw [htarget, hnone]
  exact ⟨_, rfl⟩

theorem OrderBook.processCancel_rejected {book : OrderBook} {command : CancelOrderCommand}
    {g : SequenceGenerator} {e : OrderRejected}
    (h : (book.processCancel command g).1 = [.orderRejected e]) :
    (book.processCancel command g).2.1 = book := by
  unfold processCancel at h ⊢
  dsimp only at h ⊢
  split_ifs at h ⊢ with hown
  · unfold cancelExistingOrder at h ⊢
    cases hlookup : book.lookup (book.cancelTarget command) with
    | none => rfl
    | some entry =>
      rw [hlookup] at h
      cases h
  · rfl

theorem EngineCore.cancelOrder_rejected {core : EngineCore OrderBook}
    {command : CancelOrderCommand} {e : OrderRejected}
    (h : (core.process (.cancelOrder command)).1 = [.orderRejected e]) (id : SymbolId) :
    (core.process (.cancelOrder command)).2.orderBooks[id]? = core.orderBooks[id]? := by
  simp only [process] at h ⊢
  rcases core.processCancelOrder_cases command with ⟨reason, record, heq⟩ |
    ⟨config, book, accepted, -, hbook, heq⟩
  · rw [heq]
    rfl
  · rw [heq] at h ⊢
    unfold finish
    dsimp only
    rw [Std.ExtTreeMap.getElem?_insert]
    split_ifs with hid
    · have hsame : id = command.symbolId := (Std.LawfulEqCmp.compare_eq_iff_eq.1 hid).symm
      rw [hsame, hbook]
      exact congrArg some (OrderBook.processCancel_rejected h)
    · rfl

end Core

/-- The reservations that the replies of a result name. -/
def EngineProcessResult.reservations (result : EngineProcessResult) : List (Option Text) :=
  result.replies.map (·.fields.reservationId)

/-- No book and no position is different. -/
structure EngineRuntime.SameView (rt rt' : EngineRuntime) : Prop where
  books : ∀ id : SymbolId, rt.core.orderBooks[id]? = rt'.core.orderBooks[id]?
  positions : rt.ledger.positions = rt'.ledger.positions

section Replies
variable {rt : EngineRuntime} {record : InboundEngineRecord} {input : CancelOrderInput}

/-- The core rejects a cancel of an order that rests for another user. -/
theorem EngineRuntime.InLockstep.cancel_other (h : rt.InLockstep) {symbolId : SymbolId}
    {book : OrderBook} (hbook : rt.core.orderBooks[symbolId]? = some book) {order : OrderSnapshot}
    (horder : order ∈ book.registered) {command : CancelOrderCommand}
    (hid : command.orderId = order.orderId) (hpositive : command.orderId ≠ 0)
    (hother : order.userId ≠ command.userId) :
    ∃ e, (rt.core.process (.cancelOrder command)).1 = [.orderRejected e] := by
  obtain ⟨queues, htracks, hlock⟩ := h
  have hrel := htracks.rel.books symbolId
  rw [hbook] at hrel
  generalize hq : queues.orderBooks[symbolId]? = theirs at hrel
  cases hrel with
  | @some _ q href =>
    have hactive := (href.rep.registered_perm href.ok.toKeyed).mem_iff.1 horder
    rw [(htracks.rel.process Refines.simulation (.cancelOrder command) fun _ _ _ => trivial).1]
    simp only [EngineCore.process]
    rcases queues.processCancelOrder_cases command with ⟨reason, record, heq⟩ |
      ⟨config, q', accepted, -, hq', heq⟩
    · rw [heq]
      exact ⟨_, rfl⟩
    · rw [heq]
      refine QueueBook.processCancel_other hpositive (fun o ho hsame => ?_) queues.sequenceGenerator
      have hkey := hlock.keys_eq hq hq' hactive ho (hid.symm.trans hsame.symm)
      rw [← hkey, hq] at hq'
      cases hq'
      have horders : o = order := List.inj_on_of_nodup_map (hlock.ok _ q hq).ids ho hactive
        (hsame.trans hid)
      exact horders ▸ hother

theorem mapCancelOrderToCore_eq_ok {receivedSequence : EngineSequence}
    {command : CancelOrderCommand} (h : mapCancelOrderToCore input receivedSequence = .ok command) :
    0 < input.orderId ∧ 0 ≤ input.envelope.userId ∧ command.orderId = input.orderId.toNat ∧
      command.userId = input.envelope.userId.toNat := by
  unfold mapCancelOrderToCore at h
  simp only [bind_eq_ok, toCoreUserId_eq_ok, toCoreOrderId_eq_ok, pure_eq_ok] at h
  obtain ⟨_, -, _, -, _, ⟨huser, rfl⟩, _, -, _, ⟨horder, rfl⟩, _, -, rfl⟩ := h
  exact ⟨horder, huser, rfl, rfl⟩

theorem ensures_appendOrderRejected {e : OrderRejected} {orderId : OrderId}
    (hnames : e.orderId = some orderId) (l : Ledger) :
    Ensures (appendOrderRejected (cancelContext record input) e) ⟨l, none⟩
      (fun r s => s = ⟨l, none⟩ ∧ r.events = [] ∧
        r.reservations = [l.metadataStore[orderId]?.map (·.reservationId)]) fun _ => False := by
  have hfind : findMetadata orderId ⟨l, none⟩ = l.metadataStore[orderId]? := rfl
  unfold appendOrderRejected
  rw [hnames, ensures_bind, ensures_get]
  dsimp only [Option.getD_some]
  rw [hfind]
  cases hfound : l.metadataStore[orderId]? with
  | none => exact ⟨rfl, rfl, rfl⟩
  | some metadata =>
    have hcancel : (cancelContext record input).commandKind ≠ .placeOrder ∨
        metadata.reservationId = [] ∨ metadata.remainingReservedMargin ≤ 0 := Or.inl nofun
    dsimp only
    rw [if_pos hcancel]
    exact ⟨rfl, rfl, rfl⟩

theorem reservations_append (a b : EngineProcessResult) :
    (a ++ b).reservations = a.reservations ++ b.reservations := List.map_append

/-- A rejected cancel is answered with the reservation of whatever order has the id. -/
theorem ensures_translateCancel_rejected (markPrices : MarkPrices) {e : OrderRejected} {orderId : OrderId}
    (hnames : e.orderId = some orderId) (l : Ledger) :
    Ensures (withPending none (translate (cancelContext record input) markPrices [.orderRejected e]))
      l (fun r l' => l' = l ∧ r.1.events = [] ∧
        r.1.reservations = [l.metadataStore[orderId]?.map (·.reservationId)]) fun _ => False := by
  unfold withPending translate
  rw [ensures_zoom, ensures_bind]
  simp only [translateEvents]
  rw [ensures_bind]
  refine (ensures_appendOrderRejected hnames l).mono ?_ fun _ h => h
  rintro r _ ⟨rfl, hevents, hreservations⟩
  refine ⟨rfl, ?_, ?_⟩
  · rw [EngineProcessResult.events_append, hevents]
    rfl
  · rw [reservations_append, hreservations]
    rfl

/-- The answer to a cancel of an order that is filed nowhere names no reservation. -/
theorem ensures_translateCancel_unfiled (markPrices : MarkPrices) {events : List EngineEvent}
    {g g' : SequenceGenerator} (hevents : CancelEvents g events g') {orderId : OrderId}
    (hnames : ∀ e ∈ events, e.NamesOrder orderId) {l : Ledger}
    (hunfiled : l.metadataStore[orderId]? = none) :
    Ensures (withPending none (translate (cancelContext record input) markPrices events)) l
      (fun r _ => ∀ reservation ∈ r.1.reservations, reservation = none) fun _ => True := by
  cases hevents with
  | rejected e _ =>
    have hid : e.orderId = some orderId := hnames _ List.mem_cons_self
    refine (ensures_translateCancel_rejected markPrices hid l).mono ?_ fun _ h => h.elim
    rintro r l' ⟨-, -, hreservations⟩
    rw [hreservations, hunfiled]
    simp
  | cancelled e d _ =>
    have hsilent : ∀ (marketId : MarketId) (payload : EventPayload) (s : TranslationState),
        Ensures (makeEvent (cancelContext record input) marketId payload) s
          (fun r _ => r.reservations = []) fun _ => True := by
      intro marketId payload s
      unfold makeEvent
      rw [ensures_map]
      exact Ensures.always fun _ _ => rfl
    unfold withPending translate
    rw [ensures_zoom, ensures_bind]
    simp only [translateEvents, translateEvent, bind_assoc, pure_bind]
    unfold appendOrderCancelled
    rw [bind_assoc, ensures_bind, ensures_get]
    dsimp only
    rw [bind_assoc]
    refine (hsilent _ _ _).andThen fun a s ha => ?_
    rw [pure_bind]
    refine (hsilent _ _ s).andThen fun b t hb => ?_
    simp only [ensures_pure, ensures_bind, ensures_get, reservations_append, ha, hb]
    simp [EngineProcessResult.reservations, EngineProcessResult.reply, makeReply,
      EngineProcessResult.new]

/-- The same of the whole cancel. -/
theorem ensures_cancelOnBook_unfiled (markPrices : MarkPrices)
    (hunfiled : rt.ledger.metadataStore[input.orderId.toNat]? = none) :
    Ensures (cancelOnBook record input markPrices) rt
      (fun result _ => ∀ reservation ∈ result.reservations, reservation = none) fun _ => True := by
  unfold cancelOnBook
  rw [ensures_bind, ensures_liftExcept]
  refine ⟨fun command hcommand => ?_, fun _ _ => trivial⟩
  obtain ⟨horder, -, hid, -⟩ := mapCancelOrderToCore_eq_ok hcommand
  have hpositive : command.orderId ≠ 0 := hid ▸ (Int.lt_toNat.2 horder).ne'
  have hnames := rt.core.cancelOrder_names hpositive
  rw [ensures_bind, ensures_processCore, ensures_bind]
  unfold withLedger
  rw [ensures_zoom]
  refine (ensures_translateCancel_unfiled markPrices (rt.core.cancelOrder_events command) hnames
    (hid ▸ hunfiled)).mono ?_ fun _ _ => trivial
  exact fun r l hr => ensures_bind_of_forall fun _ _ => hr

/-- A cancel of an order that rests for another user is answered with its reservation. -/
theorem EngineRuntime.InLockstep.cancelOnBook_other (h : rt.InLockstep) (markPrices : MarkPrices)
    {symbolId : SymbolId} {book : OrderBook}
    (hbook : rt.core.orderBooks[symbolId]? = some book) {order : OrderSnapshot}
    (horder : order ∈ book.registered) (hid : (order.orderId : ℤ) = input.orderId)
    (hother : (order.userId : ℤ) ≠ input.envelope.userId) :
    Ensures (PerpexEngine.cancelOnBook record input markPrices) rt
      (fun result after => result.events = [] ∧ after.SameView rt ∧
        ∃ reservation, result.reservations = [some reservation])
      fun after => after = rt ∧
        ∀ command, mapCancelOrderToCore input (receivedSequence record) ≠ .ok command := by
  obtain ⟨metadata, hfiled, -⟩ := h.filedAs hbook horder
  unfold PerpexEngine.cancelOnBook
  rw [ensures_bind, ensures_liftExcept]
  refine ⟨fun command hcommand => ?_, fun e he => ⟨rfl, fun command => by rw [he]; nofun⟩⟩
  obtain ⟨hpositive, huser, hcommandId, hcommandUser⟩ := mapCancelOrderToCore_eq_ok hcommand
  have hsame : command.orderId = order.orderId := by
    rw [hcommandId, ← hid, Int.toNat_natCast]
  have hne : command.orderId ≠ 0 := hcommandId ▸ (Int.lt_toNat.2 hpositive).ne'
  have hstranger : order.userId ≠ command.userId := fun heq => hother (by
    rw [heq, hcommandUser, Int.toNat_of_nonneg huser])
  obtain ⟨e, hrejected⟩ := h.cancel_other hbook horder hsame hne hstranger
  have hnames : e.orderId = some order.orderId := by
    have hnamed := rt.core.cancelOrder_names hne
    rw [hrejected] at hnamed
    exact (hnamed _ List.mem_cons_self).trans (congrArg some hsame)
  rw [ensures_bind, ensures_processCore, ensures_bind, hrejected]
  unfold withLedger
  rw [ensures_zoom]
  refine (ensures_translateCancel_rejected markPrices hnames rt.ledger).mono ?_ fun _ h => h.elim
  rintro ⟨result, pending⟩ l ⟨hl, hevents, hreservations⟩
  have hsame : l = rt.ledger := hl
  subst hsame
  refine ⟨hevents, ⟨fun id => ?_, rfl⟩, metadata.reservationId, ?_⟩
  · exact EngineCore.cancelOrder_rejected hrejected id
  · rw [hreservations, hfiled.found]
    rfl

/-- In the second state the order does not exist; the two know the same processed requests. -/
structure EngineRuntime.Without (rt rt' : EngineRuntime) (orderId : OrderId) : Prop where
  tables : rt.SameTables rt'
  rests : ¬rt'.core.Rests orderId
  unfiled : rt'.ledger.metadataStore[orderId]? = none

theorem EngineRuntime.SameTables.duplicateResultFor {rt' : EngineRuntime} (h : rt.SameTables rt')
    (inputId : Option Text) (key : Text) :
    duplicateResultFor rt' inputId key = duplicateResultFor rt inputId key := by
  unfold PerpexEngine.duplicateResultFor duplicateInputResultFor
  rw [h.1, h.2]

theorem duplicateResultFor_isSome (rt : EngineRuntime) (input : CancelOrderInput) :
    (duplicateResultFor rt input.inputId input.envelope.idempotencyKey).isSome = true ↔
      rt.Knows (.cancelOrder input) := by
  constructor
  · intro hsome
    obtain ⟨result, hresult⟩ := Option.isSome_iff_exists.1 hsome
    exact knows_of_duplicate (.cancelOrder input) rfl hresult
  · intro hknows
    have hkey : (∃ i ∈ input.inputId, i ∈ rt.processedInputIds) ∨
        input.envelope.idempotencyKey ∈ rt.processedIdempotencyKeys := by
      rcases hknows with hid | ⟨key, hkey, hmem⟩
      · exact Or.inl hid
      · cases hkey
        exact Or.inr hmem
    obtain ⟨reason, found, original, hresult⟩ := duplicateResult_of_knows hkey
    rw [hresult]
    rfl

/-- A cancel that was seen before gets the same answer from every state with the same tables. -/
theorem ends_cancelOrder_known {duplicate : EngineProcessResult}
    (hknown : duplicateResultFor rt input.inputId input.envelope.idempotencyKey = some duplicate) :
    Ends (cancelOrder record input .live) rt (fun result after => result = duplicate ∧ after = rt)
      fun _ _ => False := by
  unfold cancelOrder
  rw [ends_bind, ends_get, hknown]
  exact ⟨rfl, rfl⟩

/-- A cancel that the adapter rejects throws what the adapter throws. -/
theorem ends_cancelOrder_unmapped (hnew : duplicateResultFor rt input.inputId
    input.envelope.idempotencyKey = none) {e : Text}
    (hmapped : mapCancelOrderToCore input (receivedSequence record) = .error e) :
    Ends (cancelOrder record input .live) rt (fun _ _ => False)
      fun error after => error = e ∧ after = rt := by
  unfold cancelOrder
  rw [ends_bind, ends_get, hnew]
  dsimp only
  rw [ends_bind, hmapped]
  exact ⟨rfl, rfl⟩

section New
variable (hnew : duplicateResultFor rt input.inputId input.envelope.idempotencyKey = none)

include hnew

/-- A cancel that was not seen before is its book phase and a record that says nothing more. -/
theorem ensures_cancelOrder_of_new {Q : EngineProcessResult → EngineRuntime → Prop}
    {E : EngineRuntime → Prop} (h : Ensures (cancelOnBook record input rt.markPrices) rt Q E)
    (hmark : ∀ result after after', after.SameBooks after' → Q result after → Q result after') :
    Ensures (cancelOrder record input .live) rt Q E := by
  unfold cancelOrder
  rw [ensures_bind, ensures_get, hnew]
  dsimp only
  rw [← cancelOnBook_bind record input rt.markPrices fun result => do
    markProcessed .cancelOrder record input.inputId input.envelope.idempotencyKey
    pure (result.applyProcessingMode .live), ensures_bind]
  refine h.mono (fun result after hresult => ?_) fun _ h => h
  have hframe := frames_markProcessed .cancelOrder record input.inputId
    input.envelope.idempotencyKey after
  unfold markProcessed at hframe ⊢
  rw [ensures_modify] at hframe
  rw [ensures_bind, ensures_modify]
  exact hmark result after _ hframe hresult

end New
end Replies
/-- What a reachable runtime gives away of an order that rests for one user when another cancels
it: the answer is that of a state without the order if and only if the cancel is a duplicate or the
adapter rejects it. No event comes of it, and books and positions stay as they are. -/
theorem cancel_conceals_iff (config : EngineRuntimeConfig) (steps : List RuntimeStep)
    {rt : EngineRuntime} (hrt : rt = ((EngineRuntime.new config).run steps).2)
    {symbolId : SymbolId} {book : OrderBook} (hbook : rt.core.orderBooks[symbolId]? = some book)
    {order : OrderSnapshot} (horder : order ∈ book.registered)
    (record : InboundEngineRecord) (input : EngineInput) {cancel : CancelOrderInput}
    (hcancel : input.parsed = .cancelOrder cancel)
    (hid : (order.orderId : ℤ) = cancel.orderId)
    (hother : (order.userId : ℤ) ≠ cancel.envelope.userId)
    {rt' : EngineRuntime} (hwithout : rt.Without rt' order.orderId) :
    ((rt.step (.input record (.ok input) .live)).1 = (rt'.step (.input record (.ok input) .live)).1 ↔
      rt.Knows input.parsed ∨
        ∀ command, mapCancelOrderToCore cancel (receivedSequence record) ≠ .ok command) ∧
    (∀ result, (rt.step (.input record (.ok input) .live)).1 = .ok result → result.events = []) ∧
    (rt.step (.input record (.ok input) .live)).2.SameView rt := by
  have hlockstep : rt.InLockstep := hrt ▸ (reachable_accounted config steps).lockstep
  obtain ⟨parsed, hwell⟩ := input
  cases hcancel
  dsimp only
  have hstep : ∀ state : EngineRuntime, state.step (.input record (.ok ⟨.cancelOrder cancel, hwell⟩)
      .live) = (cancelOrder record cancel .live).run.run state := fun _ => rfl
  rw [hstep, hstep]
  have hsame := hwithout.tables.duplicateResultFor cancel.inputId cancel.envelope.idempotencyKey
  have hknows := duplicateResultFor_isSome rt cancel
  cases hduplicate : duplicateResultFor rt cancel.inputId cancel.envelope.idempotencyKey with
  | some duplicate =>
    rw [hduplicate] at hsame hknows
    have hmine := (@ends_cancelOrder_known rt record cancel duplicate hduplicate).run_ok
    have htheirs := (@ends_cancelOrder_known rt' record cancel duplicate hsame).run_ok
    obtain ⟨reason, key, original, rfl⟩ := duplicateResultFor_eq hduplicate
    rw [hmine, htheirs]
    refine ⟨iff_of_true rfl (Or.inl (hknows.1 rfl)), ?_, fun _ => rfl, rfl⟩
    rintro result ⟨⟩
    rfl
  | none =>
    rw [hduplicate] at hsame hknows
    have hnew : ¬rt.Knows (.cancelOrder cancel) := fun h => nomatch hknows.2 h
    rw [or_iff_right hnew]
    cases hmapped : mapCancelOrderToCore cancel (receivedSequence record) with
    | error e =>
      rw [(ends_cancelOrder_unmapped hduplicate hmapped).run_error,
        (ends_cancelOrder_unmapped hsame hmapped).run_error]
      exact ⟨iff_of_true rfl nofun, nofun, fun _ => rfl, rfl⟩
    | ok command =>
      have hmine := @ensures_cancelOrder_of_new rt record cancel hduplicate _ _
        (hlockstep.cancelOnBook_other rt.markPrices hbook horder hid hother)
        fun result after after' hframe h => ⟨h.1, ⟨fun id => (congrArg
          (fun core : EngineCore OrderBook => core.orderBooks[id]?) hframe.core).trans
            (h.2.1.books id), hframe.positions.trans h.2.1.positions⟩, h.2.2⟩
      have hunfiled : rt'.ledger.metadataStore[cancel.orderId.toNat]? = none := by
        rw [← hid, Int.toNat_natCast]
        exact hwithout.unfiled
      have htheirs := @ensures_cancelOrder_of_new rt' record cancel hsame _ _
        (@ensures_cancelOnBook_unfiled rt' record cancel rt'.markPrices hunfiled)
        fun _ _ _ _ h => h
      rcases hrun : (cancelOrder record cancel .live).run.run rt with ⟨e | result, after⟩
      · exact absurd hmapped ((hmine.threw hrun).2 command)
      · obtain ⟨hevents, hview, reservation, hreservation⟩ := hmine.returned hrun
        refine ⟨iff_of_false (fun heq => ?_) fun h => h command rfl, ?_, hview⟩
        · have hrun' : (cancelOrder record cancel .live).run.run rt' =
              (.ok result, ((cancelOrder record cancel .live).run.run rt').2) :=
            Prod.ext heq.symm rfl
          have hnone := htheirs.returned hrun'
          rw [hreservation] at hnone
          cases hnone _ List.mem_cons_self
        · rintro _ ⟨⟩
          exact hevents

/-- An order that is filed nowhere does not rest. -/
theorem EngineRuntime.InLockstep.not_rests {rt : EngineRuntime} (h : rt.InLockstep)
    {orderId : OrderId} (hunfiled : rt.ledger.metadataStore[orderId]? = none) :
    ¬rt.core.Rests orderId := by
  rintro ⟨id, book, hbook, hmem⟩
  obtain ⟨order, horder, rfl⟩ := List.mem_map.1 hmem
  obtain ⟨metadata, hfiled, -⟩ := h.filedAs hbook horder
  rw [hfiled.found] at hunfiled
  cases hunfiled

/-- A cancel of order 1 by user 12. -/
def sampleForeignCancel : EngineInput where
  parsed := .cancelOrder
    { inputId := some (ascii "in-9")
      envelope := sampleEnvelope 9 12
      orderId := 1
      marketId := 1 }
  wellFormed := trivial

/-- Order 1 of user 11 rests. -/
@[irreducible] def sampleResting : EngineRuntime :=
  ((EngineRuntime.new sampleRuntimeConfig).run [samplePlace 1 11 .long 100 10]).2

/-- The same without the order. -/
def sampleForgotten : EngineRuntime :=
  { sampleResting with
    core := (EngineRuntime.new sampleRuntimeConfig).core
    ledger := (EngineRuntime.new sampleRuntimeConfig).ledger }

theorem cancel_conceals_iff_sample :
    (sampleResting.step (.input ⟨engineInputTopic, 0, 9⟩ (.ok sampleForeignCancel) .live)).1 ≠
      (sampleForgotten.step (.input ⟨engineInputTopic, 0, 9⟩ (.ok sampleForeignCancel) .live)).1 := by
  have hbook : (sampleResting.core.orderBooks[(1 : SymbolId)]?.map fun book =>
      book.registered.map fun o => (o.orderId, o.userId)) = some [(1, 11)] := by
    unfold sampleResting
    decide +kernel
  obtain ⟨book, order, hbook, horder, hpair⟩ := exists_registered hbook
  have hid : order.orderId = 1 := congrArg Prod.fst hpair
  have huser : order.userId = 11 := congrArg Prod.snd hpair
  have hnone : sampleForgotten.ledger.metadataStore[order.orderId]? = none :=
    Std.ExtTreeMap.getElem?_empty
  have hlockstep : sampleForgotten.InLockstep :=
    (reachable_accounted sampleRuntimeConfig []).lockstep
  have hwithout : sampleResting.Without sampleForgotten order.orderId :=
    ⟨⟨rfl, rfl⟩, hlockstep.not_rests hnone, hnone⟩
  have hrt : sampleResting = ((EngineRuntime.new sampleRuntimeConfig).run
      [samplePlace 1 11 .long 100 10]).2 := by
    unfold sampleResting
    rfl
  have hnew : ¬sampleResting.Knows sampleForeignCancel.parsed := by
    unfold sampleResting
    decide +kernel
  intro heq
  rcases (cancel_conceals_iff sampleRuntimeConfig _ hrt hbook horder ⟨engineInputTopic, 0, 9⟩
    sampleForeignCancel rfl (by rw [hid]; rfl) (by rw [huser]; decide) hwithout).1.1 heq with
      hknows | hunmapped
  · exact hnew hknows
  · exact hunmapped _ rfl

/-- User 12 learns the reservation of an order of user 11, and nothing from an engine without it. -/
theorem cancel_reveals_reservation :
    (sampleResting.core.orderBooks[(1 : SymbolId)]?.map fun book =>
      book.registered.map fun o => (o.orderId, o.userId)) = some [(1, 11)] ∧
    ((resultsOf [(sampleResting.step (.input ⟨engineInputTopic, 0, 9⟩ (.ok sampleForeignCancel)
      .live)).1]).flatMap (·.replies)).map (fun reply => (reply.type, reply.fields.reservationId)) =
        [(.cancelRejected, some (ascii "res-1"))] ∧
    ((resultsOf [((EngineRuntime.new sampleRuntimeConfig).step (.input ⟨engineInputTopic, 0, 9⟩
      (.ok sampleForeignCancel) .live)).1]).flatMap (·.replies)).map (fun reply =>
        (reply.type, reply.fields.reservationId)) = [(.cancelRejected, none)] := by
  unfold sampleResting
  decide +kernel

end PerpexEngine
