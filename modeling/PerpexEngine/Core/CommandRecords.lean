import PerpexEngine.Core.CommandEvents
import PerpexEngine.Core.CoreRuns

/-! Every command is settled once: rejected without a trace in the books, or accepted, and in both
cases recorded as its events say, under an id that no later command can use again. -/
namespace PerpexEngine

namespace EngineEvent

/-- The event accepts a place or a cancel command. -/
def accepts : EngineEvent → Bool
  | .orderAccepted _ => true
  | .orderCancelled _ => true
  | _ => false

def rejectReason : EngineEvent → Option RejectReason
  | .orderRejected e => some e.reason
  | _ => none

/-- The order id of an answer, none for zero. -/
def answeredOrderId : EngineEvent → Option OrderId
  | .orderAccepted e => optionalOrderId e.orderId
  | .orderRejected e => e.orderId
  | .orderCancelled e => optionalOrderId e.orderId
  | _ => none

end EngineEvent

namespace EngineCommand

def commandId : EngineCommand → Option CommandId
  | .placeOrder place => some place.commandId
  | .cancelOrder cancel => some cancel.commandId
  | .malformed => none

/-- The order id that a command carries, zero for none. -/
def orderId : EngineCommand → OrderId
  | .placeOrder place => place.orderId
  | .cancelOrder cancel => cancel.orderId
  | .malformed => 0

/-- A cancel command without an order id, whose client order id is registered in its book. -/
def ByClientId (command : EngineCommand) (core : EngineCore OrderBook) : Prop :=
  ∃ cancel book, command = .cancelOrder cancel ∧ cancel.orderId = 0 ∧
    core.orderBooks[cancel.symbolId]? = some book ∧
    book.clientOrderIdToOrderId.contains cancel.clientOrderId = true

end EngineCommand

/-- The record repeats what the answer says. -/
structure CommandResultSummary.Tells (record : CommandResultSummary) (answer : EngineEvent) :
    Prop where
  accepted : record.accepted = answer.accepts
  rejectReason : record.rejectReason = answer.rejectReason
  sequence : record.sequence = answer.sequence

/-- Books and accepted ids are as before. -/
structure EngineCore.Untouched (core after : EngineCore OrderBook) : Prop where
  books : after.orderBooks = core.orderBooks
  orderIds : after.idempotencyIndex.orderIds = core.idempotencyIndex.orderIds
  clientOrderIds : after.idempotencyIndex.clientOrderIdToOrderId =
    core.idempotencyIndex.clientOrderIdToOrderId

/-- How a command with an id is settled. -/
structure EngineCore.Settles (core : EngineCore OrderBook) (command : EngineCommand) (id : CommandId)
    (answer : EngineEvent) (rest : List EngineEvent) (after : EngineCore OrderBook) : Prop where
  answered : answer.accepts = true ∨
    rest = [] ∧ (∃ e, answer = .orderRejected e) ∧ core.Untouched after
  recorded : core.idempotencyIndex.hasCommand id = false →
    ∃ record, after.idempotencyIndex.processedCommandIds[id]? = some record ∧
      record.commandId = id ∧ record.Tells answer ∧
      record.orderId = optionalOrderId command.orderId ∧
      (¬command.ByClientId core → record.orderId = answer.answeredOrderId)
  repeated : core.idempotencyIndex.hasCommand id = true →
    answer.rejectReason = some .duplicateCommand ∧
      after.idempotencyIndex = core.idempotencyIndex
  kept : ∀ other ≠ id, after.idempotencyIndex.processedCommandIds[other]? =
    core.idempotencyIndex.processedCommandIds[other]?

theorem IdempotencyIndex.hasCommand_iff {index : IdempotencyIndex} {id : CommandId} :
    index.hasCommand id = true ↔ ∃ record, index.processedCommandIds[id]? = some record := by
  rw [hasCommand, ← Option.isSome_iff_exists, Std.ExtTreeMap.contains_eq_isSome_getElem?]

/-- The first event answers the command, and the summary of all of them tells what it says. -/
structure Answered (events : List EngineEvent) (accepted : Bool) (orderId : Option OrderId)
    (answer : EngineEvent) (rest : List EngineEvent) : Prop where
  split : events = answer :: rest
  kind : answer.accepts = true ∨ accepted = false ∧ rest = [] ∧ ∃ e, answer = .orderRejected e
  orderId : answer.answeredOrderId = orderId
  tells : ∀ commandId carried,
    (commandSummary commandId accepted carried (rejectedReason events) events).Tells answer

namespace OrderBook

theorem answered_processPlace (book : OrderBook) (command : PlaceOrderCommand)
    (g : SequenceGenerator) : ∃ answer rest, Answered (book.processPlace command g).1
      (hasEventOrderAccepted (book.processPlace command g).1) (optionalOrderId command.orderId)
        answer rest ∧
      (answer.accepts = false → (book.processPlace command g).2.1 = book) := by
  have hevents := book.processPlace_events command g
  cases hrejection : book.placeRejection command with
  | some reason =>
    rw [processPlace, hrejection]
    exact ⟨_, _, ⟨rfl, Or.inr ⟨rfl, rfl, _, rfl⟩, rfl, fun _ _ => ⟨rfl, rfl, rfl⟩⟩, fun _ => rfl⟩
  | none =>
    have hsplit : ∃ rest, (book.processPlace command g).1 = acceptedEvent command g :: rest := by
      rw [processPlace, hrejection]
      dsimp only
      split
      · exact ⟨_, rfl⟩
      · exact ⟨_, rfl⟩
    obtain ⟨rest, hrest⟩ := hsplit
    rw [hrest] at hevents ⊢
    refine ⟨_, _, ⟨rfl, Or.inl rfl, rfl, fun _ _ => ⟨rfl, ?_, rfl⟩⟩, Bool.noConfusion⟩
    cases hevents with
    | accepted e hfills =>
      change rejectedReason rest = none
      unfold rejectedReason
      rw [List.findSome?_eq_none_iff]
      intro event hevent
      have hquiet := hfills.noAnswer event hevent
      cases event <;> first | rfl | cases hquiet

theorem answered_processCancel (book : OrderBook) (command : CancelOrderCommand)
    (g : SequenceGenerator) : ∃ answer rest, Answered (book.processCancel command g).1
      (hasEventOrderCancelled (book.processCancel command g).1)
        (optionalOrderId (book.cancelTarget command)) answer rest ∧
      (answer.accepts = false → (book.processCancel command g).2.1 = book) := by
  unfold processCancel cancelExistingOrder
  dsimp only
  split
  · split
    · exact ⟨_, _, ⟨rfl, Or.inr ⟨rfl, rfl, _, rfl⟩, rfl, fun _ _ => ⟨rfl, rfl, rfl⟩⟩, fun _ => rfl⟩
    · exact ⟨_, _, ⟨rfl, Or.inl rfl, rfl, fun _ _ => ⟨rfl, rfl, rfl⟩⟩, Bool.noConfusion⟩
  · exact ⟨_, _, ⟨rfl, Or.inr ⟨rfl, rfl, _, rfl⟩, rfl, fun _ _ => ⟨rfl, rfl, rfl⟩⟩, fun _ => rfl⟩

/-- Without a client id to resolve, the cancelled id is the one the command carries. -/
theorem cancelTarget_eq {book : OrderBook} {command : CancelOrderCommand}
    (h : command.orderId = 0 → book.clientOrderIdToOrderId.contains command.clientOrderId = false) :
    book.cancelTarget command = command.orderId := by
  unfold cancelTarget
  split
  · rename_i hzero
    have hnone := h hzero
    rw [Std.ExtTreeMap.contains_eq_isSome_getElem?, Option.isSome_eq_false_iff,
      Option.isNone_iff_eq_none] at hnone
    rw [hnone, hzero]
    rfl
  · rfl

end OrderBook

namespace EngineCore
variable {core : EngineCore OrderBook}

theorem orderBooks_insert_same {books : Std.ExtTreeMap SymbolId OrderBook} {id : SymbolId}
    {book : OrderBook} (h : books[id]? = some book) : books.insert id book = books := by
  apply Std.ExtTreeMap.ext_getElem?
  intro other
  rw [Std.ExtTreeMap.getElem?_insert]
  split
  · rename_i heq
    rw [← Std.LawfulEqCmp.compare_eq_iff_eq.1 heq, h]
  · rfl

/-- A rejection by the core itself. -/
theorem settles_reject (command : EngineCommand) (id : CommandId) (userId : UserId)
    (symbolId : SymbolId) (reason : RejectReason)
    (hreason : core.idempotencyIndex.hasCommand id = true → reason = .duplicateCommand)
    (record : Bool) (hrecord : record = !core.idempotencyIndex.hasCommand id) :
    ∃ answer, (core.reject id command.orderId userId symbolId reason record).1 = [answer] ∧
      core.Settles command id answer []
        (core.reject id command.orderId userId symbolId reason record).2 := by
  subst hrecord
  unfold reject
  refine ⟨_, rfl, ⟨Or.inr ⟨rfl, ⟨_, rfl⟩, ?_⟩, fun hnew => ?_, fun hold => ?_, fun other hother => ?_⟩⟩
  · cases core.idempotencyIndex.hasCommand id <;> exact ⟨rfl, rfl, rfl⟩
  · simp only [hnew, Bool.not_false, ↓reduceIte, IdempotencyIndex.recordCommand]
    exact ⟨_, Std.ExtTreeMap.getElem?_insert_self, rfl, ⟨rfl, rfl, rfl⟩, rfl, fun _ => rfl⟩
  · simp only [hold, Bool.not_true, Bool.false_eq_true, ↓reduceIte, and_true]
    exact congrArg some (hreason hold)
  · cases core.idempotencyIndex.hasCommand id with
    | true => rfl
    | false =>
      simp only [Bool.not_false, ↓reduceIte, IdempotencyIndex.recordCommand]
      rw [Std.ExtTreeMap.getElem?_insert]
      exact if_neg fun heq => hother (Std.LawfulEqCmp.compare_eq_iff_eq.1 heq).symm

/-- A command that its book has handled. -/
theorem settles_finish {command : EngineCommand} {id : CommandId} {symbolId : SymbolId}
    {book : OrderBook} {result : List EngineEvent × OrderBook × SequenceGenerator}
    {answer : EngineEvent} {rest : List EngineEvent} {accepted : Bool} {index : IdempotencyIndex}
    {answered : Option OrderId}
    (hbook : core.orderBooks[symbolId]? = some book)
    (hnew : core.idempotencyIndex.hasCommand id = false)
    (h : Answered result.1 accepted answered answer rest)
    (hsame : answer.accepts = false → result.2.1 = book)
    (hindex : index.processedCommandIds = core.idempotencyIndex.processedCommandIds)
    (hrejected : accepted = false → index = core.idempotencyIndex)
    (hanswered : ¬command.ByClientId core → answered = optionalOrderId command.orderId) :
    (core.finish symbolId id command.orderId accepted index result).1 = answer :: rest ∧
      core.Settles command id answer rest
        (core.finish symbolId id command.orderId accepted index result).2 := by
  obtain ⟨events, book', g⟩ := result
  unfold finish
  refine ⟨h.split, ⟨?_, fun _ => ?_, fun hold => ?_, fun other hother => ?_⟩⟩
  · rcases h.kind with haccepts | ⟨hnot, hrest, e, he⟩
    · exact Or.inl haccepts
    · refine Or.inr ⟨hrest, ⟨e, he⟩, ?_⟩
      have hbook' : book' = book := hsame (by rw [he]; rfl)
      subst hbook'
      rw [hrejected hnot]
      exact ⟨orderBooks_insert_same hbook, rfl, rfl⟩
  · exact ⟨_, Std.ExtTreeMap.getElem?_insert_self, rfl, h.tells id _, rfl,
      fun hnamed => (hanswered hnamed).symm.trans h.orderId.symm⟩
  · rw [hnew] at hold
    cases hold
  · simp only [IdempotencyIndex.recordCommand]
    rw [Std.ExtTreeMap.getElem?_insert, hindex]
    exact if_neg fun heq => hother (Std.LawfulEqCmp.compare_eq_iff_eq.1 heq).symm

/-- Every command with an id is settled. -/
theorem process_settles (core : EngineCore OrderBook) {command : EngineCommand} {id : CommandId}
    (hid : command.commandId = some id) : ∃ answer rest,
      (core.process command).1 = answer :: rest ∧
        core.Settles command id answer rest (core.process command).2 := by
  have hreject : ∀ userId symbolId reason record,
      core.process command = core.reject id command.orderId userId symbolId reason record →
      (core.idempotencyIndex.hasCommand id = true → reason = .duplicateCommand) →
      (record = !core.idempotencyIndex.hasCommand id) → ∃ answer rest,
        (core.process command).1 = answer :: rest ∧
          core.Settles command id answer rest (core.process command).2 := by
    intro userId symbolId reason record heq hreason hrecord
    obtain ⟨answer, hevents, hsettles⟩ :=
      core.settles_reject command id userId symbolId reason hreason record hrecord
    rw [heq]
    exact ⟨answer, [], hevents, hsettles⟩
  cases hseen : core.idempotencyIndex.hasCommand id with
  | true =>
    cases command with
    | malformed => cases hid
    | placeOrder place =>
      cases hid
      exact hreject _ _ _ _ (by rw [process, processPlaceOrder]; exact if_pos hseen)
        (fun _ => rfl) (by rw [hseen]; rfl)
    | cancelOrder cancel =>
      cases hid
      exact hreject _ _ _ _ (by rw [process, processCancelOrder]; exact if_pos hseen)
        (fun _ => rfl) (by rw [hseen]; rfl)
  | false =>
    have hnever : ∀ reason : RejectReason,
        core.idempotencyIndex.hasCommand id = true → reason = .duplicateCommand := by
      intro reason hold
      rw [hseen] at hold
      cases hold
    cases command with
    | malformed => cases hid
    | placeOrder place =>
      cases hid
      obtain ⟨result, hresult⟩ : ∃ result, core.process (.placeOrder place) = result := ⟨_, rfl⟩
      have hprocess := hresult
      rw [process, processPlaceOrder] at hprocess
      simp only [hseen, Bool.false_eq_true, ↓reduceIte] at hprocess
      split at hprocess
      · rename_i config book hconfig hbook
        split at hprocess
        · exact hreject _ _ _ _ (hresult.trans hprocess.symm) (hnever _) (by rw [hseen]; rfl)
        · obtain ⟨answer, rest, hanswered, hsame⟩ :=
            book.answered_processPlace place core.sequenceGenerator
          rw [hresult, ← hprocess]
          refine ⟨answer, rest, settles_finish hbook hseen hanswered hsame ?_ ?_ fun _ => rfl⟩
          · split <;> rfl
          · intro hnot
            exact if_neg (Bool.eq_false_iff.1 hnot)
      · exact hreject _ _ _ _ (hresult.trans hprocess.symm) (hnever _) (by rw [hseen]; rfl)
    | cancelOrder cancel =>
      cases hid
      obtain ⟨result, hresult⟩ : ∃ result, core.process (.cancelOrder cancel) = result := ⟨_, rfl⟩
      have hprocess := hresult
      rw [process, processCancelOrder] at hprocess
      simp only [hseen, Bool.false_eq_true, ↓reduceIte] at hprocess
      split at hprocess
      · rename_i config book hconfig hbook
        obtain ⟨answer, rest, hanswered, hsame⟩ :=
          book.answered_processCancel cancel core.sequenceGenerator
        rw [hresult, ← hprocess]
        refine ⟨answer, rest, settles_finish hbook hseen hanswered hsame rfl (fun _ => rfl) ?_⟩
        intro hnamed
        rw [OrderBook.cancelTarget_eq fun hzero => ?_]
        · rfl
        · rw [← Bool.not_eq_true]
          exact fun hcontains => hnamed ⟨cancel, book, rfl, hzero, hbook, hcontains⟩
      · exact hreject _ _ _ _ (hresult.trans hprocess.symm) (hnever _) (by rw [hseen]; rfl)

/-- No later step forgets or rewrites a record. -/
theorem record_kept {core : EngineCore OrderBook} {id : CommandId} {record : CommandResultSummary}
    (h : core.idempotencyIndex.processedCommandIds[id]? = some record) (steps : List CoreStep) :
    (steps.foldl step core).idempotencyIndex.processedCommandIds[id]? = some record := by
  induction steps generalizing core with
  | nil => exact h
  | cons s steps ih =>
    apply ih
    cases s with
    | addSymbol config => exact h
    | restart =>
      obtain ⟨-, -, -, hindex⟩ := core.restore_snapshot
      change (restore core.snapshot).idempotencyIndex.processedCommandIds[id]? = some record
      rw [hindex]
      exact h
    | process command =>
      change (core.process command).2.idempotencyIndex.processedCommandIds[id]? = some record
      cases hid : command.commandId with
      | none =>
        cases command with
        | malformed => exact h
        | placeOrder place => cases hid
        | cancelOrder cancel => cases hid
      | some other =>
        obtain ⟨answer, rest, -, hsettles⟩ := core.process_settles hid
        by_cases hsame : other = id
        · subst hsame
          rw [(hsettles.repeated (IdempotencyIndex.hasCommand_iff.2 ⟨record, h⟩)).2]
          exact h
        · rw [hsettles.kept id fun heq => hsame heq.symm]
          exact h

end EngineCore

/-- Every command is rejected without a trace or accepted, recorded as its answer says, and its id
is used up for all time. -/
theorem commands_settled_once (core : EngineCore OrderBook) {command : EngineCommand}
    {id : CommandId} (hid : command.commandId = some id) :
    ∃ answer rest, (core.process command).1 = answer :: rest ∧
      core.Settles command id answer rest (core.process command).2 ∧
      ∀ (later : List CoreStep) (again : EngineCommand), again.commandId = some id →
        ∃ e : OrderRejected, e.reason = .duplicateCommand ∧
          ((later.foldl EngineCore.step (core.process command).2).process again).1 =
            [.orderRejected e] ∧
          ((later.foldl EngineCore.step (core.process command).2).process again).2.orderBooks =
            (later.foldl EngineCore.step (core.process command).2).orderBooks ∧
          ((later ++ [CoreStep.process again]).foldl EngineCore.step
            (core.process command).2).idempotencyIndex.processedCommandIds[id]? =
              (core.process command).2.idempotencyIndex.processedCommandIds[id]? := by
  obtain ⟨answer, rest, hevents, hsettles⟩ := core.process_settles hid
  refine ⟨answer, rest, hevents, hsettles, fun later again hagain => ?_⟩
  have hrecord : ∃ record, (core.process command).2.idempotencyIndex.processedCommandIds[id]? =
      some record := by
    cases hseen : core.idempotencyIndex.hasCommand id with
    | false =>
      obtain ⟨record, hrecord, -⟩ := hsettles.recorded hseen
      exact ⟨record, hrecord⟩
    | true =>
      rw [(hsettles.repeated hseen).2]
      exact IdempotencyIndex.hasCommand_iff.1 hseen
  obtain ⟨record, hrecord⟩ := hrecord
  have hkept := EngineCore.record_kept hrecord later
  obtain ⟨answer', rest', hevents', hsettles'⟩ :=
    (later.foldl EngineCore.step (core.process command).2).process_settles hagain
  obtain ⟨hduplicate, -⟩ := hsettles'.repeated (IdempotencyIndex.hasCommand_iff.2 ⟨record, hkept⟩)
  rcases hsettles'.answered with haccepts | ⟨hrest', ⟨e, he⟩, huntouched⟩
  · cases answer' <;> first | cases hduplicate | cases haccepts
  · subst he hrest'
    refine ⟨e, Option.some.inj hduplicate, hevents', huntouched.books, ?_⟩
    rw [hrecord]
    exact EngineCore.record_kept hrecord _

/-- Cancels order 1 of the sample book by its client order id. -/
def sampleCancelByClientId : EngineCommand := .cancelOrder ⟨9, 7, 1, 0, 1, 0⟩

theorem commands_settled_once_sample : ∃ answer rest,
    ((sampleCore 4).process sampleCancelByClientId).1 = answer :: rest ∧
      (sampleCore 4).Settles sampleCancelByClientId 9 answer rest
        ((sampleCore 4).process sampleCancelByClientId).2 := by
  obtain ⟨answer, rest, hevents, hsettles, -⟩ :=
    @commands_settled_once (sampleCore 4) sampleCancelByClientId 9 rfl
  exact ⟨answer, rest, hevents, hsettles⟩

/-- The events name the order, the record does not. -/
theorem cancel_by_client_id_recorded_without_id :
    Reachable (EngineCore.AllBooks OrderBook.TotalsFit) (sampleCore 4) ∧
      ∃ answer rest record, ((sampleCore 4).process sampleCancelByClientId).1 = answer :: rest ∧
        ((sampleCore 4).process sampleCancelByClientId).2.idempotencyIndex.processedCommandIds[9]? =
          some record ∧ answer.accepts = true ∧ answer.answeredOrderId = some 1 ∧
          record.orderId = none := by
  have hanswer : (((sampleCore 4).process sampleCancelByClientId).1.head?.map fun answer =>
      (answer.accepts, answer.answeredOrderId)) = some (true, some 1) := by decide +kernel
  have hrecord : (((sampleCore 4).process sampleCancelByClientId).2.idempotencyIndex.processedCommandIds[9]?.map
      (·.orderId)) = some none := by decide +kernel
  obtain ⟨record, hrecorded, hid⟩ := Option.map_eq_some_iff.1 hrecord
  obtain ⟨answer, hhead, hsays⟩ := Option.map_eq_some_iff.1 hanswer
  obtain ⟨rest, hrest⟩ := List.head?_eq_some_iff.1 hhead
  obtain ⟨haccepts, hanswered⟩ := Prod.mk.inj hsays
  exact ⟨sampleCore_reachable, answer, rest, record, hrest, hrecorded, haccepts, hanswered, hid⟩

end PerpexEngine
