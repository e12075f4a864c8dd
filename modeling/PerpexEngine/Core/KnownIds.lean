import PerpexEngine.Core.AccountRuns
import PerpexEngine.Core.CommandRecords

/-! The core knows no ids but those of the commands it was given, and rejects no command as a
duplicate whose ids it does not know. -/
namespace PerpexEngine

/-- Ids that a core may know. -/
structure CoreIds where
  commands : Set CommandId
  orders : Set OrderId
  clients : Set ClientOrderId

namespace CoreIds

/-- The command adds no id to these. -/
def Covers (ids : CoreIds) : EngineCommand → Prop
  | .placeOrder place => place.commandId ∈ ids.commands ∧ place.orderId ∈ ids.orders ∧
      place.clientOrderId ∈ ids.clients
  | .cancelOrder cancel => cancel.commandId ∈ ids.commands
  | .malformed => True

structure Within (ids ids' : CoreIds) : Prop where
  commands : ids.commands ⊆ ids'.commands
  orders : ids.orders ⊆ ids'.orders
  clients : ids.clients ⊆ ids'.clients

end CoreIds

/-- The index and the books have no id but these. -/
structure EngineCore.Knows (queues : EngineCore QueueBook) (ids : CoreIds) : Prop where
  commands : ∀ id, queues.idempotencyIndex.hasCommand id = true → id ∈ ids.commands
  orders : ∀ id, queues.idempotencyIndex.hasOrderId id = true → id ∈ ids.orders
  clients : ∀ id, queues.idempotencyIndex.hasClientOrderId id = true → id ∈ ids.clients
  resting : queues.AllBooks fun q => ∀ r ∈ q.activeOrders,
    r.orderId ∈ ids.orders ∧ r.clientOrderId ∈ ids.clients

section Index
variable (index : IdempotencyIndex)

theorem IdempotencyIndex.hasCommand_recordCommand (summary : CommandResultSummary)
    (id : CommandId) : (index.recordCommand summary).hasCommand id =
      (decide (id = summary.commandId) || index.hasCommand id) := by
  unfold hasCommand recordCommand
  rw [Std.ExtTreeMap.contains_insert, compare_beq_eq]

theorem IdempotencyIndex.hasClientOrderId_recordOrder (orderId : OrderId)
    (clientOrderId id : ClientOrderId) : (index.recordOrder orderId clientOrderId).hasClientOrderId id =
      (decide (id = clientOrderId) || index.hasClientOrderId id) := by
  unfold hasClientOrderId recordOrder
  rw [Std.ExtTreeMap.contains_insert, compare_beq_eq]

end Index

namespace QueueBook
variable {book : QueueBook}

/-- An order that rests after an order was placed is that order, or rested before. -/
theorem ids_processPlace (command : PlaceOrderCommand) (g : SequenceGenerator) {r : OrderSnapshot}
    (hr : r ∈ (book.processPlace command g).2.1.activeOrders) :
    (r.orderId = command.orderId ∧ r.clientOrderId = command.clientOrderId) ∨
      ∃ o ∈ book.activeOrders, o.orderId = r.orderId ∧ o.clientOrderId = r.clientOrderId := by
  rw [QueueBook.processPlace] at hr
  cases hrejection : book.placeRejection command with
  | some reason =>
    rw [hrejection] at hr
    exact Or.inr ⟨r, hr, rfl, rfl⟩
  | none =>
    rw [hrejection] at hr
    have hsub := matchLoop_subset (fun r => (r.orderId, r.clientOrderId)) (fun _ _ => rfl)
      ((ordersOf (book.levels command.side.opposite)).length + 1)
      ⟨book, incomingOrder command g.nextSequence, g.nextEvent⟩
    obtain ⟨remaining, hincoming⟩ := matchLoop_incoming
      ((ordersOf (book.levels command.side.opposite)).length + 1)
      ⟨book, incomingOrder command g.nextSequence, g.nextEvent⟩
    dsimp only at hr
    change ∀ k ∈ (matchIncomingOrder _).2.book.activeOrders.map _, _ at hsub
    change (matchIncomingOrder _).2.incoming = _ at hincoming
    generalize matchIncomingOrder ⟨book, incomingOrder command g.nextSequence, g.nextEvent⟩ = m at *
    obtain ⟨events, t⟩ := m
    dsimp only at *
    have hbefore : ∀ r ∈ t.book.activeOrders, ∃ o ∈ book.activeOrders,
        o.orderId = r.orderId ∧ o.clientOrderId = r.clientOrderId := by
      intro r hr
      obtain ⟨o, ho, heq⟩ := List.mem_map.1 (hsub _ (List.mem_map_of_mem hr))
      exact ⟨o, ho, Prod.mk.inj heq⟩
    split_ifs at hr
    · rcases List.mem_cons.1 ((restOrder_perm _ _).mem_iff.1 hr) with rfl | hr
      · rw [hincoming]
        exact Or.inl ⟨rfl, rfl⟩
      · exact Or.inr (hbefore r hr)
    · exact Or.inr (hbefore r hr)

theorem mem_of_mem_processCancel (hk : book.Keyed) (command : CancelOrderCommand)
    (g : SequenceGenerator) {r : OrderSnapshot}
    (hr : r ∈ (book.processCancel command g).2.1.activeOrders) : r ∈ book.activeOrders := by
  simp only [QueueBook.processCancel] at hr
  cases hfound : (book.lookup (book.cancelTarget command)).filter
      fun o => o.userId = command.userId with
  | none =>
    rw [hfound] at hr
    exact hr
  | some o =>
    rw [hfound] at hr
    obtain ⟨ho, -⟩ := hk.lookup_eq_some.1 (Option.filter_eq_some_iff.1 hfound).1
    exact List.mem_of_mem_filter ((hk.releaseOrder_perm ho).mem_iff.1 hr)

end QueueBook

namespace EngineCore.Knows
variable {queues : EngineCore QueueBook} {ids ids' : CoreIds}

theorem mono (h : queues.Knows ids) (hsub : ids.Within ids') : queues.Knows ids' where
  commands id hid := hsub.commands (h.commands id hid)
  orders id hid := hsub.orders (h.orders id hid)
  clients id hid := hsub.clients (h.clients id hid)
  resting id q hq r hr :=
    ⟨hsub.orders (h.resting id q hq r hr).1, hsub.clients (h.resting id q hq r hr).2⟩

theorem empty : (EngineCore.empty : EngineCore QueueBook).Knows ids where
  commands _ h := by simp [EngineCore.empty, IdempotencyIndex.empty, IdempotencyIndex.hasCommand] at h
  orders _ h := by simp [EngineCore.empty, IdempotencyIndex.empty, IdempotencyIndex.hasOrderId] at h
  clients _ h := by
    simp [EngineCore.empty, IdempotencyIndex.empty, IdempotencyIndex.hasClientOrderId] at h
  resting _ _ h := by simp [EngineCore.empty] at h

theorem addSymbol (h : queues.Knows ids) (config : SymbolConfig) :
    (queues.addSymbol config).Knows ids where
  commands := h.commands
  orders := h.orders
  clients := h.clients
  resting := @BookInvariant.insert QueueBook (fun _ q => ∀ r ∈ q.activeOrders,
    r.orderId ∈ ids.orders ∧ r.clientOrderId ∈ ids.clients) queues.sequenceGenerator _ h.resting _ _
      fun _ hr => by cases hr

theorem restarted (h : queues.Knows ids) : queues.restarted.Knows ids where
  commands := h.commands
  orders := h.orders
  clients := h.clients
  resting id q hq r hr := by
    simp only [EngineCore.restarted, Std.ExtTreeMap.getElem?_map, Option.map_eq_some_iff] at hq
    obtain ⟨q, hq, rfl⟩ := hq
    exact h.resting id q hq r ((QueueBook.reinserted_perm q).mem_iff.1 hr)

/-- The core rejects a command by itself. -/
theorem reject (h : queues.Knows ids) {commandId : CommandId} (hid : commandId ∈ ids.commands)
    (orderId : OrderId) (userId : UserId) (symbolId : SymbolId) (reason : RejectReason)
    (record : Bool) :
    (queues.reject commandId orderId userId symbolId reason record).2.Knows ids := by
  unfold EngineCore.reject
  cases record with
  | false => exact ⟨h.commands, h.orders, h.clients, h.resting⟩
  | true =>
    refine ⟨fun id hknown => ?_, h.orders, h.clients, h.resting⟩
    simp only [↓reduceIte] at hknown
    rw [IdempotencyIndex.hasCommand_recordCommand, Bool.or_eq_true, decide_eq_true_eq] at hknown
    rcases hknown with rfl | hknown
    · exact hid
    · exact h.commands id hknown

/-- A book handles a command. -/
theorem finish (h : queues.Knows ids) {commandId : CommandId} (hid : commandId ∈ ids.commands)
    (symbolId : SymbolId) (orderId : OrderId) (accepted : Bool) {index : IdempotencyIndex}
    (hcommands : index.processedCommandIds = queues.idempotencyIndex.processedCommandIds)
    (horders : ∀ id, index.hasOrderId id = true → id ∈ ids.orders)
    (hclients : ∀ id, index.hasClientOrderId id = true → id ∈ ids.clients)
    {result : List EngineEvent × QueueBook × SequenceGenerator}
    (hresting : ∀ r ∈ result.2.1.activeOrders,
      r.orderId ∈ ids.orders ∧ r.clientOrderId ∈ ids.clients) :
    (queues.finish symbolId commandId orderId accepted index result).2.Knows ids where
  commands id hknown := by
    have hindex : index.hasCommand id = queues.idempotencyIndex.hasCommand id := by
      unfold IdempotencyIndex.hasCommand
      rw [hcommands]
    simp only [EngineCore.finish] at hknown
    rw [IdempotencyIndex.hasCommand_recordCommand, hindex, Bool.or_eq_true,
      decide_eq_true_eq] at hknown
    rcases hknown with rfl | hknown
    · exact hid
    · exact h.commands id hknown
  orders := horders
  clients := hclients
  resting := @BookInvariant.insert QueueBook (fun _ q => ∀ r ∈ q.activeOrders,
    r.orderId ∈ ids.orders ∧ r.clientOrderId ∈ ids.clients) queues.sequenceGenerator _ h.resting _ _
      hresting

/-- A command leaves no ids but its own. -/
theorem process (h : queues.Knows ids) (hok : queues.AllBooks QueueBook.Ok) {command : EngineCommand}
    (hcovers : ids.Covers command) : (queues.process command).2.Knows ids := by
  cases command with
  | malformed => exact ⟨h.commands, h.orders, h.clients, h.resting⟩
  | placeOrder place =>
    obtain ⟨hcommand, horder, hclient⟩ := hcovers
    change (queues.processPlaceOrder place).2.Knows ids
    rcases queues.processPlaceOrder_outcome place with ⟨reason, record, heq⟩ |
      ⟨config, book, -, hbook, -, heq⟩
    · rw [heq]
      exact h.reject hcommand _ _ _ _ _
    · rw [heq]
      refine h.finish hcommand _ _ _ ?_ (fun id hid => ?_) (fun id hid => ?_) fun r hr => ?_
      · unfold EngineCore.placeIndex
        split <;> rfl
      · unfold EngineCore.placeIndex at hid
        split at hid
        · rw [IdempotencyIndex.hasOrderId_recordOrder, Bool.or_eq_true, decide_eq_true_eq] at hid
          rcases hid with rfl | hid
          · exact horder
          · exact h.orders id hid
        · exact h.orders id hid
      · unfold EngineCore.placeIndex at hid
        split at hid
        · rw [IdempotencyIndex.hasClientOrderId_recordOrder, Bool.or_eq_true,
            decide_eq_true_eq] at hid
          rcases hid with rfl | hid
          · exact hclient
          · exact h.clients id hid
        · exact h.clients id hid
      · rcases QueueBook.ids_processPlace place _ hr with ⟨ho, hc⟩ | ⟨o, hmem, ho, hc⟩
        · exact ⟨ho ▸ horder, hc ▸ hclient⟩
        · have hknown := h.resting _ book hbook o hmem
          exact ⟨ho ▸ hknown.1, hc ▸ hknown.2⟩
  | cancelOrder cancel =>
    change (queues.processCancelOrder cancel).2.Knows ids
    rcases queues.processCancelOrder_cases cancel with ⟨reason, record, heq⟩ |
      ⟨config, book, accepted, -, hbook, heq⟩
    · rw [heq]
      exact h.reject hcovers _ _ _ _ _
    · rw [heq]
      refine h.finish hcovers _ _ _ rfl h.orders h.clients fun r hr => ?_
      exact h.resting _ book hbook r
        (QueueBook.mem_of_mem_processCancel (hok _ book hbook).toKeyed cancel _ hr)

end EngineCore.Knows

/-- The event rejects a command, or an order, as one that came before. -/
def EngineEvent.rejectsDuplicate : EngineEvent → Bool
  | .orderRejected e => e.reason = .duplicateCommand || e.reason = .duplicateOrder
  | _ => false

section Unknown
variable {core : EngineCore OrderBook} {queues : EngineCore QueueBook} {ids : CoreIds}
  {place : PlaceOrderCommand}

/-- No id of the order is among these. -/
structure CoreIds.Misses (ids : CoreIds) (place : PlaceOrderCommand) : Prop where
  command : place.commandId ∉ ids.commands
  order : place.orderId ∉ ids.orders
  client : place.clientOrderId ∉ ids.clients

theorem validatePlaceOrder_misses {config : SymbolConfig} {index : IdempotencyIndex}
    {reason : RejectReason} (hcommand : index.hasCommand place.commandId = false)
    (horder : index.hasOrderId place.orderId = false)
    (hclient : index.hasClientOrderId place.clientOrderId = false)
    (h : validatePlaceOrder place config index = some reason) :
    reason ≠ .duplicateCommand ∧ reason ≠ .duplicateOrder := by
  simp only [validatePlaceOrder, hcommand, horder, hclient, Bool.or_self, Bool.false_eq_true,
    ↓reduceIte] at h
  split_ifs at h <;> cases h <;> exact ⟨by decide, by decide⟩

theorem OrderBook.placeRejection_misses {book : OrderBook} {reason : RejectReason}
    (horder : book.hasOrder place.orderId = false)
    (hclient : book.clientOrderIdToOrderId.contains place.clientOrderId = false)
    (h : book.placeRejection place = some reason) :
    reason ≠ .duplicateCommand ∧ reason ≠ .duplicateOrder := by
  simp only [OrderBook.placeRejection, horder, hclient, Bool.or_self, Bool.false_eq_true,
    ↓reduceIte] at h
  split_ifs at h <;> cases h <;> exact ⟨by decide, by decide⟩

theorem rejectsDuplicate_eq_false {e : OrderRejected}
    (h : e.reason ≠ .duplicateCommand ∧ e.reason ≠ .duplicateOrder) :
    (EngineEvent.orderRejected e).rejectsDuplicate = false := by
  unfold EngineEvent.rejectsDuplicate
  rw [Bool.or_eq_false_iff, decide_eq_false_iff_not, decide_eq_false_iff_not]
  exact h

/-- An order with new ids is not rejected as a duplicate. -/
theorem Tracks.not_rejectsDuplicate (htracks : Tracks core queues) (h : queues.Knows ids)
    (hnew : ids.Misses place) :
    ∀ e ∈ (core.process (.placeOrder place)).1, e.rejectsDuplicate = false := by
  have hindex := htracks.rel.idempotencyIndex
  have hcommand : core.idempotencyIndex.hasCommand place.commandId = false := by
    rw [hindex, ← Bool.not_eq_true]
    exact fun hknown => hnew.command (h.commands _ hknown)
  have horder : core.idempotencyIndex.hasOrderId place.orderId = false := by
    rw [hindex, ← Bool.not_eq_true]
    exact fun hknown => hnew.order (h.orders _ hknown)
  have hclient : core.idempotencyIndex.hasClientOrderId place.clientOrderId = false := by
    rw [hindex, ← Bool.not_eq_true]
    exact fun hknown => hnew.client (h.clients _ hknown)
  change ∀ e ∈ (core.processPlaceOrder place).1, _
  unfold EngineCore.processPlaceOrder
  simp only [hcommand, Bool.false_eq_true, ↓reduceIte]
  have hreject : ∀ {reason : RejectReason}, reason ≠ .duplicateCommand ∧ reason ≠ .duplicateOrder →
      ∀ e ∈ (core.reject place.commandId place.orderId place.userId place.symbolId reason true).1,
        e.rejectsDuplicate = false := by
    intro reason hreason e he
    rw [List.mem_singleton.1 he]
    exact rejectsDuplicate_eq_false hreason
  split
  · rename_i config book hconfig hbook
    cases hvalid : validatePlaceOrder place config core.idempotencyIndex with
    | some reason => exact hreject (validatePlaceOrder_misses hcommand horder hclient hvalid)
    | none =>
      change ∀ e ∈ (book.processPlace place core.sequenceGenerator).1, _
      have hrel := htracks.rel.books place.symbolId
      rw [hbook] at hrel
      generalize hq : queues.orderBooks[place.symbolId]? = theirs at hrel
      cases hrel with
      | @some _ q href =>
        have hresting := h.resting _ q hq
        cases hrejection : book.placeRejection place with
        | some reason =>
          have hlookup : q.lookup place.orderId = none := by
            refine QueueBook.lookup_eq_none.2 fun r hr heq => hnew.order ?_
            rw [← heq]
            exact (hresting r hr).1
          have hlookupClient : q.lookupClient place.clientOrderId = none := by
            refine QueueBook.lookupClient_eq_none.2 fun r hr heq => hnew.client ?_
            rw [← heq]
            exact (hresting r hr).2
          have hreason := OrderBook.placeRejection_misses
            (by rw [href.rep.hasOrder, hlookup]; rfl)
            (by rw [href.rep.hasClient, hlookupClient]; rfl) hrejection
          intro e he
          rw [OrderBook.processPlace, hrejection] at he
          rw [List.mem_singleton.1 he]
          exact rejectsDuplicate_eq_false hreason
        | none =>
          obtain ⟨events, hevents⟩ : ∃ events,
            (book.processPlace place core.sequenceGenerator).1 = events := ⟨_, rfl⟩
          have hplaced := book.processPlace_events place core.sequenceGenerator
          have haccepts : hasEventOrderAccepted
              (book.processPlace place core.sequenceGenerator).1 = true := by
            rw [OrderBook.processPlace, hrejection]
            dsimp only
            split <;> rfl
          rw [hevents] at hplaced haccepts ⊢
          intro e he
          cases hplaced with
          | rejected _ _ => cases haccepts
          | accepted _ hfills =>
            rcases List.mem_cons.1 he with rfl | he
            · rfl
            · have hquiet := hfills.noAnswer e he
              cases e <;> first | rfl | cases hquiet
  · exact hreject ⟨by decide, by decide⟩

end Unknown
end PerpexEngine
