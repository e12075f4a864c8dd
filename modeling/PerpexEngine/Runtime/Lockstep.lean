import PerpexEngine.Runtime.BookHoldings
import PerpexEngine.Runtime.RuntimeRuns

/-! The core and the metadata store in lock step: every resting order has its entry, and every entry
belongs to an order that the core has recorded. -/
namespace PerpexEngine
open Program

/-- The reserved margin that is left is within what was reserved. -/
structure OrderMetadata.MarginSound (metadata : OrderMetadata) : Prop where
  original : 0 < metadata.originalQuantity
  nonneg : 0 ≤ metadata.reservedMarginAmount → 0 ≤ metadata.remainingReservedMargin
  reserved : 0 < metadata.reservedMarginAmount →
    metadata.remainingReservedMargin ≤ metadata.reservedMarginAmount

theorem OrderMetadata.MarginSound.allocate {metadata : OrderMetadata} (h : metadata.MarginSound)
    {lots : ℤ} (hlots : 0 ≤ lots) (price : ℤ) :
    (allocateFillMargin metadata lots price).MarginSound where
  original := h.original
  nonneg _ := by
    change 0 ≤ if allocatedMargin metadata lots price < metadata.remainingReservedMargin
      then metadata.remainingReservedMargin - allocatedMargin metadata lots price else 0
    split_ifs with hless
    · exact sub_nonneg.2 hless.le
    · exact le_refl _
  reserved hreserved := by
    have hreserved : 0 < metadata.reservedMarginAmount := hreserved
    have hleft : 0 ≤ metadata.remainingReservedMargin := h.nonneg hreserved.le
    have hmost := h.reserved hreserved
    have hallocated : 0 ≤ allocatedMargin metadata lots price := by
      have hshare : 0 ≤ (metadata.reservedMarginAmount * lots).tdiv metadata.originalQuantity :=
        Int.tdiv_nonneg (mul_nonneg hreserved.le hlots) h.original.le
      unfold allocatedMargin
      rw [if_pos ⟨hreserved, h.original⟩]
      split_ifs
      · exact le_min hleft hleft
      · exact le_min hshare hleft
    change (if allocatedMargin metadata lots price < metadata.remainingReservedMargin
      then metadata.remainingReservedMargin - allocatedMargin metadata lots price else 0) ≤
        metadata.reservedMarginAmount
    split_ifs <;> omega

namespace Holdings
variable {h : Holdings}

/-- Trades of other orders leave an entry alone. -/
theorem store_settle {id : OrderId} (events : List EngineEvent)
    (h' : ∀ t ∈ tradesOf events, t.makerOrderId ≠ id ∧ t.takerOrderId ≠ id) :
    (h.settle events).store[id]? = h.store[id]? := by
  have hfillStore : ∀ (h : Holdings) (orderId : OrderId) (lots price : ℤ), orderId ≠ id →
      (h.fill orderId lots price).store[id]? = h.store[id]? := by
    intro h orderId lots price hne
    have hinsert : ∀ m, (h.store.insert orderId m)[id]? = h.store[id]? := fun m => by
      rw [Std.ExtTreeMap.getElem?_insert, if_neg fun heq => hne
        (Std.LawfulEqCmp.compare_eq_iff_eq.1 heq)]
    unfold Holdings.fill Holdings.put
    split
    · rfl
    · dsimp only
      split
      · split
        · rfl
        · exact hinsert _
      · exact hinsert _
  induction events generalizing h with
  | nil => rfl
  | cons e events ih =>
    rw [settle_cons]
    cases e with
    | tradeExecuted t =>
      obtain ⟨hmaker, htaker⟩ := h' t List.mem_cons_self
      rw [ih fun u hu => h' u (List.mem_cons_of_mem _ hu)]
      exact (hfillStore _ _ _ _ htaker).trans (hfillStore _ _ _ _ hmaker)
    | _ => exact ih h'

end Holdings

/-- The books and the store say the same of every resting order. -/
structure Lockstep (queues : EngineCore QueueBook) (store : OrderMetadataStore) : Prop where
  ok : queues.AllBooks QueueBook.Ok
  symbols : ∀ (id : SymbolId) q, queues.orderBooks[id]? = some q → q.symbolConfig.symbolId = id
  described : ∀ (id : SymbolId) q, queues.orderBooks[id]? = some q → ∀ r ∈ q.activeOrders,
    ∃ m, store[r.orderId]? = some m ∧ m.Describes id 0 r
  filed : ∀ (id : OrderId) m, store[id]? = some m → m.orderId = id ∧ 0 < m.marketId ∧
    m.MarginSound ∧ queues.idempotencyIndex.hasOrderId id = true

/-- The core accepted an order: what that did to its book and to the holdings. -/
structure Accepts (queues : EngineCore QueueBook) (place : PlaceOrderCommand) (slack : ℤ)
    (side : AdapterSide) (key : PositionRiskKey) (hold : Holdings) (book book' : QueueBook)
    (ts : List (Transfer PositionRiskKey)) : Prop where
  before : queues.orderBooks[place.symbolId]? = some book
  fresh : queues.idempotencyIndex.hasOrderId place.orderId = false
  books : ∀ id : SymbolId, (queues.process (.placeOrder place)).2.orderBooks[id]? =
    if id = place.symbolId then some book' else queues.orderBooks[id]?
  index : ∀ id, (queues.process (.placeOrder place)).2.idempotencyIndex.hasOrderId id =
    (decide (id = place.orderId) || queues.idempotencyIndex.hasOrderId id)
  placed : QueueBook.PlacedOn place.symbolId slack side key place book book'
    (queues.process (.placeOrder place)).1 hold ts
  ok : (queues.process (.placeOrder place)).2.AllBooks QueueBook.Ok
  symbol : book'.symbolConfig.symbolId = place.symbolId

namespace Lockstep
variable {queues : EngineCore QueueBook} {store : OrderMetadataStore}

theorem keys_eq (h : Lockstep queues store) {s t : SymbolId} {p q : QueueBook}
    (hp : queues.orderBooks[s]? = some p) (hq : queues.orderBooks[t]? = some q)
    {r r' : OrderSnapshot} (hr : r ∈ p.activeOrders) (hr' : r' ∈ q.activeOrders)
    (heq : r.orderId = r'.orderId) : s = t := by
  obtain ⟨m, hm, hdescribes⟩ := h.described s p hp r hr
  obtain ⟨m', hm', hdescribes'⟩ := h.described t q hq r' hr'
  rw [heq, hm'] at hm
  cases hm
  exact Int.ofNat_inj.1 (hdescribes.market.symm.trans hdescribes'.market)

theorem recorded (h : Lockstep queues store) {id : SymbolId} {q : QueueBook}
    (hq : queues.orderBooks[id]? = some q) {r : OrderSnapshot} (hr : r ∈ q.activeOrders) :
    queues.idempotencyIndex.hasOrderId r.orderId = true := by
  obtain ⟨m, hm, -⟩ := h.described id q hq r hr
  exact (h.filed _ m hm).2.2.2

/-- Same books and recorded ids. -/
theorem quiet (h : Lockstep queues store) {queues' : EngineCore QueueBook}
    (hbooks : ∀ id : SymbolId, queues'.orderBooks[id]? = queues.orderBooks[id]?)
    (hindex : ∀ id, queues'.idempotencyIndex.hasOrderId id =
      queues.idempotencyIndex.hasOrderId id) : Lockstep queues' store where
  ok id q hq := h.ok id q (hbooks id ▸ hq)
  symbols id q hq := h.symbols id q (hbooks id ▸ hq)
  described id q hq := h.described id q (hbooks id ▸ hq)
  filed id m hm := by
    rw [hindex]
    exact h.filed id m hm

/-- Placing an order: the core rejects it, or takes it in. -/
theorem place {hold : Holdings} (h : Lockstep queues hold.store) {place : PlaceOrderCommand}
    (hpositive : 0 < place.symbolId) {slack : ℤ} (hslack : 0 ≤ slack) {side : AdapterSide}
    {key : PositionRiskKey} (hpending : ∃ p, hold.pending = some p ∧
      (∀ n, p.Describes place.symbolId slack (incomingOrder place n)) ∧ p.side = side ∧
        p.key = key) :
    (∃ e, (queues.process (.placeOrder place)).1 = [.orderRejected e] ∧
      (∀ id : SymbolId, (queues.process (.placeOrder place)).2.orderBooks[id]? =
        queues.orderBooks[id]?) ∧
      Lockstep (queues.process (.placeOrder place)).2 hold.store) ∨
    ∃ book book' ts, Accepts queues place slack side key hold book book' ts := by
  have hprocess : queues.process (.placeOrder place) = queues.processPlaceOrder place := rfl
  rcases queues.processPlaceOrder_outcome place with ⟨reason, record, heq⟩ |
    ⟨config, book, -, hbook, hvalid, heq⟩
  · left
    rw [hprocess, heq]
    refine ⟨_, rfl, fun _ => rfl, h.quiet (fun _ => rfl) fun id => ?_⟩
    unfold EngineCore.reject
    cases record <;> rfl
  · have hok := h.ok _ book hbook
    have hsymbol := h.symbols _ book hbook
    obtain ⟨p, hp, hdescribes, hside, hkey⟩ := hpending
    have hlookup : ∀ id : SymbolId, (queues.processPlaceOrder place).2.orderBooks[id]? =
        if id = place.symbolId then
          some (book.processPlace place queues.sequenceGenerator).2.1
        else queues.orderBooks[id]? := by
      intro id
      rw [heq]
      unfold EngineCore.finish
      dsimp only
      rw [Std.ExtTreeMap.getElem?_insert]
      exact if_congr (Std.LawfulEqCmp.compare_eq_iff_eq.trans eq_comm) rfl rfl
    have hevents : (queues.processPlaceOrder place).1 =
        (book.processPlace place queues.sequenceGenerator).1 := by
      rw [heq]
      rfl
    rcases QueueBook.placedOn_processPlace hok hsymbol hpositive hslack
      (h.described _ book hbook) rfl ⟨p, hp, hdescribes queues.sequenceGenerator.nextSequence,
        hside, hkey⟩ with ⟨e, hrejected, hsame⟩ | ⟨ts, hplaced⟩
    · left
      have hbooks : ∀ id : SymbolId, (queues.process (.placeOrder place)).2.orderBooks[id]? =
          queues.orderBooks[id]? := by
        intro id
        rw [hprocess, hlookup, hsame]
        split_ifs with hid
        · rw [hid, hbook]
        · rfl
      refine ⟨e, hevents.trans hrejected, hbooks, h.quiet hbooks fun id => ?_⟩
      · have hindex : queues.placeIndex place (MatchingBook.processPlace book place
            queues.sequenceGenerator).1 = queues.idempotencyIndex := by
          unfold EngineCore.placeIndex
          have hnot : hasEventOrderAccepted (MatchingBook.processPlace book place
              queues.sequenceGenerator).1 = false := by
            change hasEventOrderAccepted (book.processPlace place queues.sequenceGenerator).1 = _
            rw [hrejected]
            rfl
          rw [hnot]
          rfl
        rw [hprocess, heq, hindex]
        rfl
    · right
      refine ⟨book, _, ts, hbook, validatePlaceOrder_fresh hvalid, hlookup, fun id => ?_,
        hevents ▸ hplaced, fun id q hq => ?_, ?_⟩
      · have hindex : queues.placeIndex place (MatchingBook.processPlace book place
            queues.sequenceGenerator).1 =
              queues.idempotencyIndex.recordOrder place.orderId place.clientOrderId := by
          unfold EngineCore.placeIndex
          exact if_pos hplaced.accepted
        rw [hprocess, heq, hindex]
        exact queues.idempotencyIndex.hasOrderId_recordOrder _ place.clientOrderId id
      · rw [hprocess, hlookup] at hq
        split_ifs at hq
        · cases hq
          exact hok.processPlace place queues.sequenceGenerator
        · exact h.ok id q hq
      · rw [QueueBook.symbolConfig_processPlace]
        exact hsymbol

/-- Cancelling an order: the core rejects it, or takes one order out. -/
theorem cancel (h : Lockstep queues store) (command : CancelOrderCommand) :
    (∃ e, (queues.process (.cancelOrder command)).1 = [.orderRejected e] ∧
      Lockstep (queues.process (.cancelOrder command)).2 store) ∨
    ∃ c d, (queues.process (.cancelOrder command)).1 = [.orderCancelled c, .orderBookDelta d] ∧
      d.symbolId = command.symbolId ∧
      Lockstep (queues.process (.cancelOrder command)).2 (store.erase c.orderId) := by
  have hprocess : queues.process (.cancelOrder command) = queues.processCancelOrder command := rfl
  rcases queues.processCancelOrder_cases command with ⟨reason, record, heq⟩ |
    ⟨config, book, accepted, -, hbook, heq⟩
  · left
    rw [hprocess, heq]
    refine ⟨_, rfl, h.quiet (fun _ => rfl) fun id => ?_⟩
    unfold EngineCore.reject
    cases record <;> rfl
  · have hok := h.ok _ book hbook
    have hlookup : ∀ id : SymbolId, (queues.processCancelOrder command).2.orderBooks[id]? =
        if id = command.symbolId then
          some (book.processCancel command queues.sequenceGenerator).2.1
        else queues.orderBooks[id]? := by
      intro id
      rw [heq]
      unfold EngineCore.finish
      dsimp only
      rw [Std.ExtTreeMap.getElem?_insert]
      exact if_congr (Std.LawfulEqCmp.compare_eq_iff_eq.trans eq_comm) rfl rfl
    have hevents : (queues.processCancelOrder command).1 =
        (book.processCancel command queues.sequenceGenerator).1 := by
      rw [heq]
      rfl
    have hindex : (queues.processCancelOrder command).2.idempotencyIndex.orderIds =
        queues.idempotencyIndex.orderIds := by
      rw [heq]
      rfl
    have hrecorded : ∀ id, (queues.processCancelOrder command).2.idempotencyIndex.hasOrderId id =
        queues.idempotencyIndex.hasOrderId id := by
      intro id
      unfold IdempotencyIndex.hasOrderId
      rw [hindex]
    rw [hprocess]
    rcases QueueBook.processCancel_released hok command queues.sequenceGenerator with
      ⟨e, hrejected, hsame⟩ | ⟨o, ho, c, d, hid, hcancelled, hsymbol, hperm⟩
    · left
      refine ⟨e, hevents.trans hrejected, h.quiet (fun id => ?_) hrecorded⟩
      rw [hlookup, hsame]
      split_ifs with hid
      · rw [hid, hbook]
      · rfl
    · right
      refine ⟨c, d, hevents.trans hcancelled, hsymbol.trans (h.symbols _ book hbook),
        fun id q hq => ?_, fun id q hq => ?_, fun id q hq r hr => ?_, fun id m hm => ?_⟩
      · rw [hlookup] at hq
        split_ifs at hq
        · cases hq
          exact hok.processCancel command queues.sequenceGenerator
        · exact h.ok id q hq
      · rw [hlookup] at hq
        split_ifs at hq with hsym
        · cases hq
          rw [QueueBook.symbolConfig_processCancel, hsym]
          exact h.symbols _ book hbook
        · exact h.symbols id q hq
      · rw [hlookup] at hq
        have hkept : ∀ r : OrderSnapshot, r.orderId ≠ c.orderId →
            (store.erase c.orderId)[r.orderId]? = store[r.orderId]? := by
          intro r hne
          rw [Std.ExtTreeMap.getElem?_erase, if_neg fun heq => hne
            (Std.LawfulEqCmp.compare_eq_iff_eq.1 heq).symm]
        split_ifs at hq with hsym
        · cases hq
          obtain ⟨hmem, hne⟩ := List.mem_filter.1 (hperm.mem_iff.1 hr)
          rw [hkept r fun heq => of_decide_eq_true hne (heq.trans hid), hsym]
          exact h.described _ book hbook r hmem
        · rw [hkept r fun heq => hsym (h.keys_eq hq hbook hr ho (heq.trans hid))]
          exact h.described id q hq r hr
      · rw [Std.ExtTreeMap.getElem?_erase] at hm
        split_ifs at hm
        rw [hrecorded]
        exact h.filed id m hm

end Lockstep

/-- The store after an accepted order, once its own entry is in place and the closed ones are out. -/
theorem Accepts.lockstep {queues : EngineCore QueueBook} {place : PlaceOrderCommand} {slack : ℤ}
    {side : AdapterSide} {key : PositionRiskKey} {hold : Holdings} {book book' : QueueBook}
    {ts : List (Transfer PositionRiskKey)}
    (ha : Accepts queues place slack side key hold book book' ts) (h : Lockstep queues hold.store)
    {store : OrderMetadataStore}
    (hkept : ∀ id : OrderId, id ≠ place.orderId →
      id ∉ closedIds (queues.process (.placeOrder place)).1 →
        store[id]? = (hold.settle (queues.process (.placeOrder place)).1).store[id]?)
    (hplaced : canRest place = true →
      place.orderId ∉ closedIds (queues.process (.placeOrder place)).1 → slack = 0 ∧
        store[place.orderId]? = (hold.settle (queues.process (.placeOrder place)).1).pending)
    (hfiled : ∀ (id : OrderId) m, store[id]? = some m →
      (hold.settle (queues.process (.placeOrder place)).1).store[id]? = some m ∨
        id = place.orderId ∧
          (hold.settle (queues.process (.placeOrder place)).1).pending = some m)
    (hpending : ∀ m ∈ hold.pending, 0 < m.marketId ∧ m.MarginSound) :
    Lockstep (queues.process (.placeOrder place)).2 store := by
  obtain ⟨p, hp, hpid, -, hdescribes⟩ := ha.placed.pending
  have hcontinues := Holdings.continues_settle hold (queues.process (.placeOrder place)).1
  have hevery := @Holdings.Every.settle hold (fun m => 0 < m.marketId ∧ m.MarginSound)
    (fun m lots price hm => ⟨hm.1, hm.2.allocate (Int.natCast_nonneg lots) price⟩)
    ⟨fun id m hm => ⟨(h.filed id m hm).2.1, (h.filed id m hm).2.2.1⟩, hpending⟩
    (queues.process (.placeOrder place)).1
  refine ⟨ha.ok, fun id q hq => ?_, fun id q hq r hr => ?_, fun id m hm => ?_⟩
  · rw [ha.books] at hq
    split_ifs at hq with hid
    · cases hq
      exact ha.symbol.trans hid.symm
    · exact h.symbols id q hq
  · rw [ha.books] at hq
    split_ifs at hq with hid
    · cases hq
      have hopen := ha.placed.closed r hr
      by_cases hown : r.orderId = place.orderId
      · obtain ⟨rfl, hstored⟩ := hplaced (ha.placed.rests r hr hown) (hown ▸ hopen)
        rw [hown, hstored, hid]
        exact ⟨p, hp, hdescribes r hr hown⟩
      · rw [hkept _ hown hopen, hid]
        exact ha.placed.others r hr hown
    · -- an order of another book is neither the placed one nor one of this book
      have helsewhere : ∀ o ∈ book.activeOrders, r.orderId ≠ o.orderId :=
        fun o ho heq => hid (h.keys_eq hq ha.before hr ho heq)
      have hown : r.orderId ≠ place.orderId := by
        intro heq
        have hrecorded := h.recorded hq hr
        rw [heq, ha.fresh] at hrecorded
        cases hrecorded
      have hnot : r.orderId ∉ book.activeOrders.map (·.orderId) := by
        intro hmem
        obtain ⟨o, ho, heq⟩ := List.mem_map.1 hmem
        exact helsewhere o ho heq.symm
      have hopen : r.orderId ∉ closedIds (queues.process (.placeOrder place)).1 :=
        fun hmem => (ha.placed.closing _ hmem).elim hown hnot
      rw [hkept _ hown hopen, Holdings.store_settle _ fun t ht => ?_]
      · exact h.described id q hq r hr
      · obtain ⟨hmaker, htaker⟩ := ha.placed.parties t ht
        exact ⟨fun heq => hnot (heq ▸ hmaker), fun heq => hown (heq.symm.trans htaker)⟩
  · rw [ha.index, Bool.or_eq_true, decide_eq_true_eq]
    rcases hfiled id m hm with hfound | ⟨rfl, hfound⟩
    · have hrel := hcontinues.store id
      rw [hfound] at hrel
      generalize hbefore : hold.store[id]? = before at hrel
      cases hrel with
      | some hc =>
        rename_i m'
        obtain ⟨hid, -, -, hrecorded⟩ := h.filed id m' hbefore
        unfold OrderMetadata.Continues at hc
        refine ⟨?_, (hevery.store id m hfound).1, (hevery.store id m hfound).2, Or.inr hrecorded⟩
        rw [hc]
        exact hid
    · rw [hp] at hfound
      cases hfound
      exact ⟨hpid, (hevery.pending p hp).1, (hevery.pending p hp).2, Or.inl rfl⟩

end PerpexEngine
