import PerpexEngine.Core.PriceTimeRuns

/-! Snapshot and restore: a restored book is the book that rests the active orders once more, in
the order of their ids. -/
namespace PerpexEngine
open LinkedQueue

/-- A resting order has passed the checks of its market. -/
structure Admits (config : SymbolConfig) (r : OrderSnapshot) : Prop where
  trading : config.tradingEnabled = true
  quantity : validateSymbolQuantity r.originalQuantity config = true
  price : validateSymbolPrice r.price config = true

/-- The active orders by increasing id. -/
def byOrderId (orders : List OrderSnapshot) : List OrderSnapshot :=
  orders.insertionSort fun a b => a.orderId ≤ b.orderId

namespace QueueBook
variable {book : QueueBook}

def Admitted (book : QueueBook) : Prop := ∀ r ∈ book.activeOrders, Admits book.symbolConfig r

/-- The active orders rested again on a new book, by increasing id. -/
def reinserted (book : QueueBook) : QueueBook :=
  (byOrderId book.activeOrders).foldl restOrder (.new book.symbolConfig)

theorem symbolConfig_restOrder (book : QueueBook) (x : OrderSnapshot) :
    (book.restOrder x).symbolConfig = book.symbolConfig := by
  rw [restOrder_eq]
  cases x.side <;> rfl

theorem symbolConfig_releaseOrder (book : QueueBook) (x : OrderSnapshot) :
    (book.releaseOrder x).symbolConfig = book.symbolConfig := by
  change (book.setLevels _ _).symbolConfig = _
  cases x.side <;> rfl

theorem placeRejection_admits {command : PlaceOrderCommand}
    (hr : book.placeRejection command = none) (hrest : canRest command = true)
    {r : OrderSnapshot} (hprice : r.price = command.price)
    (hquantity : r.originalQuantity = command.quantity) : Admits book.symbolConfig r := by
  rw [canRest, Bool.and_eq_true] at hrest
  rw [placeRejection] at hr
  split_ifs at hr with _ htrading hlots hticks
  rw [hrest.1, Bool.true_and, Bool.not_eq_true', Bool.not_eq_false] at hticks
  rw [Bool.not_eq_true', Bool.not_eq_false] at htrading hlots
  exact ⟨htrading, by rw [hquantity, hlots], by rw [hprice, hticks]⟩

theorem symbolConfig_processPlace (book : QueueBook) (command : PlaceOrderCommand)
    (g : SequenceGenerator) :
    (book.processPlace command g).2.1.symbolConfig = book.symbolConfig := by
  rw [QueueBook.processPlace]
  cases book.placeRejection command with
  | some reason => rfl
  | none =>
    have hconfig := Refines.matchIncomingOrder_symbolConfig
      ⟨book, incomingOrder command g.nextSequence, g.nextEvent⟩
    dsimp only
    split_ifs
    · rw [symbolConfig_restOrder, hconfig]
    · exact hconfig

theorem symbolConfig_processCancel (book : QueueBook) (command : CancelOrderCommand)
    (g : SequenceGenerator) :
    (book.processCancel command g).2.1.symbolConfig = book.symbolConfig := by
  simp only [QueueBook.processCancel]
  cases (book.lookup (book.cancelTarget command)).filter fun o => o.userId = command.userId with
  | none => rfl
  | some o => exact symbolConfig_releaseOrder book o

theorem Admitted.processPlace (h : book.Admitted) (command : PlaceOrderCommand)
    (g : SequenceGenerator) : (book.processPlace command g).2.1.Admitted := by
  intro r hr'
  rw [symbolConfig_processPlace]
  rw [QueueBook.processPlace] at hr'
  cases hr : book.placeRejection command with
  | some reason =>
    rw [hr] at hr'
    exact h r hr'
  | none =>
    rw [hr] at hr'
    have hsub := matchLoop_subset (fun r => (r.price, r.originalQuantity)) (fun _ _ => rfl)
      ((ordersOf (book.levels command.side.opposite)).length + 1)
      ⟨book, incomingOrder command g.nextSequence, g.nextEvent⟩
    obtain ⟨rem, hinc⟩ := matchLoop_incoming
      ((ordersOf (book.levels command.side.opposite)).length + 1)
      ⟨book, incomingOrder command g.nextSequence, g.nextEvent⟩
    dsimp only at hr'
    change ∀ k ∈ (matchIncomingOrder _).2.book.activeOrders.map _, _ at hsub
    change (matchIncomingOrder _).2.incoming = _ at hinc
    generalize matchIncomingOrder ⟨book, incomingOrder command g.nextSequence, g.nextEvent⟩ = m at *
    obtain ⟨events, t⟩ := m
    dsimp only at *
    have hmatched : ∀ r ∈ t.book.activeOrders, Admits book.symbolConfig r := by
      intro r hr'
      obtain ⟨r', hr'', heq⟩ := List.mem_map.1 (hsub _ (List.mem_map_of_mem hr'))
      obtain ⟨hprice, hquantity⟩ := Prod.mk.inj heq
      have had := h r' hr''
      exact ⟨had.trading, hquantity ▸ had.quantity, hprice ▸ had.price⟩
    split_ifs at hr' with hrest
    · rw [Bool.and_eq_true] at hrest
      rcases List.mem_cons.1 ((restOrder_perm _ _).mem_iff.1 hr') with rfl | hr'
      · refine placeRejection_admits hr hrest.1 rfl ?_
        rw [hinc]
        rfl
      · exact hmatched r hr'
    · exact hmatched r hr'

theorem Admitted.processCancel (h : book.Admitted) (hk : book.Keyed)
    (command : CancelOrderCommand) (g : SequenceGenerator) :
    (book.processCancel command g).2.1.Admitted := by
  intro r hr
  rw [symbolConfig_processCancel]
  simp only [QueueBook.processCancel] at hr
  cases hf : (book.lookup (book.cancelTarget command)).filter
      fun o => o.userId = command.userId with
  | none =>
    rw [hf] at hr
    exact h r hr
  | some o =>
    rw [hf] at hr
    obtain ⟨hx, -⟩ := hk.lookup_eq_some.1 (Option.filter_eq_some_iff.1 hf).1
    exact h r (List.mem_of_mem_filter ((hk.releaseOrder_perm hx).mem_iff.1 hr))

/-- What resting a list of orders adds to a book. -/
theorem foldl_restOrder (xs : List OrderSnapshot) (book : QueueBook) :
    (xs.foldl restOrder book).activeOrders.Perm (book.activeOrders ++ xs) ∧
      (xs.foldl restOrder book).symbolConfig = book.symbolConfig ∧
      (xs.foldl restOrder book).detached = book.detached := by
  induction xs generalizing book with
  | nil => exact ⟨by simp, rfl, rfl⟩
  | cons x xs ih =>
    obtain ⟨hperm, hconfig, hdetached⟩ := ih (book.restOrder x)
    rw [symbolConfig_restOrder] at hconfig
    refine ⟨hperm.trans ?_, hconfig, hdetached.trans ?_⟩
    · exact ((restOrder_perm book x).append_right xs).trans List.perm_middle.symm
    · rw [restOrder_eq]

theorem Totals.foldl_restOrder (xs : List OrderSnapshot) (h : book.Totals) :
    (xs.foldl QueueBook.restOrder book).Totals := by
  induction xs generalizing book with
  | nil => exact h
  | cons x xs ih => exact ih (h.restOrder x)

theorem byOrderId_perm (orders : List OrderSnapshot) : (byOrderId orders).Perm orders :=
  List.perm_insertionSort _ _

theorem reinserted_perm (book : QueueBook) : book.reinserted.activeOrders.Perm book.activeOrders :=
  (foldl_restOrder _ _).1.trans (byOrderId_perm _)

theorem symbolConfig_reinserted (book : QueueBook) :
    book.reinserted.symbolConfig = book.symbolConfig := (foldl_restOrder _ _).2.1

theorem detached_reinserted (book : QueueBook) : book.reinserted.detached = [] :=
  (foldl_restOrder _ _).2.2

theorem Totals.reinserted (book : QueueBook) : book.reinserted.Totals :=
  Totals.foldl_restOrder _ (Totals.new _)

theorem Admitted.reinserted (h : book.Admitted) : book.reinserted.Admitted := by
  intro r hr
  rw [symbolConfig_reinserted]
  exact h r ((reinserted_perm book).mem_iff.1 hr)

end QueueBook

/-- Resting a list of fresh orders on both books. -/
theorem Refines.foldl_restOrder {xs : List OrderSnapshot} {book : OrderBook} {q : QueueBook}
    (h : Refines book q) (hids : ((q.activeOrders ++ xs).map (·.orderId)).Nodup)
    (hclients : ((q.activeOrders ++ xs).map (·.clientOrderId)).Nodup)
    (hpos : ∀ x ∈ xs, 0 < x.remainingQuantity.lots)
    (halign : ∀ x ∈ xs, Aligned q.symbolConfig.tickSize.ticks x.price) :
    Refines (xs.foldl OrderBook.restOrder book) (xs.foldl QueueBook.restOrder q) := by
  induction xs generalizing book q with
  | nil => exact h
  | cons x xs ih =>
    have hfresh : ∀ {key : OrderSnapshot → ℕ}, ((q.activeOrders ++ x :: xs).map key).Nodup →
        ∀ r ∈ q.activeOrders, key r ≠ key x := by
      intro key hnodup r hr
      rw [List.map_append, List.nodup_append] at hnodup
      exact hnodup.2.2 _ (List.mem_map_of_mem hr) _ (List.mem_map_of_mem List.mem_cons_self)
    have hperm : ((q.restOrder x).activeOrders ++ xs).Perm (q.activeOrders ++ x :: xs) :=
      ((QueueBook.restOrder_perm q x).append_right xs).trans List.perm_middle.symm
    have halignx := halign x List.mem_cons_self
    rw [h.rep.config] at halignx
    have hrep := (h.rep.restOrder halignx (hfresh hids) (hfresh hclients)).1
    have hok := h.ok.restOrder (hpos x List.mem_cons_self) (hfresh hids) (hfresh hclients)
    refine ih ⟨hrep, hok⟩ (((hperm.map _).nodup_iff).2 hids) (((hperm.map _).nodup_iff).2 hclients)
      (fun y hy => hpos y (List.mem_cons_of_mem _ hy)) fun y hy => ?_
    rw [QueueBook.symbolConfig_restOrder]
    exact halign y (List.mem_cons_of_mem _ hy)

theorem byOrderId_ranked {orders : List OrderSnapshot} (h : (orders.map (·.orderId)).Nodup) :
    Ranked (fun r : OrderSnapshot => r.orderId) (byOrderId orders) :=
  Ranked.insertionSort (List.pairwise_map.1 h)

/-- The orders behind the ids of a book. -/
def OrderBook.registered (book : OrderBook) : List OrderSnapshot :=
  book.orderById.toList.filterMap fun entry => (book.orders.read entry.2).map (·.toOrderSnapshot)

namespace BookRep
variable {book : OrderBook} {q : QueueBook}

theorem registered_perm (h : BookRep book q) (hq : q.Keyed) :
    book.registered.Perm q.activeOrders := by
  have hentry : ∀ {id p r}, (id, p) ∈ book.orderById.toList →
      (book.orders.read p).map (·.toOrderSnapshot) = some r →
        recordOf book.orders p = some r ∧ r.orderId = id := by
    intro id p r hid hr
    obtain ⟨o, ho, rfl⟩ := Option.map_eq_some_iff.1 hr
    obtain ⟨r, hr, rfl⟩ := (h.byId id p).1 (Std.ExtTreeMap.mem_toList_iff_getElem?_eq_some.1 hid)
    rw [recordOf_eq ho] at hr
    cases hr
    exact ⟨recordOf_eq ho, rfl⟩
  refine (List.perm_ext_iff_of_nodup ?_ (List.Nodup.of_map _ hq.ids)).2 fun r => ?_
  · refine List.pairwise_filterMap.2 (List.Pairwise.imp_of_mem ?_
      Std.ExtTreeMap.distinct_keys_toList)
    rintro ⟨id, p⟩ ⟨id', p'⟩ hm hm' hne r hr r' hr' rfl
    have hid := (hentry hm hr).2
    have hid' := (hentry hm' hr').2
    exact hne (Std.LawfulEqCmp.compare_eq_iff_eq.2 (hid.symm.trans hid'))
  · rw [OrderBook.registered, List.mem_filterMap, h.records]
    constructor
    · rintro ⟨⟨id, p⟩, hm, hr⟩
      exact ⟨p, (hentry hm hr).1⟩
    · rintro ⟨p, hp⟩
      obtain ⟨o, ho, rfl⟩ := recordOf_eq_some.1 hp
      refine ⟨(o.orderId, p), ?_, by rw [ho]; rfl⟩
      exact Std.ExtTreeMap.mem_toList_iff_getElem?_eq_some.2 ((h.byId _ p).2 ⟨_, hp, rfl⟩)

/-- The snapshot saves the active orders by increasing id. -/
theorem snapshot_activeOrders (h : BookRep book q) (hq : q.Keyed) (symbolId : SymbolId) :
    (EngineCore.bookSnapshot symbolId book).activeOrders = byOrderId q.activeOrders := by
  have hperm := h.registered_perm hq
  refine Ranked.ext (byOrderId_ranked ((hperm.map _).nodup_iff.2 hq.ids))
    (byOrderId_ranked hq.ids) fun r => ?_
  change r ∈ byOrderId book.registered ↔ _
  rw [(QueueBook.byOrderId_perm _).mem_iff, (QueueBook.byOrderId_perm _).mem_iff, hperm.mem_iff]

/-- Another client index with the same content serves as well. -/
theorem setClients (h : BookRep book q) {index : Std.ExtTreeMap ClientOrderId OrderId}
    (hindex : ∀ c id, index[c]? = some id ↔
      ∃ r ∈ q.activeOrders, r.clientOrderId = c ∧ r.orderId = id) :
    BookRep { book with clientOrderIdToOrderId := index } q where
  config := h.config
  sides := h.sides
  side_eq := h.side_eq
  tick_eq := h.tick_eq
  records := h.records
  attached := h.attached
  byId := h.byId
  byClient c id := by
    rw [hindex]
    constructor
    · rintro ⟨r, hr, hrest⟩
      obtain ⟨p, hp⟩ := (h.records r).1 hr
      exact ⟨p, r, hp, hrest⟩
    · rintro ⟨p, r, hp, hrest⟩
      exact ⟨r, (h.records r).2 ⟨p, hp⟩, hrest⟩

theorem clients_iff (h : BookRep book q) (c : ClientOrderId) (id : OrderId) :
    book.clientOrderIdToOrderId[c]? = some id ↔
      ∃ r ∈ q.activeOrders, r.clientOrderId = c ∧ r.orderId = id := by
  rw [h.byClient]
  constructor
  · rintro ⟨p, r, hp, hrest⟩
    exact ⟨r, (h.records r).2 ⟨p, hp⟩, hrest⟩
  · rintro ⟨r, hr, hrest⟩
    obtain ⟨p, hp⟩ := (h.records r).1 hr
    exact ⟨p, r, hp, hrest⟩

end BookRep

namespace Refines
variable {book : OrderBook} {q : QueueBook}

/-- A restored book represents the reinserted queues. -/
theorem restoreBook (h : Refines book q) (ha : q.Admitted) (symbolId : SymbolId) :
    Refines (EngineCore.restoreBook (EngineCore.bookSnapshot symbolId book)) q.reinserted := by
  have hsorted := h.rep.snapshot_activeOrders h.ok.toKeyed symbolId
  have hperm := QueueBook.byOrderId_perm q.activeOrders
  have hnil : ∀ xs : List OrderSnapshot,
      (QueueBook.new q.symbolConfig).activeOrders ++ xs = xs := fun _ => rfl
  have hrested : Refines ((byOrderId q.activeOrders).foldl OrderBook.restOrder
      (.new q.symbolConfig)) q.reinserted := by
    refine (Refines.new q.symbolConfig).foldl_restOrder ?_ ?_ (fun x hx => ?_) fun x hx => ?_
    · rw [hnil]
      exact (hperm.map _).nodup_iff.2 h.ok.ids
    · rw [hnil]
      exact (hperm.map _).nodup_iff.2 h.ok.clients
    · exact h.ok.positive x (hperm.mem_iff.1 hx)
    · exact validateSymbolPrice_aligned (ha x (hperm.mem_iff.1 hx)).price
  rw [h.rep.config, ← hsorted] at hrested
  refine ⟨hrested.rep.setClients fun c id => ?_, hrested.ok⟩
  change book.clientOrderIdToOrderId[c]? = some id ↔ _
  rw [h.rep.clients_iff]
  simp only [(QueueBook.reinserted_perm q).mem_iff]

end Refines

namespace EngineCore

/-- What the restore loop leaves behind for symbols that come only once. -/
theorem foldl_restoreSymbol {xs : List OrderBookSnapshot} (hxs : (xs.map (·.symbolId)).Nodup)
    (core : EngineCore OrderBook) (hfresh : ∀ s ∈ xs, core.orderBooks[s.symbolId]? = none) :
    (∀ id : SymbolId, (xs.foldl restoreSymbol core).orderBooks[id]? =
      ((xs.find? fun s => s.symbolId = id).map restoreBook).or core.orderBooks[id]?) ∧
    (∀ id : SymbolId, (xs.foldl restoreSymbol core).symbolConfigs[id]? =
      ((xs.find? fun s => s.symbolId = id).map (·.symbolConfig)).or core.symbolConfigs[id]?) ∧
    (xs.foldl restoreSymbol core).sequenceGenerator = core.sequenceGenerator ∧
    (xs.foldl restoreSymbol core).idempotencyIndex = core.idempotencyIndex := by
  induction xs generalizing core with
  | nil => exact ⟨fun id => rfl, fun id => rfl, rfl, rfl⟩
  | cons s xs ih =>
    obtain ⟨hs, hxs⟩ := List.nodup_cons.1 hxs
    have hne : ∀ s' ∈ xs, s'.symbolId ≠ s.symbolId := fun s' hs' heq =>
      hs (List.mem_map.2 ⟨s', hs', heq⟩)
    have hnone : xs.find? (fun s' => decide (s'.symbolId = s.symbolId)) = none := by
      simpa using hne
    have hinsert : ∀ id : SymbolId, (core.restoreSymbol s).orderBooks[id]? =
        if s.symbolId = id then some (restoreBook s) else core.orderBooks[id]? := by
      intro id
      have hnew := hfresh s List.mem_cons_self
      rw [restoreSymbol, Std.ExtTreeMap.getElem?_insertIfNew]
      simp only [Std.LawfulEqCmp.compare_eq_iff_eq]
      have hmem : s.symbolId ∉ core.orderBooks := by
        rw [Std.ExtTreeMap.mem_iff_isSome_getElem?, hnew]
        decide
      simp [hmem]
    obtain ⟨hbooks, hconfigs, hgen, hindex⟩ := ih hxs (core.restoreSymbol s) fun s' hs' => by
      rw [hinsert, if_neg (hne s' hs').symm]
      exact hfresh s' (List.mem_cons_of_mem _ hs')
    refine ⟨fun id => ?_, fun id => ?_, hgen, hindex⟩
    · rw [List.foldl_cons, hbooks, hinsert, List.find?_cons]
      by_cases hid : s.symbolId = id
      · subst hid
        simp [hnone]
      · simp [hid]
    · rw [List.foldl_cons, hconfigs, restoreSymbol, Std.ExtTreeMap.getElem?_insert,
        List.find?_cons]
      simp only [Std.LawfulEqCmp.compare_eq_iff_eq]
      by_cases hid : s.symbolId = id
      · subst hid
        simp [hnone]
      · simp [hid]

/-- A restored core has every book restored, and the rest as it was saved. -/
theorem restore_snapshot (core : EngineCore OrderBook) :
    (∀ id : SymbolId, (restore core.snapshot).orderBooks[id]? =
      core.orderBooks[id]?.map fun book => restoreBook (bookSnapshot id book)) ∧
    (∀ id : SymbolId, (restore core.snapshot).symbolConfigs[id]? =
      core.orderBooks[id]?.map (·.symbolConfig)) ∧
    (restore core.snapshot).sequenceGenerator = core.sequenceGenerator ∧
    (restore core.snapshot).idempotencyIndex = core.idempotencyIndex := by
  have hperm : core.snapshot.symbolSnapshots.Perm
      (core.orderBooks.toList.map fun entry => bookSnapshot entry.1 entry.2) :=
    List.perm_insertionSort _ _
  have hnodup : (core.snapshot.symbolSnapshots.map (·.symbolId)).Nodup := by
    rw [(hperm.map _).nodup_iff, List.map_map]
    refine List.pairwise_map.2 (Std.ExtTreeMap.distinct_keys_toList.imp fun hne heq => ?_)
    exact hne (Std.LawfulEqCmp.compare_eq_iff_eq.2 heq)
  have hfind : ∀ id : SymbolId, core.snapshot.symbolSnapshots.find? (fun s => s.symbolId = id) =
      core.orderBooks[id]?.map (bookSnapshot id) := by
    intro id
    ext s
    rw [find?_key hnodup, hperm.mem_iff, List.mem_map, Option.map_eq_some_iff]
    constructor
    · rintro ⟨⟨⟨id', book⟩, hm, rfl⟩, rfl⟩
      exact ⟨book, Std.ExtTreeMap.mem_toList_iff_getElem?_eq_some.1 hm, rfl⟩
    · rintro ⟨book, hbook, rfl⟩
      exact ⟨⟨(id, book), Std.ExtTreeMap.mem_toList_iff_getElem?_eq_some.2 hbook, rfl⟩, rfl⟩
  obtain ⟨hbooks, hconfigs, hgen, hindex⟩ := foldl_restoreSymbol hnodup
    ⟨∅, ∅, core.snapshot.sequenceState, core.snapshot.idempotencyState⟩ fun s _ => by simp
  refine ⟨fun id => ?_, fun id => ?_, hgen, hindex⟩
  · refine (hbooks id).trans ?_
    rw [hfind, Option.map_map]
    simp only [Std.ExtTreeMap.getElem?_empty, Option.or_none]
    rfl
  · refine (hconfigs id).trans ?_
    rw [hfind, Option.map_map]
    simp only [Std.ExtTreeMap.getElem?_empty, Option.or_none]
    rfl

end EngineCore

end PerpexEngine
