import PerpexEngine.Core.CoreRuns

/-! What a restart loses: the orders of a level come back in the order of their ids, so a restored
core behaves as the saved one exactly when its levels already stood in that order. -/
namespace PerpexEngine
open LinkedQueue

section Levels
variable {side : Side} {levels levels' : List LevelQueue} {x : OrderSnapshot}

/-- Inserting an order adds no rank but its own. -/
theorem mem_insertOrder {y : LevelQueue} (h : y ∈ insertOrder side x levels) :
    side.rank y.price = side.rank x.price ∨ ∃ l ∈ levels, y.price = l.price := by
  induction levels with
  | nil =>
    rw [insertOrder, List.mem_singleton] at h
    exact Or.inl (by rw [h])
  | cons l levels ih =>
    rw [insertOrder] at h
    split_ifs at h
    · rcases List.mem_cons.1 h with rfl | h
      · exact Or.inl rfl
      · exact Or.inr ⟨y, h, rfl⟩
    · rcases List.mem_cons.1 h with rfl | h
      · exact Or.inr ⟨l, List.mem_cons_self, rfl⟩
      · exact Or.inr ⟨y, List.mem_cons_of_mem _ h, rfl⟩
    · rcases List.mem_cons.1 h with rfl | h
      · exact Or.inr ⟨y, List.mem_cons_self, rfl⟩
      · rcases ih h with h | ⟨l', hl', h⟩
        · exact Or.inl h
        · exact Or.inr ⟨l', List.mem_cons_of_mem _ hl', h⟩

theorem SortedLevels.cons {l : LevelQueue} (h : SortedLevels side levels)
    (hl : ∀ y ∈ levels, side.rank l.price < side.rank y.price) (hne : l.orders ≠ [])
    (hprices : ∀ o ∈ l.orders, o.price = l.price) : SortedLevels side (l :: levels) := by
  refine ⟨List.pairwise_cons.2 ⟨hl, h.ranked⟩, fun a ha => ?_, fun a ha => ?_⟩
  · rcases List.mem_cons.1 ha with rfl | ha
    · exact hne
    · exact h.nonempty a ha
  · rcases List.mem_cons.1 ha with rfl | ha
    · exact hprices
    · exact h.prices a ha

theorem SortedLevels.insertOrder (h : SortedLevels side levels) (x : OrderSnapshot) :
    SortedLevels side (insertOrder side x levels) := by
  have hown : ∀ o ∈ [x], o.price = x.price := fun o ho => by rw [List.mem_singleton.1 ho]
  induction levels with
  | nil => exact h.cons (by simp) (by simp) hown
  | cons l levels ih =>
    have hl := h.prices l List.mem_cons_self
    rw [PerpexEngine.insertOrder]
    split_ifs with hlt heq
    · refine h.cons (fun y hy => ?_) (by simp) hown
      rcases List.mem_cons.1 hy with rfl | hy
      · exact hlt
      · exact hlt.trans (h.ranked.head_lt hy)
    · refine h.tail.cons (fun y hy => h.ranked.head_lt hy) (by simp) fun o ho => ?_
      rcases List.mem_append.1 ho with ho | ho
      · exact hl o ho
      · rw [List.mem_singleton.1 ho]
        exact side.rank_inj.1 heq
    · refine (ih h.tail).cons (fun y hy => ?_) (h.nonempty l List.mem_cons_self) hl
      rcases mem_insertOrder hy with hy | ⟨l', hl', hy⟩
      · rw [hy]
        omega
      · rw [hy]
        exact h.ranked.head_lt hl'

theorem SortedLevels.settleFront {l : LevelQueue} (h : SortedLevels side levels)
    (hl : ∀ y ∈ levels, side.rank l.price < side.rank y.price)
    (hprices : ∀ o ∈ l.orders, o.price = l.price) :
    SortedLevels side (settleFront l levels).1 := by
  rw [PerpexEngine.settleFront]
  split_ifs with hdone
  · exact h
  · refine h.cons hl ?_ hprices
    rw [Bool.or_eq_true, not_or, List.isEmpty_iff] at hdone
    exact hdone.1

theorem SortedLevels.takeOrder (h : SortedLevels side levels) (x : OrderSnapshot) :
    SortedLevels side (takeOrder x levels).1 := by
  induction levels with
  | nil => exact h
  | cons l levels ih =>
    rw [PerpexEngine.takeOrder]
    split_ifs
    · exact h.tail.settleFront (fun y hy => h.ranked.head_lt hy) fun o ho =>
        h.prices l List.mem_cons_self o (List.mem_of_mem_filter ho)
    · refine (ih h.tail).cons (fun y hy => ?_) (h.nonempty l List.mem_cons_self)
        (h.prices l List.mem_cons_self)
      rcases QueueBook.mem_takeOrder hy with hy | ⟨l', hl', -, rfl, -⟩
      · exact h.ranked.head_lt hy
      · have hlt := h.ranked.head_lt hl'
        exact hlt

/-- Sorted levels with right totals are determined by their orders from front to back. -/
theorem SortedLevels.ext (h : SortedLevels side levels) (h' : SortedLevels side levels')
    (ht : ∀ l ∈ levels, l.totalQuantity.lots = lotsOf l.orders % 2 ^ 64)
    (ht' : ∀ l ∈ levels', l.totalQuantity.lots = lotsOf l.orders % 2 ^ 64)
    (heq : ordersOf levels = ordersOf levels') : levels = levels' := by
  have hfront : ∀ {l : LevelQueue} {rest : List LevelQueue}, SortedLevels side (l :: rest) →
      (ordersOf (l :: rest)).takeWhile (fun r => r.price = l.price) = l.orders := by
    intro l rest hs
    have hl := hs.prices l List.mem_cons_self
    rw [ordersOf_cons, List.takeWhile_append_of_pos fun r hr => decide_eq_true (hl r hr)]
    cases hrest : ordersOf rest with
    | nil => simp
    | cons r rs =>
      have hlt := hs.rank_lt (r := r) (by rw [hrest]; exact List.mem_cons_self)
      rw [List.takeWhile_cons_of_neg, List.append_nil]
      intro hp
      rw [of_decide_eq_true hp] at hlt
      exact lt_irrefl _ hlt
  induction levels generalizing levels' with
  | nil =>
    cases levels' with
    | nil => rfl
    | cons l' levels' =>
      rw [ordersOf_nil, ordersOf_cons, eq_comm, List.append_eq_nil_iff] at heq
      exact absurd heq.1 (h'.nonempty l' List.mem_cons_self)
  | cons l levels ih =>
    cases levels' with
    | nil =>
      rw [ordersOf_nil, ordersOf_cons, List.append_eq_nil_iff] at heq
      exact absurd heq.1 (h.nonempty l List.mem_cons_self)
    | cons l' levels' =>
      obtain ⟨r, rs, hr⟩ := List.exists_cons_of_ne_nil (h.nonempty l List.mem_cons_self)
      obtain ⟨r', rs', hr'⟩ := List.exists_cons_of_ne_nil (h'.nonempty l' List.mem_cons_self)
      have hrr : r = r' := by
        rw [ordersOf_cons, ordersOf_cons, hr, hr'] at heq
        exact (List.cons.inj heq).1
      have hprice : l.price = l'.price := by
        rw [← h.prices l List.mem_cons_self r (by rw [hr]; exact List.mem_cons_self),
          ← h'.prices l' List.mem_cons_self r' (by rw [hr']; exact List.mem_cons_self), hrr]
      have horders : l.orders = l'.orders := by
        rw [← hfront h, ← hfront h', heq, hprice]
      have htotal : l.totalQuantity = l'.totalQuantity := by
        ext
        rw [ht l List.mem_cons_self, ht' l' List.mem_cons_self, horders]
      have hll : l = l' := by
        obtain ⟨p, q, os⟩ := l
        obtain ⟨p', q', os'⟩ := l'
        cases hprice
        cases htotal
        cases horders
        rfl
      rw [ordersOf_cons, ordersOf_cons, horders] at heq
      rw [hll, ih h.tail h'.tail (fun a ha => ht a (List.mem_cons_of_mem _ ha))
        (fun a ha => ht' a (List.mem_cons_of_mem _ ha)) (List.append_cancel_left heq)]

/-- Levels in id order, read from front to back, stand by price and id. -/
theorem SortedLevels.pairwise_before (h : SortedLevels side levels)
    (hids : ∀ l ∈ levels, l.orders.Pairwise fun a b => a.orderId < b.orderId) :
    (ordersOf levels).Pairwise (Before (·.orderId) side) := by
  induction levels with
  | nil => exact .nil
  | cons l levels ih =>
    have hl := h.prices l List.mem_cons_self
    rw [ordersOf_cons, List.pairwise_append]
    refine ⟨?_, ih h.tail fun a ha => hids a (List.mem_cons_of_mem _ ha), fun a ha b hb => ?_⟩
    · refine List.Pairwise.imp_of_mem ?_ (hids l List.mem_cons_self)
      intro a b ha hb hab
      exact Or.inr ⟨(hl a ha).trans (hl b hb).symm, hab⟩
    · refine Or.inl ?_
      rw [hl a ha]
      exact h.rank_lt hb

theorem before_antisymm {stamp : OrderSnapshot → ℕ} {a b : OrderSnapshot}
    (hab : Before stamp side a b) (hba : Before stamp side b a) : a = b := by
  rcases hab with hab | ⟨hprice, hab⟩ <;> rcases hba with hba | ⟨hprice', hba⟩
  · omega
  · rw [hprice'] at hab
    exact absurd hab (lt_irrefl _)
  · rw [hprice] at hba
    exact absurd hba (lt_irrefl _)
  · omega

end Levels

namespace QueueBook
variable {book : QueueBook} {side : Side}

theorem Sorted.restOrder (h : book.Sorted) (x : OrderSnapshot) : (book.restOrder x).Sorted := by
  have hall : ∀ s, SortedLevels s ((book.restOrder x).levels s) := by
    refine forall_side x.side ?_ ?_
    · rw [QueueBook.restOrder, levels_setLevels_self]
      exact (h.sortedLevels _).insertOrder x
    · rw [QueueBook.restOrder, levels_setLevels_opposite]
      exact h.sortedLevels _
  exact ⟨fun s => (hall s).ranked, fun s => (hall s).nonempty, fun s => (hall s).prices⟩

theorem Sorted.releaseOrder (h : book.Sorted) (x : OrderSnapshot) :
    (book.releaseOrder x).Sorted := by
  have hall : ∀ s, SortedLevels s ((book.releaseOrder x).levels s) := by
    refine forall_side x.side ?_ ?_
    · have hself : (book.releaseOrder x).levels x.side = (takeOrder x (book.levels x.side)).1 := by
        rw [QueueBook.releaseOrder]
        cases x.side <;> rfl
      rw [hself]
      exact (h.sortedLevels _).takeOrder x
    · have hother : (book.releaseOrder x).levels x.side.opposite =
          book.levels x.side.opposite := by
        rw [QueueBook.releaseOrder]
        cases x.side <;> rfl
      rw [hother]
      exact h.sortedLevels _
  exact ⟨fun s => (hall s).ranked, fun s => (hall s).nonempty, fun s => (hall s).prices⟩

theorem Sorted.new (config : SymbolConfig) : (QueueBook.new config).Sorted :=
  (BookRep.new config).sorted

/-- Resting orders by increasing id puts every side in price and id order. -/
theorem foldl_restOrder_before {xs : List OrderSnapshot} (h : book.Sorted)
    (hbefore : ∀ s, (ordersOf (book.levels s)).Pairwise (Before (·.orderId) s))
    (hxs : xs.Pairwise fun a b => a.orderId < b.orderId)
    (hlt : ∀ r ∈ book.activeOrders, ∀ x ∈ xs, r.orderId < x.orderId) :
    (xs.foldl QueueBook.restOrder book).Sorted ∧
      ∀ s, (ordersOf ((xs.foldl QueueBook.restOrder book).levels s)).Pairwise
        (Before (·.orderId) s) := by
  induction xs generalizing book with
  | nil => exact ⟨h, hbefore⟩
  | cons x xs ih =>
    obtain ⟨hx, hxs⟩ := List.pairwise_cons.1 hxs
    refine ih (h.restOrder x) ?_ hxs fun r hr y hy => ?_
    · refine forall_side x.side ?_ ?_
      · rw [QueueBook.restOrder, levels_setLevels_self, ordersOf_insertOrder (h.sortedLevels _)]
        refine pairwise_before_insert (hbefore _) fun r hr => ?_
        exact hlt r ((mem_activeOrders x.side).2 (Or.inl hr)) x List.mem_cons_self
      · rw [QueueBook.restOrder, levels_setLevels_opposite]
        exact hbefore _
    · rcases List.mem_cons.1 ((restOrder_perm book x).mem_iff.1 hr) with rfl | hr
      · exact hx y hy
      · exact hlt r hr y (List.mem_cons_of_mem _ hy)

theorem reinserted_before (h : book.Keyed) : book.reinserted.Sorted ∧
    ∀ s, (ordersOf (book.reinserted.levels s)).Pairwise (Before (·.orderId) s) := by
  refine foldl_restOrder_before (Sorted.new _) (fun s => ?_) (byOrderId_ranked h.ids) ?_
  · cases s <;> exact .nil
  · intro r hr
    cases hr

/-- Where no order is detached, the orders of a side are the active orders of that side. -/
theorem ordersOf_levels_perm (h : book.Keyed) (hd : book.detached = []) (side : Side) :
    (ordersOf (book.levels side)).Perm
      (book.activeOrders.filter fun r => decide (r.side = side)) := by
  have hperm := (activeOrders_perm book side).filter fun r => decide (r.side = side)
  have hself : (ordersOf (book.levels side)).filter (fun r => decide (r.side = side)) =
      ordersOf (book.levels side) :=
    List.filter_eq_self.2 fun r hr => decide_eq_true (h.sided side r hr)
  have hother : (ordersOf (book.levels side.opposite)).filter
      (fun r => decide (r.side = side)) = [] := by
    refine List.filter_eq_nil_iff.2 fun r hr heq => ?_
    have hr' := h.sided _ r hr
    rw [of_decide_eq_true heq] at hr'
    cases side <;> cases hr'
  rw [List.filter_append, List.filter_append, hself, hother, hd] at hperm
  simpa using hperm.symm

/-- The queue of every level stands in the order of the ids. -/
def InIdOrder (book : QueueBook) : Prop :=
  ∀ side, ∀ l ∈ book.levels side, l.orders.Pairwise fun a b => a.orderId < b.orderId

/-- Reinserting changes nothing where the queues stand in id order and none is detached. -/
theorem reinserted_eq (h : book.Live) (hk : book.reinserted.Keyed) (hs : book.Sorted)
    (hd : book.detached = []) (hids : book.InIdOrder) : book.reinserted = book := by
  obtain ⟨hs', hbefore'⟩ := reinserted_before h.ok.toKeyed
  have hlevels : ∀ side, book.reinserted.levels side = book.levels side := by
    intro side
    refine (hs'.sortedLevels side).ext (hs.sortedLevels side) (Totals.reinserted book side)
      (h.totals side) ?_
    have hperm := (ordersOf_levels_perm hk (detached_reinserted book) side).trans
      (((reinserted_perm book).filter _).trans (ordersOf_levels_perm h.ok.toKeyed hd side).symm)
    exact hperm.eq_of_pairwise (fun a b _ _ => before_antisymm) (hbefore' side)
      ((hs.sortedLevels side).pairwise_before (hids side))
  have hconfig := symbolConfig_reinserted book
  have hdetached := (detached_reinserted book).trans hd.symm
  have hbids := hlevels .buy
  have hasks := hlevels .sell
  generalize book.reinserted = other at *
  obtain ⟨config, bids, asks, detached⟩ := book
  obtain ⟨config', bids', asks', detached'⟩ := other
  cases hconfig
  cases hdetached
  cases hbids
  cases hasks
  rfl

end QueueBook

/-- Of two queued orders of one price the one in front has the lower id, and every order the book
knows is queued. -/
structure OrderBook.InIdOrder (book : OrderBook) : Prop where
  queued : ∀ o ∈ book.registered, o ∈ book.restingOrders .buy ++ book.restingOrders .sell
  ordered : ∀ side, (book.restingOrders side).Pairwise fun a b =>
    a.price = b.price → a.orderId < b.orderId

instance (book : OrderBook) : Decidable book.InIdOrder :=
  decidable_of_iff ((∀ o ∈ book.registered,
      o ∈ book.restingOrders .buy ++ book.restingOrders .sell) ∧
    ((book.restingOrders .buy).Pairwise fun a b => a.price = b.price → a.orderId < b.orderId) ∧
      (book.restingOrders .sell).Pairwise fun a b => a.price = b.price → a.orderId < b.orderId)
    ⟨fun h => ⟨h.1, fun side => by cases side; exacts [h.2.1, h.2.2]⟩,
      fun h => ⟨h.queued, h.ordered .buy, h.ordered .sell⟩⟩

theorem sublist_ordersOf {l : LevelQueue} {levels : List LevelQueue} (h : l ∈ levels) :
    l.orders.Sublist (ordersOf levels) := by
  obtain ⟨front, back, rfl⟩ := List.append_of_mem h
  rw [ordersOf_append, ordersOf_cons]
  exact (List.sublist_append_left _ _).trans (List.sublist_append_right _ _)

namespace Refines
variable {book : OrderBook} {q : QueueBook}

theorem restingOrders (h : Refines book q) (side : Side) :
    book.restingOrders side = ordersOf (q.levels side) := by
  obtain ⟨queue, view, hok, hview⟩ := h.rep.sides side
  rw [hok.restingOrders, hview]

/-- The condition on the linked queues is one on the level queues. -/
theorem inIdOrder_iff (h : Refines book q) :
    book.InIdOrder ↔ q.detached = [] ∧ q.InIdOrder := by
  have hmem : ∀ o, o ∈ book.registered ↔ o ∈ q.activeOrders := fun o =>
    (h.rep.registered_perm h.ok.toKeyed).mem_iff
  have hqueued : book.restingOrders .buy ++ book.restingOrders .sell =
      ordersOf q.bids ++ ordersOf q.asks := by
    rw [h.restingOrders, h.restingOrders]
    rfl
  constructor
  · rintro ⟨hlisted, hordered⟩
    rw [hqueued] at hlisted
    constructor
    · rw [List.eq_nil_iff_forall_not_mem]
      intro r hr
      have hactive := (QueueBook.mem_activeOrders .buy).2 (Or.inr (Or.inr hr))
      have hnodup := h.ok.ids
      rw [QueueBook.activeOrders, List.map_append, List.nodup_append] at hnodup
      exact hnodup.2.2 _ (List.mem_map_of_mem (hlisted r ((hmem r).2 hactive))) _
        (List.mem_map_of_mem hr) rfl
    · intro side l hl
      have hprices := h.rep.sorted.prices side l hl
      have hside := hordered side
      rw [h.restingOrders] at hside
      refine List.Pairwise.imp_of_mem ?_ (hside.sublist (sublist_ordersOf hl))
      intro a b ha hb hab
      exact hab ((hprices a ha).trans (hprices b hb).symm)
  · rintro ⟨hdetached, hids⟩
    refine ⟨fun o ho => ?_, fun side => ?_⟩
    · have ho' := (hmem o).1 ho
      rw [QueueBook.activeOrders, hdetached, List.append_nil] at ho'
      rwa [hqueued]
    · rw [h.restingOrders]
      refine ((h.rep.sorted.sortedLevels side).pairwise_before (hids side)).imp ?_
      intro a b hab hprice
      rcases hab with hab | hab
      · rw [hprice] at hab
        exact absurd hab (lt_irrefl _)
      · exact hab.2

end Refines

namespace Tracks
variable {core : EngineCore OrderBook} {queues : EngineCore QueueBook}

theorem inIdOrder_iff (h : Tracks core queues) : core.AllBooks OrderBook.InIdOrder ↔
    queues.AllBooks fun q => q.detached = [] ∧ q.InIdOrder := by
  constructor
  · intro hs id q hq
    have hrel := h.rel.books id
    rw [hq] at hrel
    generalize hbook : core.orderBooks[id]? = mine at hrel
    cases hrel with
    | some href => exact href.inIdOrder_iff.1 (hs id _ hbook)
  · intro hs id book hbook
    have hrel := h.rel.books id
    rw [hbook] at hrel
    generalize hq : queues.orderBooks[id]? = theirs at hrel
    cases hrel with
    | some href => exact href.inIdOrder_iff.2 (hs id _ hq)

/-- The restart of a core in id order leaves its level queues as they were. -/
theorem restarted_eq (h : Tracks core queues) (hids : core.AllBooks OrderBook.InIdOrder) :
    queues.restarted = queues := by
  have hall := h.inIdOrder_iff.1 hids
  have hbooks : queues.restarted.orderBooks = queues.orderBooks := by
    refine Std.ExtTreeMap.ext_getElem? fun id => ?_
    rw [EngineCore.restarted, Std.ExtTreeMap.getElem?_map]
    cases hq : queues.orderBooks[id]? with
    | none => rfl
    | some q =>
      have hrel := h.rel.books id
      have hlive := h.live id q hq
      obtain ⟨hdetached, hq'⟩ := hall id q hq
      rw [hq] at hrel
      generalize core.orderBooks[id]? = mine at hrel
      cases hrel with
      | some href =>
        have hk := (href.restoreBook hlive.admitted id).ok.toKeyed
        exact congrArg some (QueueBook.reinserted_eq hlive hk href.rep.sorted hdetached hq')
  have hrest : queues.restarted = { queues with orderBooks := queues.restarted.orderBooks } := rfl
  rw [hrest, hbooks]

/-- A core tracked by the same level queues gives the same events for every run. -/
theorem run_eq {core' : EngineCore OrderBook} (h : Tracks core queues)
    (h' : Tracks core' queues) (commands : List EngineCommand) :
    (core'.run commands).1 = (core.run commands).1 := by
  have hrun := h.rel.run Refines.simulation commands fun _ _ _ _ => trivial
  have hrun' := h'.rel.run Refines.simulation commands fun _ _ _ _ => trivial
  rw [hrun.1, hrun'.1]

end Tracks

end PerpexEngine
