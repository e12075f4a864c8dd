import PerpexEngine.Core.SideOperations
import PerpexEngine.Core.QueueConservation

/-! The pointer book refines the level queues: every operation gives the same events and keeps
the representation, in every run and without any bound on the quantities. -/
namespace PerpexEngine
open LinkedQueue

/-- The book represents the level queues, and its two indices hold exactly the live orders. -/
structure BookRep (book : OrderBook) (q : QueueBook) : Prop where
  config : q.symbolConfig = book.symbolConfig
  sides : ∀ side, ∃ queue view, SideOk (book.bookForSide side) book.orders queue view ∧
    q.levels side = view.map (·.2)
  side_eq : ∀ side, (book.bookForSide side).side = side
  tick_eq : ∀ side, (book.bookForSide side).tickSize = book.symbolConfig.tickSize.ticks
  records : ∀ r, r ∈ q.activeOrders ↔ ∃ p, recordOf book.orders p = some r
  attached : ∀ p r level, attrOf book.orders p = some (r, level) → level.isSome
  byId : ∀ id p, book.orderById[id]? = some p ↔
    ∃ r, recordOf book.orders p = some r ∧ r.orderId = id
  byClient : ∀ c id, book.clientOrderIdToOrderId[c]? = some id ↔
    ∃ p r, recordOf book.orders p = some r ∧ r.clientOrderId = c ∧ r.orderId = id

section
variable {sideBook : SideBook} {orders orders' : Heap Order} {queue : Queues}
  {view : List (LevelPtr × LevelQueue)} {lp : LevelPtr} {p : OrderPtr} {o : Order}

theorem SideOk.congrRep (h : SideOk sideBook orders queue view)
    (hrep : SideRep sideBook orders' queue view) : SideOk sideBook orders' queue view :=
  ⟨hrep, h.cached, h.settled⟩

/-- The total behind an order's level pointer is that of the level queue listing its id. -/
theorem SideRep.totalAtLevel (h : SideRep sideBook orders queue view) (hids : UniqueIds orders)
    (ho : orders.read p = some o) (hlp : o.priceLevel = some lp) (hs : o.side = sideBook.side) :
    OrderBook.totalAtLevel sideBook o.priceLevel =
      totalHolding o.orderId (view.map (·.2)) := by
  have hhas := fun x hx => h.hasOrder_iff hids ho hlp hs (x := x) hx
  rw [OrderBook.totalAtLevel, totalHolding, hlp, Option.bind_some]
  cases hl : sideBook.levels.read lp with
  | none =>
    have hfind : (view.map (·.2)).find? (·.hasOrder o.orderId) = none := by
      rw [List.find?_eq_none]
      intro a ha hin
      obtain ⟨x, hx, rfl⟩ := List.mem_map.1 ha
      obtain ⟨l, hl', -⟩ := h.rep x.1 x.2 hx
      rw [(hhas x hx).1 hin, hl] at hl'
      cases hl'
    rw [hfind]
  | some l =>
    obtain ⟨a, ha⟩ := h.live lp l hl
    have hsome : ((view.map (·.2)).find? (·.hasOrder o.orderId)).isSome :=
      List.find?_isSome.2 ⟨a, List.mem_map.2 ⟨_, ha, rfl⟩, (hhas _ ha).2 rfl⟩
    obtain ⟨b, hb⟩ := Option.isSome_iff_exists.1 hsome
    obtain ⟨x, hx, rfl⟩ := List.mem_map.1 (List.mem_of_find?_eq_some hb)
    have hin : x.2.hasOrder o.orderId = true :=
      List.find?_some (p := fun b : LevelQueue => b.hasOrder o.orderId) hb
    have hx1 := (hhas x hx).1 hin
    obtain ⟨l', hl', hr⟩ := h.rep x.1 x.2 hx
    rw [hx1, hl] at hl'
    cases hl'
    rw [hb]
    exact hr.total

end

namespace BookRep
variable {book : OrderBook} {q : QueueBook} {p : OrderPtr} {o : Order}

theorem uniqueIds (h : BookRep book q) : UniqueIds book.orders := by
  intro p p' o o' ho ho' hid
  have h1 := (h.byId o.orderId p).2 ⟨_, recordOf_eq ho, rfl⟩
  have h2 := (h.byId o.orderId p').2 ⟨_, recordOf_eq ho', hid.symm⟩
  rw [h1] at h2
  exact Option.some.inj h2

theorem mem_active (h : BookRep book q) (ho : book.orders.read p = some o) :
    o.toOrderSnapshot ∈ q.activeOrders := (h.records _).2 ⟨p, recordOf_eq ho⟩

theorem priceLevel_some (h : BookRep book q) (ho : book.orders.read p = some o) :
    ∃ lp, o.priceLevel = some lp := Option.isSome_iff_exists.1 (h.attached p _ _ (attrOf_eq ho))

theorem totalAtLevel (h : BookRep book q) (ho : book.orders.read p = some o) :
    OrderBook.totalAtLevel (book.bookForSide o.side) o.priceLevel =
      totalHolding o.orderId (q.levels o.side) := by
  obtain ⟨queue, view, hok, hq⟩ := h.sides o.side
  obtain ⟨lp, hlp⟩ := h.priceLevel_some ho
  rw [hq]
  exact hok.toSideRep.totalAtLevel h.uniqueIds ho hlp (h.side_eq o.side).symm

theorem hasOrder (h : BookRep book q) (id : OrderId) :
    book.hasOrder id = (q.lookup id).isSome := by
  rw [Bool.eq_iff_iff, OrderBook.hasOrder, OrderBook.findOrder, Option.isSome_iff_exists,
    QueueBook.lookup, List.find?_isSome]
  constructor
  · rintro ⟨p, hp⟩
    obtain ⟨r, hr, rfl⟩ := (h.byId id p).1 hp
    exact ⟨r, (h.records r).2 ⟨p, hr⟩, decide_eq_true rfl⟩
  · rintro ⟨r, hr, hid⟩
    obtain ⟨p, hp⟩ := (h.records r).1 hr
    exact ⟨p, (h.byId id p).2 ⟨r, hp, of_decide_eq_true hid⟩⟩

theorem hasClient (h : BookRep book q) (c : ClientOrderId) :
    book.clientOrderIdToOrderId.contains c = (q.lookupClient c).isSome := by
  rw [Bool.eq_iff_iff, Std.ExtTreeMap.contains_eq_isSome_getElem?, Option.isSome_iff_exists,
    QueueBook.lookupClient, List.find?_isSome]
  constructor
  · rintro ⟨id, hid⟩
    obtain ⟨p, r, hr, rfl, -⟩ := (h.byClient c id).1 hid
    exact ⟨r, (h.records r).2 ⟨p, hr⟩, decide_eq_true rfl⟩
  · rintro ⟨r, hr, hc⟩
    obtain ⟨p, hp⟩ := (h.records r).1 hr
    exact ⟨r.orderId, (h.byClient c _).2 ⟨p, r, hp, of_decide_eq_true hc, rfl⟩⟩

theorem getClient (h : BookRep book q) (hq : q.Keyed) (c : ClientOrderId) :
    book.clientOrderIdToOrderId[c]? = (q.lookupClient c).map (·.orderId) := by
  ext id
  rw [h.byClient, Option.map_eq_some_iff]
  constructor
  · rintro ⟨p, r, hr, hc, rfl⟩
    exact ⟨r, hq.lookupClient_eq_some.2 ⟨(h.records r).2 ⟨p, hr⟩, hc⟩, rfl⟩
  · rintro ⟨r, hr, rfl⟩
    obtain ⟨hr, hc⟩ := hq.lookupClient_eq_some.1 hr
    obtain ⟨p, hp⟩ := (h.records r).1 hr
    exact ⟨p, r, hp, hc, rfl⟩

/-- A lookup finds the live order with that id, the one the level queues find. -/
theorem lookup_eq (h : BookRep book q) (hq : q.Keyed) (id : OrderId) :
    (book.lookup id).map (·.2.toOrderSnapshot) = q.lookup id := by
  ext r
  rw [hq.lookup_eq_some, Option.map_eq_some_iff]
  constructor
  · rintro ⟨⟨p, o⟩, ho, rfl⟩
    obtain ⟨p', hp', ho⟩ := Option.bind_eq_some_iff.1 ho
    obtain ⟨o', ho', heq⟩ := Option.map_eq_some_iff.1 ho
    cases heq
    obtain ⟨r, hr, hid⟩ := (h.byId id p).1 hp'
    rw [recordOf_eq ho'] at hr
    cases hr
    exact ⟨h.mem_active ho', hid⟩
  · rintro ⟨hr, rfl⟩
    obtain ⟨p, hp⟩ := (h.records r).1 hr
    obtain ⟨o, ho, rfl⟩ := recordOf_eq_some.1 hp
    have hfind := (h.byId o.orderId p).2 ⟨_, hp, rfl⟩
    refine ⟨(p, o), ?_, rfl⟩
    rw [OrderBook.lookup, OrderBook.findOrder, hfind, Option.bind_some, ho]
    rfl

theorem lookup_some (h : BookRep book q) {id : OrderId} (hl : book.lookup id = some (p, o)) :
    book.orders.read p = some o ∧ o.orderId = id := by
  obtain ⟨p', hp', ho⟩ := Option.bind_eq_some_iff.1 hl
  obtain ⟨o', ho', heq⟩ := Option.map_eq_some_iff.1 ho
  cases heq
  obtain ⟨r, hr, hid⟩ := (h.byId id p).1 hp'
  rw [recordOf_eq ho'] at hr
  cases hr
  exact ⟨ho', hid⟩

/-- A new book is empty on both levels. -/
theorem new (config : SymbolConfig) : BookRep (OrderBook.new config) (QueueBook.new config) where
  config := rfl
  sides side := by
    refine ⟨fun _ => [], [], ?_, by cases side <;> rfl⟩
    cases side <;> exact SideOk.new _ _ _ _
  side_eq side := by cases side <;> rfl
  tick_eq side := by cases side <;> rfl
  records r := by simp [QueueBook.new, QueueBook.activeOrders, OrderBook.new, recordOf, attrOf]
  attached p r level h := by simp [OrderBook.new, attrOf] at h
  byId id p := by simp [OrderBook.new, recordOf, attrOf]
  byClient c id := by simp [OrderBook.new, recordOf, attrOf]

/-- Removing a live order on both levels. -/
theorem releaseOrder (h : BookRep book q) (hq : q.Keyed) (ho : book.orders.read p = some o) :
    BookRep (book.releaseOrder o.side p o.toOrderSnapshot) (q.releaseOrder o.toOrderSnapshot) := by
  obtain ⟨lp, hlp⟩ := h.priceLevel_some ho
  have hids := h.uniqueIds
  obtain ⟨queue, view, hok, hview⟩ := h.sides o.side
  have hs : o.side = (book.bookForSide o.side).side := (h.side_eq o.side).symm
  obtain ⟨queue', view', hok', hshape, horders, honly, htake⟩ := hok.removeOrder hids ho hlp hs
  have hperm := hq.releaseOrder_perm (h.mem_active ho)
  have hattr : ∀ p', attrOf ((unlinkOrder book.orders p o).free p) p' =
      if p' = p then none else attrOf book.orders p' := by
    intro p'
    rw [attrOf, Heap.read_free]
    split_ifs with hp
    · rfl
    · exact (attrOf_unlinkOrder ho).trans (if_neg hp)
  have hrecord : ∀ p' r, recordOf ((unlinkOrder book.orders p o).free p) p' = some r ↔
      recordOf book.orders p' = some r ∧ r.orderId ≠ o.orderId := by
    intro p' r
    rw [recordOf, hattr]
    by_cases hp : p' = p
    · subst hp
      rw [if_pos rfl, recordOf_eq ho]
      simp only [Option.map_none, reduceCtorEq, Option.some.injEq, false_iff, not_and, not_not]
      rintro rfl
      rfl
    · rw [if_neg hp]
      refine ⟨fun hr => ⟨hr, fun hid => ?_⟩, fun hr => hr.1⟩
      obtain ⟨o', ho', rfl⟩ := recordOf_eq_some.1 hr
      exact hp (hids p' p o' o ho' ho hid)
  have hdetached : ∀ r lp, attrOf (unlinkOrder book.orders p o) p ≠ some (r, some lp) := by
    intro r lp
    rw [attrOf_unlinkOrder ho, if_pos rfl]
    simp
  have horders' : (book.releaseOrder o.side p o.toOrderSnapshot).orders =
      (unlinkOrder book.orders p o).free p := by
    rw [← horders]
    cases o.side <;> rfl
  have hself : (book.releaseOrder o.side p o.toOrderSnapshot).bookForSide o.side =
      ((book.bookForSide o.side).removeOrder book.orders p).1 := by
    cases o.side <;> rfl
  have hother : (book.releaseOrder o.side p o.toOrderSnapshot).bookForSide o.side.opposite =
      book.bookForSide o.side.opposite := by
    cases o.side <;> rfl
  have hconfig : (book.releaseOrder o.side p o.toOrderSnapshot).symbolConfig =
      book.symbolConfig := by cases o.side <;> rfl
  refine ⟨?_, forall_side o.side ?_ ?_, forall_side o.side ?_ ?_, forall_side o.side ?_ ?_,
    fun r => ?_, fun p' r level hp => ?_, fun id p' => ?_, fun c id => ?_⟩
  · rw [hconfig, ← h.config]
    change (q.setLevels _ _).symbolConfig = _
    cases o.side <;> rfl
  · rw [horders', hself]
    refine ⟨queue', view', ?_, ?_⟩
    · rw [horders] at hok'
      exact hok'.congrRep (hok'.toSideRep.free hdetached)
    · rw [htake, ← hview]
      change QueueBook.levels { q.setLevels _ _ with detached := _ } _ = _
      cases o.side <;> rfl
  · obtain ⟨queue₁, view₁, hok₁, hview₁⟩ := h.sides o.side.opposite
    rw [horders', hother]
    refine ⟨queue₁, view₁, hok₁.congrRep (SideRep.free ?_ hdetached), ?_⟩
    · refine hok₁.toSideRep.frame ?_ (hs.symm ▸ hok.mem_iff lp) (hs.symm ▸ honly)
      rw [h.side_eq]
      cases o.side <;> decide
    · rw [← hview₁]
      change QueueBook.levels { q.setLevels _ _ with detached := _ } _ = _
      cases o.side <;> rfl
  · rw [hself, hshape.side, h.side_eq]
  · rw [hother, h.side_eq]
  · rw [hconfig, hself, hshape.tickSize, h.tick_eq]
  · rw [hconfig, hother, h.tick_eq]
  · rw [hperm.mem_iff, List.mem_filter, h.records, horders', decide_eq_true_eq]
    simp only [hrecord, exists_and_right]
  · rw [horders', hattr] at hp
    split_ifs at hp
    exact h.attached p' r level hp
  · have hidx : (book.releaseOrder o.side p o.toOrderSnapshot).orderById =
        book.orderById.erase o.orderId := rfl
    rw [hidx, Std.ExtTreeMap.getElem?_erase, horders']
    simp only [hrecord]
    by_cases hid : o.orderId = id
    · rw [if_pos (Std.LawfulEqCmp.compare_eq_iff_eq.2 hid)]
      simp only [reduceCtorEq, false_iff, not_exists, not_and]
      exact fun r hr hrid => hr.2 (hrid.trans hid.symm)
    · rw [if_neg fun hc => hid (Std.LawfulEqCmp.compare_eq_iff_eq.1 hc), h.byId]
      refine exists_congr fun r => and_congr_left fun hr => ?_
      rw [hr]
      simp [Ne.symm hid]
  · have hidx : (book.releaseOrder o.side p o.toOrderSnapshot).clientOrderIdToOrderId =
        book.clientOrderIdToOrderId.erase o.clientOrderId := rfl
    rw [hidx, Std.ExtTreeMap.getElem?_erase, horders']
    simp only [hrecord]
    have hclient : ∀ p' r, recordOf book.orders p' = some r →
        (r.orderId = o.orderId ↔ r.clientOrderId = o.clientOrderId) := by
      intro p' r hr
      have hr' := (h.records r).2 ⟨p', hr⟩
      constructor
      · intro hid
        rw [hq.eq_of_id hr' (h.mem_active ho) hid]
      · intro hc
        rw [hq.eq_of_client hr' (h.mem_active ho) hc]
    by_cases hc : o.clientOrderId = c
    · rw [if_pos (Std.LawfulEqCmp.compare_eq_iff_eq.2 hc)]
      simp only [reduceCtorEq, false_iff, not_exists, not_and]
      exact fun p' r hr hrc => absurd ((hclient p' r hr.1).2 (hrc.trans hc.symm)) hr.2
    · rw [if_neg fun heq => hc (Std.LawfulEqCmp.compare_eq_iff_eq.1 heq), h.byClient]
      refine exists_congr fun p' => exists_congr fun r => ?_
      constructor
      · rintro ⟨hr, hrc, hid⟩
        exact ⟨⟨hr, fun heq => hc (((hclient p' r hr).1 heq).symm.trans hrc)⟩, hrc, hid⟩
      · rintro ⟨⟨hr, -⟩, hrc, hid⟩
        exact ⟨hr, hrc, hid⟩

theorem restOrder_eq (book : OrderBook) (x : OrderSnapshot) : book.restOrder x =
    { book.setBookForSide x.side ((book.bookForSide x.side).insertRestingOrder
        (book.orders.alloc (.ofSnapshot x)) book.orders.next).1 with
      orderById := book.orderById.insert x.orderId book.orders.next
      clientOrderIdToOrderId := book.clientOrderIdToOrderId.insert x.clientOrderId x.orderId
      orders := ((book.bookForSide x.side).insertRestingOrder
        (book.orders.alloc (.ofSnapshot x)) book.orders.next).2 } := by
  rw [OrderBook.restOrder, OrderBook.insertRemainingAsResting]
  simp only [Heap.read_alloc_self]
  cases hs : x.side <;> simp only [Order.ofSnapshot, hs] <;> rfl

/-- A fresh order comes to rest on both levels. -/
theorem restOrder (h : BookRep book q) {x : OrderSnapshot}
    (halign : Aligned book.symbolConfig.tickSize.ticks x.price)
    (hid : ∀ r ∈ q.activeOrders, r.orderId ≠ x.orderId)
    (hclient : ∀ r ∈ q.activeOrders, r.clientOrderId ≠ x.clientOrderId) :
    BookRep (book.restOrder x) (q.restOrder x) ∧
      ∃ o, (book.restOrder x).orders.read book.orders.next = some o ∧ o.toOrderSnapshot = x := by
  obtain ⟨queue, view, hok, hview⟩ := h.sides x.side
  have hs : x.side = (book.bookForSide x.side).side := (h.side_eq x.side).symm
  have hok₁ := hok.congrRep (hok.toSideRep.alloc (o := .ofSnapshot x) rfl)
  obtain ⟨lp, queue', view', hok', hshape, honly, hattr, hinsert⟩ :=
    hok₁.insertRestingOrder (Heap.read_alloc_self _ _) rfl hs (by rwa [h.tick_eq])
  have hbook := restOrder_eq book x
  have horders : (book.restOrder x).orders = ((book.bookForSide x.side).insertRestingOrder
      (book.orders.alloc (.ofSnapshot x)) book.orders.next).2 := by
    rw [hbook]
  have hself : (book.restOrder x).bookForSide x.side = ((book.bookForSide x.side).insertRestingOrder
      (book.orders.alloc (.ofSnapshot x)) book.orders.next).1 := by
    rw [hbook]
    cases x.side <;> rfl
  have hother : (book.restOrder x).bookForSide x.side.opposite =
      book.bookForSide x.side.opposite := by
    rw [hbook]
    cases x.side <;> rfl
  have hconfig : (book.restOrder x).symbolConfig = book.symbolConfig := by
    rw [hbook]
    cases x.side <;> rfl
  have hbyId : (book.restOrder x).orderById =
      book.orderById.insert x.orderId book.orders.next := by
    rw [hbook]
  have hbyClient : (book.restOrder x).clientOrderIdToOrderId =
      book.clientOrderIdToOrderId.insert x.clientOrderId x.orderId := by
    rw [hbook]
  have hrecord : ∀ p', recordOf (book.restOrder x).orders p' =
      if p' = book.orders.next then some x else recordOf book.orders p' := by
    intro p'
    rw [recordOf, horders, hattr]
    split_ifs with hp
    · rfl
    · rw [attrOf, Heap.read_alloc_of_ne hp]
      rfl
  have hfresh : ∀ {p' r}, recordOf book.orders p' = some r → p' ≠ book.orders.next := by
    rintro p' r hr rfl
    rw [recordOf, attrOf, Heap.read_next] at hr
    cases hr
  refine ⟨⟨?_, forall_side x.side ?_ ?_, forall_side x.side ?_ ?_, forall_side x.side ?_ ?_,
    fun r => ?_, fun p' r level hp => ?_, fun id p' => ?_, fun c id => ?_⟩, ?_⟩
  · rw [hconfig, ← h.config, QueueBook.restOrder]
    cases x.side <;> rfl
  · rw [horders, hself]
    refine ⟨queue', view', hok', ?_⟩
    rw [hinsert, ← hs, ← hview, QueueBook.restOrder, QueueBook.levels_setLevels_self]
    rfl
  · obtain ⟨queue₁, view₁, hok₁', hview₁⟩ := h.sides x.side.opposite
    rw [horders, hother]
    refine ⟨queue₁, view₁, hok₁'.congrRep ?_, ?_⟩
    · refine (hok₁'.toSideRep.alloc rfl).frame ?_ (hs.symm ▸ hok₁.mem_iff lp) (hs.symm ▸ honly)
      rw [h.side_eq]
      cases x.side <;> decide
    · rw [← hview₁, QueueBook.restOrder, QueueBook.levels_setLevels_opposite]
  · rw [hself, hshape.side, h.side_eq]
  · rw [hother, h.side_eq]
  · rw [hconfig, hself, hshape.tickSize, h.tick_eq]
  · rw [hconfig, hother, h.tick_eq]
  · rw [(QueueBook.restOrder_perm q x).mem_iff, List.mem_cons, h.records]
    simp only [hrecord]
    constructor
    · rintro (rfl | ⟨p', hp'⟩)
      · exact ⟨_, if_pos rfl⟩
      · exact ⟨p', by rw [if_neg (hfresh hp'), hp']⟩
    · rintro ⟨p', hp'⟩
      split_ifs at hp' with hp
      · exact Or.inl (Option.some.inj hp').symm
      · exact Or.inr ⟨p', hp'⟩
  · rw [horders, hattr] at hp
    split_ifs at hp with hp'
    · cases hp
      rfl
    · rw [attrOf, Heap.read_alloc_of_ne hp'] at hp
      exact h.attached p' r level hp
  · rw [hbyId, Std.ExtTreeMap.getElem?_insert]
    simp only [hrecord]
    by_cases hx : x.orderId = id
    · subst hx
      rw [if_pos (Std.LawfulEqCmp.compare_eq_iff_eq.2 rfl)]
      constructor
      · intro heq
        cases heq
        exact ⟨x, if_pos rfl, rfl⟩
      · rintro ⟨r, hr, hrid⟩
        split_ifs at hr with hp
        · rw [hp]
        · exact absurd hrid (hid r ((h.records r).2 ⟨p', hr⟩))
    · rw [if_neg fun heq => hx (Std.LawfulEqCmp.compare_eq_iff_eq.1 heq), h.byId]
      constructor
      · rintro ⟨r, hr, hrid⟩
        exact ⟨r, by rw [if_neg (hfresh hr), hr], hrid⟩
      · rintro ⟨r, hr, hrid⟩
        split_ifs at hr with hp
        · cases hr
          exact absurd hrid hx
        · exact ⟨r, hr, hrid⟩
  · rw [hbyClient, Std.ExtTreeMap.getElem?_insert]
    simp only [hrecord]
    by_cases hx : x.clientOrderId = c
    · subst hx
      rw [if_pos (Std.LawfulEqCmp.compare_eq_iff_eq.2 rfl)]
      constructor
      · intro heq
        cases heq
        exact ⟨_, x, if_pos rfl, rfl, rfl⟩
      · rintro ⟨p', r, hr, hrc, rfl⟩
        split_ifs at hr with hp
        · cases hr
          rfl
        · exact absurd hrc (hclient r ((h.records r).2 ⟨p', hr⟩))
    · rw [if_neg fun heq => hx (Std.LawfulEqCmp.compare_eq_iff_eq.1 heq), h.byClient]
      constructor
      · rintro ⟨p', r, hr, hrc⟩
        exact ⟨p', r, by rw [if_neg (hfresh hr), hr], hrc⟩
      · rintro ⟨p', r, hr, hrc, hrid⟩
        split_ifs at hr with hp
        · cases hr
          exact absurd hrc hx
        · exact ⟨p', r, hr, hrc, hrid⟩
  · exact recordOf_eq_some.1 ((hrecord _).trans (if_pos rfl))

end BookRep
end PerpexEngine
