import PerpexEngine.Core.BookRefinement

/-! Matching, placing and cancelling on the pointer book are matching, placing and cancelling on
the level queues, event for event. -/
namespace PerpexEngine
open LinkedQueue

section Best
variable {book : SideBook} {orders : Heap Order} {queue : Queues}
  {after : List (LevelPtr × LevelQueue)} {lp : LevelPtr} {a : LevelQueue}

theorem SideOk.best_nil (h : SideOk book orders queue []) :
    book.bestLevel = none := by
  simp [SideBook.bestLevel, SideBook.cachedIsEmpty, h.cached]

/-- The cached level is the first of the view, and its head the first order in line. -/
theorem SideOk.best_cons (h : SideOk book orders queue ((lp, a) :: after)) :
    ∃ l p o rest, book.levels.read lp = some l ∧ l.totalQuantity = a.totalQuantity ∧
      l.price = a.price ∧ (queue lp).head? = some p ∧ orders.read p = some o ∧
      o.priceLevel = some lp ∧ o.side = book.side ∧ a.orders = o.toOrderSnapshot :: rest ∧
      o.price = a.price ∧ book.bestLevel = some lp ∧ book.bestOrder = some p := by
  obtain ⟨l, hl, hr⟩ := h.rep lp a List.mem_cons_self
  have hne := h.settled _ List.mem_cons_self
  obtain ⟨maker, rest, ha⟩ := List.exists_cons_of_ne_nil hne
  have hrec := hr.records
  rw [ha] at hrec
  obtain ⟨p, qs, hq, hp, -⟩ := List.map_eq_cons_iff.1 hrec
  obtain ⟨o, ho, rfl⟩ := recordOf_eq_some.1 hp
  have hmem : p ∈ queue lp := by rw [hq]; exact List.mem_cons_self
  obtain ⟨r, hattr, hside⟩ := (h.mem_iff lp p).1 hmem
  rw [attrOf_eq ho] at hattr
  have hhead : l.head = some p := by rw [hr.head, hq]; rfl
  have hbest : book.bestLevel = some lp := by
    have hc : book.cachedBestLevel = some lp := h.cached
    have hempty : book.cachedIsEmpty = false := by
      simp [SideBook.cachedIsEmpty, hc, hl, PriceLevel.isEmpty, hhead]
    rw [SideBook.bestLevel, hempty, hc]
    rfl
  refine ⟨l, p, o, rest, hl, hr.total, hr.price, by rw [hq]; rfl, ho, ?_, ?_, ha, ?_, hbest, ?_⟩
  · exact (Prod.mk.inj (Option.some.inj hattr)).2
  · rw [← hside, ← (Prod.mk.inj (Option.some.inj hattr)).1]
  · exact hr.prices _ (by rw [ha]; exact List.mem_cons_self)
  · simp [SideBook.bestOrder, hbest, hl, hhead]

theorem SideOk.priceCrosses (h : SideOk book orders queue ((lp, a) :: after)) (price : Price) :
    book.priceCrosses price = crossesLevel book.side price a.price := by
  obtain ⟨l, p, o, rest, hl, -, hprice, -, -, -, -, -, -, hbest, -⟩ := h.best_cons
  simp [SideBook.priceCrosses, hbest, hl, hprice]

end Best

namespace BookRep
variable {book : OrderBook} {q : QueueBook} {side : Side} {l : LevelQueue}
  {levels : List LevelQueue}

theorem setLastTradePrice (h : BookRep book q) (price : Option Price) :
    BookRep { book with lastTradePrice := price } q :=
  ⟨h.config, h.sides, h.side_eq, h.tick_eq, h.records, h.attached, h.byId, h.byClient⟩

theorem bestLevel_nil (h : BookRep book q) (hlevels : q.levels side = []) :
    (book.bookForSide side).bestLevel = none := by
  obtain ⟨queue, view, hok, hview⟩ := h.sides side
  rw [hlevels] at hview
  obtain rfl := List.map_eq_nil_iff.1 hview.symm
  exact hok.best_nil

theorem priceCrosses (h : BookRep book q) (side : Side) (price : Price) :
    (book.bookForSide side).priceCrosses price =
      QueueBook.priceCrosses side (q.levels side) price := by
  obtain ⟨queue, view, hok, hview⟩ := h.sides side
  rw [hview]
  cases view with
  | nil => simp [SideBook.priceCrosses, hok.best_nil, QueueBook.priceCrosses]
  | cons x after =>
    rw [hok.priceCrosses, h.side_eq]
    rfl

section Fill
variable {queue : Queues} {after : List (LevelPtr × LevelQueue)} {lp : LevelPtr} {p : OrderPtr}
  {o : Order} {rest : List OrderSnapshot} {f : Quantity}

/-- The book after the front order of a side has been reduced, its level not yet settled. -/
def reduced (book : OrderBook) (side : Side) (lp : LevelPtr) (p : OrderPtr) (f : Quantity) :
    OrderBook :=
  { book.setBookForSide side { book.bookForSide side with
      levels := (book.bookForSide side).levels.modify lp (·.decreaseTotal f) } with
    orders := book.orders.modify p (·.reduce f) }

theorem reduced_self : (reduced book side lp p f).bookForSide side = { book.bookForSide side with
    levels := (book.bookForSide side).levels.modify lp (·.decreaseTotal f) } := by
  cases side <;> rfl

theorem reduced_opposite : (reduced book side lp p f).bookForSide side.opposite =
    book.bookForSide side.opposite := by
  cases side <;> rfl

theorem recordOf_reduce (ho : book.orders.read p = some o) (p' : OrderPtr) :
    recordOf (book.orders.modify p (·.reduce f)) p' =
      if p' = p then some (o.toOrderSnapshot.reduce f) else recordOf book.orders p' := by
  rw [recordOf, attrOf_reduce p' ho]
  split_ifs <;> rfl

/-- Reducing the front order and its level on both levels of description. -/
theorem reduceFront (h : BookRep book q) (hq : q.Keyed) (hlevels : q.levels side = l :: levels)
    (hl : l.orders = o.toOrderSnapshot :: rest)
    (hok : SideOk (book.bookForSide side) book.orders queue ((lp, l) :: after))
    (hafter : levels = after.map (·.2)) (ho : book.orders.read p = some o)
    (hlp : o.priceLevel = some lp) (hfront : (queue lp).head? = some p) (f : Quantity) :
    BookRep (reduced book side lp p f)
      (q.setLevels side (QueueBook.reducedLevel l o.toOrderSnapshot rest f :: levels)) := by
  have hs : o.side = (book.bookForSide side).side := by
    obtain ⟨r, hr, hside⟩ := (hok.mem_iff lp p).1 (List.mem_of_head? hfront)
    rw [attrOf_eq ho] at hr
    rw [← hside, ← (Prod.mk.inj (Option.some.inj hr)).1]
  have hrecord : ∀ p', recordOf (reduced book side lp p f).orders p' =
      if p' = p then some (o.toOrderSnapshot.reduce f) else recordOf book.orders p' :=
    recordOf_reduce ho
  have hkey : ∀ {β : Type} (key : OrderSnapshot → β),
      key (o.toOrderSnapshot.reduce f) = key o.toOrderSnapshot → ∀ p' k,
        (∃ r, recordOf (reduced book side lp p f).orders p' = some r ∧ key r = k) ↔
          ∃ r, recordOf book.orders p' = some r ∧ key r = k := by
    intro β key heq p' k
    rw [hrecord]
    split_ifs with hp
    · rw [hp, recordOf_eq ho]
      simp only [Option.some.injEq, exists_eq_left', heq]
    · rfl
  have hbefore := QueueBook.activeOrders_front hlevels hl
  have hafter' := QueueBook.reduceFront_perm q side l levels o.toOrderSnapshot rest f
  refine ⟨?_, forall_side side ⟨queue, (lp, QueueBook.reducedLevel l o.toOrderSnapshot rest f) ::
    after, ?_, ?_⟩ ?_, forall_side side ?_ ?_, forall_side side ?_ ?_, fun r => ?_,
    fun p' r level hp => ?_, fun id p' => ?_, fun c id => ?_⟩
  · rw [reduced]
    cases side <;> exact h.config
  · rw [reduced_self]
    exact hok.reduceFront ho hlp hs hfront hl f
  · rw [QueueBook.levels_setLevels_self, hafter]
    rfl
  · obtain ⟨queue₁, view₁, hok₁, hview₁⟩ := h.sides side.opposite
    rw [reduced_opposite, QueueBook.levels_setLevels_opposite]
    refine ⟨queue₁, view₁, hok₁.congrRep ?_, hview₁⟩
    refine hok₁.toSideRep.frame ?_ (hok.mem_iff lp) (hok.onlyLevel_reduce ho hlp hs f)
    rw [h.side_eq, h.side_eq]
    cases side <;> decide
  · rw [reduced_self]
    exact h.side_eq side
  · rw [reduced_opposite]
    exact h.side_eq _
  · rw [reduced_self, reduced]
    have htick := h.tick_eq side
    cases side <;> exact htick
  · rw [reduced_opposite, reduced]
    have htick := h.tick_eq side.opposite
    cases side <;> exact htick
  · have hmaker : ∀ p', recordOf book.orders p' = some o.toOrderSnapshot → p' = p := by
      intro p' hp'
      obtain ⟨o', ho', heq⟩ := recordOf_eq_some.1 hp'
      exact h.uniqueIds p' p o' o ho' ho (congrArg OrderSnapshot.orderId heq)
    have hnodup := hbefore.nodup_iff.1 (List.Nodup.of_map _ hq.ids)
    rw [hafter'.mem_iff, List.mem_cons]
    simp only [hrecord]
    constructor
    · rintro (rfl | hr)
      · exact ⟨p, if_pos rfl⟩
      · obtain ⟨p', hp'⟩ := (h.records r).1 (hbefore.mem_iff.2 (List.mem_cons_of_mem _ hr))
        refine ⟨p', ?_⟩
        have hne : p' ≠ p := by
          rintro rfl
          rw [recordOf_eq ho] at hp'
          cases hp'
          exact (List.nodup_cons.1 hnodup).1 hr
        rw [if_neg hne, hp']
    · rintro ⟨p', hp'⟩
      split_ifs at hp' with hp
      · exact Or.inl (Option.some.inj hp').symm
      · rcases List.mem_cons.1 (hbefore.mem_iff.1 ((h.records r).2 ⟨p', hp'⟩)) with rfl | hr
        · exact absurd (hmaker p' hp') hp
        · exact Or.inr hr
  · change attrOf (book.orders.modify p (·.reduce f)) p' = _ at hp
    rw [attrOf_reduce p' ho] at hp
    split_ifs at hp with hp'
    · cases hp
      rw [hlp]
      rfl
    · exact h.attached p' r level hp
  · rw [hkey (·.orderId) rfl, ← h.byId]
    rw [reduced]
    cases side <;> rfl
  · have hpair : (∃ p' r, recordOf (reduced book side lp p f).orders p' = some r ∧
        r.clientOrderId = c ∧ r.orderId = id) ↔
        ∃ p' r, recordOf book.orders p' = some r ∧ r.clientOrderId = c ∧ r.orderId = id := by
      refine exists_congr fun p' => ?_
      have := hkey (fun r => (r.clientOrderId, r.orderId)) rfl p' (c, id)
      simpa only [Prod.mk.injEq] using this
    rw [hpair, ← h.byClient]
    rw [reduced]
    cases side <;> rfl

/-- Settling the best level on both levels of description. -/
theorem settleFront (h : BookRep book q) (hlevels : q.levels side = l :: levels)
    (hbest : (book.bookForSide side).cachedBestLevel = some lp) :
    BookRep (book.setBookForSide side ((book.bookForSide side).updateAfterFillOrCancel (some lp)))
      (q.putFront side l levels) := by
  obtain ⟨queue, view, hok, hview⟩ := h.sides side
  rw [hlevels] at hview
  obtain ⟨x, after, rfl, hx, hafter⟩ := List.map_eq_cons_iff.1 hview.symm
  obtain rfl : lp = x.1 := Option.some.inj (hbest.symm.trans hok.cached)
  obtain ⟨lp, a⟩ := x
  obtain rfl : a = l := hx
  change BookRep (book.setBookForSide side
    ((book.bookForSide side).updateAfterFillOrCancel (some lp))) _
  have hrep : SideRep (book.bookForSide side) book.orders queue ([] ++ (lp, a) :: after) :=
    hok.toSideRep
  obtain ⟨hok', hshape⟩ := hrep.updateAfterFillOrCancel hok.cached
    fun x hx => hok.settled x (List.mem_cons_of_mem _ hx)
  have hself : (book.setBookForSide side ((book.bookForSide side).updateAfterFillOrCancel
      (some lp))).bookForSide side =
      (book.bookForSide side).updateAfterFillOrCancel (some lp) := by cases side <;> rfl
  have hother : (book.setBookForSide side ((book.bookForSide side).updateAfterFillOrCancel
      (some lp))).bookForSide side.opposite = book.bookForSide side.opposite := by
    cases side <;> rfl
  have hsame : ∀ sideBook : SideBook, (book.setBookForSide side sideBook).orders = book.orders ∧
      (book.setBookForSide side sideBook).symbolConfig = book.symbolConfig ∧
      (book.setBookForSide side sideBook).orderById = book.orderById ∧
      (book.setBookForSide side sideBook).clientOrderIdToOrderId =
        book.clientOrderIdToOrderId := by
    intro sideBook
    cases side <;> exact ⟨rfl, rfl, rfl, rfl⟩
  obtain ⟨horders, hconfig, hbyId, hbyClient⟩ := hsame
    ((book.bookForSide side).updateAfterFillOrCancel (some lp))
  refine ⟨?_, forall_side side ?_ ?_, forall_side side ?_ ?_, forall_side side ?_ ?_,
    fun r => ?_, ?_, ?_, ?_⟩
  · rw [hconfig, ← h.config]
    cases side <;> rfl
  · rw [hself, horders]
    refine ⟨queue, _, hok', ?_⟩
    rw [QueueBook.levels_putFront, PerpexEngine.settleFront, List.nil_append]
    split_ifs
    · exact hafter.symm
    · rw [List.map_cons, hafter]
  · rw [hother, horders]
    obtain ⟨queue₁, view₁, hok₁, hview₁⟩ := h.sides side.opposite
    refine ⟨queue₁, view₁, hok₁, ?_⟩
    rw [← hview₁]
    cases side <;> rfl
  · rw [hself, hshape.side, h.side_eq]
  · rw [hother, h.side_eq]
  · rw [hself, hconfig, hshape.tickSize, h.tick_eq]
  · rw [hother, hconfig, h.tick_eq]
  · rw [horders, ← h.records, (QueueBook.putFront_perm _ _ _ _).mem_iff,
      (QueueBook.activeOrders_perm q side).mem_iff, hlevels, ordersOf_cons]
  · rw [horders]
    exact h.attached
  · rw [horders, hbyId]
    exact h.byId
  · rw [horders, hbyClient]
    exact h.byClient

/-- What the pointer book sees of the front level. -/
theorem front (h : BookRep book q) (hlevels : q.levels side = l :: levels) :
    ∃ queue after lp lv p o rest,
      SideOk (book.bookForSide side) book.orders queue ((lp, l) :: after) ∧
      levels = after.map (·.2) ∧ (book.bookForSide side).levels.read lp = some lv ∧
      lv.totalQuantity = l.totalQuantity ∧ (queue lp).head? = some p ∧
      book.orders.read p = some o ∧ o.priceLevel = some lp ∧ o.side = side ∧
      l.orders = o.toOrderSnapshot :: rest ∧ o.price = l.price ∧
      (book.bookForSide side).cachedBestLevel = some lp ∧
      (book.bookForSide side).bestOrder = some p := by
  obtain ⟨queue, view, hok, hview⟩ := h.sides side
  rw [hlevels] at hview
  obtain ⟨⟨lp, a⟩, after, rfl, hx, hafter⟩ := List.map_eq_cons_iff.1 hview.symm
  obtain rfl : a = l := hx
  obtain ⟨lv, p, o, rest, hlv, htotal, -, hhead, ho, hlp, hside, ha, hprice, -, hbest⟩ :=
    hok.best_cons
  exact ⟨queue, after, lp, lv, p, o, rest, hok, hafter.symm, hlv, htotal, hhead, ho, hlp,
    hside.trans (h.side_eq side), ha, hprice, hok.cached, hbest⟩

end Fill

end BookRep

/-- The two matching loops side by side. -/
structure MatchRep (s : OrderBook.MatchState) (t : QueueBook.MatchState) : Prop where
  book : BookRep s.book t.book
  ok : t.book.Ok
  incoming : s.incoming = t.incoming
  sequenceGenerator : s.sequenceGenerator = t.sequenceGenerator

namespace MatchRep
variable {s : OrderBook.MatchState} {t t' : QueueBook.MatchState} {events : List EngineEvent}

theorem putFront_setLevels (book : QueueBook) (side : Side) (l : LevelQueue)
    (levels levels' : List LevelQueue) :
    (book.setLevels side levels').putFront side l levels = book.putFront side l levels := by
  cases side <;> rfl

/-- A fill of the level queues is a fill of the pointer book. -/
theorem matchStep_some (h : MatchRep s t) (hstep : QueueBook.matchStep t = some (events, t')) :
    ∃ s', OrderBook.matchStep s = some (events, s') ∧ MatchRep s' t' := by
  have hok' := h.ok.matchStep hstep
  obtain ⟨l, levels, maker, rest, hlevels, hl, hopen, hcross, hevents, hbook, hinc⟩ :=
    QueueBook.matchStep_cases hstep
  obtain ⟨book, incoming, g⟩ := s
  obtain ⟨hrep, hok, hincoming, hgen⟩ := h
  dsimp only at hrep hincoming hgen
  subst hincoming hgen
  obtain ⟨queue, after, lp, lv, p, o, rest', hside, hafter, hlv, htotal, hhead, ho, hlp, hs, ha,
    hprice, hcached, hbest⟩ := hrep.front hlevels
  obtain ⟨rfl, rfl⟩ := List.cons.inj (hl.symm.trans ha)
  generalize hf : t.incoming.remainingQuantity.min o.remainingQuantity = f at hevents hbook hinc
  have hreduced := (hrep.reduceFront hok.toKeyed hlevels hl hside hafter ho hlp hhead
    f).setLastTradePrice (some o.price)
  have hcross' : (book.bookForSide t.incoming.side.opposite).priceCrosses t.incoming.price =
      true := by
    rw [hrep.priceCrosses, hlevels]
    exact hcross
  have htotal' : OrderBook.totalAtLevel { book.bookForSide t.incoming.side.opposite with
      levels := (book.bookForSide t.incoming.side.opposite).levels.modify lp (·.decreaseTotal f) }
      (some lp) = l.totalQuantity.decrease f := by
    simp only [OrderBook.totalAtLevel, Option.bind_some, Heap.read_modify_self, hlv,
      Option.map_some, PriceLevel.decreaseTotal, htotal]
  simp only [OrderBook.matchStep, hopen, Bool.false_eq_true, ↓reduceIte, hbest, hcross',
    Bool.not_true, ho, hf, hlp, htotal']
  rw [← hrep.config, hevents]
  refine ⟨_, rfl, ?_, hok', hinc.symm, rfl⟩
  rw [hbook]
  generalize t.incoming.side.opposite = side at *
  split_ifs with hfilled
  · rw [← QueueBook.releaseOrder_reduceFront hok.toKeyed hlevels hl hfilled]
    have hread : (BookRep.reduced book side lp p f).orders.read p = some (o.reduce f) := by
      change (book.orders.modify p _).read p = _
      rw [Heap.read_modify_self, ho]
      rfl
    have hrelease := hreduced.releaseOrder (hok.toKeyed.reduceFront hlevels hl f) hread
    have hs' : (o.reduce f).side = side := hs
    rw [hs'] at hrelease
    exact hrelease
  · have hcached' : ((BookRep.reduced book side lp p f).bookForSide side).cachedBestLevel =
        some lp := by
      rw [BookRep.reduced_self]
      exact hcached
    have hsettled := hreduced.settleFront QueueBook.levels_setLevels_self hcached'
    rw [putFront_setLevels] at hsettled
    have hlevel : QueueBook.afterFill l o.toOrderSnapshot rest f =
        QueueBook.reducedLevel l o.toOrderSnapshot rest f := by
      rw [QueueBook.afterFill, if_neg (by simpa using hfilled)]
      rfl
    rw [hlevel]
    convert hsettled using 1
    cases side <;> rfl

/-- Where the level queues allow no further fill, the pointer book stops as well. -/
theorem matchStep_none (h : MatchRep s t) (hstep : QueueBook.matchStep t = none) :
    OrderBook.matchStep s = none := by
  obtain ⟨book, incoming, g⟩ := s
  obtain ⟨hrep, hok, hincoming, hgen⟩ := h
  dsimp only at hrep hincoming hgen
  subst hincoming hgen
  by_cases hfilled : t.incoming.isFilled = true
  · simp only [OrderBook.matchStep, hfilled, ↓reduceIte]
  simp only [QueueBook.matchStep, hfilled, Bool.false_eq_true, ↓reduceIte] at hstep
  simp only [OrderBook.matchStep, hfilled, Bool.false_eq_true, ↓reduceIte]
  cases hlevels : t.book.levels t.incoming.side.opposite with
  | nil => simp [SideBook.bestOrder, hrep.bestLevel_nil hlevels]
  | cons l levels =>
    obtain ⟨queue, after, lp, lv, p, o, rest, -, -, -, -, -, -, -, -, hl, -, -, hbest⟩ :=
      hrep.front hlevels
    rw [hlevels] at hstep
    simp only [hl] at hstep
    split_ifs at hstep with hcross
    have hcross' : (book.bookForSide t.incoming.side.opposite).priceCrosses t.incoming.price =
        false := by
      rw [hrep.priceCrosses, hlevels, QueueBook.priceCrosses]
      simpa using hcross
    simp [hbest, hcross']

/-- Loops of equal length run in step. -/
theorem matchLoop (h : MatchRep s t) (n : ℕ) :
    (OrderBook.matchLoop n s).1 = (QueueBook.matchLoop n t).1 ∧
      MatchRep (OrderBook.matchLoop n s).2 (QueueBook.matchLoop n t).2 := by
  induction n generalizing s t with
  | zero => exact ⟨rfl, h⟩
  | succ n ih =>
    cases hs : QueueBook.matchStep t with
    | none =>
      rw [OrderBook.matchLoop, h.matchStep_none hs, QueueBook.matchLoop_of_none hs]
      exact ⟨rfl, h⟩
    | some r =>
      obtain ⟨events, t'⟩ := r
      obtain ⟨s', hs', h'⟩ := h.matchStep_some hs
      obtain ⟨hevents, hrep⟩ := ih h'
      rw [OrderBook.matchLoop, hs', QueueBook.matchLoop_of_some hs]
      exact ⟨congrArg _ hevents, hrep⟩

/-- The registered orders outnumber those of one side, so the loop of the code is long enough. -/
theorem length_le_size {book : OrderBook} {q : QueueBook} (h : BookRep book q) (hq : q.Keyed)
    (side : Side) : (ordersOf (q.levels side)).length ≤ book.orderById.size := by
  have hids : ((ordersOf (q.levels side)).map (·.orderId)).Nodup := by
    have hperm := ((QueueBook.activeOrders_perm q side).map (·.orderId)).nodup_iff.1 hq.ids
    rw [List.map_append] at hperm
    exact (List.nodup_append.1 hperm).1
  have hsub : (ordersOf (q.levels side)).map (·.orderId) ⊆ book.orderById.keys := by
    intro id hid
    obtain ⟨r, hr, rfl⟩ := List.mem_map.1 hid
    obtain ⟨p, hp⟩ := (h.records r).1 ((QueueBook.mem_activeOrders side).2 (Or.inl hr))
    have hfind := (h.byId r.orderId p).2 ⟨r, hp, rfl⟩
    rw [Std.ExtTreeMap.mem_keys, Std.ExtTreeMap.mem_iff_contains,
      Std.ExtTreeMap.contains_eq_isSome_getElem?, hfind]
    rfl
  have hlen := (List.subperm_of_subset hids hsub).length_le
  rwa [List.length_map, Std.ExtTreeMap.length_keys] at hlen

/-- Matching an incoming order to its end. -/
theorem matchIncomingOrder (h : MatchRep s t) :
    (OrderBook.matchIncomingOrder s).1 = (QueueBook.matchIncomingOrder t).1 ∧
      MatchRep (OrderBook.matchIncomingOrder s).2 (QueueBook.matchIncomingOrder t).2 := by
  have hle := length_le_size h.book h.ok.toKeyed t.incoming.side.opposite
  have hrounds := QueueBook.roundsLeft_le t
  rw [OrderBook.matchIncomingOrder, QueueBook.matchIncomingOrder,
    QueueBook.matchLoop_stable _ (s.book.orderById.size + 1) t hrounds (by omega)]
  exact h.matchLoop _

end MatchRep
end PerpexEngine
