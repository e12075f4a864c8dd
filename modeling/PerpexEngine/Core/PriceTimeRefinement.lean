import PerpexEngine.Core.CoreRefinement
import PerpexEngine.Core.QueueTotals

/-! While every total fits its word, the level queues read from front to back are the lists of the
naive price-time book, and both books answer every command alike. -/
namespace PerpexEngine
open LinkedQueue

section Lists
variable {side : Side} {x : OrderSnapshot} {xs ys : List OrderSnapshot} {levels : List LevelQueue}

/-- The levels of one side, as `QueueBook.Sorted` has them. -/
structure SortedLevels (side : Side) (levels : List LevelQueue) : Prop where
  ranked : Ranked (fun l : LevelQueue => side.rank l.price) levels
  nonempty : ∀ l ∈ levels, l.orders ≠ []
  prices : ∀ l ∈ levels, ∀ o ∈ l.orders, o.price = l.price

theorem QueueBook.Sorted.sortedLevels {book : QueueBook} (h : book.Sorted) (s : Side) :
    SortedLevels s (book.levels s) :=
  ⟨h.ranked s, h.nonempty s, h.prices s⟩

theorem SortedLevels.tail {l : LevelQueue} (h : SortedLevels side (l :: levels)) :
    SortedLevels side levels :=
  ⟨h.ranked.tail, fun a ha => h.nonempty a (List.mem_cons_of_mem _ ha),
    fun a ha => h.prices a (List.mem_cons_of_mem _ ha)⟩

/-- Orders of later levels are ranked behind those of the front level. -/
theorem SortedLevels.rank_lt {l : LevelQueue} (h : SortedLevels side (l :: levels))
    {r : OrderSnapshot} (hr : r ∈ ordersOf levels) : side.rank l.price < side.rank r.price := by
  obtain ⟨a, ha, hra⟩ := mem_ordersOf.1 hr
  rw [h.prices a (List.mem_cons_of_mem _ ha) r hra]
  exact h.ranked.head_lt ha

theorem restingTotal_append (price : Price) (xs ys : List OrderSnapshot) :
    restingTotal price (xs ++ ys) = restingTotal price xs + restingTotal price ys := by
  simp [restingTotal]

theorem restingTotal_same {price : Price} (h : ∀ r ∈ xs, r.price = price) :
    restingTotal price xs = lotsOf xs := by
  rw [restingTotal, List.filter_eq_self.2 fun r hr => decide_eq_true (h r hr), lotsOf]

theorem restingTotal_other {price : Price} (h : ∀ r ∈ xs, r.price ≠ price) :
    restingTotal price xs = 0 := by
  rw [restingTotal, List.filter_eq_nil_iff.2 fun r hr => by simpa using h r hr]
  rfl

/-- What rests at the price of a level is what the level holds. -/
theorem SortedLevels.restingTotal (h : SortedLevels side levels) {l : LevelQueue}
    (hl : l ∈ levels) : restingTotal l.price (ordersOf levels) = lotsOf l.orders := by
  induction levels with
  | nil => cases hl
  | cons a levels ih =>
    rw [ordersOf_cons, restingTotal_append]
    rcases List.mem_cons.1 hl with rfl | hl
    · rw [restingTotal_same (h.prices l List.mem_cons_self), restingTotal_other fun r hr heq => ?_,
        Nat.add_zero]
      have hlt := h.rank_lt hr
      rw [heq] at hlt
      exact lt_irrefl _ hlt
    · rw [ih h.tail hl, restingTotal_other fun r hr heq => ?_, Nat.zero_add]
      have hlt := h.ranked.head_lt hl
      rw [← heq, h.prices a List.mem_cons_self r hr] at hlt
      exact lt_irrefl _ hlt

theorem insertByPriceTime_append (h : ∀ r ∈ xs, ¬side.rank x.price < side.rank r.price) :
    insertByPriceTime side x (xs ++ ys) = xs ++ insertByPriceTime side x ys := by
  induction xs with
  | nil => rfl
  | cons r xs ih =>
    rw [List.cons_append, insertByPriceTime, if_neg (h r List.mem_cons_self),
      ih fun r hr => h r (List.mem_cons_of_mem _ hr)]
    rfl

theorem insertByPriceTime_front (h : ∀ r ∈ xs, side.rank x.price < side.rank r.price) :
    insertByPriceTime side x xs = x :: xs := by
  cases xs with
  | nil => rfl
  | cons r xs => rw [insertByPriceTime, if_pos (h r List.mem_cons_self)]

/-- Joining the queue of a price is joining the list by price and time. -/
theorem ordersOf_insertOrder (h : SortedLevels side levels) (x : OrderSnapshot) :
    ordersOf (insertOrder side x levels) = insertByPriceTime side x (ordersOf levels) := by
  induction levels with
  | nil => rfl
  | cons l levels ih =>
    have hl := h.prices l List.mem_cons_self
    rw [insertOrder, ordersOf_cons]
    split_ifs with hlt heq
    · change x :: ordersOf (l :: levels) = _
      rw [ordersOf_cons]
      refine (insertByPriceTime_front fun r hr => ?_).symm
      rcases List.mem_append.1 hr with hr | hr
      · rwa [hl r hr]
      · exact hlt.trans (h.rank_lt hr)
    · have hsame : ∀ r ∈ l.orders, ¬side.rank x.price < side.rank r.price := fun r hr => by
        rwa [hl r hr]
      have hbehind : ∀ r ∈ ordersOf levels, side.rank x.price < side.rank r.price := fun r hr => by
        rw [heq]
        exact h.rank_lt hr
      rw [ordersOf_cons, insertByPriceTime_append hsame, insertByPriceTime_front hbehind,
        List.append_assoc]
      rfl
    · have hsame : ∀ r ∈ l.orders, ¬side.rank x.price < side.rank r.price := fun r hr => by
        rwa [hl r hr]
      rw [ordersOf_cons, ih h.tail, insertByPriceTime_append hsame]

/-- Taking an order out of the levels is dropping it from the list. -/
theorem ordersOf_takeOrder (hids : ((ordersOf levels).map (·.orderId)).Nodup)
    (hdropped : (takeOrder x levels).2 = []) :
    ordersOf (takeOrder x levels).1 =
      (ordersOf levels).filter fun r => decide (r.orderId ≠ x.orderId) := by
  induction levels with
  | nil => rfl
  | cons l levels ih =>
    rw [ordersOf_cons, List.map_append, List.nodup_append] at hids
    obtain ⟨-, hlevels, hdisj⟩ := hids
    rw [takeOrder] at hdropped ⊢
    rw [ordersOf_cons, List.filter_append]
    split_ifs at hdropped ⊢ with hhas
    · obtain ⟨r, hr, hid⟩ := hasOrder_eq_true.1 hhas
      have hrest : (ordersOf levels).filter (fun r => decide (r.orderId ≠ x.orderId)) =
          ordersOf levels := List.filter_eq_self.2 fun r' hr' => decide_eq_true fun heq =>
        hdisj _ (List.mem_map_of_mem hr) _ (List.mem_map_of_mem hr') (hid.trans heq.symm)
      rw [hrest]
      rw [settleFront] at hdropped ⊢
      split_ifs at hdropped ⊢
      · change l.orders.filter _ = [] at hdropped
        rw [hdropped]
        rfl
      · rfl
    · have hl : l.orders.filter (fun r => decide (r.orderId ≠ x.orderId)) = l.orders :=
        List.filter_eq_self.2 fun r hr => decide_eq_true fun heq =>
          hhas (hasOrder_eq_true.2 ⟨r, hr, heq⟩)
      rw [ordersOf_cons, ih hlevels hdropped, hl]

/-- A saturated sum of crossing totals decides like the true one. -/
theorem crossingLots_lt {price : Price} {limit : Option Price}
    (hlimit : ∀ p, crosses side limit p = crossesLevel side price p)
    (h : SortedLevels side levels)
    (htotal : ∀ l ∈ levels, l.totalQuantity.lots = lotsOf l.orders) {stop : ℕ}
    (hstop : stop < 2 ^ 64) (total : ℕ) :
    OrderBook.crossingLots side price stop total (levelTotals levels) < stop ↔
      total + crossingTotal side limit (ordersOf levels) < stop := by
  induction levels generalizing total with
  | nil => simp [levelTotals, OrderBook.crossingLots, crossingTotal]
  | cons l levels ih =>
    have hl := htotal l List.mem_cons_self
    have hprices := h.prices l List.mem_cons_self
    have hsplit : crossingTotal side limit (ordersOf (l :: levels)) =
        if crossesLevel side price l.price then
          lotsOf l.orders + crossingTotal side limit (ordersOf levels) else 0 := by
      rw [crossingTotal, ordersOf_cons]
      split_ifs with hc
      · rw [List.takeWhile_append_of_pos fun r hr => by rw [hprices r hr, hlimit, hc],
          List.map_append, List.sum_append]
        rfl
      · obtain ⟨r, rs, hrs⟩ := List.exists_cons_of_ne_nil (h.nonempty l List.mem_cons_self)
        have hr := hprices r (by rw [hrs]; exact List.mem_cons_self)
        rw [hrs, List.cons_append, List.takeWhile_cons_of_neg (by rwa [hr, hlimit])]
        rfl
    rw [hsplit, levelTotals, List.map_cons, OrderBook.crossingLots]
    simp only [Bool.not_eq_true', hl]
    cases hc : crossesLevel side price l.price
    · simp
    · simp only [Bool.true_eq_false, ↓reduceIte]
      split_ifs with hsat hdone
      · constructor <;> intro hlt <;> omega
      · constructor <;> intro hlt <;> omega
      · have hrec := ih h.tail (fun a ha => htotal a (List.mem_cons_of_mem _ ha))
          (total + lotsOf l.orders)
        rw [levelTotals] at hrec
        rw [hrec, Nat.add_assoc]

end Lists

/-- A represented book is sorted. -/
theorem BookRep.sorted {book : OrderBook} {q : QueueBook} (h : BookRep book q) : q.Sorted := by
  constructor
  · intro side
    obtain ⟨queue, view, hok, hview⟩ := h.sides side
    have hranked := hok.ranked
    rw [h.side_eq] at hranked
    rw [hview]
    exact List.pairwise_map.2 hranked
  · intro side l hl
    obtain ⟨queue, view, hok, hview⟩ := h.sides side
    rw [hview] at hl
    obtain ⟨x, hx, rfl⟩ := List.mem_map.1 hl
    exact hok.settled x hx
  · intro side l hl
    obtain ⟨queue, view, hok, hview⟩ := h.sides side
    rw [hview] at hl
    obtain ⟨x, hx, rfl⟩ := List.mem_map.1 hl
    obtain ⟨level, -, hr⟩ := hok.rep x.1 x.2 hx
    exact hr.prices

namespace QueueBook

theorem totalAfterCancel_lots (total released : Quantity) :
    (OrderBook.totalAfterCancel total released).lots = total.lots - released.lots := by
  rw [OrderBook.totalAfterCancel]
  split_ifs with hlt
  · exact Quantity.lots_subtractLots hlt.le
  · rw [Quantity.lots_zero]
    omega

/-- Removing an order removes its lots from the total at its price. -/
theorem restingTotal_filter {book : QueueBook} {side : Side} {x : OrderSnapshot}
    (hx : x ∈ ordersOf (book.levels side)) (h : book.Keyed) :
    restingTotal x.price ((ordersOf (book.levels side)).filter fun r => r.orderId ≠ x.orderId) +
      x.remainingQuantity.lots = restingTotal x.price (ordersOf (book.levels side)) := by
  have hids := ((activeOrders_perm book side).map (·.orderId)).nodup_iff.1 h.ids
  rw [List.map_append] at hids
  have hsub := (List.nodup_append.1 hids).1.sublist (List.filter_sublist
    (p := fun r : OrderSnapshot => decide (r.price = x.price)).map (·.orderId))
  have hlots := lotsOf_filter (List.mem_filter.2 ⟨hx, decide_eq_true rfl⟩) hsub
  rw [List.filter_comm] at hlots
  exact hlots

/-- Everything that holds of the level queues while the totals fit their words. -/
structure Exact (book : QueueBook) : Prop where
  ok : book.Ok
  totals : book.Totals
  whole : book.Whole
  sorted : book.Sorted

variable {book : QueueBook} {s s' : MatchState} {events : List EngineEvent} {side : Side}
  {x : OrderSnapshot}

theorem Exact.matchStep (h : s.book.Exact) (hstep : matchStep s = some (events, s')) :
    s'.book.Exact :=
  ⟨h.ok.matchStep hstep, h.totals.matchStep hstep, h.whole.matchStep h.totals h.ok hstep,
    h.sorted.matchStep hstep⟩

theorem Exact.matchLoop (h : s.book.Exact) (n : ℕ) : (matchLoop n s).2.book.Exact :=
  matchLoop_induction (P := fun s => s.book.Exact) (fun _ _ _ h hs => h.matchStep hs) n s h

theorem Exact.total (h : book.Exact) {l : LevelQueue} (hl : l ∈ book.levels side) :
    l.totalQuantity.lots = lotsOf l.orders := h.whole.total h.totals hl

/-- The total behind a resting order is what rests at its price. -/
theorem Exact.totalHolding (h : book.Exact) (hx : x ∈ ordersOf (book.levels side)) :
    (totalHolding x.orderId (book.levels side)).lots =
      restingTotal x.price (ordersOf (book.levels side)) := by
  obtain ⟨l, hl, hxl⟩ := mem_ordersOf.1 hx
  have hsome : ((book.levels side).find? (·.hasOrder x.orderId)).isSome :=
    List.find?_isSome.2 ⟨l, hl, hasOrder_eq_true.2 ⟨x, hxl, rfl⟩⟩
  obtain ⟨a, ha⟩ := Option.isSome_iff_exists.1 hsome
  have hmem := List.mem_of_find?_eq_some ha
  have hhas : a.hasOrder x.orderId = true :=
    List.find?_some (p := fun b : LevelQueue => b.hasOrder x.orderId) ha
  have hxa := h.ok.mem_of_hasOrder ((mem_activeOrders side).2 (Or.inl hx)) hmem hhas
  rw [PerpexEngine.totalHolding, ha, h.sorted.prices side a hmem x hxa,
    (h.sorted.sortedLevels side).restingTotal hmem]
  exact h.total hmem

theorem Sorted.restingTotal_lt (h : book.Sorted)
    (hfits : ∀ side, ∀ l ∈ book.levels side, lotsOf l.orders < 2 ^ 64) (side : Side)
    (price : Price) : restingTotal price (ordersOf (book.levels side)) < 2 ^ 64 := by
  by_cases hprice : ∃ r ∈ ordersOf (book.levels side), r.price = price
  · obtain ⟨r, hr, rfl⟩ := hprice
    obtain ⟨l, hl, hrl⟩ := mem_ordersOf.1 hr
    rw [h.prices side l hl r hrl, (h.sortedLevels side).restingTotal hl]
    exact hfits side l hl
  · rw [restingTotal_other fun r hr heq => hprice ⟨r, hr, heq⟩]
    decide

theorem Exact.restingTotal_lt (h : book.Exact) (side : Side) (price : Price) :
    restingTotal price (ordersOf (book.levels side)) < 2 ^ 64 :=
  h.sorted.restingTotal_lt h.whole.fits side price

/-- Releasing an order drops it from the queues and keeps the rest in place. -/
theorem Exact.ordersOf_releaseOrder (h : book.Exact) (hx : x ∈ book.activeOrders) : ∀ s,
    ordersOf ((book.releaseOrder x).levels s) =
      (ordersOf (book.levels s)).filter fun r => decide (r.orderId ≠ x.orderId) := by
  have hdropped := h.whole.takeOrder_dropped h.totals h.ok hx
  have hids := ((activeOrders_perm book x.side).map (·.orderId)).nodup_iff.1 h.ok.ids
  rw [List.map_append] at hids
  have hself := ordersOf_takeOrder (List.nodup_append.1 hids).1 hdropped
  refine forall_side x.side ?_ ?_
  · rw [← hself, QueueBook.releaseOrder]
    cases x.side <;> rfl
  · have hlevels : (book.releaseOrder x).levels x.side.opposite = book.levels x.side.opposite := by
      rw [QueueBook.releaseOrder]
      cases x.side <;> rfl
    rw [hlevels, List.filter_eq_self.2]
    intro r hr
    refine decide_eq_true fun heq => ?_
    have hside := h.ok.sided _ r hr
    rw [h.ok.eq_of_id ((mem_activeOrders x.side).2 (Or.inr (Or.inl hr))) hx heq] at hside
    cases hs : x.side <;> rw [hs] at hside <;> cases hside

theorem levels_matchLoop_same (n : ℕ) (s : MatchState) :
    (QueueBook.matchLoop n s).2.book.levels s.incoming.side = s.book.levels s.incoming.side ∧
      (QueueBook.matchLoop n s).2.book.symbolConfig = s.book.symbolConfig ∧
      (QueueBook.matchLoop n s).2.incoming.side = s.incoming.side := by
  refine matchLoop_induction (P := fun t => t.book.levels s.incoming.side =
    s.book.levels s.incoming.side ∧ t.book.symbolConfig = s.book.symbolConfig ∧
      t.incoming.side = s.incoming.side) ?_ n s ⟨rfl, rfl, rfl⟩
  rintro t events t' ⟨hlevels, hconfig, hside⟩ hstep
  obtain ⟨_, _, _, _, _, _, _, _, _, hbook, hinc⟩ := matchStep_cases hstep
  have hinc' : t'.incoming.side = s.incoming.side := by
    rw [hinc, ← hside]
    rfl
  refine ⟨?_, ?_, hinc'⟩ <;> rw [hbook, hside]
  · rw [← hlevels]
    cases s.incoming.side <;> rfl
  · rw [← hconfig]
    cases s.incoming.side <;> rfl

end QueueBook

section Walk
variable {limit : Option Price} {side : Side}

theorem crosses_limitOf (command : PlaceOrderCommand) (p : Price) :
    crosses command.side.opposite (limitOf command) p =
      crossesLevel command.side.opposite (matchingPriceForCommand command) p := by
  rw [limitOf, matchingPriceForCommand]
  cases command.orderType with
  | limit => rfl
  | market =>
    have hp := p.inRange
    cases command.side with
    | buy => exact (decide_eq_true (by change p.ticks ≤ 2 ^ 63 - 1; omega)).symm
    | sell => exact (decide_eq_true (by change (-2 ^ 63 : ℤ) ≤ p.ticks; omega)).symm

variable {t t' : QueueBook.MatchState} {events : List EngineEvent}

theorem walk_of_none (h : SortedLevels t.incoming.side.opposite
      (t.book.levels t.incoming.side.opposite))
    (hlimit : ∀ p, crosses t.incoming.side.opposite limit p =
      crossesLevel t.incoming.side.opposite t.incoming.price p)
    (hstep : QueueBook.matchStep t = none) (symbolId : SymbolId) (g : SequenceGenerator) :
    walk symbolId t.incoming.side.opposite limit
      (ordersOf (t.book.levels t.incoming.side.opposite)) t.incoming g =
        ⟨[], ordersOf (t.book.levels t.incoming.side.opposite), t.incoming, g⟩ := by
  cases hlevels : t.book.levels t.incoming.side.opposite with
  | nil => rfl
  | cons l levels =>
    rw [hlevels] at h
    obtain ⟨maker, rest, hl⟩ := List.exists_cons_of_ne_nil (h.nonempty l List.mem_cons_self)
    have hprice := h.prices l List.mem_cons_self maker (by rw [hl]; exact List.mem_cons_self)
    rw [ordersOf_cons, hl, List.cons_append, walk, if_pos]
    rw [Bool.or_eq_true, hlimit, hprice]
    by_contra hno
    simp only [Bool.not_eq_true', not_or, Bool.not_eq_true, Bool.not_eq_false] at hno
    simp [QueueBook.matchStep, hno.1, hlevels, hl, hno.2] at hstep

/-- One fill of the level queues is one step of the walk. -/
theorem walk_of_some (h : t.book.Exact)
    (hlimit : ∀ p, crosses t.incoming.side.opposite limit p =
      crossesLevel t.incoming.side.opposite t.incoming.price p)
    (hstep : QueueBook.matchStep t = some (events, t')) :
    walk t.book.symbolConfig.symbolId t.incoming.side.opposite limit
      (ordersOf (t.book.levels t.incoming.side.opposite)) t.incoming t.sequenceGenerator =
        let w := walk t.book.symbolConfig.symbolId t.incoming.side.opposite limit
          (ordersOf (t'.book.levels t.incoming.side.opposite)) t'.incoming t'.sequenceGenerator
        { w with events := events ++ w.events } := by
  have hpost := h.matchStep hstep
  obtain ⟨l, levels, maker, rest, hlevels, hl, hopen, hcross, hevents, hbook, hinc⟩ :=
    QueueBook.matchStep_cases hstep
  have hle := Quantity.min_lots_le_right t.incoming.remainingQuantity maker.remainingQuantity
  have hmin := Quantity.lots_min t.incoming.remainingQuantity maker.remainingQuantity
  generalize t.incoming.side.opposite = side at *
  have hsorted := h.sorted.sortedLevels side
  rw [hlevels] at hsorted
  have hmem : l ∈ t.book.levels side := by rw [hlevels]; exact List.mem_cons_self
  have hprices := hsorted.prices l List.mem_cons_self
  have hmaker := hprices maker (by rw [hl]; exact List.mem_cons_self)
  have htotal := h.total hmem
  have hfit := h.whole.fits side l hmem
  generalize hf : t.incoming.remainingQuantity.min maker.remainingQuantity = f at *
  have hlots := QueueBook.reduce_lots hle
  have hrest : restingTotal maker.price (maker.reduce f :: (rest ++ ordersOf levels)) =
      lotsOf l.orders - f.lots := by
    have hsame : ∀ r ∈ maker.reduce f :: rest, r.price = maker.price := by
      intro r hr
      rcases List.mem_cons.1 hr with rfl | hr
      · rfl
      · rw [hmaker]
        exact hprices r (by rw [hl]; exact List.mem_cons_of_mem _ hr)
    rw [← List.cons_append, restingTotal_append, restingTotal_same hsame,
      restingTotal_other fun r hr heq => ?_, hl, lotsOf_cons, lotsOf_cons, hlots]
    · omega
    · have hlt := hsorted.rank_lt hr
      rw [heq, hmaker] at hlt
      exact lt_irrefl _ hlt
  have hdelta : l.totalQuantity.decrease f =
      .ofLots (restingTotal maker.price (maker.reduce f :: (rest ++ ordersOf levels))) := by
    ext
    rw [Quantity.lots_decrease, htotal, hrest, Quantity.lots_ofLots (by omega)]
  have hwalk : crosses side limit maker.price = true := by rw [hlimit, hmaker, hcross]
  have hnext : ordersOf (t'.book.levels side) =
      (if (maker.reduce f).isFilled then rest else maker.reduce f :: rest) ++ ordersOf levels := by
    have hdropped := hpost.whole.detached
    rw [hbook] at hdropped ⊢
    have hnil : (settleFront (QueueBook.afterFill l maker rest f) levels).2 = [] :=
      (List.append_eq_nil_iff.1 hdropped).2
    rw [QueueBook.levels_putFront]
    rw [settleFront] at hnil ⊢
    split_ifs at hnil ⊢ with hdone hfilled <;>
      simp_all [QueueBook.afterFill]
  rw [hlevels, ordersOf_cons, hl, List.cons_append, walk, if_neg (by simp [hopen, hwalk]), hnext]
  simp only [hf, ← hdelta, hevents, ← hinc]
  split_ifs with hfilled
  · rfl
  · have hfull : t'.incoming.isFilled = true := by
      rw [QueueBook.isFilled_iff, hlots] at hfilled
      rw [QueueBook.isFilled_iff, hinc, QueueBook.reduce_lots (by omega)]
      omega
    rw [List.cons_append, walk, if_pos (by simp [hfull])]
    simp

/-- Matching to the end is walking the list. -/
theorem walk_eq_matchLoop (n : ℕ) (h : t.book.Exact)
    (hlimit : ∀ p, crosses t.incoming.side.opposite limit p =
      crossesLevel t.incoming.side.opposite t.incoming.price p)
    (hn : QueueBook.roundsLeft t ≤ n) :
    walk t.book.symbolConfig.symbolId t.incoming.side.opposite limit
      (ordersOf (t.book.levels t.incoming.side.opposite)) t.incoming t.sequenceGenerator =
        ⟨(QueueBook.matchLoop n t).1,
          ordersOf ((QueueBook.matchLoop n t).2.book.levels t.incoming.side.opposite),
          (QueueBook.matchLoop n t).2.incoming, (QueueBook.matchLoop n t).2.sequenceGenerator⟩ := by
  induction n generalizing t with
  | zero =>
    have hnone := QueueBook.matchStep_of_roundsLeft (Nat.le_zero.1 hn)
    rw [QueueBook.matchLoop_of_none hnone]
    exact walk_of_none (h.sorted.sortedLevels _) hlimit hnone _ _
  | succ n ih =>
    cases hs : QueueBook.matchStep t with
    | none =>
      rw [QueueBook.matchLoop_of_none hs]
      exact walk_of_none (h.sorted.sortedLevels _) hlimit hs _ _
    | some r =>
      obtain ⟨events, t'⟩ := r
      have hlt := QueueBook.roundsLeft_lt hs
      obtain ⟨_, _, _, _, _, _, _, _, _, hbook, hinc⟩ := QueueBook.matchStep_cases hs
      have hside : t'.incoming.side = t.incoming.side := by rw [hinc]; rfl
      have hprice : t'.incoming.price = t.incoming.price := by rw [hinc]; rfl
      have hconfig : t'.book.symbolConfig = t.book.symbolConfig := by
        rw [hbook]
        cases t.incoming.side.opposite <;> rfl
      have hrec := ih (h.matchStep hs) (by rwa [hside, hprice]) (by omega)
      rw [hside, hconfig] at hrec
      rw [walk_of_some h hlimit hs, hrec, QueueBook.matchLoop_of_some hs]

end Walk

/-- The lists of the naive book are the level queues read from front to back. -/
structure Flattens (q : QueueBook) (n : PriceTimeBook) : Prop where
  config : n.symbolConfig = q.symbolConfig
  resting : ∀ side, n.resting side = ordersOf (q.levels side)

/-- The naive book describes the pointer book, whose totals fit. -/
def Shows (book : OrderBook) (n : PriceTimeBook) : Prop :=
  ∃ q, Refines book q ∧ q.Exact ∧ Flattens q n

namespace Flattens
variable {q : QueueBook} {n : PriceTimeBook}

theorem active (h : Flattens q n) (hq : q.Exact) : n.bids ++ n.asks = q.activeOrders := by
  have hbids := h.resting .buy
  have hasks := h.resting .sell
  simp only [PriceTimeBook.resting, QueueBook.levels] at hbids hasks
  rw [hbids, hasks, QueueBook.activeOrders, hq.whole.detached, List.append_nil]

theorem lookup (h : Flattens q n) (hq : q.Exact) (id : OrderId) : n.lookup id = q.lookup id := by
  rw [PriceTimeBook.lookup, h.active hq, QueueBook.lookup]

theorem lookupClient (h : Flattens q n) (hq : q.Exact) (id : ClientOrderId) :
    n.lookupClient id = q.lookupClient id := by
  rw [PriceTimeBook.lookupClient, h.active hq, QueueBook.lookupClient]

theorem priceCrosses (h : Flattens q n) (hq : q.Exact) (side : Side) (price : Price) :
    ((n.resting side).head?.any fun o => crosses side (some price) o.price) =
      QueueBook.priceCrosses side (q.levels side) price := by
  have hsorted := hq.sorted.sortedLevels side
  rw [h.resting]
  cases hlevels : q.levels side with
  | nil => rfl
  | cons l levels =>
    rw [hlevels] at hsorted
    obtain ⟨maker, rest, hl⟩ := List.exists_cons_of_ne_nil (hsorted.nonempty l List.mem_cons_self)
    have hprice := hsorted.prices l List.mem_cons_self maker (by rw [hl]; exact List.mem_cons_self)
    rw [ordersOf_cons, hl, List.cons_append, List.head?_cons, Option.any_some, hprice]
    rfl

theorem placeRejection (h : Flattens q n) (hq : q.Exact) (command : PlaceOrderCommand) :
    q.placeRejection command = n.placeRejection command := by
  have hlots : OrderBook.crossingLots command.side.opposite (matchingPriceForCommand command)
      command.quantity.lots 0 (levelTotals (q.levels command.side.opposite)) <
        command.quantity.lots ↔ crossingTotal command.side.opposite (limitOf command)
          (ordersOf (q.levels command.side.opposite)) < command.quantity.lots := by
    rw [crossingLots_lt (crosses_limitOf command) (hq.sorted.sortedLevels _)
      (fun l hl => hq.total hl) command.quantity.inRange, Nat.zero_add]
  simp only [QueueBook.placeRejection, PriceTimeBook.placeRejection, h.lookup hq,
    h.lookupClient hq, h.config, h.priceCrosses hq, hlots, ← h.resting]

theorem fits (h : Flattens q n) (hq : q.Sorted) (hfits : n.Fits) (side : Side) :
    ∀ l ∈ q.levels side, lotsOf l.orders < 2 ^ 64 := by
  intro l hl
  rw [← (hq.sortedLevels side).restingTotal hl, ← h.resting]
  exact hfits side l.price

/-- What a match does to both books. -/
theorem match_ (h : Flattens q n) (hq : q.Exact) (command : PlaceOrderCommand)
    (g : SequenceGenerator) : ∃ events t,
      QueueBook.matchIncomingOrder ⟨q, incomingOrder command g.nextSequence, g.nextEvent⟩ =
        (events, t) ∧
      walk n.symbolConfig.symbolId command.side.opposite (limitOf command)
        (n.resting command.side.opposite) (incomingOrder command g.nextSequence) g.nextEvent =
          ⟨events, ordersOf (t.book.levels command.side.opposite), t.incoming,
            t.sequenceGenerator⟩ ∧
      t.book.Exact ∧ t.incoming.side = command.side ∧ t.incoming.orderId = command.orderId ∧
      Flattens t.book (n.setResting command.side.opposite
        (ordersOf (t.book.levels command.side.opposite))) := by
  generalize hs : (⟨q, incomingOrder command g.nextSequence, g.nextEvent⟩ :
    QueueBook.MatchState) = s
  have hexact : s.book.Exact := by rw [← hs]; exact hq
  have hlimit : ∀ p, crosses s.incoming.side.opposite (limitOf command) p =
      crossesLevel s.incoming.side.opposite s.incoming.price p := by
    rw [← hs]
    exact crosses_limitOf command
  have hwalk := walk_eq_matchLoop _ hexact hlimit (QueueBook.roundsLeft_le s)
  have hend := hexact.matchLoop ((ordersOf (s.book.levels s.incoming.side.opposite)).length + 1)
  obtain ⟨hsame, hconfig, hside⟩ := QueueBook.levels_matchLoop_same
    ((ordersOf (s.book.levels s.incoming.side.opposite)).length + 1) s
  obtain ⟨rem, hinc⟩ := QueueBook.matchLoop_incoming
    ((ordersOf (s.book.levels s.incoming.side.opposite)).length + 1) s
  have hcommand : s.incoming.side = command.side := by rw [← hs]; rfl
  generalize hm : QueueBook.matchLoop _ s = m at hwalk hend hsame hconfig hside hinc
  obtain ⟨events, t⟩ := m
  refine ⟨events, t, hm, ?_, hend, hside.trans hcommand, ?_, ?_, ?_⟩
  · rw [hcommand] at hwalk
    dsimp only at hwalk
    rw [← hwalk, ← hs, h.config, h.resting]
  · change t.incoming = _ at hinc
    rw [hinc, ← hs]
    rfl
  · change t.book.symbolConfig = _ at hconfig
    rw [hconfig, ← hs, ← h.config]
    cases command.side.opposite <;> rfl
  · refine forall_side command.side.opposite ?_ ?_
    · cases command.side <;> rfl
    · have hother := h.resting command.side
      rw [hcommand, ← hs] at hsame
      change t.book.levels command.side = q.levels command.side at hsame
      rw [Side.opposite_opposite, hsame, ← hother]
      cases command.side <;> rfl

/-- Resting on both books. -/
theorem restOrder (h : Flattens q n) {x : OrderSnapshot} {side : Side} (hside : x.side = side) :
    Flattens (q.restOrder x)
      (n.setResting side (ordersOf ((q.restOrder x).levels side))) := by
  subst hside
  constructor
  · rw [QueueBook.restOrder_eq]
    cases x.side <;> exact h.config
  · refine forall_side x.side ?_ ?_
    · cases x.side <;> rfl
    · have hother := h.resting x.side.opposite
      rw [QueueBook.restOrder, QueueBook.levels_setLevels_opposite, ← hother]
      cases x.side <;> rfl

theorem insertByPriceTime (h : Flattens q n) (hq : q.Sorted) {x : OrderSnapshot} {side : Side}
    (hside : x.side = side) : PerpexEngine.insertByPriceTime side x (n.resting side) =
      ordersOf ((q.restOrder x).levels side) := by
  subst hside
  rw [h.resting, QueueBook.restOrder, QueueBook.levels_setLevels_self,
    ordersOf_insertOrder (hq.sortedLevels _)]

/-- Placing on both books, whatever the totals come to. -/
theorem processPlace (h : Flattens q n) (hq : q.Exact) (command : PlaceOrderCommand)
    (g : SequenceGenerator) :
    Flattens (q.processPlace command g).2.1 (n.processPlace command g).2.1 := by
  obtain ⟨matchEvents, t, hmatch, hwalk, hexact, hside, -, hflat⟩ := h.match_ hq command g
  rw [PriceTimeBook.processPlace, QueueBook.processPlace, h.placeRejection hq, hmatch, hwalk]
  cases n.placeRejection command with
  | some reason => exact h
  | none =>
    dsimp only
    split_ifs
    · generalize hx : ({ t.incoming with price := command.price } : OrderSnapshot) = x
      have hxside : x.side = command.side := by rw [← hx]; exact hside
      rw [hflat.insertByPriceTime hexact.sorted hxside]
      exact hflat.restOrder hxside
    · exact hflat

/-- Releasing on both books. -/
theorem releaseOrder (h : Flattens q n) (hq : q.Exact) {x : OrderSnapshot}
    (hx : x ∈ q.activeOrders) : Flattens (q.releaseOrder x)
      (n.setResting x.side ((n.resting x.side).filter fun r => r.orderId ≠ x.orderId)) := by
  constructor
  · rw [QueueBook.releaseOrder]
    cases x.side <;> exact h.config
  · refine forall_side x.side ?_ ?_
    · rw [hq.ordersOf_releaseOrder hx, ← h.resting]
      cases x.side <;> rfl
    · have hother := h.resting x.side.opposite
      have hlevels : (q.releaseOrder x).levels x.side.opposite = q.levels x.side.opposite := by
        rw [QueueBook.releaseOrder]
        cases x.side <;> rfl
      rw [hlevels, ← hother]
      cases x.side <;> rfl

end Flattens

namespace Shows
variable {book : OrderBook} {n : PriceTimeBook}

theorem new (config : SymbolConfig) : Shows (OrderBook.new config) (PriceTimeBook.new config) :=
  ⟨_, Refines.new config, ⟨.new config, .new config, .new config, (BookRep.new config).sorted⟩,
    rfl, fun side => by cases side <;> rfl⟩

/-- Placing an order on a book and on its naive description. -/
theorem processPlace (h : Shows book n) (command : PlaceOrderCommand) (g : SequenceGenerator)
    (hfits : (n.processPlace command g).2.1.Fits) :
    SameResult Shows (book.processPlace command g) (n.processPlace command g) := by
  obtain ⟨q, href, hq, hflat⟩ := h
  obtain ⟨hevents, hpost, hgen⟩ := href.processPlace command g
  have htotals := hq.totals.processPlace command g
  rw [SameResult, hevents, hgen]
  obtain ⟨matchEvents, t, hmatch, hwalk, hexact, hside, hid, hflat'⟩ := hflat.match_ hq command g
  rw [PriceTimeBook.processPlace] at hfits ⊢
  rw [QueueBook.processPlace, hflat.placeRejection hq, hmatch] at hpost htotals ⊢
  rw [hwalk] at hfits ⊢
  cases hr : n.placeRejection command with
  | some reason =>
    rw [hr] at hpost
    exact ⟨rfl, ⟨q, hpost, hq, hflat⟩, rfl⟩
  | none =>
    rw [hr] at hpost htotals hfits
    dsimp only at hpost htotals hfits ⊢
    split_ifs at hpost htotals hfits ⊢ with hrest
    · generalize hx : ({ t.incoming with price := command.price } : OrderSnapshot) = x at *
      have hxside : x.side = command.side := by rw [← hx]; exact hside
      have hxid : x.orderId = command.orderId := by rw [← hx]; exact hid
      have hxprice : x.price = command.price := by rw [← hx]
      have hsorted := hpost.rep.sorted
      have hlist := hflat'.insertByPriceTime hexact.sorted hxside
      have hnew := hflat'.restOrder hxside
      rw [hlist] at hfits ⊢
      have hwhole : (t.book.restOrder x).Whole := by
        refine ⟨?_, hnew.fits hsorted hfits⟩
        rw [QueueBook.restOrder_eq]
        exact hexact.whole.detached
      have hexact' : (t.book.restOrder x).Exact := ⟨hpost.ok, htotals, hwhole, hsorted⟩
      have hmem : x ∈ ordersOf ((t.book.restOrder x).levels command.side) := by
        rw [QueueBook.restOrder, hxside, QueueBook.levels_setLevels_self,
          (insertOrder_perm _ _ _).mem_iff]
        exact List.mem_cons_self
      have htotal : totalHolding command.orderId ((t.book.restOrder x).levels command.side) =
          .ofLots (restingTotal command.price
            (ordersOf ((t.book.restOrder x).levels command.side))) := by
        have hlots := hexact'.totalHolding hmem
        rw [hxid, hxprice] at hlots
        rw [← hlots, Quantity.ofLots_lots]
      rw [htotal]
      exact ⟨rfl, ⟨_, hpost, hexact', hnew⟩, rfl⟩
    · exact ⟨rfl, ⟨t.book, hpost, hexact, hflat'⟩, rfl⟩

/-- Cancelling an order on a book and on its naive description. -/
theorem processCancel (h : Shows book n) (command : CancelOrderCommand) (g : SequenceGenerator) :
    SameResult Shows (book.processCancel command g) (n.processCancel command g) := by
  obtain ⟨q, href, hq, hflat⟩ := h
  obtain ⟨hevents, hpost, hgen⟩ := href.processCancel command g
  have htarget : n.cancelTarget command = q.cancelTarget command := by
    rw [PriceTimeBook.cancelTarget, QueueBook.cancelTarget, hflat.lookupClient hq]
  rw [SameResult, hevents, hgen]
  simp only [QueueBook.processCancel, PriceTimeBook.processCancel, htarget,
    hflat.lookup hq] at hpost ⊢
  cases hf : (q.lookup (q.cancelTarget command)).filter fun o => o.userId = command.userId with
  | none =>
    rw [hf] at hpost
    exact ⟨rfl, ⟨q, hpost, hq, hflat⟩, rfl⟩
  | some x =>
    rw [hf] at hpost
    dsimp only at hpost ⊢
    obtain ⟨hx, -⟩ := hq.ok.lookup_eq_some.1 (Option.filter_eq_some_iff.1 hf).1
    have hwhole := hq.whole.releaseOrder hq.totals hq.ok hx
    have htotals := hq.totals.releaseOrder hq.ok.toKeyed hx
    have hnew := hflat.releaseOrder hq hx
    have hmem : x ∈ ordersOf (q.levels x.side) := by
      rcases (QueueBook.mem_activeOrders x.side).1 hx with hx' | hx' | hx'
      · exact hx'
      · have hside := hq.ok.sided _ x hx'
        cases hs : x.side <;> rw [hs] at hside <;> cases hside
      · rw [hq.whole.detached] at hx'
        cases hx'
    have htotal : OrderBook.totalAfterCancel (totalHolding x.orderId (q.levels x.side))
        x.remainingQuantity = .ofLots (restingTotal x.price
          ((n.resting x.side).filter fun r => r.orderId ≠ x.orderId)) := by
      have hlots := hq.totalHolding hmem
      have hrest := QueueBook.restingTotal_filter hmem hq.ok.toKeyed
      have hlt := (totalHolding x.orderId (q.levels x.side)).inRange
      rw [hflat.resting]
      ext
      rw [QueueBook.totalAfterCancel_lots, hlots, Quantity.lots_ofLots (by omega)]
      omega
    simp only [QueueBook.cancelOrder, PriceTimeBook.cancelOrder, htotal, hflat.config]
    exact ⟨trivial, ⟨_, hpost, ⟨hpost.ok, htotals, hwhole, hpost.rep.sorted⟩, hnew⟩, trivial⟩

/-- The naive book follows the code in every run in which its totals fit. -/
theorem simulation : Simulation Shows PriceTimeBook.Fits where
  new := new
  place command g h hfits := h.processPlace command g hfits
  cancel command g h _ := h.processCancel command g

end Shows

end PerpexEngine
