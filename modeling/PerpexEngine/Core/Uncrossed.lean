import PerpexEngine.Core.CoreRuns
import PerpexEngine.Core.SnapshotOrder
import Mathlib.Data.List.Induction

/-! Between commands no book is crossed or locked, and a restart keeps it so as long as every order
it reinserts was queued in a level. -/
namespace PerpexEngine
open LinkedQueue

namespace QueueBook
variable {book book' : QueueBook} {side : Side}

/-- Every bid level stands below every ask level. -/
def Uncrossed (book : QueueBook) : Prop :=
  ∀ bid ∈ book.bids, ∀ ask ∈ book.asks, bid.price.ticks < ask.price.ticks

theorem uncrossed_iff (side : Side) : book.Uncrossed ↔ ∀ l ∈ book.levels side,
    ∀ m ∈ book.levels side.opposite, crossesLevel side.opposite l.price m.price = false := by
  cases side with
  | buy =>
    constructor
    · intro h l hl m hm
      exact decide_eq_false (not_le.2 (h l hl m hm))
    · intro h l hl m hm
      exact not_le.1 (of_decide_eq_false (h l hl m hm))
  | sell =>
    constructor
    · intro h l hl m hm
      exact decide_eq_false (not_le.2 (h m hm l hl))
    · intro h l hl m hm
      exact not_le.1 (of_decide_eq_false (h m hm l hl))

theorem Uncrossed.new (config : SymbolConfig) : (QueueBook.new config).Uncrossed := by
  intro bid hbid
  cases hbid

/-- Where no new price comes up, nothing crosses. -/
theorem Uncrossed.of_prices (h : book.Uncrossed) (hprices : ∀ s, ∀ l ∈ book'.levels s,
    ∃ m ∈ book.levels s, m.price = l.price) : book'.Uncrossed := by
  intro bid hbid ask hask
  obtain ⟨bid', hbid', hbidPrice⟩ := hprices .buy bid hbid
  obtain ⟨ask', hask', haskPrice⟩ := hprices .sell ask hask
  rw [← hbidPrice, ← haskPrice]
  exact h bid' hbid' ask' hask'

section Match
variable {s s' : MatchState} {events : List EngineEvent}

theorem Uncrossed.matchStep (h : s.book.Uncrossed) (hstep : matchStep s = some (events, s')) :
    s'.book.Uncrossed := by
  obtain ⟨l, levels, maker, queue, hlevels, -, -, -, -, hbook, -⟩ := matchStep_cases hstep
  generalize s.incoming.remainingQuantity.min maker.remainingQuantity = f at hbook
  refine h.of_prices (forall_side s.incoming.side.opposite ?_ ?_)
  · intro x hx
    rw [hbook, levels_putFront] at hx
    rw [hlevels]
    rcases mem_settleFront hx with hx | ⟨rfl, -, -⟩
    · exact ⟨x, List.mem_cons_of_mem _ hx, rfl⟩
    · exact ⟨l, List.mem_cons_self, rfl⟩
  · intro x hx
    have hother : s'.book.levels s.incoming.side.opposite.opposite =
        s.book.levels s.incoming.side.opposite.opposite := by
      rw [hbook]
      cases s.incoming.side <;> rfl
    rw [hother] at hx
    exact ⟨x, hx, rfl⟩

/-- Where no fill is possible for an open order, no level of the other side crosses it. -/
theorem uncrossed_of_matchStep (h : s.book.Sorted) (hstep : QueueBook.matchStep s = none)
    (hopen : s.incoming.isFilled = false) :
    ∀ m ∈ s.book.levels s.incoming.side.opposite,
      crossesLevel s.incoming.side.opposite s.incoming.price m.price = false := by
  have hsorted := h.sortedLevels s.incoming.side.opposite
  intro m hm
  rw [← Bool.not_eq_true]
  intro hcross
  cases hlevels : s.book.levels s.incoming.side.opposite with
  | nil =>
    rw [hlevels] at hm
    cases hm
  | cons l levels =>
    rw [hlevels] at hsorted hm
    obtain ⟨maker, queue, hl⟩ := List.exists_cons_of_ne_nil (hsorted.nonempty l List.mem_cons_self)
    have hfront : crossesLevel s.incoming.side.opposite s.incoming.price l.price = true := by
      rw [crossesLevel_iff] at hcross ⊢
      rcases List.mem_cons.1 hm with rfl | hm
      · exact hcross
      · exact (hsorted.ranked.head_lt hm).le.trans hcross
    simp [QueueBook.matchStep, hopen, hlevels, hl, hfront] at hstep

end Match

theorem price_of_mem_insertOrder {x : OrderSnapshot} {levels : List LevelQueue} {y : LevelQueue}
    (h : y ∈ insertOrder side x levels) : y.price = x.price ∨ ∃ l ∈ levels, l.price = y.price := by
  induction levels with
  | nil =>
    rw [insertOrder, List.mem_singleton] at h
    rw [h]
    exact Or.inl rfl
  | cons l levels ih =>
    rw [insertOrder] at h
    split_ifs at h
    · rcases List.mem_cons.1 h with rfl | h
      · exact Or.inl rfl
      · exact Or.inr ⟨y, h, rfl⟩
    · rcases List.mem_cons.1 h with rfl | h
      · exact Or.inr ⟨l, List.mem_cons_self, rfl⟩
      · exact Or.inr ⟨y, List.mem_cons_of_mem _ h, rfl⟩
    · rcases List.mem_cons.1 h with rfl | h
      · exact Or.inr ⟨y, List.mem_cons_self, rfl⟩
      · rcases ih h with h | ⟨l', hl', heq⟩
        · exact Or.inl h
        · exact Or.inr ⟨l', List.mem_cons_of_mem _ hl', heq⟩

/-- An order that crosses nothing may rest. -/
theorem Uncrossed.restOrder (h : book.Uncrossed) {x : OrderSnapshot}
    (hx : ∀ m ∈ book.levels x.side.opposite,
      crossesLevel x.side.opposite x.price m.price = false) : (book.restOrder x).Uncrossed := by
  rw [uncrossed_iff x.side, QueueBook.restOrder, levels_setLevels_self, levels_setLevels_opposite]
  intro y hy m hm
  rcases price_of_mem_insertOrder hy with heq | ⟨l, hl, heq⟩
  · rw [heq]
    exact hx m hm
  · rw [← heq]
    exact (uncrossed_iff x.side).1 h l hl m hm

theorem Uncrossed.releaseOrder (h : book.Uncrossed) (x : OrderSnapshot) :
    (book.releaseOrder x).Uncrossed := by
  refine h.of_prices (forall_side x.side ?_ ?_)
  · intro y hy
    have hself : (book.releaseOrder x).levels x.side = (takeOrder x (book.levels x.side)).1 := by
      rw [QueueBook.releaseOrder]
      cases x.side <;> rfl
    rw [hself] at hy
    rcases mem_takeOrder hy with hy | ⟨l, hl, -, rfl, -⟩
    · exact ⟨y, hy, rfl⟩
    · exact ⟨l, hl, rfl⟩
  · intro y hy
    have hother : (book.releaseOrder x).levels x.side.opposite =
        book.levels x.side.opposite := by
      rw [QueueBook.releaseOrder]
      cases x.side <;> rfl
    rw [hother] at hy
    exact ⟨y, hy, rfl⟩

theorem Uncrossed.processPlace (h : book.Sorted ∧ book.Uncrossed) (command : PlaceOrderCommand)
    (g : SequenceGenerator) : (book.processPlace command g).2.1.Sorted ∧
      (book.processPlace command g).2.1.Uncrossed := by
  rw [QueueBook.processPlace]
  cases book.placeRejection command with
  | some reason => exact h
  | none =>
    generalize hs : (⟨book, incomingOrder command g.nextSequence, g.nextEvent⟩ : MatchState) = s
    have hbook : s.book = book := by rw [← hs]
    have hinc : s.incoming = incomingOrder command g.nextSequence := by rw [← hs]
    generalize hn : (ordersOf (s.book.levels s.incoming.side.opposite)).length + 1 = n
    have hloop : (matchLoop n s).2.book.Sorted ∧ (matchLoop n s).2.book.Uncrossed :=
      matchLoop_induction (P := fun t => t.book.Sorted ∧ t.book.Uncrossed)
        (fun _ _ _ ht hstep => ⟨ht.1.matchStep hstep, ht.2.matchStep hstep⟩) n s
        (by rwa [hbook])
    have hstops := matchLoop_stops n s (hn ▸ roundsLeft_le s)
    obtain ⟨q, hq⟩ := matchLoop_incoming n s
    simp only [matchIncomingOrder, hn]
    split_ifs with hrest
    · rw [Bool.and_eq_true, Bool.not_eq_true'] at hrest
      have hlimit : command.orderType = .limit := by
        have hcan := hrest.1
        rw [canRest, Bool.and_eq_true, decide_eq_true_eq] at hcan
        exact hcan.1
      have hprice : (matchLoop n s).2.incoming.price = command.price := by
        rw [hq, hinc, incomingOrder, matchingPriceForCommand, hlimit]
      refine ⟨hloop.1.restOrder _, hloop.2.restOrder fun m hm => ?_⟩
      have hnone := uncrossed_of_matchStep hloop.1 hstops hrest.2 m hm
      rw [hprice] at hnone
      exact hnone
    · exact hloop

theorem Uncrossed.invariant :
    BookInvariant (fun _ (book : QueueBook) => book.Sorted ∧ book.Uncrossed) fun _ => True where
  new _ config := ⟨Sorted.new config, .new config⟩
  nextEvent h := h
  place command h _ := ⟨Uncrossed.processPlace h command _, fun _ ha => ha⟩
  cancel {g b} command h _ := by
    refine ⟨?_, fun _ ha => ha⟩
    change (b.processCancel command g).2.1.Sorted ∧ (b.processCancel command g).2.1.Uncrossed
    simp only [QueueBook.processCancel]
    cases (b.lookup (b.cancelTarget command)).filter fun o => o.userId = command.userId with
    | none => exact h
    | some o => exact ⟨h.1.releaseOrder o, h.2.releaseOrder o⟩

/-- Reinserting brings up no new price where no order is detached. -/
theorem Uncrossed.reinserted (h : book.Uncrossed) (hs : book.Sorted) (hk : book.Keyed)
    (hk' : book.reinserted.Keyed) (hd : book.detached = []) : book.reinserted.Uncrossed := by
  obtain ⟨hs', -⟩ := reinserted_before hk
  refine h.of_prices fun s l hl => ?_
  obtain ⟨o, queue, ho⟩ := List.exists_cons_of_ne_nil (hs'.nonempty s l hl)
  have hmem : o ∈ l.orders := by
    rw [ho]
    exact List.mem_cons_self
  have hperm := (ordersOf_levels_perm hk' (detached_reinserted book) s).trans
    (((reinserted_perm book).filter _).trans (ordersOf_levels_perm hk hd s).symm)
  obtain ⟨m, hm, hom⟩ := mem_ordersOf.1 (hperm.mem_iff.1 (mem_ordersOf.2 ⟨l, hl, hmem⟩))
  exact ⟨m, hm, (hs.prices s m hm o hom).symm.trans (hs'.prices s l hl o hmem)⟩

end QueueBook

/-- The price of the best level. -/
def SideBook.bestPrice (book : SideBook) : Option Price :=
  (book.bestLevel.bind book.levels.read).map (·.price)

namespace OrderBook

/-- If both sides have a best level, the bid stands below the ask. -/
def Uncrossed (book : OrderBook) : Prop :=
  ∀ bid ∈ book.bids.bestPrice, ∀ ask ∈ book.asks.bestPrice, bid.ticks < ask.ticks

/-- Every order of the index stands in the queue of a level. -/
def Queued (book : OrderBook) : Prop :=
  ∀ o ∈ book.registered, o ∈ book.restingOrders .buy ++ book.restingOrders .sell

instance : DecidablePred Uncrossed := fun _ => by
  unfold Uncrossed
  infer_instance

instance : DecidablePred Queued := fun _ => by
  unfold Queued
  infer_instance

end OrderBook

namespace Refines
variable {book : OrderBook} {q : QueueBook}

theorem bestPrice (h : Refines book q) (side : Side) :
    (book.bookForSide side).bestPrice = (q.levels side).head?.map (·.price) := by
  obtain ⟨queue, view, hok, hview⟩ := h.rep.sides side
  rw [hview]
  cases view with
  | nil =>
    rw [SideBook.bestPrice, hok.best_nil]
    rfl
  | cons entry view =>
    obtain ⟨l, -, -, -, hl, -, hprice, -, -, -, -, -, -, hbest, -⟩ := hok.best_cons
    rw [SideBook.bestPrice, hbest, Option.bind_some, hl, Option.map_some, hprice]
    rfl

theorem uncrossed (h : Refines book q) (hq : q.Uncrossed) : book.Uncrossed := by
  have hhead : ∀ side, ∀ p ∈ (book.bookForSide side).bestPrice,
      ∃ l ∈ q.levels side, l.price = p := by
    intro side p hp
    rw [h.bestPrice] at hp
    obtain ⟨l, hl, rfl⟩ := Option.map_eq_some_iff.1 hp
    exact ⟨l, List.mem_of_mem_head? hl, rfl⟩
  intro bid hbid ask hask
  obtain ⟨l, hl, rfl⟩ := hhead .buy bid hbid
  obtain ⟨m, hm, rfl⟩ := hhead .sell ask hask
  exact hq l hl m hm

theorem detached_of_queued (h : Refines book q) (hqueued : book.Queued) : q.detached = [] := by
  rw [List.eq_nil_iff_forall_not_mem]
  intro r hr
  have hactive : r ∈ q.activeOrders := List.mem_append_right _ hr
  have hlisted := hqueued r ((h.rep.registered_perm h.ok.toKeyed).mem_iff.2 hactive)
  rw [h.restingOrders, h.restingOrders] at hlisted
  have hnodup := List.Nodup.of_map _ h.ok.ids
  rw [QueueBook.activeOrders, List.nodup_append] at hnodup
  exact hnodup.2.2 r hlisted r hr rfl

end Refines

namespace Tracks
variable {core : EngineCore OrderBook} {queues : EngineCore QueueBook}

/-- A restart from queued orders keeps all books uncrossed. -/
theorem restart_uncrossed (h : Tracks core queues)
    (hqueues : queues.AllBooks fun book => book.Sorted ∧ book.Uncrossed)
    (hqueued : core.AllBooks OrderBook.Queued) :
    queues.restarted.AllBooks fun book => book.Sorted ∧ book.Uncrossed := by
  intro id q hq
  rw [EngineCore.restarted, Std.ExtTreeMap.getElem?_map] at hq
  obtain ⟨q, hbook, rfl⟩ := Option.map_eq_some_iff.1 hq
  have hrel := h.rel.books id
  have hlive := h.live id q hbook
  obtain ⟨hsorted, huncrossed⟩ := hqueues id q hbook
  rw [hbook] at hrel
  generalize hmine : core.orderBooks[id]? = mine at hrel
  cases hrel with
  | some href =>
    have hk := (href.restoreBook hlive.admitted id).ok.toKeyed
    have hd := href.detached_of_queued (hqueued id _ hmine)
    exact ⟨(QueueBook.reinserted_before hlive.ok.toKeyed).1,
      huncrossed.reinserted hsorted hlive.ok.toKeyed hk hd⟩

end Tracks

/-- The core after a sequence of symbols, commands and restarts. -/
def coreAfter (steps : List CoreStep) : EngineCore OrderBook :=
  steps.foldl EngineCore.step .empty

def sampleWideConfig : SymbolConfig := { sampleConfig with maxQuantity := ⟨2 ^ 63, by decide⟩ }

/-- Three bids whose total wraps to five lots, and a sale of five that drops their level. -/
def sampleWrapped : List CoreStep :=
  [.addSymbol sampleWideConfig, .process (sampleOrder 1 .buy 100 (2 ^ 63 - 1)),
    .process (sampleOrder 2 .buy 100 (2 ^ 63 - 1)), .process (sampleOrder 3 .buy 100 7),
    .process (sampleOrder 4 .sell 100 5), .process (sampleOrder 5 .sell 90 5)]

def sampleUncrossed : List CoreStep :=
  sampleSteps ++ [.process (sampleOrder 3 .buy 150 14), .restart]

end PerpexEngine
