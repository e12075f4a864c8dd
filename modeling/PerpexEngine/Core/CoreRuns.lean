import PerpexEngine.Core.Restart
import PerpexEngine.Core.BookConsistency

/-! Every core that commands and restarts can reach: its books represent level queues that keep
their invariants, and while the resting totals fit, its books are consistent. -/
namespace PerpexEngine
open LinkedQueue

inductive CoreStep where
  | addSymbol (config : SymbolConfig)
  | process (command : EngineCommand)
  | restart

def EngineCore.step (core : EngineCore OrderBook) : CoreStep → EngineCore OrderBook
  | .addSymbol config => core.addSymbol config
  | .process command => (core.process command).2
  | .restart => restore core.snapshot

/-- The cores reached through good cores only. -/
inductive Reachable (Good : EngineCore OrderBook → Prop) : EngineCore OrderBook → Prop where
  | empty : Reachable Good .empty
  | step {core : EngineCore OrderBook} (s : CoreStep) (h : Reachable Good core)
      (hgood : Good (core.step s)) : Reachable Good (core.step s)

/-- No price of the book holds more than a 64-bit total can say. -/
def OrderBook.TotalsFit (book : OrderBook) : Prop :=
  ∀ side price, restingTotal price (book.registered.filter (·.side = side)) < 2 ^ 64

namespace QueueBook
variable {book : QueueBook}

/-- What holds of the level queues in every run. -/
structure Live (book : QueueBook) : Prop where
  ok : book.Ok
  totals : book.Totals
  admitted : book.Admitted

def FitsLevels (book : QueueBook) : Prop :=
  ∀ side, ∀ l ∈ book.levels side, lotsOf l.orders < 2 ^ 64

theorem Live.new (config : SymbolConfig) : (QueueBook.new config).Live :=
  ⟨.new config, .new config, fun r hr => by cases hr⟩

theorem Live.processPlace (h : book.Live) (command : PlaceOrderCommand) (g : SequenceGenerator) :
    (book.processPlace command g).2.1.Live :=
  ⟨h.ok.processPlace command g, h.totals.processPlace command g,
    h.admitted.processPlace command g⟩

theorem Live.processCancel (h : book.Live) (command : CancelOrderCommand)
    (g : SequenceGenerator) : (book.processCancel command g).2.1.Live :=
  ⟨h.ok.processCancel command g, h.totals.processCancel h.ok.toKeyed command g,
    h.admitted.processCancel h.ok.toKeyed command g⟩

theorem Whole.processPlace (h : book.Whole) (hl : book.Live) (command : PlaceOrderCommand)
    (g : SequenceGenerator) (hfits : (book.processPlace command g).2.1.FitsLevels) :
    (book.processPlace command g).2.1.Whole := by
  refine ⟨?_, hfits⟩
  clear hfits
  rw [QueueBook.processPlace]
  cases book.placeRejection command with
  | some reason => exact h.detached
  | none =>
    have hloop : ∀ n, (QueueBook.matchLoop n
        ⟨book, incomingOrder command g.nextSequence, g.nextEvent⟩).2.book.detached = [] := by
      intro n
      have hinv := matchLoop_induction
        (P := fun s => s.book.Ok ∧ s.book.Totals ∧ s.book.Whole)
        (fun s _ _ hs hstep => ⟨hs.1.matchStep hstep, hs.2.1.matchStep hstep,
          hs.2.2.matchStep hs.2.1 hs.1 hstep⟩) n
        ⟨book, incomingOrder command g.nextSequence, g.nextEvent⟩ ⟨hl.ok, hl.totals, h⟩
      exact hinv.2.2.detached
    dsimp only [matchIncomingOrder]
    split_ifs
    · rw [restOrder_eq]
      exact hloop _
    · exact hloop _

theorem Whole.processCancel (h : book.Whole) (hl : book.Live) (command : CancelOrderCommand)
    (g : SequenceGenerator) : (book.processCancel command g).2.1.Whole := by
  simp only [QueueBook.processCancel]
  cases hf : (book.lookup (book.cancelTarget command)).filter
      fun o => o.userId = command.userId with
  | none => exact h
  | some o =>
    obtain ⟨hx, -⟩ := hl.ok.lookup_eq_some.1 (Option.filter_eq_some_iff.1 hf).1
    exact h.releaseOrder hl.totals hl.ok hx

theorem Live.invariant : BookInvariant (fun _ (book : QueueBook) => book.Live) fun _ => True where
  new _ config := .new config
  nextEvent h := h
  place command h _ := ⟨h.processPlace command _, fun _ ha => ha⟩
  cancel command h _ := ⟨h.processCancel command _, fun _ ha => ha⟩

theorem Whole.invariant :
    BookInvariant (fun _ (book : QueueBook) => book.Live ∧ book.Whole) FitsLevels where
  new _ config := ⟨.new config, .new config⟩
  nextEvent h := h
  place command h hfits :=
    ⟨⟨h.1.processPlace command _, h.2.processPlace h.1 command _ hfits⟩, fun _ ha => ha⟩
  cancel command h _ :=
    ⟨⟨h.1.processCancel command _, h.2.processCancel h.1 command _⟩, fun _ ha => ha⟩

end QueueBook

namespace EngineCore
variable {B : Type} [MatchingBook B]

/-- What no command changes of a book, no command changes of any book. -/
theorem process_map {γ : Type} {f : B → γ}
    (hplace : ∀ b command g, f (MatchingBook.processPlace b command g).2.1 = f b)
    (hcancel : ∀ b command g, f (MatchingBook.processCancel b command g).2.1 = f b)
    (core : EngineCore B) (command : EngineCommand) (id : SymbolId) :
    (core.process command).2.orderBooks[id]?.map f = core.orderBooks[id]?.map f ∧
      (core.process command).2.symbolConfigs = core.symbolConfigs := by
  have hinsert : ∀ {key : SymbolId} {a b : B}, core.orderBooks[key]? = some b → f a = f b →
      (core.orderBooks.insert key a)[id]?.map f = core.orderBooks[id]?.map f := by
    intro key a b hb hab
    rw [Std.ExtTreeMap.getElem?_insert]
    split_ifs with hkey
    · rw [← Std.LawfulEqCmp.compare_eq_iff_eq.1 hkey, hb, Option.map_some, Option.map_some, hab]
    · rfl
  cases command with
  | malformed => exact ⟨rfl, rfl⟩
  | placeOrder place =>
    simp only [process]
    rcases core.processPlaceOrder_cases place with ⟨reason, record, heq⟩ |
      ⟨config, book, accepted, index, -, hbook, -, heq⟩
    · rw [heq]
      exact ⟨rfl, rfl⟩
    · rw [heq]
      exact ⟨hinsert hbook (hplace _ _ _), rfl⟩
  | cancelOrder cancel =>
    simp only [process]
    rcases core.processCancelOrder_cases cancel with ⟨reason, record, heq⟩ |
      ⟨config, book, accepted, -, hbook, heq⟩
    · rw [heq]
      exact ⟨rfl, rfl⟩
    · rw [heq]
      exact ⟨hinsert hbook (hcancel _ _ _), rfl⟩

/-- The core of level queues after a restart. -/
def restarted (core : EngineCore QueueBook) : EngineCore QueueBook :=
  { core with orderBooks := core.orderBooks.map fun _ book => book.reinserted }

end EngineCore

/-- A core and its level queues, with what holds of them in every run. -/
structure Tracks (core : EngineCore OrderBook) (queues : EngineCore QueueBook) : Prop where
  rel : CoreRel Refines core queues
  live : queues.AllBooks QueueBook.Live
  configs : ∀ id : SymbolId, queues.symbolConfigs[id]? =
    queues.orderBooks[id]?.map (·.symbolConfig)

namespace Tracks
variable {core : EngineCore OrderBook} {queues : EngineCore QueueBook}

theorem empty : Tracks EngineCore.empty EngineCore.empty where
  rel := CoreRel.empty
  live := BookInvariant.empty fun _ => QueueBook.Live
  configs id := by simp [EngineCore.empty]

theorem addSymbol (h : Tracks core queues) (config : SymbolConfig) :
    Tracks (core.addSymbol config) (queues.addSymbol config) where
  rel := h.rel.addSymbol Refines.simulation config
  live := QueueBook.Live.invariant.addSymbol h.live config
  configs id := by
    simp only [EngineCore.addSymbol, Std.ExtTreeMap.getElem?_insert]
    split_ifs
    · rfl
    · exact h.configs id

theorem process (h : Tracks core queues) (command : EngineCommand) :
    Tracks (core.process command).2 (queues.process command).2 where
  rel := (h.rel.process Refines.simulation command fun _ _ _ => trivial).2
  live := QueueBook.Live.invariant.process h.live command fun _ _ _ => trivial
  configs id := by
    obtain ⟨hbooks, hconfigs⟩ := queues.process_map QueueBook.symbolConfig_processPlace
      QueueBook.symbolConfig_processCancel command id
    rw [hconfigs, hbooks]
    exact h.configs id

/-- Restarting the code is reinserting its level queues. -/
theorem restart (h : Tracks core queues) :
    Tracks (EngineCore.restore core.snapshot) queues.restarted := by
  obtain ⟨hbooks, hconfigs, hgen, hindex⟩ := core.restore_snapshot
  have hmap : ∀ id : SymbolId, queues.restarted.orderBooks[id]? =
      queues.orderBooks[id]?.map QueueBook.reinserted := by
    intro id
    simp only [EngineCore.restarted, Std.ExtTreeMap.getElem?_map]
  refine ⟨⟨fun id => ?_, Std.ExtTreeMap.ext_getElem? fun id => ?_, ?_, ?_⟩, fun id q hq => ?_,
    fun id => ?_⟩
  · have hrel := h.rel.books id
    have hlive := h.live id
    rw [hbooks, hmap]
    generalize core.orderBooks[id]? = mine at hrel ⊢
    generalize queues.orderBooks[id]? = theirs at hrel hlive ⊢
    cases hrel with
    | none => exact .none
    | some href => exact .some (href.restoreBook (hlive _ rfl).admitted id)
  · have hrel := h.rel.books id
    rw [hconfigs]
    change _ = queues.symbolConfigs[id]?
    rw [h.configs]
    generalize core.orderBooks[id]? = mine at hrel ⊢
    generalize queues.orderBooks[id]? = theirs at hrel ⊢
    cases hrel with
    | none => rfl
    | some href => exact congrArg some href.rep.config.symm
  · rw [hgen, h.rel.sequenceGenerator]
    rfl
  · rw [hindex, h.rel.idempotencyIndex]
    rfl
  · rw [hmap] at hq
    obtain ⟨q, hq', rfl⟩ := Option.map_eq_some_iff.1 hq
    have hlive := h.live id q hq'
    have hrel := h.rel.books id
    rw [hq'] at hrel
    generalize core.orderBooks[id]? = mine at hrel
    cases hrel with
    | some href =>
      exact ⟨(href.restoreBook hlive.admitted id).ok, .reinserted q, hlive.admitted.reinserted⟩
  · rw [hmap]
    change queues.symbolConfigs[id]? = _
    rw [h.configs, Option.map_map]
    simp only [Function.comp_def, QueueBook.symbolConfig_reinserted]

end Tracks

/-- Every core reached has level queues that track it. -/
theorem Reachable.tracks {Good : EngineCore OrderBook → Prop} {core : EngineCore OrderBook}
    (h : Reachable Good core) : ∃ queues, Tracks core queues := by
  induction h with
  | empty => exact ⟨_, Tracks.empty⟩
  | step s _ _ ih =>
    obtain ⟨queues, hq⟩ := ih
    cases s with
    | addSymbol config => exact ⟨_, hq.addSymbol config⟩
    | process command => exact ⟨_, hq.process command⟩
    | restart => exact ⟨_, hq.restart⟩

theorem restingTotal_perm {price : Price} {xs ys : List OrderSnapshot} (h : xs.Perm ys) :
    restingTotal price xs = restingTotal price ys :=
  ((h.filter _).map _).sum_nat

/-- Totals that fit by the orders of the book fit level by level. -/
theorem Refines.fitsLevels {book : OrderBook} {q : QueueBook} (h : Refines book q)
    (hfits : book.TotalsFit) : q.FitsLevels := by
  intro side l hl
  refine lt_of_le_of_lt ?_ (hfits side l.price)
  have hperm := (h.rep.registered_perm h.ok.toKeyed).trans (QueueBook.activeOrders_perm q side)
  have hside : (ordersOf (q.levels side)).filter (fun r => decide (r.side = side)) =
      ordersOf (q.levels side) :=
    List.filter_eq_self.2 fun r hr => decide_eq_true (h.ok.sided side r hr)
  rw [restingTotal_perm (hperm.filter _), List.filter_append, restingTotal_append, hside,
    (h.rep.sorted.sortedLevels side).restingTotal hl]
  exact Nat.le_add_right _ _

theorem Tracks.allBooks_fitsLevels {core : EngineCore OrderBook} {queues : EngineCore QueueBook}
    (h : Tracks core queues) (hfits : core.AllBooks OrderBook.TotalsFit) :
    queues.AllBooks QueueBook.FitsLevels := by
  intro id q hq
  have hrel := h.rel.books id
  rw [hq] at hrel
  generalize hbook : core.orderBooks[id]? = mine at hrel
  cases hrel with
  | some href => exact href.fitsLevels (hfits id _ hbook)

/-- While the totals fit, no order is ever detached. -/
theorem Reachable.whole {core : EngineCore OrderBook}
    (h : Reachable (EngineCore.AllBooks OrderBook.TotalsFit) core) :
    ∃ queues, Tracks core queues ∧ queues.AllBooks QueueBook.Whole := by
  induction h with
  | empty =>
    exact ⟨_, Tracks.empty, BookInvariant.empty fun _ => QueueBook.Whole⟩
  | step s _ hgood ih =>
    obtain ⟨queues, hq, hwhole⟩ := ih
    have hboth : queues.AllBooks fun book => book.Live ∧ book.Whole :=
      fun id b hb => ⟨hq.live id b hb, hwhole id b hb⟩
    cases s with
    | addSymbol config =>
      have hinv := QueueBook.Whole.invariant.addSymbol hboth config
      exact ⟨_, hq.addSymbol config, fun id b hb => (hinv id b hb).2⟩
    | process command =>
      have hfits := (hq.process command).allBooks_fitsLevels hgood
      have hinv := QueueBook.Whole.invariant.process hboth command hfits
      exact ⟨_, hq.process command, fun id b hb => (hinv id b hb).2⟩
    | restart =>
      have hfits := hq.restart.allBooks_fitsLevels hgood
      refine ⟨_, hq.restart, fun id b hb => ⟨?_, hfits id b hb⟩⟩
      rw [EngineCore.restarted, Std.ExtTreeMap.getElem?_map] at hb
      obtain ⟨q, -, rfl⟩ := Option.map_eq_some_iff.1 hb
      exact QueueBook.detached_reinserted q

/-- Every book of a core reached through states whose resting totals fit is consistent. -/
theorem reachable_books_consistent {core : EngineCore OrderBook}
    (h : Reachable (EngineCore.AllBooks OrderBook.TotalsFit) core) :
    core.AllBooks Consistent := by
  intro id book hbook
  obtain ⟨queues, hq, hwhole⟩ := h.whole
  have hrel := hq.rel.books id
  have hlive := hq.live id
  have hw := hwhole id
  rw [hbook] at hrel
  generalize queues.orderBooks[id]? = theirs at hrel hlive hw
  cases hrel with
  | some href =>
    exact href.rep.consistent ⟨href.ok, (hlive _ rfl).totals, hw _ rfl, href.rep.sorted⟩

/-- A check of one core that implies that the totals of all its books fit. -/
def totalsCheck (core : EngineCore OrderBook) : Bool :=
  core.orderBooks.toList.all fun entry => lotsOf entry.2.registered < 2 ^ 64

theorem lotsOf_filter_le (p : OrderSnapshot → Bool) (xs : List OrderSnapshot) :
    lotsOf (xs.filter p) ≤ lotsOf xs := by
  induction xs with
  | nil => exact le_rfl
  | cons x xs ih =>
    rw [List.filter_cons]
    split_ifs <;> simp only [lotsOf_cons] <;> omega

theorem allBooks_totalsFit_of_check {core : EngineCore OrderBook} (h : totalsCheck core = true) :
    core.AllBooks OrderBook.TotalsFit := by
  intro id book hbook side price
  have hcheck := List.all_eq_true.1 h (id, book)
    (Std.ExtTreeMap.mem_toList_iff_getElem?_eq_some.2 hbook)
  rw [decide_eq_true_eq] at hcheck
  exact ((restingTotal_le _ _).trans (lotsOf_filter_le _ _)).trans_lt hcheck

/-- Two resting asks, one of them outside the ring, and a restart. -/
def sampleSteps : List CoreStep :=
  [.addSymbol sampleConfig, .process (sampleOrder 1 .sell 100 10),
    .process (sampleOrder 2 .sell 200 5), .restart]

def sampleCore (n : ℕ) : EngineCore OrderBook :=
  (sampleSteps.take n).foldl EngineCore.step .empty

theorem sampleCore_reachable :
    Reachable (EngineCore.AllBooks OrderBook.TotalsFit) (sampleCore 4) := by
  have h1 := @Reachable.step (EngineCore.AllBooks OrderBook.TotalsFit) (sampleCore 0)
    (.addSymbol sampleConfig) .empty (allBooks_totalsFit_of_check (by decide +kernel))
  have h2 := @Reachable.step _ (sampleCore 1) (.process (sampleOrder 1 .sell 100 10)) h1
    (allBooks_totalsFit_of_check (by decide +kernel))
  have h3 := @Reachable.step _ (sampleCore 2) (.process (sampleOrder 2 .sell 200 5)) h2
    (allBooks_totalsFit_of_check (by decide +kernel))
  exact @Reachable.step _ (sampleCore 3) .restart h3
    (allBooks_totalsFit_of_check (by decide +kernel))

theorem reachable_books_consistent_sample :
    (sampleCore 4).orderBooks.contains 1 = true ∧ (sampleCore 4).AllBooks Consistent :=
  ⟨by decide +kernel, reachable_books_consistent sampleCore_reachable⟩

end PerpexEngine
