import PerpexEngine.Core.CoreRuns
import PerpexEngine.Core.PriceTimeRuns
import PerpexEngine.Core.OrderAccounts

/-! The lives of the orders of a whole core, over every run of its commands. -/
namespace PerpexEngine
open OrderLife

variable {queues : EngineCore QueueBook} {history : List EngineEvent}

theorem OrderSnapshot.life_ne_unknown (o : OrderSnapshot) : o.life ≠ .unknown := by
  unfold OrderSnapshot.life
  split_ifs <;> nofun

theorem compare_beq_eq (a b : ℕ) : (compare a b == .eq) = decide (b = a) := by
  rw [Bool.eq_iff_iff, beq_iff_eq, Std.LawfulEqCmp.compare_eq_iff_eq, decide_eq_true_eq, eq_comm]

theorem IdempotencyIndex.hasOrderId_recordOrder (index : IdempotencyIndex) (orderId : OrderId)
    (clientOrderId : ClientOrderId) (id : OrderId) :
    (index.recordOrder orderId clientOrderId).hasOrderId id =
      (decide (id = orderId) || index.hasOrderId id) := by
  unfold hasOrderId recordOrder
  rw [Std.ExtTreeSet.contains_insert, compare_beq_eq]

theorem validatePlaceOrder_fresh {command : PlaceOrderCommand} {config : SymbolConfig}
    {index : IdempotencyIndex} (h : validatePlaceOrder command config index = none) :
    index.hasOrderId command.orderId = false := by
  unfold validatePlaceOrder at h
  grind

/-- Every active order of the core stands at its life, and an order id the index has not seen has
none yet. -/
structure CoreLives (queues : EngineCore QueueBook) (history : List EngineEvent) : Prop where
  settled : ∀ id, (after id history).Settled
  resting : queues.AllBooks fun q => ∀ r ∈ q.activeOrders, after r.orderId history = r.life
  apart : ∀ (s t : SymbolId) (p q : QueueBook), queues.orderBooks[s]? = some p →
    queues.orderBooks[t]? = some q → ∀ r ∈ p.activeOrders, ∀ r' ∈ q.activeOrders,
      r.orderId = r'.orderId → s = t
  fresh : ∀ id, queues.idempotencyIndex.hasOrderId id = false → after id history = .unknown

namespace CoreLives

theorem start (configs : List SymbolConfig) : CoreLives (coreOf configs) [] := by
  have hfold : ∀ core : EngineCore QueueBook,
      core.AllBooks (fun q => q.activeOrders = []) →
      (configs.foldl EngineCore.addSymbol core).AllBooks fun q => q.activeOrders = [] := by
    induction configs with
    | nil => exact fun _ h => h
    | cons config configs ih =>
      intro core h
      exact ih _ (@BookInvariant.insert QueueBook (fun _ q => q.activeOrders = [])
        core.sequenceGenerator core.orderBooks h _ _ rfl)
  have hempty : (coreOf configs : EngineCore QueueBook).AllBooks fun q => q.activeOrders = [] :=
    hfold _ fun id b hb => by simp [EngineCore.empty] at hb
  refine ⟨fun _ => trivial, fun id q hq r hr => ?_, fun s t p q hp _ r hr => ?_, fun _ _ => rfl⟩
  · rw [hempty id q hq] at hr
    cases hr
  · rw [hempty s p hp] at hr
    cases hr

theorem quiet (h : CoreLives queues history) {queues' : EngineCore QueueBook}
    {events : List EngineEvent} (hbooks : queues'.orderBooks = queues.orderBooks)
    (hindex : ∀ id, queues'.idempotencyIndex.hasOrderId id =
      queues.idempotencyIndex.hasOrderId id)
    (hevents : ∀ id, after id (history ++ events) = after id history) :
    CoreLives queues' (history ++ events) where
  settled id := by
    rw [hevents]
    exact h.settled id
  resting id q hq r hr := by
    rw [hbooks] at hq
    rw [hevents]
    exact h.resting id q hq r hr
  apart := by
    rw [hbooks]
    exact h.apart
  fresh id hid := by
    rw [hindex] at hid
    rw [hevents]
    exact h.fresh id hid

/-- The events of one book move the lives of its own orders and of the one it took in. -/
theorem finish (h : CoreLives queues history) {symbolId : SymbolId} {book : QueueBook}
    (hbook : queues.orderBooks[symbolId]? = some book) (commandId : CommandId) (orderId : OrderId)
    (accepted : Bool) (index : IdempotencyIndex)
    {r : List EngineEvent × QueueBook × SequenceGenerator} {placed : OrderId → Prop}
    (hlives : QueueBook.LivesOn placed book r.2.1 history r.1)
    (hunknown : ∀ id, placed id → after id history = .unknown)
    (hindex : ∀ id, index.hasOrderId id = false →
      queues.idempotencyIndex.hasOrderId id = false ∧ ¬placed id) :
    CoreLives (queues.finish symbolId commandId orderId accepted index r).2
      (history ++ (queues.finish symbolId commandId orderId accepted index r).1) := by
  have hlookup : ∀ (id : SymbolId) q,
      (queues.finish symbolId commandId orderId accepted index r).2.orderBooks[id]? = some q →
        (id = symbolId ∧ q = r.2.1) ∨ (id ≠ symbolId ∧ queues.orderBooks[id]? = some q) := by
    intro id q hq
    simp only [EngineCore.finish, Std.ExtTreeMap.getElem?_insert] at hq
    split_ifs at hq with hid
    · exact Or.inl ⟨(Std.LawfulEqCmp.compare_eq_iff_eq.1 hid).symm, (Option.some.inj hq).symm⟩
    · exact Or.inr ⟨fun heq => hid (Std.LawfulEqCmp.compare_eq_iff_eq.2 heq.symm), hq⟩
  -- an order of another book is neither the placed one nor one of this book
  have helsewhere : ∀ (id : SymbolId) q, id ≠ symbolId → queues.orderBooks[id]? = some q →
      ∀ o ∈ q.activeOrders, ¬placed o.orderId ∧ ∀ a ∈ book.activeOrders, a.orderId ≠ o.orderId := by
    intro id q hid hq o ho
    refine ⟨fun hp => ?_, fun a ha heq => hid (h.apart id symbolId q book hq hbook o ho a ha
      heq.symm)⟩
    have hlife := h.resting id q hq o ho
    rw [hunknown _ hp] at hlife
    exact o.life_ne_unknown hlife.symm
  have hids : ∀ o ∈ r.2.1.activeOrders, ∀ (id : SymbolId) q, id ≠ symbolId →
      queues.orderBooks[id]? = some q → ∀ o' ∈ q.activeOrders, o.orderId ≠ o'.orderId := by
    intro o ho id q hid hq o' ho' heq
    obtain ⟨hplaced, hother⟩ := helsewhere id q hid hq o' ho'
    rcases hlives.ids o ho with hp | ⟨a, ha, hao⟩
    · exact hplaced (heq ▸ hp)
    · exact hother a ha (hao.trans heq)
  refine ⟨hlives.settled, fun id q hq o ho => ?_, fun s t p q hp hq o ho o' ho' heq => ?_,
    fun id hid => ?_⟩
  · rcases hlookup id q hq with ⟨-, rfl⟩ | ⟨hne, hq⟩
    · exact hlives.resting o ho
    · obtain ⟨hplaced, hother⟩ := helsewhere id q hne hq o ho
      have hlife := hlives.others o.orderId hplaced hother
      exact hlife.trans (h.resting id q hq o ho)
  · rcases hlookup s p hp with ⟨rfl, rfl⟩ | ⟨hs, hp'⟩
    · rcases hlookup t q hq with ⟨rfl, -⟩ | ⟨ht, hq⟩
      · rfl
      · exact absurd heq (hids o ho t q ht hq o' ho')
    · rcases hlookup t q hq with ⟨rfl, rfl⟩ | ⟨-, hq'⟩
      · exact absurd heq.symm (hids o' ho' s p hs hp' o ho)
      · exact h.apart s t p q hp' hq' o ho o' ho' heq
  · obtain ⟨hold, hplaced⟩ := hindex id hid
    have hlife := h.fresh id hold
    refine (hlives.others id hplaced fun a ha heq => ?_).trans hlife
    have hresting := h.resting symbolId book hbook a ha
    rw [heq, hlife] at hresting
    exact a.life_ne_unknown hresting.symm

/-- One command of the core. -/
theorem process (h : CoreLives queues history) (hok : queues.AllBooks QueueBook.Ok)
    (command : EngineCommand) :
    CoreLives (queues.process command).2 (history ++ (queues.process command).1) := by
  cases command with
  | malformed =>
    exact h.quiet rfl (fun _ => rfl) fun id => after_concat id history _
  | placeOrder place =>
    simp only [EngineCore.process]
    rcases queues.processPlaceOrder_outcome place with ⟨reason, record, heq⟩ |
      ⟨config, book, -, hbook, hvalid, heq⟩
    · rw [heq]
      refine h.quiet rfl (fun id => ?_) fun id => after_concat id history _
      simp only [EngineCore.reject]
      cases record <;> rfl
    · rw [heq]
      have hnew := validatePlaceOrder_fresh hvalid
      have hunknown := h.fresh place.orderId hnew
      refine h.finish hbook _ _ _ _ (QueueBook.lives_processPlace (hok _ book hbook) h.settled
        (h.resting _ book hbook) place queues.sequenceGenerator hunknown) ?_ fun id hid => ?_
      · rintro id ⟨rfl, -⟩
        exact hunknown
      · simp only [EngineCore.placeIndex] at hid
        split_ifs at hid with haccepted
        · rw [IdempotencyIndex.hasOrderId_recordOrder, Bool.or_eq_false_iff] at hid
          exact ⟨hid.2, fun hp => of_decide_eq_false hid.1 hp.1⟩
        · exact ⟨hid, fun hp => haccepted hp.2⟩
  | cancelOrder cancel =>
    simp only [EngineCore.process]
    rcases queues.processCancelOrder_cases cancel with ⟨reason, record, heq⟩ |
      ⟨config, book, accepted, -, hbook, heq⟩
    · rw [heq]
      refine h.quiet rfl (fun id => ?_) fun id => after_concat id history _
      simp only [EngineCore.reject]
      cases record <;> rfl
    · rw [heq]
      exact h.finish hbook _ _ _ _ (QueueBook.lives_processCancel (hok _ book hbook) h.settled
        (h.resting _ book hbook) cancel queues.sequenceGenerator) (fun _ => False.elim)
        fun id hid => ⟨hid, False.elim⟩

theorem run (h : CoreLives queues history) (hlive : queues.AllBooks QueueBook.Live)
    (commands : List EngineCommand) :
    CoreLives (queues.run commands).2 (history ++ (queues.run commands).1.flatten) := by
  induction commands generalizing queues history with
  | nil =>
    simp only [EngineCore.run, List.flatten_nil, List.append_nil]
    exact h
  | cons command commands ih =>
    simp only [EngineCore.run, List.flatten_cons, ← List.append_assoc]
    exact ih (h.process (fun id q hq => (hlive id q hq).ok) command)
      (QueueBook.Live.invariant.process hlive command fun _ _ _ => trivial)

end CoreLives

theorem Tracks.coreOf (configs : List SymbolConfig) :
    Tracks (coreOf configs) (PerpexEngine.coreOf configs) := by
  have hfold : ∀ (core : EngineCore OrderBook) (queues : EngineCore QueueBook),
      Tracks core queues → Tracks (configs.foldl EngineCore.addSymbol core)
        (configs.foldl EngineCore.addSymbol queues) := by
    induction configs with
    | nil => exact fun _ _ h => h
    | cons config configs ih => exact fun _ _ h => ih _ _ (h.addSymbol config)
  exact hfold _ _ .empty

theorem Tracks.run {core : EngineCore OrderBook} {queues : EngineCore QueueBook}
    (h : Tracks core queues) (commands : List EngineCommand) :
    Tracks (core.run commands).2 (queues.run commands).2 := by
  induction commands generalizing core queues with
  | nil => exact h
  | cons command commands ih => exact ih (h.process command)

/-- Every accepted order is accounted for in the events of the whole run, and as long as it rests
its remaining quantity is what its fills have left. -/
theorem accepted_orders_accounted (configs : List SymbolConfig) (commands : List EngineCommand)
    (accepted : OrderAccepted)
    (haccepted : .orderAccepted accepted ∈
      ((coreOf (B := OrderBook) configs).run commands).1.flatten) :
    Accounted accepted.orderId accepted.quantity.lots
        ((coreOf (B := OrderBook) configs).run commands).1.flatten ∧
      ∀ (id : SymbolId) (book : OrderBook), ((coreOf configs).run commands).2.getOrderBook id = some book →
        ∀ r ∈ book.registered, r.orderId = accepted.orderId →
          r.remainingQuantity.lots = accepted.quantity.lots - fillsOf accepted.orderId
            ((coreOf (B := OrderBook) configs).run commands).1.flatten := by
  have htracks := Tracks.coreOf configs
  obtain ⟨hevents, -⟩ := htracks.rel.run Refines.simulation commands fun _ _ _ _ => trivial
  have hend := htracks.run commands
  have hlives := (CoreLives.start configs).run htracks.live commands
  rw [List.nil_append, ← hevents] at hlives
  generalize ((PerpexEngine.coreOf configs : EngineCore OrderBook).run commands).1.flatten =
    history at *
  have hsettled := hlives.settled accepted.orderId
  have hne : after accepted.orderId history ≠ .broken := by
    intro hb
    rw [hb] at hsettled
    exact hsettled
  have hspent : ∀ o, after accepted.orderId history ≠ .spent o := by
    intro o hs
    rw [hs] at hsettled
    exact hsettled
  refine ⟨accounted hne hspent haccepted rfl, fun id book hbook r hr hid => ?_⟩
  have hrel := hend.rel.books id
  unfold EngineCore.getOrderBook at hbook
  rw [hbook] at hrel
  generalize hq : ((PerpexEngine.coreOf configs : EngineCore QueueBook).run
    commands).2.orderBooks[id]? = theirs at hrel
  cases hrel with
  | some href =>
    rename_i q
    have hmem := (href.rep.registered_perm href.ok.toKeyed).mem_iff.1 hr
    have hlife := hlives.resting id q hq r hmem
    have hpos := href.ok.positive r hmem
    obtain ⟨hsound, hfilled, -, -⟩ := after_numbers hne
    have horiginal := after_accepted hne haccepted rfl
    rw [hid] at hlife
    rw [hlife] at hsound hfilled horiginal
    have hopen : r.isFilled = false := QueueBook.isFilled_eq_false.2 hpos
    unfold OrderSnapshot.life at hsound hfilled horiginal
    rw [hopen] at hsound hfilled horiginal
    simp only [Bool.false_eq_true, ↓reduceIte, original?, Option.some.injEq, filled, Sound] at *
    omega

theorem accepted_orders_accounted_sample :
    Accounted 1 10 ((coreOf (B := OrderBook) [sampleConfig]).run sampleCommands).1.flatten ∧
      fillsOf 1 ((coreOf (B := OrderBook) [sampleConfig]).run sampleCommands).1.flatten = 10 :=
  ⟨(accepted_orders_accounted [sampleConfig] sampleCommands
    ⟨1, 1, 1, 1, 7, 1, .sell, ⟨100, by decide⟩, ⟨10, by decide⟩⟩ (by decide +kernel)).1,
    by decide +kernel⟩

end PerpexEngine
