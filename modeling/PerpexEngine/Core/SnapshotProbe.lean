import PerpexEngine.Core.SnapshotOrder

/-! Telling two cores apart: every order of a market but two is cancelled, and a market order then
shows which of the two stands in front. -/
namespace PerpexEngine

theorem EngineCore.run_append {B : Type} [MatchingBook B] (core : EngineCore B)
    (xs ys : List EngineCommand) : core.run (xs ++ ys) =
      ((core.run xs).1 ++ ((core.run xs).2.run ys).1, ((core.run xs).2.run ys).2) := by
  induction xs generalizing core with
  | nil => rfl
  | cons x xs ih =>
    simp only [List.cons_append, EngineCore.run, ih]

theorem EngineCore.length_run {B : Type} [MatchingBook B] (core : EngineCore B)
    (xs : List EngineCommand) : (core.run xs).1.length = xs.length := by
  induction xs generalizing core with
  | nil => rfl
  | cons x xs ih => exact congrArg Nat.succ (ih _)

theorem exists_above (xs : List ℕ) : ∃ n, ∀ x ∈ xs, x < n := by
  induction xs with
  | nil => exact ⟨0, by simp⟩
  | cons x xs ih =>
    obtain ⟨n, hn⟩ := ih
    refine ⟨max n (x + 1), fun y hy => ?_⟩
    rcases List.mem_cons.1 hy with rfl | hy
    · exact lt_max_of_lt_right (Nat.lt_succ_self _)
    · exact lt_max_of_lt_left (hn y hy)

/-- Cancels for the given orders, under command ids from `n` on. -/
def cancels (symbolId : SymbolId) : ℕ → List OrderSnapshot → List EngineCommand
  | _, [] => []
  | n, r :: rs =>
    .cancelOrder ⟨n, r.userId, symbolId, r.orderId, r.clientOrderId, 0⟩ :: cancels symbolId (n + 1) rs

theorem length_cancels (symbolId : SymbolId) (n : ℕ) (rs : List OrderSnapshot) :
    (cancels symbolId n rs).length = rs.length := by
  induction rs generalizing n with
  | nil => rfl
  | cons r rs ih => exact congrArg Nat.succ (ih _)

/-- A market order that takes from the given side. -/
def taker (symbolId : SymbolId) (n id : ℕ) (side : Side) (quantity : Quantity) : EngineCommand :=
  .placeOrder ⟨n, id, id, 0, symbolId, side.opposite, .market, .ioc, .zero, quantity, 0⟩

/-- A market of the core, and a bound on the command ids used so far. -/
structure Ready (queues : EngineCore QueueBook) (symbolId : SymbolId) (q : QueueBook) (n : ℕ) :
    Prop where
  book : queues.orderBooks[symbolId]? = some q
  config : queues.symbolConfigs[symbolId]? = some q.symbolConfig
  exact' : q.Exact
  fresh : ∀ c, queues.idempotencyIndex.hasCommand c = true → c < n

namespace Ready
variable {queues : EngineCore QueueBook} {symbolId : SymbolId} {q : QueueBook} {n : ℕ}

theorem hasCommand_false (h : Ready queues symbolId q n) :
    queues.idempotencyIndex.hasCommand n = false := by
  by_contra hc
  exact lt_irrefl _ (h.fresh n (by simpa using hc))

/-- One cancel. -/
theorem cancel (h : Ready queues symbolId q n) {r : OrderSnapshot} (hr : r ∈ q.activeOrders) :
    Ready (queues.process (.cancelOrder
      ⟨n, r.userId, symbolId, r.orderId, r.clientOrderId, 0⟩)).2 symbolId (q.releaseOrder r) (n + 1) ∧
    (queues.process (.cancelOrder
      ⟨n, r.userId, symbolId, r.orderId, r.clientOrderId, 0⟩)).2.idempotencyIndex.orderIds =
        queues.idempotencyIndex.orderIds ∧
    (queues.process (.cancelOrder
      ⟨n, r.userId, symbolId, r.orderId, r.clientOrderId, 0⟩)).2.idempotencyIndex.clientOrderIdToOrderId =
        queues.idempotencyIndex.clientOrderIdToOrderId := by
  have hk := h.exact'.ok.toKeyed
  have htarget : q.cancelTarget ⟨n, r.userId, symbolId, r.orderId, r.clientOrderId, 0⟩ =
      r.orderId := by
    rw [QueueBook.cancelTarget]
    split_ifs with hzero
    · rw [hk.lookupClient_eq_some.2 ⟨hr, rfl⟩]
      rfl
    · rfl
  have hlookup : (q.lookup r.orderId).filter (fun o => o.userId = r.userId) = some r := by
    rw [hk.lookup_eq_some.2 ⟨hr, rfl⟩, Option.filter_some, if_pos (decide_eq_true rfl)]
  have hresult : (MatchingBook.processCancel q
      ⟨n, r.userId, symbolId, r.orderId, r.clientOrderId, 0⟩ queues.sequenceGenerator) =
        q.cancelOrder r queues.sequenceGenerator := by
    change q.processCancel _ _ = _
    rw [QueueBook.processCancel]
    simp only [htarget, hlookup]
  have hexact : (q.releaseOrder r).Exact :=
    ⟨h.exact'.ok.releaseOrder hr, h.exact'.totals.releaseOrder hk hr,
      h.exact'.whole.releaseOrder h.exact'.totals h.exact'.ok hr, h.exact'.sorted.releaseOrder r⟩
  simp only [EngineCore.process, EngineCore.processCancelOrder, h.hasCommand_false,
    Bool.false_eq_true, ↓reduceIte, h.book, h.config, validateCancelOrder, hresult]
  refine ⟨⟨?_, ?_, hexact, fun c hc => ?_⟩, rfl, rfl⟩
  · simp only [EngineCore.finish, Std.ExtTreeMap.getElem?_insert_self]
    rfl
  · rw [QueueBook.symbolConfig_releaseOrder]
    exact h.config
  · simp only [EngineCore.finish, IdempotencyIndex.hasCommand, IdempotencyIndex.recordCommand,
      Std.ExtTreeMap.contains_insert, Bool.or_eq_true, beq_iff_eq,
      Std.LawfulEqCmp.compare_eq_iff_eq] at hc
    rcases hc with hc | hc
    · exact hc ▸ Nat.lt_succ_self n
    · exact Nat.lt_succ_of_lt (h.fresh c hc)

/-- Cancelling one after the other leaves the rest of every queue in its order. -/
theorem cancels (h : Ready queues symbolId q n) {rs : List OrderSnapshot}
    (hrs : ∀ r ∈ rs, r ∈ q.activeOrders) (hids : (rs.map (·.orderId)).Nodup) :
    ∃ q', Ready (queues.run (PerpexEngine.cancels symbolId n rs)).2 symbolId q' (n + rs.length) ∧
      (∀ side, ordersOf (q'.levels side) =
        (ordersOf (q.levels side)).filter fun r => r.orderId ∉ rs.map (·.orderId)) ∧
      q'.symbolConfig = q.symbolConfig ∧ (∀ r ∈ q'.activeOrders, r ∈ q.activeOrders) ∧
      (queues.run (PerpexEngine.cancels symbolId n rs)).2.idempotencyIndex.orderIds =
        queues.idempotencyIndex.orderIds ∧
      (queues.run (PerpexEngine.cancels symbolId n rs)).2.idempotencyIndex.clientOrderIdToOrderId =
        queues.idempotencyIndex.clientOrderIdToOrderId := by
  induction rs generalizing queues q n with
  | nil => exact ⟨q, h, fun side => by simp, rfl, fun r hr => hr, rfl, rfl⟩
  | cons r rs ih =>
    obtain ⟨hr, hids⟩ := List.nodup_cons.1 hids
    have hactive := hrs r List.mem_cons_self
    have hk := h.exact'.ok.toKeyed
    obtain ⟨hready, horderIds, hclientIds⟩ := h.cancel hactive
    have hrest : ∀ x ∈ rs, x ∈ (q.releaseOrder r).activeOrders := by
      intro x hx
      rw [(hk.releaseOrder_perm hactive).mem_iff, List.mem_filter]
      refine ⟨hrs x (List.mem_cons_of_mem _ hx), decide_eq_true fun heq => hr ?_⟩
      exact List.mem_map.2 ⟨x, hx, heq⟩
    obtain ⟨q', hready', hlists, hconfig, hsub, horderIds', hclientIds'⟩ := ih hready hrest hids
    rw [List.length_cons, Nat.add_comm rs.length, ← Nat.add_assoc]
    refine ⟨q', hready', fun side => ?_, hconfig.trans (QueueBook.symbolConfig_releaseOrder q r),
      fun x hx => ?_, horderIds'.trans horderIds, hclientIds'.trans hclientIds⟩
    · rw [hlists, h.exact'.ordersOf_releaseOrder hactive, List.filter_filter]
      refine List.filter_congr fun x _ => ?_
      simp only [List.map_cons, List.mem_cons, not_or, Bool.decide_and, Bool.and_comm]
    · have hx' := (hk.releaseOrder_perm hactive).mem_iff.1 (hsub x hx)
      exact List.mem_of_mem_filter hx'

/-- The first trade of a market order is with the front order of the side it takes from. -/
theorem taker (h : Ready queues symbolId q n) {side : Side} {quantity : Quantity}
    {a : OrderSnapshot} {rest : List OrderSnapshot} {id : ℕ}
    (htrading : q.symbolConfig.tradingEnabled = true)
    (hquantity : validateSymbolQuantity quantity q.symbolConfig = true)
    (hfront : ordersOf (q.levels side) = a :: rest)
    (hid : ∀ r ∈ q.activeOrders, r.orderId ≠ id)
    (hclient : ∀ r ∈ q.activeOrders, r.clientOrderId ≠ id)
    (horderIds : queues.idempotencyIndex.hasOrderId id = false)
    (hclientIds : queues.idempotencyIndex.hasClientOrderId id = false) :
    ∃ e, (queues.process (PerpexEngine.taker symbolId n id side quantity)).1[1]? =
      some (.tradeExecuted e) ∧ e.makerOrderId = a.orderId := by
  generalize hcommand : (⟨n, id, id, 0, symbolId, side.opposite, .market, .ioc, .zero,
    quantity, 0⟩ : PlaceOrderCommand) = command
  have hside : command.side.opposite = side := by rw [← hcommand, Side.opposite_opposite]
  have htype : command.orderType = .market := by rw [← hcommand]
  have hlots : command.quantity.isZero = false := by
    have hvalid := hquantity
    rw [validateSymbolQuantity] at hvalid
    simp only [Bool.and_eq_true] at hvalid
    rw [← hcommand, Quantity.isZero_eq_false]
    exact of_decide_eq_true hvalid.1.1.1.1
  have hrej : q.placeRejection command = none := by
    rw [← hcommand, QueueBook.placeRejection]
    simp [QueueBook.lookup_eq_none.2 hid, QueueBook.lookupClient_eq_none.2 hclient, htrading,
      hquantity]
  have hvalid : validatePlaceOrder command q.symbolConfig queues.idempotencyIndex = none := by
    rw [← hcommand, validatePlaceOrder]
    simp [h.hasCommand_false, horderIds, hclientIds, htrading, hquantity]
  obtain ⟨l, levels, queue, hlevels, horders⟩ : ∃ l levels queue,
      q.levels side = l :: levels ∧ l.orders = a :: queue := by
    cases hlevels : q.levels side with
    | nil =>
      rw [hlevels] at hfront
      cases hfront
    | cons l levels =>
      have hne := h.exact'.sorted.nonempty side l (by rw [hlevels]; exact List.mem_cons_self)
      obtain ⟨b, queue, hb⟩ := List.exists_cons_of_ne_nil hne
      rw [hlevels, ordersOf_cons, hb] at hfront
      rw [(List.cons.inj hfront).1] at hb
      exact ⟨l, levels, queue, rfl, hb⟩
  have hcross : crossesLevel side (matchingPriceForCommand command) l.price = true := by
    have hlimit := crosses_limitOf command l.price
    rw [hside, limitOf, htype] at hlimit
    exact hlimit.symm
  obtain ⟨e, tail, s', hstep, hmaker⟩ : ∃ e tail s', QueueBook.matchStep
      ⟨q, incomingOrder command queues.sequenceGenerator.nextSequence,
        queues.sequenceGenerator.nextEvent⟩ = some (.tradeExecuted e :: tail, s') ∧
      e.makerOrderId = a.orderId := by
    unfold QueueBook.matchStep
    simp only [OrderSnapshot.isFilled, incomingOrder, hlots, hside, hlevels, horders, hcross]
    exact ⟨_, _, _, rfl, rfl⟩
  have hprocess : queues.process (.placeOrder command) = queues.finish symbolId command.commandId
      command.orderId (hasEventOrderAccepted (q.processPlace command queues.sequenceGenerator).1)
      (if hasEventOrderAccepted (q.processPlace command queues.sequenceGenerator).1
        then queues.idempotencyIndex.recordOrder command.orderId command.clientOrderId
        else queues.idempotencyIndex) (q.processPlace command queues.sequenceGenerator) := by
    have hsymbol : command.symbolId = symbolId := by rw [← hcommand]
    have hfresh : queues.idempotencyIndex.hasCommand command.commandId = false := by
      rw [← hcommand]
      exact h.hasCommand_false
    simp only [EngineCore.process, EngineCore.processPlaceOrder, hfresh, hsymbol, h.book, h.config,
      hvalid, Bool.false_eq_true, ↓reduceIte]
    rfl
  refine ⟨e, ?_, hmaker⟩
  rw [PerpexEngine.taker, hcommand, hprocess]
  change (q.processPlace command queues.sequenceGenerator).1[1]? = _
  simp only [QueueBook.processPlace, hrej, QueueBook.matchIncomingOrder, QueueBook.matchLoop, hstep]
  split_ifs <;> rfl

end Ready

end PerpexEngine
