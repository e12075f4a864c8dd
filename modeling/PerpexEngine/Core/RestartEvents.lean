import PerpexEngine.Core.SnapshotProbe

/-! A restarted core answers every later run like the saved one exactly when the saved queues stood
in the order of their ids. -/
namespace PerpexEngine

section Lists
variable {xs rs : List OrderSnapshot} {a b : OrderSnapshot}

/-- Keeping the ids of two orders of a list keeps these two, in their order. -/
theorem filter_pair (hids : (xs.map (·.orderId)).Nodup) (hsub : [a, b].Sublist xs) :
    (xs.filter fun r => r.orderId = a.orderId ∨ r.orderId = b.orderId) = [a, b] := by
  have hkept := hsub.filter fun r => r.orderId = a.orderId ∨ r.orderId = b.orderId
  rw [List.filter_eq_self.2 (by simp)] at hkept
  refine (hkept.eq_of_length_le ?_).symm
  have hnodup := (List.filter_sublist (p := fun r : OrderSnapshot =>
    decide (r.orderId = a.orderId ∨ r.orderId = b.orderId)) (l := xs)).map
      OrderSnapshot.orderId |>.nodup hids
  have hsubset : ((xs.filter fun r => r.orderId = a.orderId ∨ r.orderId = b.orderId).map
      (·.orderId)) ⊆ [a.orderId, b.orderId] := by
    intro id hid
    obtain ⟨r, hr, rfl⟩ := List.mem_map.1 hid
    simpa using (List.mem_filter.1 hr).2
  have hlength := (List.subperm_of_subset hnodup hsubset).length_le
  rwa [List.length_map] at hlength

/-- The members of a side that are not among the other orders of the book. -/
theorem filter_others {all : List OrderSnapshot} (hall : ∀ r ∈ xs, r ∈ all)
    (hrs : rs = all.filter fun r => ¬(r.orderId = a.orderId ∨ r.orderId = b.orderId)) :
    (xs.filter fun r => r.orderId ∉ rs.map (·.orderId)) =
      xs.filter fun r => r.orderId = a.orderId ∨ r.orderId = b.orderId := by
  refine List.filter_congr fun r hr => decide_eq_decide.2 ?_
  rw [hrs]
  constructor
  · intro hmem
    by_contra hne
    exact hmem (List.mem_map_of_mem (List.mem_filter.2 ⟨hall r hr, decide_eq_true hne⟩))
  · intro heq hmem
    obtain ⟨r', hr', hid⟩ := List.mem_map.1 hmem
    have hne := of_decide_eq_true (List.mem_filter.1 hr').2
    rw [hid] at hne
    exact hne heq

end Lists

/-- With every other order of the market cancelled, the first of two orders of a level is the first
to trade. -/
theorem Ready.probe {queues : EngineCore QueueBook} {symbolId : SymbolId} {q : QueueBook} {n : ℕ}
    (h : Ready queues symbolId q n) {side : Side} {quantity : Quantity}
    {all : List OrderSnapshot} {a b : OrderSnapshot} {id : ℕ}
    (htrading : q.symbolConfig.tradingEnabled = true)
    (hquantity : validateSymbolQuantity quantity q.symbolConfig = true)
    (hall : all.Perm q.activeOrders) (hsub : [a, b].Sublist (ordersOf (q.levels side)))
    (hid : ∀ r ∈ all, r.orderId ≠ id ∧ r.clientOrderId ≠ id)
    (horderIds : queues.idempotencyIndex.hasOrderId id = false)
    (hclientIds : queues.idempotencyIndex.hasClientOrderId id = false)
    {rs : List OrderSnapshot}
    (hrs : rs = all.filter fun r => ¬(r.orderId = a.orderId ∨ r.orderId = b.orderId)) :
    ∃ e events, (queues.run (PerpexEngine.cancels symbolId n rs ++
        [PerpexEngine.taker symbolId (n + rs.length) id side quantity])).1[rs.length]? = some events ∧
      events[1]? = some (.tradeExecuted e) ∧ e.makerOrderId = a.orderId := by
  have hk := h.exact'.ok.toKeyed
  have hactive : ∀ r ∈ rs, r ∈ q.activeOrders := fun r hr =>
    hall.mem_iff.1 (List.mem_of_mem_filter (hrs ▸ hr))
  have hids : (rs.map (·.orderId)).Nodup := by
    rw [hrs]
    exact (List.filter_sublist.map _).nodup ((hall.map _).nodup_iff.2 hk.ids)
  obtain ⟨q', hready, hlists, hconfig, hkept, horderIds', hclientIds'⟩ := h.cancels hactive hids
  have hside : ∀ r ∈ ordersOf (q.levels side), r ∈ all := fun r hr =>
    hall.mem_iff.2 ((QueueBook.mem_activeOrders side).2 (Or.inl hr))
  have hsideIds : ((ordersOf (q.levels side)).map (·.orderId)).Nodup := by
    have hperm := (QueueBook.activeOrders_perm q side).map (·.orderId)
    have hnodup := hperm.nodup_iff.1 hk.ids
    rw [List.map_append, List.nodup_append] at hnodup
    exact hnodup.1
  have hpair : ordersOf (q'.levels side) = [a, b] := by
    rw [hlists, filter_others hside hrs, filter_pair hsideIds hsub]
  have hfresh : ∀ r ∈ q'.activeOrders, r.orderId ≠ id ∧ r.clientOrderId ≠ id := fun r hr =>
    hid r (hall.mem_iff.2 (hkept r hr))
  rw [← hconfig] at htrading hquantity
  obtain ⟨e, he, hmaker⟩ := hready.taker htrading hquantity hpair (fun r hr => (hfresh r hr).1)
    (fun r hr => (hfresh r hr).2) (by rw [IdempotencyIndex.hasOrderId, horderIds']; exact horderIds)
    (by rw [IdempotencyIndex.hasClientOrderId, hclientIds']; exact hclientIds)
  refine ⟨e, _, ?_, he, hmaker⟩
  have hlength : (queues.run (PerpexEngine.cancels symbolId n rs)).1.length = rs.length := by
    rw [EngineCore.length_run, length_cancels]
  rw [EngineCore.run_append, List.getElem?_append_right (by rw [hlength]), hlength, Nat.sub_self]
  rfl

namespace QueueBook
variable {q : QueueBook}

/-- A level out of id order holds two orders the wrong way round. -/
theorem exists_crossed (h : q.Exact) (hids : ¬q.InIdOrder) : ∃ side a b,
    [a, b].Sublist (ordersOf (q.levels side)) ∧ a.price = b.price ∧ b.orderId < a.orderId := by
  unfold InIdOrder at hids
  push Not at hids
  obtain ⟨side, l, hl, hcrossed⟩ := hids
  rw [List.pairwise_iff_forall_sublist] at hcrossed
  push Not at hcrossed
  obtain ⟨a, b, hsub, hle⟩ := hcrossed
  have hprice := h.sorted.prices side l hl
  have hlevel := sublist_ordersOf hl
  have hnodup := (h.ok.ids.sublist ((List.Sublist.map _ ?_) :
    ([a, b].map (·.orderId)).Sublist _))
  · refine ⟨side, a, b, hsub.trans hlevel, ?_, lt_of_le_of_ne hle ?_⟩
    · rw [hprice a (hsub.subset (by simp)), hprice b (hsub.subset (by simp))]
    · intro heq
      simp [heq] at hnodup
  · refine (hsub.trans hlevel).trans ?_
    rw [activeOrders, List.append_assoc]
    cases side with
    | buy => exact List.sublist_append_left _ _
    | sell => exact (List.sublist_append_left _ _).trans (List.sublist_append_right _ _)

/-- Reinserting turns such a pair round. -/
theorem reinserted_crossed (h : q.Exact) (hk : q.reinserted.Keyed) {side : Side}
    {a b : OrderSnapshot} (hsub : [a, b].Sublist (ordersOf (q.levels side)))
    (hprice : a.price = b.price) (hlt : b.orderId < a.orderId) :
    [b, a].Sublist (ordersOf (q.reinserted.levels side)) := by
  have hperm := (ordersOf_levels_perm h.ok.toKeyed h.whole.detached side).trans
    (((reinserted_perm q).symm.filter _).trans
      (ordersOf_levels_perm hk (detached_reinserted q) side).symm)
  have hpairwise : [b, a].Pairwise (Before (·.orderId) side) := by
    simp only [List.pairwise_pair]
    exact Or.inr ⟨hprice.symm, hlt⟩
  have hsubperm : [b, a].Subperm (ordersOf (q.reinserted.levels side)) :=
    (((List.Perm.swap a b []).subperm).trans hsub.subperm).trans hperm.subperm
  have hsorted := (reinserted_before h.ok.toKeyed).2 side
  obtain ⟨zs, hzs, hsub'⟩ := hsubperm
  have heq : zs = [b, a] := hzs.eq_of_pairwise (fun x y _ _ => before_antisymm)
    (hsorted.sublist hsub') hpairwise
  rwa [heq] at hsub'

theorem Exact.fitsLevels_reinserted (h : q.Exact) (hk : q.reinserted.Keyed) :
    q.reinserted.FitsLevels := by
  intro side l hl
  have hperm := (ordersOf_levels_perm hk (detached_reinserted q) side).trans
    (((reinserted_perm q).filter _).trans
      (ordersOf_levels_perm h.ok.toKeyed h.whole.detached side).symm)
  have hsorted := (reinserted_before h.ok.toKeyed).1
  rw [← (hsorted.sortedLevels side).restingTotal hl, restingTotal_perm hperm]
  exact h.restingTotal_lt side l.price

theorem Exact.reinserted (h : q.Exact) (hok : q.reinserted.Ok) : q.reinserted.Exact :=
  ⟨hok, .reinserted q, ⟨detached_reinserted q, h.fitsLevels_reinserted hok.toKeyed⟩,
    (reinserted_before h.ok.toKeyed).1⟩

end QueueBook

namespace Tracks
variable {core : EngineCore OrderBook} {queues : EngineCore QueueBook}

theorem exact' (h : Tracks core queues) (hwhole : queues.AllBooks QueueBook.Whole) :
    queues.AllBooks QueueBook.Exact := by
  intro id q hq
  have hlive := h.live id q hq
  have hrel := h.rel.books id
  rw [hq] at hrel
  generalize core.orderBooks[id]? = mine at hrel
  cases hrel with
  | some href => exact ⟨hlive.ok, hlive.totals, hwhole id q hq, href.rep.sorted⟩

/-- The book of a market is ready for a probe, before a restart and after it. -/
theorem ready (h : Tracks core queues) (hwhole : queues.AllBooks QueueBook.Whole) {id : SymbolId}
    {q : QueueBook} (hq : queues.orderBooks[id]? = some q) {n : ℕ}
    (hn : ∀ c, queues.idempotencyIndex.hasCommand c = true → c < n) :
    Ready queues id q n ∧ Ready queues.restarted id q.reinserted n := by
  have hexact := h.exact' hwhole id q hq
  have hconfig := h.configs id
  rw [hq, Option.map_some] at hconfig
  have hq' : queues.restarted.orderBooks[id]? = some q.reinserted := by
    rw [EngineCore.restarted, Std.ExtTreeMap.getElem?_map, hq, Option.map_some]
  have hconfig' := h.restart.configs id
  rw [hq', Option.map_some] at hconfig'
  exact ⟨⟨hq, hconfig, hexact, hn⟩,
    ⟨hq', hconfig', hexact.reinserted (h.restart.live id _ hq').ok, hn⟩⟩

/-- A core that its restart answers alike had all its queues in id order. -/
theorem inIdOrder_of_run_eq (h : Tracks core queues) (hwhole : queues.AllBooks QueueBook.Whole)
    (hrun : ∀ commands, (queues.restarted.run commands).1 = (queues.run commands).1) :
    queues.AllBooks fun q => q.detached = [] ∧ q.InIdOrder := by
  intro symbolId q hq
  refine ⟨(hwhole symbolId q hq).detached, ?_⟩
  by_contra hids
  obtain ⟨n, hn⟩ := exists_above queues.idempotencyIndex.processedCommandIds.keys
  obtain ⟨hready, hready'⟩ := h.ready hwhole hq (n := n) fun c hc => by
    apply hn c
    rw [Std.ExtTreeMap.mem_keys, ← Std.ExtTreeMap.contains_iff_mem]
    exact hc
  have hexact := hready.exact'
  have hk' := hready'.exact'.ok.toKeyed
  obtain ⟨side, a, b, hsub, hprice, hlt⟩ := QueueBook.exists_crossed hexact hids
  have hsub' := QueueBook.reinserted_crossed hexact hk' hsub hprice hlt
  obtain ⟨id, hid⟩ := exists_above (queues.idempotencyIndex.orderIds.toList ++
    queues.idempotencyIndex.clientOrderIdToOrderId.keys ++ q.activeOrders.map (·.orderId) ++
    q.activeOrders.map (·.clientOrderId))
  have horderIds : queues.idempotencyIndex.hasOrderId id = false := by
    by_contra hc
    rw [Bool.not_eq_false, IdempotencyIndex.hasOrderId, Std.ExtTreeSet.contains_iff_mem,
      ← Std.ExtTreeSet.mem_toList] at hc
    exact lt_irrefl _ (hid id (by simp [hc]))
  have hclientIds : queues.idempotencyIndex.hasClientOrderId id = false := by
    by_contra hc
    rw [Bool.not_eq_false, IdempotencyIndex.hasClientOrderId, Std.ExtTreeMap.contains_iff_mem,
      ← Std.ExtTreeMap.mem_keys] at hc
    exact lt_irrefl _ (hid id (by simp [hc]))
  have hfresh : ∀ r ∈ q.activeOrders, r.orderId ≠ id ∧ r.clientOrderId ≠ id := fun r hr =>
    ⟨(hid r.orderId (by simp; grind)).ne, (hid r.clientOrderId (by simp; grind)).ne⟩
  have ha : a ∈ q.activeOrders :=
    (QueueBook.mem_activeOrders side).2 (Or.inl (hsub.subset List.mem_cons_self))
  obtain ⟨htrading, hquantity, -⟩ := (h.live symbolId q hq).admitted a ha
  have hconfig := QueueBook.symbolConfig_reinserted q
  have hperm := (QueueBook.reinserted_perm q).symm
  obtain ⟨e, events, hevents, he, hmaker⟩ := hready.probe htrading hquantity (List.Perm.refl _)
    hsub hfresh horderIds hclientIds rfl
  obtain ⟨e', events', hevents', he', hmaker'⟩ := hready'.probe (by rw [hconfig]; exact htrading)
    (by rw [hconfig]; exact hquantity) hperm hsub' hfresh horderIds hclientIds rfl
  simp only [or_comm (a := _ = b.orderId)] at hevents'
  rw [hrun, hevents] at hevents'
  cases hevents'
  rw [he] at he'
  cases he'
  rw [hmaker] at hmaker'
  exact absurd hmaker' hlt.ne'

end Tracks

/-- Two asks of one price, accepted in the order of their ids or against it. -/
def twoAsks (first second : ℕ) : EngineCore OrderBook :=
  ((codeCore sampleConfig).run
    [sampleOrder first .sell 100 10, sampleOrder second .sell 100 10]).2

theorem reachable_twoAsks (first second : ℕ) : Reachable (fun _ => True) (twoAsks first second) := by
  have h1 := Reachable.step (.addSymbol sampleConfig) (.empty : Reachable (fun _ => True) _) trivial
  have h2 := Reachable.step (.process (sampleOrder first .sell 100 10)) h1 trivial
  exact Reachable.step (.process (sampleOrder second .sell 100 10)) h2 trivial

/-- A check that implies that the books of a core stand in id order. -/
def idOrderCheck (core : EngineCore OrderBook) : Bool :=
  core.orderBooks.toList.all fun entry => entry.2.InIdOrder

theorem inIdOrder_of_check {core : EngineCore OrderBook} (h : idOrderCheck core = true) :
    core.AllBooks OrderBook.InIdOrder := by
  intro id book hbook
  exact of_decide_eq_true (List.all_eq_true.1 h (id, book)
    (Std.ExtTreeMap.mem_toList_iff_getElem?_eq_some.2 hbook))

end PerpexEngine
