import PerpexEngine.Core.QueueBook
import Mathlib.Data.List.Perm.Basic
import Mathlib.Data.List.Nodup

/-! Which orders the level queues keep, lose and gain in one step, and the invariant that every
book built by these steps satisfies. -/
namespace PerpexEngine
open OrderBook

@[simp] theorem ordersOf_nil : ordersOf [] = [] := rfl

@[simp] theorem ordersOf_cons (l : LevelQueue) (levels : List LevelQueue) :
    ordersOf (l :: levels) = l.orders ++ ordersOf levels := List.flatMap_cons

@[simp] theorem ordersOf_append (xs ys : List LevelQueue) :
    ordersOf (xs ++ ys) = ordersOf xs ++ ordersOf ys := List.flatMap_append

theorem mem_ordersOf {levels : List LevelQueue} {r : OrderSnapshot} :
    r ∈ ordersOf levels ↔ ∃ l ∈ levels, r ∈ l.orders := List.mem_flatMap

theorem eq_or_eq_opposite (a b : Side) : a = b ∨ a = b.opposite := by
  cases a <;> cases b <;> simp [Side.opposite]

theorem forall_side {P : Side → Prop} (side : Side) (h : P side) (h' : P side.opposite) (s : Side) :
    P s := by
  rcases eq_or_eq_opposite s side with rfl | rfl
  · exact h
  · exact h'

/-- Settling moves orders, it loses none. -/
theorem settleFront_perm (l : LevelQueue) (levels : List LevelQueue) :
    (ordersOf (settleFront l levels).1 ++ (settleFront l levels).2).Perm
      (l.orders ++ ordersOf levels) := by
  rw [settleFront]
  split_ifs
  · exact List.perm_append_comm
  · rw [ordersOf_cons, List.append_nil]

theorem insertOrder_perm (side : Side) (o : OrderSnapshot) (levels : List LevelQueue) :
    (ordersOf (insertOrder side o levels)).Perm (o :: ordersOf levels) := by
  induction levels with
  | nil => simp [insertOrder]
  | cons l levels ih =>
    rw [insertOrder]
    split_ifs
    · simp
    · rw [ordersOf_cons, ordersOf_cons, List.append_assoc]
      exact List.perm_middle
    · rw [ordersOf_cons, ordersOf_cons]
      exact (ih.append_left _).trans List.perm_middle

theorem hasOrder_eq_true {l : LevelQueue} {id : OrderId} :
    l.hasOrder id = true ↔ ∃ r ∈ l.orders, r.orderId = id := by
  simp [LevelQueue.hasOrder]

private theorem filter_id_eq_self {rs : List OrderSnapshot} {id : OrderId}
    (h : ∀ r ∈ rs, r.orderId ≠ id) : rs.filter (fun x => decide (x.orderId ≠ id)) = rs :=
  List.filter_eq_self.2 fun r hr => decide_eq_true (h r hr)

/-- Taking an order out removes the orders with its id, and no others. -/
theorem takeOrder_perm (x : OrderSnapshot) {levels : List LevelQueue}
    (h : ((ordersOf levels).map (·.orderId)).Nodup) :
    (ordersOf (takeOrder x levels).1 ++ (takeOrder x levels).2).Perm
      ((ordersOf levels).filter fun r => decide (r.orderId ≠ x.orderId)) := by
  induction levels with
  | nil => exact .refl _
  | cons l levels ih =>
    rw [ordersOf_cons, List.map_append, List.nodup_append] at h
    obtain ⟨-, hlevels, hdisj⟩ := h
    rw [takeOrder, ordersOf_cons, List.filter_append]
    split_ifs with hhas
    · obtain ⟨r, hr, hid⟩ := hasOrder_eq_true.1 hhas
      have hrest : (ordersOf levels).filter (fun x_1 => decide (x_1.orderId ≠ x.orderId)) =
          ordersOf levels := filter_id_eq_self fun r' hr' heq =>
        hdisj _ (List.mem_map_of_mem hr) _ (List.mem_map_of_mem hr') (hid.trans heq.symm)
      rw [hrest]
      exact settleFront_perm (l.without x) levels
    · have hl : l.orders.filter (fun x_1 => decide (x_1.orderId ≠ x.orderId)) = l.orders :=
        filter_id_eq_self fun r hr heq => hhas (hasOrder_eq_true.2 ⟨r, hr, heq⟩)
      rw [hl]
      simp only [ordersOf_cons, List.append_assoc]
      exact (ih hlevels).append_left _

/-- A search by a key that identifies the members. -/
theorem find?_key {α κ : Type} [DecidableEq κ] {key : α → κ} {rs : List α}
    (h : (rs.map key).Nodup) {k : κ} {r : α} :
    rs.find? (fun x => decide (key x = k)) = some r ↔ r ∈ rs ∧ key r = k := by
  constructor
  · intro hr
    exact ⟨List.mem_of_find?_eq_some hr, by simpa using List.find?_some hr⟩
  · rintro ⟨hr, rfl⟩
    have hsome : (rs.find? fun x => decide (key x = key r)).isSome :=
      List.find?_isSome.2 ⟨r, hr, decide_eq_true rfl⟩
    obtain ⟨r', hr'⟩ := Option.isSome_iff_exists.1 hsome
    have hkey : key r' = key r := by simpa using List.find?_some hr'
    rw [hr', List.inj_on_of_nodup_map h (List.mem_of_find?_eq_some hr') hr hkey]

namespace QueueBook
variable {book : QueueBook} {side : Side} {levels : List LevelQueue}

@[simp] theorem levels_setLevels_self : (book.setLevels side levels).levels side = levels := by
  cases side <;> rfl

@[simp] theorem levels_setLevels_opposite :
    (book.setLevels side levels).levels side.opposite = book.levels side.opposite := by
  cases side <;> rfl

theorem activeOrders_perm (book : QueueBook) (side : Side) :
    book.activeOrders.Perm
      (ordersOf (book.levels side) ++ (ordersOf (book.levels side.opposite) ++ book.detached)) := by
  rw [activeOrders]
  cases side with
  | buy => rw [List.append_assoc]; exact .refl _
  | sell =>
    rw [← List.append_assoc]
    exact List.perm_append_comm.append_right _

/-- Replacing the levels of one side and the detached orders. -/
theorem activeOrders_set_perm (book : QueueBook) (side : Side) (levels : List LevelQueue)
    (detached : List OrderSnapshot) :
    ({ book.setLevels side levels with detached := detached } : QueueBook).activeOrders.Perm
      (ordersOf levels ++ (ordersOf (book.levels side.opposite) ++ detached)) := by
  refine (activeOrders_perm _ side).trans ?_
  cases side <;> exact .refl _

theorem putFront_perm (book : QueueBook) (side : Side) (l : LevelQueue)
    (levels : List LevelQueue) : (book.putFront side l levels).activeOrders.Perm
      (l.orders ++ ordersOf levels ++ (ordersOf (book.levels side.opposite) ++ book.detached)) := by
  refine (activeOrders_set_perm book side _ _).trans ?_
  refine List.Perm.trans ?_ ((settleFront_perm l levels).append_right _)
  rw [List.append_assoc]
  refine List.Perm.append_left _ ?_
  rw [← List.append_assoc]
  exact List.perm_append_comm

/-- No two active orders share an id or a client id, and each stands on its own side. -/
structure Keyed (book : QueueBook) : Prop where
  ids : (book.activeOrders.map (·.orderId)).Nodup
  clients : (book.activeOrders.map (·.clientOrderId)).Nodup
  sided : ∀ side, ∀ r ∈ ordersOf (book.levels side), r.side = side

/-- What holds of the level queues between two steps. -/
structure Ok (book : QueueBook) : Prop extends Keyed book where
  positive : ∀ r ∈ book.activeOrders, 0 < r.remainingQuantity.lots

theorem Ok.new (config : SymbolConfig) : (QueueBook.new config).Ok where
  ids := by simp [QueueBook.new, activeOrders]
  clients := by simp [QueueBook.new, activeOrders]
  positive := by simp [QueueBook.new, activeOrders]
  sided side := by cases side <;> simp [QueueBook.new, levels]

theorem mem_activeOrders (side : Side) {r : OrderSnapshot} : r ∈ book.activeOrders ↔
    r ∈ ordersOf (book.levels side) ∨ r ∈ ordersOf (book.levels side.opposite) ∨
      r ∈ book.detached := by
  rw [(activeOrders_perm book side).mem_iff, List.mem_append, List.mem_append]

theorem Keyed.eq_of_id (h : book.Keyed) {r r' : OrderSnapshot} (hr : r ∈ book.activeOrders)
    (hr' : r' ∈ book.activeOrders) (hid : r.orderId = r'.orderId) : r = r' :=
  List.inj_on_of_nodup_map h.ids hr hr' hid

theorem Keyed.eq_of_client (h : book.Keyed) {r r' : OrderSnapshot} (hr : r ∈ book.activeOrders)
    (hr' : r' ∈ book.activeOrders) (hid : r.clientOrderId = r'.clientOrderId) : r = r' :=
  List.inj_on_of_nodup_map h.clients hr hr' hid

theorem Keyed.lookup_eq_some (h : book.Keyed) {id : OrderId} {r : OrderSnapshot} :
    book.lookup id = some r ↔ r ∈ book.activeOrders ∧ r.orderId = id := find?_key h.ids

theorem Keyed.lookupClient_eq_some (h : book.Keyed) {id : ClientOrderId} {r : OrderSnapshot} :
    book.lookupClient id = some r ↔ r ∈ book.activeOrders ∧ r.clientOrderId = id :=
  find?_key h.clients

theorem lookup_eq_none {id : OrderId} :
    book.lookup id = none ↔ ∀ r ∈ book.activeOrders, r.orderId ≠ id := by
  simp [lookup]

theorem lookupClient_eq_none {id : ClientOrderId} :
    book.lookupClient id = none ↔ ∀ r ∈ book.activeOrders, r.clientOrderId ≠ id := by
  simp [lookupClient]

theorem restOrder_perm (book : QueueBook) (o : OrderSnapshot) :
    (book.restOrder o).activeOrders.Perm (o :: book.activeOrders) := by
  have heq : book.restOrder o = { book.setLevels o.side (insertOrder o.side o
      (book.levels o.side)) with detached := book.detached } := by
    rw [restOrder]
    cases o.side <;> rfl
  rw [heq]
  refine (activeOrders_set_perm book o.side _ book.detached).trans ?_
  refine ((insertOrder_perm o.side o _).append_right _).trans ?_
  exact ((activeOrders_perm book o.side).symm).cons o

/-- An order with fresh ids and something left to fill may rest. -/
theorem Ok.restOrder (h : book.Ok) {o : OrderSnapshot} (hpos : 0 < o.remainingQuantity.lots)
    (hid : ∀ r ∈ book.activeOrders, r.orderId ≠ o.orderId)
    (hclient : ∀ r ∈ book.activeOrders, r.clientOrderId ≠ o.clientOrderId) :
    (book.restOrder o).Ok := by
  have hperm := restOrder_perm book o
  refine ⟨⟨?_, ?_, fun side r hr => ?_⟩, fun r hr => ?_⟩
  · rw [(hperm.map _).nodup_iff, List.map_cons, List.nodup_cons]
    refine ⟨fun hin => ?_, h.ids⟩
    obtain ⟨r, hr, heq⟩ := List.mem_map.1 hin
    exact hid r hr heq
  · rw [(hperm.map _).nodup_iff, List.map_cons, List.nodup_cons]
    refine ⟨fun hin => ?_, h.clients⟩
    obtain ⟨r, hr, heq⟩ := List.mem_map.1 hin
    exact hclient r hr heq
  · by_cases hs : side = o.side
    · subst hs
      rw [QueueBook.restOrder, levels_setLevels_self, (insertOrder_perm _ _ _).mem_iff] at hr
      rcases List.mem_cons.1 hr with rfl | hr
      · rfl
      · exact h.sided _ r hr
    · obtain rfl := (eq_or_eq_opposite side o.side).resolve_left hs
      rw [QueueBook.restOrder, levels_setLevels_opposite] at hr
      exact h.sided _ r hr
  · rcases List.mem_cons.1 (hperm.mem_iff.1 hr) with rfl | hr
    · exact hpos
    · exact h.positive r hr

/-- Releasing an order removes it and keeps every other. -/
theorem Keyed.releaseOrder_perm (h : book.Keyed) {x : OrderSnapshot} (hx : x ∈ book.activeOrders) :
    (book.releaseOrder x).activeOrders.Perm
      (book.activeOrders.filter fun r => decide (r.orderId ≠ x.orderId)) := by
  have hperm := activeOrders_perm book x.side
  have hids := (hperm.map (·.orderId)).nodup_iff.1 h.ids
  rw [List.map_append, List.nodup_append] at hids
  have hother : (ordersOf (book.levels x.side.opposite)).filter
      (fun r => decide (r.orderId ≠ x.orderId)) = ordersOf (book.levels x.side.opposite) := by
    refine List.filter_eq_self.2 fun r hr => decide_eq_true fun heq => ?_
    have hr' : r ∈ book.activeOrders := (mem_activeOrders x.side).2 (Or.inr (Or.inl hr))
    have hside := h.sided _ r hr
    rw [h.eq_of_id hr' hx heq] at hside
    cases hs : x.side <;> rw [hs] at hside <;> cases hside
  refine (activeOrders_set_perm book x.side _ _).trans ?_
  refine List.Perm.trans ?_ (hperm.filter _).symm
  rw [List.filter_append, List.filter_append, hother]
  refine List.Perm.trans ?_ ((takeOrder_perm x hids.1).append_right _)
  rw [List.append_assoc]
  refine List.Perm.append_left _ ?_
  rw [← List.append_assoc, ← List.append_assoc]
  refine List.perm_append_comm.trans ?_
  rw [← List.append_assoc]

/-- Replacing the levels of one side by levels of that side. -/
theorem Keyed.sided_set (h : book.Keyed) {levels : List LevelQueue}
    (detached : List OrderSnapshot) (hl : ∀ r ∈ ordersOf levels, r.side = side) : ∀ s, ∀ r ∈ ordersOf
      (({ book.setLevels side levels with detached := detached } : QueueBook).levels s),
        r.side = s := by
  intro s r hr
  rcases eq_or_eq_opposite s side with rfl | rfl
  · have hr' : r ∈ ordersOf levels := by cases s <;> exact hr
    exact hl r hr'
  · have hr' : r ∈ ordersOf (book.levels side.opposite) := by cases side <;> exact hr
    exact h.sided _ r hr'

theorem Ok.releaseOrder (h : book.Ok) {x : OrderSnapshot} (hx : x ∈ book.activeOrders) :
    (book.releaseOrder x).Ok := by
  have hperm := h.releaseOrder_perm hx
  have hids := ((activeOrders_perm book x.side).map (·.orderId)).nodup_iff.1 h.ids
  rw [List.map_append, List.nodup_append] at hids
  refine ⟨⟨?_, ?_, ?_⟩, fun r hr => ?_⟩
  · exact ((hperm.map _).nodup_iff).2 (h.ids.sublist (List.filter_sublist.map _))
  · exact ((hperm.map _).nodup_iff).2 (h.clients.sublist (List.filter_sublist.map _))
  · apply h.sided_set
    intro r hr
    have hmem := (takeOrder_perm x hids.1).mem_iff.1 (List.mem_append_left _ hr)
    exact h.sided _ r (List.mem_of_mem_filter hmem)
  · exact h.positive r (List.mem_of_mem_filter (hperm.mem_iff.1 hr))

end QueueBook

namespace QueueBook
variable {s s' : MatchState} {events : List EngineEvent}

/-- Everything one round of the loop can do. -/
theorem matchStep_cases (h : matchStep s = some (events, s')) :
    ∃ l levels maker queue, s.book.levels s.incoming.side.opposite = l :: levels ∧
      l.orders = maker :: queue ∧ s.incoming.isFilled = false ∧
      crossesLevel s.incoming.side.opposite s.incoming.price l.price = true ∧
      fillEvents s.sequenceGenerator s.book.symbolConfig.symbolId maker s.incoming
        (s.incoming.remainingQuantity.min maker.remainingQuantity)
        (l.totalQuantity.decrease (s.incoming.remainingQuantity.min maker.remainingQuantity)) =
          (events, s'.sequenceGenerator) ∧
      s'.book = s.book.putFront s.incoming.side.opposite (afterFill l maker queue
        (s.incoming.remainingQuantity.min maker.remainingQuantity)) levels ∧
      s'.incoming =
        s.incoming.reduce (s.incoming.remainingQuantity.min maker.remainingQuantity) := by
  simp only [matchStep] at h
  split_ifs at h with hfilled
  split at h
  · cases h
  · rename_i l levels hlevels
    split at h
    · cases h
    · rename_i maker queue horders
      split_ifs at h with hcross
      cases h
      exact ⟨l, levels, maker, queue, hlevels, horders, by simpa using hfilled,
        by simpa using hcross, rfl, rfl, rfl⟩

/-- The orders of a book around the front order of a side. -/
theorem activeOrders_front {book : QueueBook} {side : Side} {l : LevelQueue}
    {levels : List LevelQueue} {maker : OrderSnapshot} {queue : List OrderSnapshot}
    (hlevels : book.levels side = l :: levels) (horders : l.orders = maker :: queue) :
    book.activeOrders.Perm (maker :: (queue ++ ordersOf levels ++
      (ordersOf (book.levels side.opposite) ++ book.detached))) := by
  have hperm := activeOrders_perm book side
  rwa [hlevels, ordersOf_cons, horders] at hperm

theorem putFront_afterFill_perm (book : QueueBook) (side : Side) (l : LevelQueue)
    (levels : List LevelQueue) (maker : OrderSnapshot) (queue : List OrderSnapshot)
    (f : Quantity) :
    (book.putFront side (afterFill l maker queue f) levels).activeOrders.Perm
      ((if (maker.reduce f).isFilled then [] else [maker.reduce f]) ++ (queue ++ ordersOf levels ++
        (ordersOf (book.levels side.opposite) ++ book.detached))) := by
  refine (putFront_perm book side _ levels).trans ?_
  rw [afterFill]
  split_ifs <;> exact .refl _

/-- A fill keeps the invariant. -/
theorem Ok.matchStep (h : s.book.Ok) (hstep : matchStep s = some (events, s')) :
    s'.book.Ok := by
  obtain ⟨l, levels, maker, queue, hlevels, horders, -, -, -, hbook, -⟩ := matchStep_cases hstep
  generalize s.incoming.remainingQuantity.min maker.remainingQuantity = f at hbook
  generalize s.incoming.side.opposite = side at hlevels hbook
  have hbefore := activeOrders_front hlevels horders
  have hafter := putFront_afterFill_perm s.book side l levels maker queue f
  rw [← hbook] at hafter
  generalize queue ++ ordersOf levels ++
    (ordersOf (s.book.levels side.opposite) ++ s.book.detached) = others at hbefore hafter
  have hsub : ∀ {β : Type} (key : OrderSnapshot → β), key (maker.reduce f) = key maker →
      (s.book.activeOrders.map key).Nodup → (s'.book.activeOrders.map key).Nodup := by
    intro β key hkey hnodup
    rw [(hbefore.map key).nodup_iff, List.map_cons] at hnodup
    rw [(hafter.map key).nodup_iff]
    split_ifs
    · exact (List.nodup_cons.1 hnodup).2
    · rwa [List.singleton_append, List.map_cons, hkey]
  refine ⟨⟨hsub _ rfl h.ids, hsub _ rfl h.clients, ?_⟩, fun r hr => ?_⟩
  · rw [hbook]
    apply h.sided_set
    have hside : ∀ r ∈ l.orders ++ ordersOf levels, r.side = side := by
      intro r hr
      refine h.sided side r ?_
      rwa [hlevels, ordersOf_cons]
    intro r hr
    have hmem := (settleFront_perm _ _).mem_iff.1 (List.mem_append_left _ hr)
    rw [afterFill] at hmem
    rw [horders] at hside
    rcases List.mem_append.1 hmem with hmem | hmem
    · split_ifs at hmem
      · exact hside r (List.mem_append_left _ (List.mem_cons_of_mem _ hmem))
      · rcases List.mem_cons.1 hmem with rfl | hmem
        · exact hside maker (List.mem_append_left _ List.mem_cons_self)
        · exact hside r (List.mem_append_left _ (List.mem_cons_of_mem _ hmem))
    · exact hside r (List.mem_append_right _ hmem)
  · have hothers : ∀ r ∈ others, 0 < r.remainingQuantity.lots := fun r hr =>
      h.positive r (hbefore.mem_iff.2 (List.mem_cons_of_mem _ hr))
    rcases List.mem_append.1 (hafter.mem_iff.1 hr) with hr | hr
    · split_ifs at hr with hfilled
      · cases hr
      · rw [List.mem_singleton.1 hr]
        simpa [OrderSnapshot.isFilled, Nat.pos_iff_ne_zero] using hfilled
    · exact hothers r hr

/-- The identities among the active orders only shrink in a fill. -/
theorem matchStep_subset {β : Type} (key : OrderSnapshot → β)
    (hkey : ∀ r q, key (r.reduce q) = key r) (hstep : matchStep s = some (events, s')) :
    ∀ k ∈ s'.book.activeOrders.map key, k ∈ s.book.activeOrders.map key := by
  obtain ⟨l, levels, maker, queue, hlevels, horders, -, -, -, hbook, -⟩ := matchStep_cases hstep
  generalize s.incoming.remainingQuantity.min maker.remainingQuantity = f at hbook
  have hbefore := activeOrders_front hlevels horders
  have hafter := putFront_afterFill_perm s.book s.incoming.side.opposite l levels maker queue f
  rw [← hbook] at hafter
  intro k hk
  rw [(hafter.map key).mem_iff, List.map_append, List.mem_append] at hk
  rw [(hbefore.map key).mem_iff, List.map_cons, List.mem_cons]
  rcases hk with hk | hk
  · split_ifs at hk
    · cases hk
    · rw [List.map_singleton, List.mem_singleton, hkey] at hk
      exact Or.inl hk
  · exact Or.inr hk

/-- What every round keeps, the loop keeps. -/
theorem matchLoop_induction {P : MatchState → Prop}
    (hstep : ∀ s events s', P s → matchStep s = some (events, s') → P s') (n : ℕ)
    (s : MatchState) (h : P s) : P (matchLoop n s).2 := by
  induction n generalizing s with
  | zero => exact h
  | succ n ih =>
    rw [matchLoop]
    cases hs : matchStep s with
    | none => exact h
    | some r => exact ih r.2 (hstep s r.1 r.2 h hs)

theorem Ok.matchLoop (n : ℕ) (h : s.book.Ok) : (matchLoop n s).2.book.Ok :=
  matchLoop_induction (P := fun s => s.book.Ok) (fun _ _ _ h hs => h.matchStep hs) n s h

theorem matchLoop_subset {β : Type} (key : OrderSnapshot → β)
    (hkey : ∀ r q, key (r.reduce q) = key r) (n : ℕ) (s : MatchState) :
    ∀ k ∈ (matchLoop n s).2.book.activeOrders.map key, k ∈ s.book.activeOrders.map key :=
  matchLoop_induction
    (P := fun t => ∀ k ∈ t.book.activeOrders.map key, k ∈ s.book.activeOrders.map key)
    (fun _ _ _ h hs k hk => h k (matchStep_subset key hkey hs k hk)) n s fun _ hk => hk

/-- Matching changes nothing of the incoming order but its remaining quantity. -/
theorem matchLoop_incoming (n : ℕ) (s : MatchState) :
    ∃ q, (matchLoop n s).2.incoming = { s.incoming with remainingQuantity := q } := by
  refine matchLoop_induction
    (P := fun t => ∃ q, t.incoming = { s.incoming with remainingQuantity := q }) ?_ n s ⟨_, rfl⟩
  rintro t events t' ⟨q, hq⟩ hs
  obtain ⟨_, _, _, _, _, _, _, _, _, _, hinc⟩ := matchStep_cases hs
  rw [hinc, OrderSnapshot.reduce, hq]
  exact ⟨_, rfl⟩

/-- The rounds that can still follow: one for each order on the other side, and the last. -/
def roundsLeft (s : MatchState) : ℕ :=
  if s.incoming.isFilled then 0
  else (ordersOf (s.book.levels s.incoming.side.opposite)).length + 1

theorem levels_putFront (book : QueueBook) (side : Side) (l : LevelQueue)
    (levels : List LevelQueue) :
    (book.putFront side l levels).levels side = (settleFront l levels).1 := by
  cases side <;> rfl

theorem length_settleFront (l : LevelQueue) (levels : List LevelQueue) :
    (ordersOf (settleFront l levels).1).length ≤ l.orders.length + (ordersOf levels).length := by
  have hlen := (settleFront_perm l levels).length_eq
  rw [List.length_append, List.length_append] at hlen
  omega

theorem isFilled_iff {o : OrderSnapshot} : o.isFilled = true ↔ o.remainingQuantity.lots = 0 := by
  simp [OrderSnapshot.isFilled]

theorem isFilled_eq_false {o : OrderSnapshot} :
    o.isFilled = false ↔ 0 < o.remainingQuantity.lots := by
  simp [OrderSnapshot.isFilled]

theorem reduce_lots {o : OrderSnapshot} {q : Quantity}
    (h : q.lots ≤ o.remainingQuantity.lots) :
    (o.reduce q).remainingQuantity.lots = o.remainingQuantity.lots - q.lots :=
  Quantity.lots_subtractLots h

/-- Either the incoming order or the maker is used up, so every round counts down. -/
theorem roundsLeft_lt (hstep : matchStep s = some (events, s')) : roundsLeft s' < roundsLeft s := by
  obtain ⟨l, levels, maker, queue, hlevels, horders, hopen, -, -, hbook, hinc⟩ :=
    matchStep_cases hstep
  have hside : s'.incoming.side = s.incoming.side := by rw [hinc]; rfl
  have hbefore : roundsLeft s = (l.orders ++ ordersOf levels).length + 1 := by
    rw [roundsLeft, if_neg (by rw [hopen]; decide), hlevels, ordersOf_cons]
  rw [hbefore, horders, List.length_append, List.length_cons, roundsLeft]
  split_ifs with hfilled
  · omega
  · have hmaker : (maker.reduce
        (s.incoming.remainingQuantity.min maker.remainingQuantity)).isFilled = true := by
      have hle := Quantity.min_lots_le_left s.incoming.remainingQuantity maker.remainingQuantity
      have hmin := Quantity.lots_min s.incoming.remainingQuantity maker.remainingQuantity
      rw [isFilled_iff, hinc, reduce_lots hle] at hfilled
      rw [isFilled_iff, reduce_lots (Quantity.min_lots_le_right _ _)]
      omega
    have hlen := length_settleFront (afterFill l maker queue
      (s.incoming.remainingQuantity.min maker.remainingQuantity)) levels
    rw [hside, hbook, levels_putFront]
    simp only [afterFill, hmaker, ↓reduceIte] at hlen ⊢
    omega

theorem matchStep_of_roundsLeft (h : roundsLeft s = 0) : matchStep s = none := by
  rw [roundsLeft] at h
  split_ifs at h with hf
  rw [matchStep, if_pos hf]

theorem matchLoop_of_none (h : matchStep s = none) (n : ℕ) : matchLoop n s = ([], s) := by
  cases n with
  | zero => rfl
  | succ n => rw [matchLoop, h]

theorem matchLoop_of_some (h : matchStep s = some (events, s')) (n : ℕ) :
    matchLoop (n + 1) s = (events ++ (matchLoop n s').1, (matchLoop n s').2) := by
  rw [matchLoop, h]

/-- Enough rounds are as good as any more. -/
theorem matchLoop_stable (n m : ℕ) (s : MatchState) (hn : roundsLeft s ≤ n)
    (hm : roundsLeft s ≤ m) : matchLoop n s = matchLoop m s := by
  induction n generalizing m s with
  | zero =>
    have hnone := matchStep_of_roundsLeft (Nat.le_zero.1 hn)
    rw [matchLoop_of_none hnone, matchLoop_of_none hnone]
  | succ n ih =>
    cases hs : matchStep s with
    | none => rw [matchLoop_of_none hs, matchLoop_of_none hs]
    | some r =>
      obtain ⟨events, t⟩ := r
      have hlt := roundsLeft_lt hs
      cases m with
      | zero => omega
      | succ m => rw [matchLoop_of_some hs, matchLoop_of_some hs, ih m t (by omega) (by omega)]

/-- The loop stops only where no further fill is possible. -/
theorem matchLoop_stops (n : ℕ) (s : MatchState) (hn : roundsLeft s ≤ n) :
    matchStep (matchLoop n s).2 = none := by
  induction n generalizing s with
  | zero => exact matchStep_of_roundsLeft (Nat.le_zero.1 hn)
  | succ n ih =>
    cases hs : matchStep s with
    | none => rwa [matchLoop_of_none hs]
    | some r =>
      obtain ⟨events, t⟩ := r
      have hlt := roundsLeft_lt hs
      have hrec := ih t (by omega)
      rwa [matchLoop_of_some hs]

theorem roundsLeft_le (s : MatchState) :
    roundsLeft s ≤ (ordersOf (s.book.levels s.incoming.side.opposite)).length + 1 := by
  rw [roundsLeft]
  split_ifs <;> omega

theorem placeRejection_fresh {book : QueueBook} {command : PlaceOrderCommand}
    (h : book.placeRejection command = none) :
    (∀ r ∈ book.activeOrders, r.orderId ≠ command.orderId) ∧
      ∀ r ∈ book.activeOrders, r.clientOrderId ≠ command.clientOrderId := by
  rw [placeRejection] at h
  split_ifs at h with hdup
  rw [Bool.or_eq_true, not_or, Option.not_isSome_iff_eq_none, Option.not_isSome_iff_eq_none] at hdup
  exact ⟨lookup_eq_none.1 hdup.1, lookupClient_eq_none.1 hdup.2⟩

theorem Ok.processPlace {book : QueueBook} (h : book.Ok) (command : PlaceOrderCommand)
    (g : SequenceGenerator) : (book.processPlace command g).2.1.Ok := by
  rw [QueueBook.processPlace]
  cases hr : book.placeRejection command with
  | some reason => exact h
  | none =>
    obtain ⟨hid, hclient⟩ := placeRejection_fresh hr
    generalize hs : (⟨book, incomingOrder command g.nextSequence, g.nextEvent⟩ : MatchState) = s
    have hbook : s.book = book := by rw [← hs]
    have hinc : s.incoming = incomingOrder command g.nextSequence := by rw [← hs]
    generalize hn : (ordersOf (s.book.levels s.incoming.side.opposite)).length + 1 = n
    have hok : (QueueBook.matchLoop n s).2.book.Ok := Ok.matchLoop n (by rwa [hbook])
    have hids := matchLoop_subset (·.orderId) (fun _ _ => rfl) n s
    have hclients := matchLoop_subset (·.clientOrderId) (fun _ _ => rfl) n s
    obtain ⟨q, hq⟩ := matchLoop_incoming n s
    simp only [matchIncomingOrder, hn]
    rw [hbook] at hids hclients
    split_ifs with hrest
    · rw [Bool.and_eq_true, Bool.not_eq_true', isFilled_eq_false] at hrest
      refine Ok.restOrder hok hrest.2 ?_ ?_
      · intro r hr heq
        obtain ⟨r', hr', heq'⟩ := List.mem_map.1 (hids _ (List.mem_map_of_mem hr))
        refine hid r' hr' ?_
        rw [heq', heq, hq, hinc]
        rfl
      · intro r hr heq
        obtain ⟨r', hr', heq'⟩ := List.mem_map.1 (hclients _ (List.mem_map_of_mem hr))
        refine hclient r' hr' ?_
        rw [heq', heq, hq, hinc]
        rfl
    · exact hok

theorem Ok.processCancel {book : QueueBook} (h : book.Ok) (command : CancelOrderCommand)
    (g : SequenceGenerator) : (book.processCancel command g).2.1.Ok := by
  simp only [QueueBook.processCancel]
  cases hf : (book.lookup (book.cancelTarget command)).filter
      fun o => o.userId = command.userId with
  | none => exact h
  | some o =>
    have hlookup := (Option.filter_eq_some_iff.1 hf).1
    exact h.releaseOrder (h.lookup_eq_some.1 hlookup).1

section ReduceFront
variable {book : QueueBook} {side : Side} {l : LevelQueue} {levels : List LevelQueue}
  {maker : OrderSnapshot} {rest : List OrderSnapshot} {f : Quantity}

/-- The front level with its front order reduced, not yet settled. -/
def reducedLevel (l : LevelQueue) (maker : OrderSnapshot) (rest : List OrderSnapshot)
    (f : Quantity) : LevelQueue :=
  ⟨l.price, l.totalQuantity.decrease f, maker.reduce f :: rest⟩

theorem reduceFront_perm (book : QueueBook) (side : Side) (l : LevelQueue)
    (levels : List LevelQueue) (maker : OrderSnapshot) (rest : List OrderSnapshot)
    (f : Quantity) : (book.setLevels side (reducedLevel l maker rest f :: levels)).activeOrders.Perm
      (maker.reduce f :: (rest ++ ordersOf levels ++
        (ordersOf (book.levels side.opposite) ++ book.detached))) := by
  have hlevels : (book.setLevels side (reducedLevel l maker rest f :: levels)).levels side =
      reducedLevel l maker rest f :: levels := levels_setLevels_self
  have hperm := activeOrders_front hlevels rfl
  rw [levels_setLevels_opposite] at hperm
  refine hperm.trans ?_
  cases side <;> exact .refl _

theorem Keyed.reduceFront (h : book.Keyed) (hlevels : book.levels side = l :: levels)
    (hl : l.orders = maker :: rest) (f : Quantity) :
    (book.setLevels side (reducedLevel l maker rest f :: levels)).Keyed := by
  have hbefore := activeOrders_front hlevels hl
  have hafter := reduceFront_perm book side l levels maker rest f
  refine ⟨?_, ?_, ?_⟩
  · rw [(hafter.map _).nodup_iff]
    exact (hbefore.map _).nodup_iff.1 h.ids
  · rw [(hafter.map _).nodup_iff]
    exact (hbefore.map _).nodup_iff.1 h.clients
  · have hside : ∀ r ∈ l.orders ++ ordersOf levels, r.side = side := by
      intro r hr
      refine h.sided side r ?_
      rwa [hlevels, ordersOf_cons]
    have hside' : ∀ r ∈ ordersOf (reducedLevel l maker rest f :: levels), r.side = side := by
      intro r hr
      rw [ordersOf_cons, reducedLevel, List.cons_append] at hr
      rw [hl] at hside
      rcases List.mem_cons.1 hr with rfl | hr
      · exact hside maker List.mem_cons_self
      · exact hside r (List.mem_cons_of_mem _ hr)
    have hset := h.sided_set book.detached hside'
    intro s r hr
    refine hset s r ?_
    cases side <;> exact hr

/-- Releasing a used-up front order is settling the level without it. -/
theorem releaseOrder_reduceFront (h : book.Keyed) (hlevels : book.levels side = l :: levels)
    (hl : l.orders = maker :: rest) (hfilled : (maker.reduce f).isFilled = true) :
    (book.setLevels side (reducedLevel l maker rest f :: levels)).releaseOrder (maker.reduce f) =
      book.putFront side (afterFill l maker rest f) levels := by
  have hmaker : maker.side = side := h.sided side maker (by
    rw [hlevels, ordersOf_cons, hl]
    exact List.mem_cons_self)
  have hside : (maker.reduce f).side = side := hmaker
  have hids := (activeOrders_front hlevels hl).map (·.orderId) |>.nodup_iff.1 h.ids
  rw [List.map_cons, List.nodup_cons] at hids
  have hother : ∀ {r}, r ∈ rest ∨ r ∈ book.detached → r.orderId ≠ maker.orderId := by
    intro r hr heq
    refine hids.1 (heq ▸ List.mem_map_of_mem ?_)
    rcases hr with hr | hr
    · exact List.mem_append_left _ (List.mem_append_left _ hr)
    · exact List.mem_append_right _ (List.mem_append_right _ hr)
  have hzero : (maker.reduce f).remainingQuantity = Quantity.zero :=
    Quantity.ext (isFilled_iff.1 hfilled)
  have hwithout : (reducedLevel l maker rest f).without (maker.reduce f) =
      afterFill l maker rest f := by
    have hrest : rest.filter (fun x => decide (x.orderId ≠ maker.orderId)) = rest :=
      filter_id_eq_self fun r hr => hother (Or.inl hr)
    simp only [LevelQueue.without, reducedLevel, afterFill, hfilled, hzero,
      Quantity.decrease_zero, ↓reduceIte]
    rw [List.filter_cons_of_neg (by simp)]
    exact congrArg _ hrest
  have hdetached : book.detached.filter (fun x => decide (x.orderId ≠ (maker.reduce f).orderId)) =
      book.detached := filter_id_eq_self fun r hr => hother (Or.inr hr)
  have hhas : (reducedLevel l maker rest f).hasOrder (maker.reduce f).orderId = true :=
    hasOrder_eq_true.2 ⟨_, List.mem_cons_self, rfl⟩
  rw [releaseOrder, hside, levels_setLevels_self, takeOrder, if_pos hhas, hwithout, putFront]
  have hset : (book.setLevels side (reducedLevel l maker rest f :: levels)).detached =
      book.detached := by cases side <;> rfl
  simp only [hset, hdetached]
  cases side <;> rfl

end ReduceFront

end QueueBook
end PerpexEngine
