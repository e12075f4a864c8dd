import PerpexEngine.Core.SideRefinement

/-! The three operations of a side act on the represented list of level queues: an order is
removed, an order is reduced by a fill, an order comes to rest. -/
namespace PerpexEngine
open LinkedQueue

variable {book : SideBook} {orders : Heap Order} {queue : Queues}
  {view before after : List (LevelPtr × LevelQueue)} {lp : LevelPtr} {a : LevelQueue}
  {p : OrderPtr} {o : Order}

theorem recordOf_eq (ho : orders.read p = some o) : recordOf orders p = some o.toOrderSnapshot := by
  rw [recordOf, attrOf_eq ho, Option.map_some]

theorem recordOf_eq_some {r : OrderSnapshot} :
    recordOf orders p = some r ↔ ∃ o, orders.read p = some o ∧ o.toOrderSnapshot = r := by
  simp [recordOf, attrOf, Option.map_eq_some_iff]

/-- The records split where the queue splits. -/
theorem LevelRep.split {level : PriceLevel} {xs ys : List OrderPtr}
    (h : LevelRep level orders (xs ++ p :: ys) a) (ho : orders.read p = some o) :
    ∃ as bs, a.orders = as ++ o.toOrderSnapshot :: bs ∧
      xs.map (recordOf orders) = as.map some ∧ ys.map (recordOf orders) = bs.map some := by
  have hrec := h.records
  rw [List.map_append, List.map_cons, recordOf_eq ho] at hrec
  obtain ⟨as, rs, hsplit, has, hrs⟩ := List.map_eq_append_iff.1 hrec.symm
  obtain ⟨r, bs, rfl, hr, hbs⟩ := List.map_eq_cons_iff.1 hrs
  cases hr
  exact ⟨as, bs, hsplit, has.symm, hbs.symm⟩

/-- Distinct orders of a book have distinct ids. -/
def UniqueIds (orders : Heap Order) : Prop := ∀ p q o o', orders.read p = some o →
  orders.read q = some o' → o.orderId = o'.orderId → p = q

private theorem mem_map_recordOf {xs : List OrderPtr} {as : List OrderSnapshot}
    (h : xs.map (recordOf orders) = as.map some) {r : OrderSnapshot} (hr : r ∈ as) :
    ∃ q ∈ xs, recordOf orders q = some r := by
  have hmem : some r ∈ xs.map (recordOf orders) := by
    rw [h]
    exact List.mem_map_of_mem hr
  exact List.mem_map.1 hmem

/-- Only the removed order has its id, so the level without it is the rest of the queue. -/
theorem LevelRep.without {level : PriceLevel} {xs ys : List OrderPtr}
    (h : LevelRep level orders (xs ++ p :: ys) a) (ho : orders.read p = some o)
    (hids : UniqueIds orders) (hnodup : (xs ++ p :: ys).Nodup) :
    ∃ as bs, a.orders = as ++ o.toOrderSnapshot :: bs ∧
      (a.without o.toOrderSnapshot).orders = as ++ bs ∧
      xs.map (recordOf orders) = as.map some ∧ ys.map (recordOf orders) = bs.map some := by
  obtain ⟨as, bs, hsplit, has, hbs⟩ := h.split ho
  refine ⟨as, bs, hsplit, ?_, has, hbs⟩
  have hkeep : ∀ {zs : List OrderPtr} {cs : List OrderSnapshot}, p ∉ zs →
      zs.map (recordOf orders) = cs.map some →
      cs.filter (fun x => decide (x.orderId ≠ o.orderId)) = cs := by
    intro zs cs hp hcs
    rw [List.filter_eq_self]
    intro r hr
    obtain ⟨q, hq, hrec⟩ := mem_map_recordOf hcs hr
    obtain ⟨o', ho', rfl⟩ := recordOf_eq_some.1 hrec
    rw [decide_eq_true_eq]
    intro hid
    exact hp (hids q p o' o ho' ho hid ▸ hq)
  rw [List.nodup_middle, List.nodup_cons, List.mem_append, not_or] at hnodup
  rw [LevelQueue.without, hsplit]
  simp only [List.filter_append, List.filter_cons, ne_eq, not_true_eq_false, decide_false,
    Bool.false_eq_true, ↓reduceIte]
  have hx := hkeep hnodup.1.1 has
  have hy := hkeep hnodup.1.2 hbs
  simp only [ne_eq] at hx hy
  rw [hx, hy]

theorem LevelRep.unlink {level : PriceLevel} {xs ys : List OrderPtr} {orders' : Heap Order}
    (h : LevelRep level orders (xs ++ p :: ys) a) (ho : orders.read p = some o)
    (hids : UniqueIds orders) (hnodup : (xs ++ p :: ys).Nodup)
    (hprev : o.previousOrder = xs.getLast?) (hnext : o.nextOrder = ys.head?)
    (hattr : ∀ q ∈ xs ++ ys, attrOf orders' q = attrOf orders q) :
    LevelRep (level.unlink o) orders' (xs ++ ys) (a.without o.toOrderSnapshot) := by
  obtain ⟨as, bs, hsplit, hrest, has, hbs⟩ := h.without ho hids hnodup
  refine ⟨h.price, ?_, ?_, ?_, ?_, ?_, ?_⟩
  · change level.totalQuantity.decrease _ = a.totalQuantity.decrease _
    rw [h.total]
  · change (if o.previousOrder.isSome then level.head else o.nextOrder) = _
    rw [h.head, hprev, hnext]
    cases xs with
    | nil => rfl
    | cons x xs => rw [if_pos (by simp [List.getLast?_cons])]; rfl
  · change (if o.nextOrder.isSome then level.tail else o.previousOrder) = _
    rw [h.tail, hprev, hnext]
    cases ys with
    | nil => simp
    | cons y ys => simp [List.getLast?_append, List.getLast?_cons]
  · change level.orderCount - 1 = _
    rw [h.count]
    simp only [List.length_append, List.length_cons]
    omega
  · rw [hrest, List.map_append, List.map_append, ← has, ← hbs, ← List.map_append,
      ← List.map_append]
    exact List.map_congr_left fun q hq => by rw [recordOf, recordOf, hattr q hq]
  · intro r hr
    refine h.prices r ?_
    rw [hrest] at hr
    rw [hsplit]
    rcases List.mem_append.1 hr with hr | hr
    · exact List.mem_append_left _ hr
    · exact List.mem_append_right _ (List.mem_cons_of_mem _ hr)

/-- What `remove_order` does to the orders concerns the level of the order alone. -/
theorem SideRep.onlyLevel_unlink (h : SideRep book orders queue view)
    (ho : orders.read p = some o) {xs ys : List OrderPtr} (hq : queue lp = xs ++ p :: ys) :
    OnlyLevel book.side lp orders (unlinkOrder orders p o) queue
      (Function.update queue lp (xs ++ ys)) := by
  have hp : (orders.read p).isSome := by rw [ho, Option.isSome_some]
  have hnodup := hq ▸ h.nodup lp
  have hlinked := hq ▸ h.linked lp
  have hlive : ∀ q ∈ xs ++ p :: ys, (orders.read q).isSome := by
    intro q hmem
    obtain ⟨r, hr, -⟩ := (h.mem_iff lp q).1 (hq ▸ hmem)
    obtain ⟨x, hx, -⟩ := attrOf_eq_some.1 hr
    rw [hx, Option.isSome_some]
  have hprev : o.previousOrder = xs.getLast? := (prevOf_eq ho).symm.trans hlinked.prev_eq
  have hnext : o.nextOrder = ys.head? := (nextOf_eq ho).symm.trans hlinked.next_eq
  have hpin : p ∉ xs ++ ys := (List.nodup_cons.1 (List.nodup_middle.1 hnodup)).1
  have hmem : ∀ q, q ∈ queue lp ↔ q = p ∨ q ∈ xs ++ ys := by
    intro q
    rw [hq]
    simp only [List.mem_append, List.mem_cons]
    tauto
  have hself : Function.update queue lp (xs ++ ys) lp = xs ++ ys := Function.update_self ..
  have hlast : ∀ v, o.previousOrder = some v → v ∈ xs := by
    intro v hv
    exact List.mem_of_getLast? (hprev.symm.trans hv)
  have hhead : ∀ n, o.nextOrder = some n → n ∈ ys := by
    intro n hn
    exact List.mem_of_head? (hnext.symm.trans hn)
  refine ⟨fun lp' hne => Function.update_of_ne hne _ _, fun q hq1 _ => ?_, ?_, ?_, fun q => ?_,
    fun q hq1 hq2 r lp' => ?_, fun q hq1 hq2 => ?_⟩
  · rw [hmem, not_or] at hq1
    obtain ⟨hqp, hqin⟩ := hq1
    rw [List.mem_append, not_or] at hqin
    refine ⟨?_, ?_, ?_⟩
    · rw [prevOf_unlinkOrder hp fun n hn => hlive n (by simp [hhead n hn]), if_neg hqp, if_neg]
      exact fun heq => hqin.2 (hhead q heq.symm)
    · rw [nextOf_unlinkOrder hp fun v hv => hlive v (by simp [hlast v hv]), if_neg hqp, if_neg]
      exact fun heq => hqin.1 (hlast q heq.symm)
    · rw [attrOf_unlinkOrder ho, if_neg hqp]
  · rw [hself]
    exact linked_unlinkOrder ho hlinked hnodup hlive
  · rw [hself]
    exact (List.nodup_cons.1 (List.nodup_middle.1 hnodup)).2
  · rw [hself, attrOf_unlinkOrder ho]
    split_ifs with hqp
    · simp only [hqp, hpin, Option.some.injEq, Prod.mk.injEq, reduceCtorEq, and_false, false_and,
        exists_false]
    · rw [← h.mem_iff, hmem]
      simp [hqp]
  · rw [hself] at hq2
    obtain rfl : q = p := ((hmem q).1 hq1).resolve_right hq2
    rw [attrOf_unlinkOrder ho, if_pos rfl]
    simp
  · rw [hself] at hq1
    exact absurd ((hmem q).2 (Or.inr hq1)) hq2

/-- The level of an order is the one that lists its id. -/
theorem SideRep.hasOrder_iff (h : SideRep book orders queue view) (hids : UniqueIds orders)
    (ho : orders.read p = some o) (hlp : o.priceLevel = some lp) (hs : o.side = book.side)
    {x : LevelPtr × LevelQueue} (hx : x ∈ view) : x.2.hasOrder o.orderId = true ↔ x.1 = lp := by
  obtain ⟨l, -, hr⟩ := h.rep x.1 x.2 hx
  rw [LevelQueue.hasOrder, List.any_eq_true]
  constructor
  · rintro ⟨r, hr', hid⟩
    obtain ⟨q, hq, hrec⟩ := mem_map_recordOf hr.records hr'
    obtain ⟨o', ho', rfl⟩ := recordOf_eq_some.1 hrec
    obtain rfl := hids q p o' o ho' ho (of_decide_eq_true hid)
    obtain ⟨r', hattr, -⟩ := (h.mem_iff _ _).1 hq
    rw [attrOf_eq ho, hlp] at hattr
    cases hattr
    rfl
  · intro hx1
    have hp : p ∈ queue x.1 := (h.mem_iff _ _).2
      ⟨o.toOrderSnapshot, by rw [attrOf_eq ho, hlp, hx1], hs⟩
    have hmem : recordOf orders p ∈ (queue x.1).map (recordOf orders) := List.mem_map_of_mem hp
    rw [hr.records, recordOf_eq ho] at hmem
    obtain ⟨r, hr', heq⟩ := List.mem_map.1 hmem
    cases heq
    exact ⟨_, hr', decide_eq_true rfl⟩

theorem takeOrder_append {x : OrderSnapshot} {before after : List LevelQueue} {a : LevelQueue}
    (hb : ∀ l ∈ before, l.hasOrder x.orderId = false) (ha : a.hasOrder x.orderId = true) :
    takeOrder x (before ++ a :: after) =
      (before ++ (settleFront (a.without x) after).1, (settleFront (a.without x) after).2) := by
  induction before with
  | nil => rw [List.nil_append, takeOrder, if_pos ha]; rfl
  | cons l ls ih =>
    rw [List.cons_append, takeOrder, if_neg (by rw [hb l List.mem_cons_self]; decide),
      ih fun l' hl' => hb l' (List.mem_cons_of_mem _ hl')]
    rfl

theorem takeOrder_none {x : OrderSnapshot} {levels : List LevelQueue}
    (h : ∀ l ∈ levels, l.hasOrder x.orderId = false) : takeOrder x levels = (levels, []) := by
  induction levels with
  | nil => rfl
  | cons l ls ih =>
    rw [takeOrder, if_neg (by rw [h l List.mem_cons_self]; decide),
      ih fun l' hl' => h l' (List.mem_cons_of_mem _ hl')]

/-- `remove_order` takes the order out of the represented side. -/
theorem SideOk.removeOrder (h : SideOk book orders queue view) (hids : UniqueIds orders)
    (ho : orders.read p = some o) (hlp : o.priceLevel = some lp) (hs : o.side = book.side) :
    ∃ queue' view', SideOk (book.removeOrder orders p).1 (book.removeOrder orders p).2 queue' view' ∧
      book.SameShape (book.removeOrder orders p).1 ∧
      (book.removeOrder orders p).2 = unlinkOrder orders p o ∧
      OnlyLevel book.side lp orders (unlinkOrder orders p o) queue queue' ∧
      view'.map (·.2) = (takeOrder o.toOrderSnapshot (view.map (·.2))).1 := by
  have hp : p ∈ queue lp := (h.mem_iff _ _).2 ⟨o.toOrderSnapshot, by rw [attrOf_eq ho, hlp], hs⟩
  obtain ⟨xs, ys, hq⟩ := List.append_of_mem hp
  have honly := h.onlyLevel_unlink ho hq
  have heq : book.removeOrder orders p =
      (SideBook.updateAfterFillOrCancel { book with levels := book.levels.modify lp (·.unlink o) }
        (some lp), unlinkOrder orders p o) := by
    simp only [SideBook.removeOrder, ho, hlp]
  have hhas := fun x hx => h.hasOrder_iff hids ho hlp hs (x := x) hx
  rw [heq]
  cases hl : book.levels.read lp with
  | none =>
    have hmod : ({ book with levels := book.levels.modify lp (·.unlink o) } : SideBook) = book := by
      rw [Heap.modify_of_dead hl]
    have hdead := h.updateDead hl honly fun hge => by
      rw [h.unalloc lp hge] at hp
      cases hp
    rw [hmod, updateAfterFillOrCancel_dead hl]
    refine ⟨_, view, ⟨hdead, h.cached, h.settled⟩, .refl _, rfl, honly, ?_⟩
    rw [takeOrder_none]
    intro b hb
    obtain ⟨x, hx, rfl⟩ := List.mem_map.1 hb
    rw [Bool.eq_false_iff]
    intro hhx
    obtain ⟨l, hl', -⟩ := h.rep x.1 x.2 hx
    rw [(hhas x hx).1 hhx, hl] at hl'
    cases hl'
  | some l =>
    obtain ⟨a, ha⟩ := h.live lp l hl
    obtain ⟨before, after, rfl⟩ := List.append_of_mem ha
    have hlinked := hq ▸ h.linked lp
    have hprev : o.previousOrder = xs.getLast? := (prevOf_eq ho).symm.trans hlinked.prev_eq
    have hnext : o.nextOrder = ys.head? := (nextOf_eq ho).symm.trans hlinked.next_eq
    have hpin := (List.nodup_cons.1 (List.nodup_middle.1 (hq ▸ h.nodup lp))).1
    have hupd : SideRep { book with levels := book.levels.modify lp (·.unlink o) }
        (unlinkOrder orders p o) (Function.update queue lp (xs ++ ys))
        (before ++ (lp, a.without o.toOrderSnapshot) :: after) :=
      h.update honly (fun l => rfl) rfl (fun l hr => by
        rw [Function.update_self]
        rw [hq] at hr
        refine hr.unlink ho hids (hq ▸ h.nodup lp) hprev hnext fun q hqin => ?_
        have hne : q ≠ p := fun hqp => hpin (hqp ▸ hqin)
        rw [attrOf_unlinkOrder ho, if_neg hne])
    obtain ⟨hok, hshape⟩ := hupd.updateAfterFillOrCancel (h.cached.trans (by cases before <;> rfl))
      fun x hx => h.settled x (by
        rcases List.mem_append.1 hx with hx | hx
        · exact List.mem_append_left _ hx
        · exact List.mem_append_right _ (List.mem_cons_of_mem _ hx))
    refine ⟨_, _, hok, ⟨hshape.side, hshape.tickSize⟩, rfl, honly, ?_⟩
    rw [List.map_append, List.map_append, List.map_cons, takeOrder_append]
    · rw [settleFront]
      split_ifs <;> rfl
    · intro b hb
      obtain ⟨x, hx, rfl⟩ := List.mem_map.1 hb
      rw [Bool.eq_false_iff]
      exact fun hhx => h.ne_of_mem (List.mem_append_left after hx)
        ((hhas x (List.mem_append_left _ hx)).1 hhx)
    · exact (hhas _ (List.mem_append_right _ List.mem_cons_self)).2 rfl

section Reduce

theorem attrOf_reduce (q : OrderPtr) (ho : orders.read p = some o) (f : Quantity) :
    attrOf (orders.modify p (·.reduce f)) q =
      if q = p then some (o.toOrderSnapshot.reduce f, o.priceLevel) else attrOf orders q := by
  rw [attrOf_modify, ho]
  rfl

theorem prevOf_reduce (q : OrderPtr) (f : Quantity) :
    prevOf (orders.modify p (·.reduce f)) q = prevOf orders q := by
  rw [prevOf_modify]
  split_ifs with hq
  · rw [hq]
    rfl
  · rfl

theorem nextOf_reduce (q : OrderPtr) (f : Quantity) :
    nextOf (orders.modify p (·.reduce f)) q = nextOf orders q := by
  rw [nextOf_modify]
  split_ifs with hq
  · rw [hq]
    rfl
  · rfl

/-- Reducing an order concerns its own level alone. -/
theorem SideRep.onlyLevel_reduce (h : SideRep book orders queue view)
    (ho : orders.read p = some o) (hlp : o.priceLevel = some lp) (hs : o.side = book.side)
    (f : Quantity) :
    OnlyLevel book.side lp orders (orders.modify p (·.reduce f)) queue queue := by
  have hp : p ∈ queue lp := (h.mem_iff _ _).2 ⟨o.toOrderSnapshot, by rw [attrOf_eq ho, hlp], hs⟩
  refine ⟨fun _ _ => rfl, fun q hq _ => ⟨prevOf_reduce q f, nextOf_reduce q f, ?_⟩, ?_,
    h.nodup lp, fun q => ?_, fun q h1 h2 => absurd h1 h2, fun q h1 h2 => absurd h1 h2⟩
  · have hne : q ≠ p := fun hqp => hq (hqp ▸ hp)
    rw [attrOf_reduce q ho, if_neg hne]
  · exact (h.linked lp).congr (fun q _ => prevOf_reduce q f) (fun q _ => nextOf_reduce q f)
  · rw [h.mem_iff, attrOf_reduce q ho]
    split_ifs with hqp
    · rw [hqp, attrOf_eq ho, hlp]
      simp [OrderSnapshot.reduce]
    · rfl

/-- A fill reduces the front order of the first level and the total of that level. -/
theorem SideOk.reduceFront {maker : OrderSnapshot} {rest : List OrderSnapshot}
    (h : SideOk book orders queue ((lp, a) :: after)) (ho : orders.read p = some o)
    (hlp : o.priceLevel = some lp) (hs : o.side = book.side)
    (hfront : (queue lp).head? = some p) (ha : a.orders = maker :: rest) (f : Quantity) :
    SideOk { book with levels := book.levels.modify lp (·.decreaseTotal f) }
      (orders.modify p (·.reduce f)) queue
      ((lp, ⟨a.price, a.totalQuantity.decrease f, maker.reduce f :: rest⟩) :: after) := by
  have honly := h.onlyLevel_reduce ho hlp hs f
  have hrep : SideRep { book with levels := book.levels.modify lp (·.decreaseTotal f) }
      (orders.modify p (·.reduce f)) queue
      ([] ++ (lp, ⟨a.price, a.totalQuantity.decrease f, maker.reduce f :: rest⟩) :: after) := by
    refine SideRep.update (a := a) h.toSideRep honly (fun l => rfl) rfl fun l hr => ?_
    obtain ⟨qs, hqs⟩ := List.head?_eq_some_iff.1 hfront
    have hnodup := h.nodup lp
    rw [hqs] at hr hnodup ⊢
    have hrec := hr.records
    rw [List.map_cons, ha, List.map_cons, recordOf_eq ho] at hrec
    obtain ⟨hmaker, hrest⟩ := List.cons.inj hrec
    cases hmaker
    refine ⟨hr.price, ?_, hr.head, hr.tail, hr.count, ?_, fun r hr' => ?_⟩
    · change l.totalQuantity.decrease f = _
      rw [hr.total]
    · rw [List.map_cons, List.map_cons, recordOf, attrOf_reduce p ho, if_pos rfl, ← hrest]
      refine congrArg _ (List.map_congr_left fun q hq => ?_)
      have hne : q ≠ p := fun hqp => (List.nodup_cons.1 hnodup).1 (hqp ▸ hq)
      rw [recordOf, recordOf, attrOf_reduce q ho, if_neg hne]
    · rcases List.mem_cons.1 hr' with rfl | hr'
      · exact hr.prices o.toOrderSnapshot (by rw [ha]; exact List.mem_cons_self)
      · exact hr.prices r (by rw [ha]; exact List.mem_cons_of_mem _ hr')
  refine ⟨hrep, h.cached, fun x hx => ?_⟩
  rcases List.mem_cons.1 hx with rfl | hx
  · simp
  · exact h.settled x (List.mem_cons_of_mem _ hx)

end Reduce

section Rest

/-- Joining a level concerns that level alone. -/
theorem SideRep.onlyLevel_link (h : SideRep book orders queue view) (lp : LevelPtr)
    (ho : orders.read p = some o) (hlp : o.priceLevel = none) (hs : o.side = book.side) :
    OnlyLevel book.side lp orders (linkBack orders lp (queue lp).getLast? p) queue
      (Function.update queue lp (queue lp ++ [p])) := by
  have hp : (orders.read p).isSome := by rw [ho, Option.isSome_some]
  have hnone : ∀ r lp', attrOf orders p ≠ some (r, some lp') := by
    intro r lp'
    rw [attrOf_eq ho, hlp]
    simp
  have hpq : p ∉ queue lp := by
    intro hin
    obtain ⟨r, hr, -⟩ := (h.mem_iff lp p).1 hin
    exact hnone r lp hr
  have hlive : ∀ q ∈ queue lp, (orders.read q).isSome := by
    intro q hq
    obtain ⟨r, hr, -⟩ := (h.mem_iff lp q).1 hq
    obtain ⟨x, hx, -⟩ := attrOf_eq_some.1 hr
    rw [hx, Option.isSome_some]
  have hself : Function.update queue lp (queue lp ++ [p]) lp = queue lp ++ [p] :=
    Function.update_self ..
  refine ⟨fun lp' hne => Function.update_of_ne hne _ _, fun q hq1 hq2 => ?_, ?_, ?_, fun q => ?_,
    fun q hq1 hq2 => ?_, fun q hq1 hq2 => ?_⟩
  · rw [hself, List.mem_append, List.mem_singleton, not_or] at hq2
    refine ⟨?_, ?_, ?_⟩
    · rw [prevOf_linkBack hp, if_neg hq2.2]
    · rw [nextOf_linkBack hp (fun t ht => hlive t (List.mem_of_getLast? ht))
        (fun ht => hpq (List.mem_of_getLast? ht)), if_neg hq2.2, if_neg]
      exact fun heq => hq1 (List.mem_of_getLast? heq.symm)
    · rw [attrOf_linkBack ho, if_neg hq2.2]
  · rw [hself]
    exact linked_linkBack hp (h.linked lp) (h.nodup lp) hpq hlive rfl
  · rw [hself, List.nodup_append]
    refine ⟨h.nodup lp, List.nodup_singleton p, fun x hx y hy hxy => ?_⟩
    rw [List.mem_singleton] at hy
    exact hpq (hy ▸ hxy ▸ hx)
  · rw [hself, attrOf_linkBack ho, List.mem_append, List.mem_singleton]
    split_ifs with hqp
    · simp [hqp, hs]
    · simp [hqp, h.mem_iff]
  · rw [hself] at hq2
    exact absurd (List.mem_append_left _ hq1) hq2
  · rw [hself, List.mem_append, List.mem_singleton] at hq1
    rw [hq1.resolve_left hq2]
    exact hnone

theorem LevelRep.pushBack {level : PriceLevel} (h : LevelRep level orders (queue lp) a)
    (ho : orders.read p = some o) (hpq : p ∉ queue lp) (hprice : o.price = a.price) :
    LevelRep (level.pushBack p o.remainingQuantity)
      (linkBack orders lp (queue lp).getLast? p) (queue lp ++ [p])
      ⟨a.price, a.totalQuantity.addLots o.remainingQuantity, a.orders ++ [o.toOrderSnapshot]⟩ := by
  refine ⟨h.price, ?_, ?_, ?_, ?_, ?_, fun r hr => ?_⟩
  · change level.totalQuantity.addLots _ = _
    rw [h.total]
  · change (if level.tail.isSome then level.head else some p) = _
    rw [h.tail, h.head]
    cases queue lp with
    | nil => rfl
    | cons x xs => simp [List.getLast?_cons]
  · rw [List.getLast?_append]
    rfl
  · change level.orderCount + 1 = _
    rw [h.count, List.length_append]
    rfl
  · rw [List.map_append, List.map_append, ← h.records]
    refine congrArg₂ _ (List.map_congr_left fun q hq => ?_) ?_
    · have hne : q ≠ p := fun hqp => hpq (hqp ▸ hq)
      rw [recordOf, recordOf, attrOf_linkBack ho, if_neg hne]
    · rw [List.map_singleton, List.map_singleton, recordOf, attrOf_linkBack ho, if_pos rfl]
      rfl
  · rcases List.mem_append.1 hr with hr | hr
    · exact h.prices r hr
    · rw [List.mem_singleton.1 hr]
      exact hprice

theorem insertOrder_append {side : Side} {x : OrderSnapshot} {before after : List LevelQueue}
    (hb : ∀ l ∈ before, side.rank l.price < side.rank x.price) :
    insertOrder side x (before ++ after) = before ++ insertOrder side x after := by
  induction before with
  | nil => rfl
  | cons l ls ih =>
    have hl := hb l List.mem_cons_self
    rw [List.cons_append, insertOrder, if_neg hl.not_gt, if_neg hl.ne',
      ih fun l' hl' => hb l' (List.mem_cons_of_mem _ hl')]
    rfl

/-- A fresh level takes its place in the view, without orders. -/
theorem SideRep.create (h : SideRep book orders queue (before ++ after)) {book' : SideBook}
    {price : Price} (hstorage : book'.Storage) (hshape : book.SameShape book')
    (hlevels : book'.levels = book.levels.alloc (.new price))
    (hb : ∀ x ∈ before, book.side.rank x.2.price < book.side.rank price)
    (ha : ∀ x ∈ after, book.side.rank price < book.side.rank x.2.price) :
    SideRep book' orders queue
      (before ++ (book.levels.next, ⟨price, .zero, []⟩) :: after) := by
  have hempty : queue book.levels.next = [] := h.unalloc _ le_rfl
  have hsub : ∀ {x}, x ∈ before ++ after →
      x ∈ before ++ (book.levels.next, ⟨price, .zero, []⟩) :: after := by
    intro x hx
    rcases List.mem_append.1 hx with hx | hx
    · exact List.mem_append_left _ hx
    · exact List.mem_append_right _ (List.mem_cons_of_mem _ hx)
  have hcases : ∀ {x}, x ∈ before ++ (book.levels.next, ⟨price, .zero, []⟩) :: after →
      x = (book.levels.next, ⟨price, .zero, []⟩) ∨ x ∈ before ++ after := by
    intro x hx
    simp only [List.mem_append, List.mem_cons] at hx ⊢
    tauto
  refine ⟨hstorage, fun q l hl => ?_, fun q b hb => ?_, ?_, h.linked, h.nodup, ?_, fun q hq => ?_⟩
  · rw [hlevels, Heap.read_alloc] at hl
    split_ifs at hl with hq
    · rw [hq]
      exact ⟨_, List.mem_append_right _ List.mem_cons_self⟩
    · obtain ⟨b, hb⟩ := h.live q l hl
      exact ⟨b, hsub hb⟩
  · rw [hlevels]
    rcases hcases hb with heq | hb
    · cases heq
      refine ⟨_, Heap.read_alloc_self _ _, ?_⟩
      rw [hempty]
      exact ⟨rfl, rfl, rfl, rfl, rfl, rfl, by simp⟩
    · obtain ⟨l, hl, hr⟩ := h.rep q b hb
      exact ⟨l, (Heap.read_alloc_of_ne (Heap.lt_next hl).ne).trans hl, hr⟩
  · rw [hshape.side]
    exact Ranked.middle.2 ⟨h.ranked, hb, ha⟩
  · rw [hshape.side]
    exact h.mem_iff
  · rw [hlevels, Heap.next_alloc] at hq
    exact h.unalloc q (by omega)

/-- The cache after an insertion: the new level wins exactly when it comes first. -/
private theorem cached_insert {cached : Option LevelPtr} {rest : List (LevelPtr × LevelQueue)}
    (h : SideRep book orders queue (before ++ (lp, a) :: after))
    (hcached : cached = (before ++ rest).head?.map (·.1))
    (hrest : rest = after ∨ ∃ b, rest = (lp, b) :: after) :
    (if (match cached.bind book.levels.read with
        | none => true
        | some best => isBetterPrice book.side a.price best.price) = true
      then some lp else cached) = (before ++ (lp, a) :: after).head?.map (·.1) := by
  have hread : ∀ x ∈ before ++ (lp, a) :: after,
      ∃ l, book.levels.read x.1 = some l ∧ l.price = x.2.price := by
    intro x hx
    obtain ⟨l, hl, hr⟩ := h.rep x.1 x.2 hx
    exact ⟨l, hl, hr.price⟩
  obtain ⟨-, hbefore, hafter⟩ := Ranked.middle.1 h.ranked
  cases before with
  | cons x xs =>
    obtain ⟨l, hl, hp⟩ := hread x List.mem_cons_self
    obtain rfl : cached = some x.1 := hcached
    simp only [Option.bind_some, hl, hp]
    rw [if_neg]
    · rfl
    · rw [isBetterPrice_iff, not_lt]
      exact (hbefore x List.mem_cons_self).le
  | nil =>
    rcases hrest with rfl | ⟨b, rfl⟩
    · cases rest with
      | nil =>
        obtain rfl : cached = none := hcached
        rfl
      | cons y ys =>
        obtain ⟨l, hl, hp⟩ := hread y (List.mem_cons_of_mem _ List.mem_cons_self)
        obtain rfl : cached = some y.1 := hcached
        simp only [Option.bind_some, hl, hp]
        rw [if_pos]
        · rfl
        · exact (isBetterPrice_iff _ _ _).2 (hafter y List.mem_cons_self)
    · obtain rfl : cached = some lp := hcached
      split_ifs <;> rfl

/-- Appending to the queue of a level that is already in the view. -/
private theorem SideRep.insertInto {book' : SideBook} {rest : List (LevelPtr × LevelQueue)}
    (hget : book.getOrCreateLevelForPrice o.price = (some lp, book'))
    (hshape : book.SameShape book')
    (hcached : book'.cachedBestLevel = (before ++ rest).head?.map (·.1))
    (hrep : SideRep book' orders queue (before ++ (lp, a) :: after))
    (hrest : rest = after ∨ ∃ b, rest = (lp, b) :: after)
    (hne : ∀ x ∈ before ++ after, x.2.orders ≠ [])
    (ho : orders.read p = some o) (hlp : o.priceLevel = none) (hs : o.side = book.side)
    (hprice : a.price = o.price) :
    ∃ queue', SideOk (book.insertRestingOrder orders p).1
        (book.insertRestingOrder orders p).2 queue'
        (before ++ (lp, ⟨a.price, a.totalQuantity.addLots o.remainingQuantity,
          a.orders ++ [o.toOrderSnapshot]⟩) :: after) ∧
      book.SameShape (book.insertRestingOrder orders p).1 ∧
      OnlyLevel book.side lp orders (book.insertRestingOrder orders p).2 queue queue' ∧
      ∀ q, attrOf (book.insertRestingOrder orders p).2 q =
        if q = p then some (o.toOrderSnapshot, some lp) else attrOf orders q := by
  obtain ⟨l, hl, hr⟩ := hrep.rep lp a (List.mem_append_right _ List.mem_cons_self)
  have honly := hrep.onlyLevel_link lp ho hlp (hs.trans hshape.side.symm)
  have hpq : p ∉ queue lp := by
    intro hin
    obtain ⟨r, hattr, -⟩ := (hrep.mem_iff lp p).1 hin
    rw [attrOf_eq ho, hlp] at hattr
    cases hattr
  have hupd : SideRep
      { book' with levels := book'.levels.modify lp (·.pushBack p o.remainingQuantity) }
      (linkBack orders lp (queue lp).getLast? p) (Function.update queue lp (queue lp ++ [p]))
      (before ++ (lp, ⟨a.price, a.totalQuantity.addLots o.remainingQuantity,
        a.orders ++ [o.toOrderSnapshot]⟩) :: after) :=
    hrep.update honly (fun l => rfl) rfl fun l hr => by
      rw [Function.update_self]
      exact hr.pushBack ho hpq hprice.symm
  have hcache := cached_insert hupd hcached hrest
  have hresult : book.insertRestingOrder orders p =
      ({ book' with
        levels := book'.levels.modify lp (·.pushBack p o.remainingQuantity)
        cachedBestLevel := (before ++ (lp, (⟨a.price, a.totalQuantity.addLots
          o.remainingQuantity, a.orders ++ [o.toOrderSnapshot]⟩ : LevelQueue)) ::
            after).head?.map (·.1) },
        linkBack orders lp (queue lp).getLast? p) := by
    unfold SideBook.insertRestingOrder
    rewrite [← hcache, ho]
    dsimp only
    rewrite [hget]
    dsimp only
    rewrite [hl]
    dsimp only
    rewrite [hr.tail, hr.price]
    rfl
  rw [hresult]
  refine ⟨_, ⟨⟨⟨hupd.storage.ring, hupd.storage.ringSide, hupd.storage.farSide,
    hupd.storage.slot_level, hupd.storage.far_level, hupd.storage.stored⟩, hupd.live, hupd.rep,
    hupd.ranked, hupd.linked, hupd.nodup, hupd.mem_iff, hupd.unalloc⟩, rfl, fun x hx => ?_⟩,
    ⟨hshape.side, hshape.tickSize⟩, hshape.side ▸ honly, fun q => attrOf_linkBack ho⟩
  rcases List.mem_append.1 hx with hx | hx
  · exact hne x (List.mem_append_left _ hx)
  · rcases List.mem_cons.1 hx with rfl | hx
    · simp
    · exact hne x (List.mem_append_right _ hx)

/-- `insert_resting_order` puts the order at the end of the queue of its price. -/
theorem SideOk.insertRestingOrder (h : SideOk book orders queue view)
    (ho : orders.read p = some o) (hlp : o.priceLevel = none) (hs : o.side = book.side)
    (halign : Aligned book.tickSize o.price) :
    ∃ lp queue' view', SideOk (book.insertRestingOrder orders p).1
        (book.insertRestingOrder orders p).2 queue' view' ∧
      book.SameShape (book.insertRestingOrder orders p).1 ∧
      OnlyLevel book.side lp orders (book.insertRestingOrder orders p).2 queue queue' ∧
      (∀ q, attrOf (book.insertRestingOrder orders p).2 q =
        if q = p then some (o.toOrderSnapshot, some lp) else attrOf orders q) ∧
      view'.map (·.2) = insertOrder book.side o.toOrderSnapshot (view.map (·.2)) := by
  rcases h.storage.getOrCreate halign with
    ⟨lp, l, hl, hprice, hget⟩ | ⟨hnew, book', hget, hstorage, hsame, hlevels⟩
  · obtain ⟨a, ha⟩ := h.live lp l hl
    obtain ⟨l', hl', hr⟩ := h.rep lp a ha
    rw [hl] at hl'
    cases hl'
    have haprice : a.price = o.price := hr.price.symm.trans hprice
    obtain ⟨before, after, rfl⟩ := List.append_of_mem ha
    have hrank := (Ranked.middle.1 h.ranked).2.1
    obtain ⟨queue', hok, hshape, honly, hattr⟩ := SideRep.insertInto hget (.refl _) h.cached
      h.toSideRep (Or.inr ⟨a, rfl⟩)
      (fun x hx => h.settled x (by
        rcases List.mem_append.1 hx with hx | hx
        · exact List.mem_append_left _ hx
        · exact List.mem_append_right _ (List.mem_cons_of_mem _ hx))) ho hlp hs haprice
    refine ⟨lp, queue', _, hok, hshape, honly, hattr, ?_⟩
    rw [List.map_append, List.map_append, insertOrder_append]
    · rw [List.map_cons, List.map_cons, insertOrder, haprice, if_neg (lt_irrefl _), if_pos rfl]
    · intro b hb
      obtain ⟨x, hx, rfl⟩ := List.mem_map.1 hb
      rw [← haprice]
      exact hrank x hx
  · have hranks : ∀ x ∈ view, book.side.rank x.2.price ≠ book.side.rank o.price := by
      intro x hx heq
      obtain ⟨l, hl, hr⟩ := h.rep x.1 x.2 hx
      exact hnew x.1 l hl (hr.price.trans (book.side.rank_inj.1 heq))
    obtain ⟨before, after, rfl, hb, ha⟩ := h.ranked.split _ hranks
    have hcreate := h.create hstorage hsame.toSameShape hlevels hb ha
    obtain ⟨queue', hok, hshape, honly, hattr⟩ := SideRep.insertInto hget hsame.toSameShape
      (hsame.cached.trans h.cached) hcreate (Or.inl rfl) h.settled ho hlp hs rfl
    refine ⟨_, queue', _, hok, hshape, honly, hattr, ?_⟩
    rw [List.map_append, List.map_append, insertOrder_append]
    · congr 1
      cases after with
      | nil => rfl
      | cons y ys =>
        rw [List.map_cons, List.map_cons, insertOrder, if_pos (ha y List.mem_cons_self)]
        rfl
    · intro b hb'
      obtain ⟨x, hx, rfl⟩ := List.mem_map.1 hb'
      exact hb x hx

end Rest

end PerpexEngine
