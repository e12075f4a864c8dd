import PerpexEngine.Core.OrderLinks
import PerpexEngine.Core.QueueBook
import PerpexEngine.Lib.Ranked

/-! A side of the book represents a list of level queues: the levels are stored where their
price belongs, each is a linked list of its orders, and the cache points to the first. -/
namespace PerpexEngine
open LinkedQueue

abbrev Queues := LevelPtr → List OrderPtr

def recordOf (orders : Heap Order) (p : OrderPtr) : Option OrderSnapshot :=
  (attrOf orders p).map (·.1)

/-- The fields of a level agree with its queue of addresses and with the abstract level. -/
structure LevelRep (level : PriceLevel) (orders : Heap Order) (queue : List OrderPtr)
    (a : LevelQueue) : Prop where
  price : level.price = a.price
  total : level.totalQuantity = a.totalQuantity
  head : level.head = queue.head?
  tail : level.tail = queue.getLast?
  count : level.orderCount = queue.length
  records : queue.map (recordOf orders) = a.orders.map some
  prices : ∀ o ∈ a.orders, o.price = a.price

/-- `queue` lists the orders pointing to each level address, dead ones included; `view` lists
the live levels, best price first. -/
structure SideRep (book : SideBook) (orders : Heap Order) (queue : Queues)
    (view : List (LevelPtr × LevelQueue)) : Prop where
  storage : book.Storage
  live : ∀ lp l, book.levels.read lp = some l → ∃ a, (lp, a) ∈ view
  rep : ∀ lp a, (lp, a) ∈ view →
    ∃ l, book.levels.read lp = some l ∧ LevelRep l orders (queue lp) a
  ranked : Ranked (fun x : LevelPtr × LevelQueue => book.side.rank x.2.price) view
  linked : ∀ lp, Linked (prevOf orders) (nextOf orders) (queue lp)
  nodup : ∀ lp, (queue lp).Nodup
  mem_iff : ∀ lp p, p ∈ queue lp ↔
    ∃ r, attrOf orders p = some (r, some lp) ∧ r.side = book.side
  unalloc : ∀ lp, book.levels.next ≤ lp → queue lp = []

/-- A represented side between two operations: the cache is right and no level is empty. -/
structure SideOk (book : SideBook) (orders : Heap Order) (queue : Queues)
    (view : List (LevelPtr × LevelQueue)) : Prop extends SideRep book orders queue view where
  cached : book.cachedBestLevel = view.head?.map (·.1)
  settled : ∀ x ∈ view, x.2.orders ≠ []

/-- A change of the orders that concerns only the queue of one level of one side. -/
structure OnlyLevel (side : Side) (lp : LevelPtr) (orders orders' : Heap Order)
    (queue queue' : Queues) : Prop where
  other : ∀ lp', lp' ≠ lp → queue' lp' = queue lp'
  same : ∀ q, q ∉ queue lp → q ∉ queue' lp → prevOf orders' q = prevOf orders q ∧
    nextOf orders' q = nextOf orders q ∧ attrOf orders' q = attrOf orders q
  linked : Linked (prevOf orders') (nextOf orders') (queue' lp)
  nodup : (queue' lp).Nodup
  mem_iff : ∀ p, p ∈ queue' lp ↔ ∃ r, attrOf orders' p = some (r, some lp) ∧ r.side = side
  left : ∀ p ∈ queue lp, p ∉ queue' lp → ∀ r lp', attrOf orders' p ≠ some (r, some lp')
  joined : ∀ p ∈ queue' lp, p ∉ queue lp → ∀ r lp', attrOf orders p ≠ some (r, some lp')

section Update
variable {book : SideBook} {orders orders' : Heap Order} {queue queue' : Queues}
  {view before after : List (LevelPtr × LevelQueue)} {lp : LevelPtr} {a : LevelQueue}

theorem LevelRep.congr {level : PriceLevel} {qs : List OrderPtr} (h : LevelRep level orders qs a)
    (hattr : ∀ q ∈ qs, attrOf orders' q = attrOf orders q) : LevelRep level orders' qs a where
  price := h.price
  total := h.total
  head := h.head
  tail := h.tail
  count := h.count
  records := by
    rw [← h.records]
    exact List.map_congr_left fun q hq => by rw [recordOf, recordOf, hattr q hq]
  prices := h.prices

theorem LevelRep.isEmpty_iff {level : PriceLevel} {qs : List OrderPtr}
    (h : LevelRep level orders qs a) : level.isEmpty = a.orders.isEmpty := by
  have hlen := congrArg List.length h.records
  rw [List.length_map, List.length_map] at hlen
  rw [PriceLevel.isEmpty, h.head]
  cases qs <;> cases hao : a.orders <;> simp_all

theorem SideRep.live_iff (h : SideRep book orders queue view) :
    (∃ l, book.levels.read lp = some l) ↔ ∃ a, (lp, a) ∈ view := by
  constructor
  · rintro ⟨l, hl⟩
    exact h.live lp l hl
  · rintro ⟨a, ha⟩
    obtain ⟨l, hl, -⟩ := h.rep lp a ha
    exact ⟨l, hl⟩

theorem SideRep.view_unique (h : SideRep book orders queue view) {b : LevelQueue}
    (ha : (lp, a) ∈ view) (hb : (lp, b) ∈ view) : a = b := by
  obtain ⟨l, hl, hra⟩ := h.rep lp a ha
  obtain ⟨l', hl', hrb⟩ := h.rep lp b hb
  rw [hl] at hl'
  cases hl'
  have hrank : book.side.rank a.price = book.side.rank b.price := by rw [← hra.price, ← hrb.price]
  exact congrArg Prod.snd (h.ranked.eq_of_rank ha hb hrank)

/-- The middle entry of a view is the only one at its address. -/
theorem SideRep.ne_of_mem (h : SideRep book orders queue (before ++ (lp, a) :: after))
    {x : LevelPtr × LevelQueue} (hx : x ∈ before ++ after) : x.1 ≠ lp := by
  rintro rfl
  have hmem : (x.1, x.2) ∈ before ++ (x.1, a) :: after := by
    rcases List.mem_append.1 hx with hx | hx
    · exact List.mem_append_left _ hx
    · exact List.mem_append_right _ (List.mem_cons_of_mem _ hx)
  have hx2 := h.view_unique hmem (List.mem_append_right _ List.mem_cons_self)
  have hrank := Ranked.middle.1 h.ranked
  rcases List.mem_append.1 hx with hx | hx
  · have hlt := hrank.2.1 x hx
    simp only [hx2, lt_irrefl] at hlt
  · have hlt := hrank.2.2 x hx
    simp only [hx2, lt_irrefl] at hlt

/-- Orders of another level or another side are not concerned. -/
theorem OnlyLevel.attr_iff {side : Side} (hc : OnlyLevel side lp orders orders' queue queue')
    (hmem : ∀ p, p ∈ queue lp ↔ ∃ r, attrOf orders p = some (r, some lp) ∧ r.side = side)
    {r : OrderSnapshot} {lp' : LevelPtr} (hne : ¬(r.side = side ∧ lp' = lp)) {q : OrderPtr} :
    attrOf orders' q = some (r, some lp') ↔ attrOf orders q = some (r, some lp') := by
  constructor
  · intro hq
    have hin' : q ∉ queue' lp := fun hin => by
      obtain ⟨r', hr', hs⟩ := (hc.mem_iff q).1 hin
      rw [hq] at hr'
      cases hr'
      exact hne ⟨hs, rfl⟩
    have hin : q ∉ queue lp := fun hin => hc.left q hin hin' r lp' hq
    rwa [(hc.same q hin hin').2.2] at hq
  · intro hq
    have hin : q ∉ queue lp := fun hin => by
      obtain ⟨r', hr', hs⟩ := (hmem q).1 hin
      rw [hq] at hr'
      cases hr'
      exact hne ⟨hs, rfl⟩
    have hin' : q ∉ queue' lp := fun hin' => hc.joined q hin' hin r lp' hq
    rwa [(hc.same q hin hin').2.2]

theorem OnlyLevel.same_of_attr {side : Side}
    (hc : OnlyLevel side lp orders orders' queue queue')
    (hmem : ∀ p, p ∈ queue lp ↔ ∃ r, attrOf orders p = some (r, some lp) ∧ r.side = side)
    {r : OrderSnapshot} {lp' : LevelPtr} (hne : ¬(r.side = side ∧ lp' = lp)) {q : OrderPtr}
    (hq : attrOf orders q = some (r, some lp')) :
    prevOf orders' q = prevOf orders q ∧ nextOf orders' q = nextOf orders q ∧
      attrOf orders' q = attrOf orders q := by
  have hin : q ∉ queue lp := fun hin => by
    obtain ⟨r', hr', hs⟩ := (hmem q).1 hin
    rw [hq] at hr'
    cases hr'
    exact hne ⟨hs, rfl⟩
  exact hc.same q hin fun hin' => hc.joined q hin' hin r lp' hq

/-- One level and its queue change, the price stays. -/
theorem SideRep.update (h : SideRep book orders queue (before ++ (lp, a) :: after))
    (hc : OnlyLevel book.side lp orders orders' queue queue') {f : PriceLevel → PriceLevel}
    {a' : LevelQueue} (hf : ∀ l, (f l).price = l.price) (ha : a'.price = a.price)
    (hrep : ∀ l, LevelRep l orders (queue lp) a → LevelRep (f l) orders' (queue' lp) a') :
    SideRep { book with levels := book.levels.modify lp f } orders' queue'
      (before ++ (lp, a') :: after) := by
  have hmid : (lp, a) ∈ before ++ (lp, a) :: after := List.mem_append_right _ List.mem_cons_self
  have hsame : ∀ p, p ≠ lp → ∀ q ∈ queue p, prevOf orders' q = prevOf orders q ∧
      nextOf orders' q = nextOf orders q ∧ attrOf orders' q = attrOf orders q := by
    intro p hp q hq
    obtain ⟨r, hr, -⟩ := (h.mem_iff p q).1 hq
    exact hc.same_of_attr (h.mem_iff lp) (fun hne => hp hne.2) hr
  refine ⟨h.storage.modify lp hf, fun p l hl => ?_, fun p b hb => ?_, ?_, fun p => ?_, fun p => ?_,
    fun p q => ?_, fun p hp => ?_⟩
  · change (book.levels.modify lp f).read p = some l at hl
    by_cases hp : p = lp
    · exact ⟨a', by simp [hp]⟩
    · rw [Heap.read_modify_of_ne hp] at hl
      obtain ⟨b, hb⟩ := h.live p l hl
      refine ⟨b, ?_⟩
      simpa [hp] using hb
  · change ∃ l, (book.levels.modify lp f).read p = some l ∧ _
    by_cases hp : p = lp
    · subst hp
      obtain ⟨l, hl, hr⟩ := h.rep p a hmid
      have hba : b = a' := by
        rcases List.mem_append.1 hb with hb | hb
        · exact absurd rfl (h.ne_of_mem (List.mem_append_left after hb))
        · rcases List.mem_cons.1 hb with hb | hb
          · exact congrArg Prod.snd hb
          · exact absurd rfl (h.ne_of_mem (List.mem_append_right before hb))
      rw [Heap.read_modify_self, hl, hba]
      exact ⟨f l, rfl, hrep l hr⟩
    · have hb' : (p, b) ∈ before ++ (lp, a) :: after := by simpa [hp] using hb
      obtain ⟨l, hl, hr⟩ := h.rep p b hb'
      rw [Heap.read_modify_of_ne hp, hc.other p hp]
      exact ⟨l, hl, hr.congr fun q hq => (hsame p hp q hq).2.2⟩
  · have hmiddle := Ranked.middle.1 h.ranked
    refine Ranked.middle.2 ⟨hmiddle.1, fun y hy => ?_, fun y hy => ?_⟩
    · simpa only [ha] using hmiddle.2.1 y hy
    · simpa only [ha] using hmiddle.2.2 y hy
  · by_cases hp : p = lp
    · exact hp ▸ hc.linked
    · rw [hc.other p hp]
      exact (h.linked p).congr (fun q hq => (hsame p hp q hq).1)
        (fun q hq => (hsame p hp q hq).2.1)
  · by_cases hp : p = lp
    · exact hp ▸ hc.nodup
    · rw [hc.other p hp]
      exact h.nodup p
  · by_cases hp : p = lp
    · exact hp ▸ hc.mem_iff q
    · rw [hc.other p hp, h.mem_iff]
      exact exists_congr fun r => and_congr_left fun _ =>
        (hc.attr_iff (h.mem_iff lp) fun hne => hp hne.2).symm
  · have hne : p ≠ lp := by
      rintro rfl
      obtain ⟨l, hl, -⟩ := h.rep p a hmid
      exact absurd (Heap.lt_next hl) (not_lt.2 hp)
    rw [hc.other p hne]
    exact h.unalloc p hp

/-- The queue of a dropped level changes; no live level is concerned. -/
theorem SideRep.updateDead (h : SideRep book orders queue view)
    (hdead : book.levels.read lp = none)
    (hc : OnlyLevel book.side lp orders orders' queue queue')
    (hempty : book.levels.next ≤ lp → queue' lp = []) : SideRep book orders' queue' view := by
  have hsame : ∀ p, p ≠ lp → ∀ q ∈ queue p, prevOf orders' q = prevOf orders q ∧
      nextOf orders' q = nextOf orders q ∧ attrOf orders' q = attrOf orders q := by
    intro p hp q hq
    obtain ⟨r, hr, -⟩ := (h.mem_iff p q).1 hq
    exact hc.same_of_attr (h.mem_iff lp) (fun hne => hp hne.2) hr
  refine ⟨h.storage, h.live, fun p b hb => ?_, h.ranked, fun p => ?_, fun p => ?_,
    fun p q => ?_, fun p hp => ?_⟩
  · obtain ⟨l, hl, hr⟩ := h.rep p b hb
    have hp : p ≠ lp := by
      rintro rfl
      rw [hdead] at hl
      cases hl
    rw [hc.other p hp]
    exact ⟨l, hl, hr.congr fun q hq => (hsame p hp q hq).2.2⟩
  · by_cases hp : p = lp
    · exact hp ▸ hc.linked
    · rw [hc.other p hp]
      exact (h.linked p).congr (fun q hq => (hsame p hp q hq).1)
        (fun q hq => (hsame p hp q hq).2.1)
  · by_cases hp : p = lp
    · exact hp ▸ hc.nodup
    · rw [hc.other p hp]
      exact h.nodup p
  · by_cases hp : p = lp
    · exact hp ▸ hc.mem_iff q
    · rw [hc.other p hp, h.mem_iff]
      exact exists_congr fun r => and_congr_left fun _ =>
        (hc.attr_iff (h.mem_iff lp) fun hne => hp hne.2).symm
  · by_cases hlp : p = lp
    · subst hlp
      exact hempty hp
    · rw [hc.other p hlp]
      exact h.unalloc p hp

/-- Only the orders that point to a level of this side matter. -/
theorem SideRep.congrOrders (h : SideRep book orders queue view)
    (hsame : ∀ q r p, attrOf orders q = some (r, some p) → r.side = book.side →
      prevOf orders' q = prevOf orders q ∧ nextOf orders' q = nextOf orders q ∧
        attrOf orders' q = attrOf orders q)
    (hback : ∀ q r p, attrOf orders' q = some (r, some p) → r.side = book.side →
      attrOf orders q = some (r, some p)) : SideRep book orders' queue view := by
  have hqueue : ∀ p, ∀ q ∈ queue p, prevOf orders' q = prevOf orders q ∧
      nextOf orders' q = nextOf orders q ∧ attrOf orders' q = attrOf orders q := by
    intro p q hq
    obtain ⟨r, hr, hs⟩ := (h.mem_iff p q).1 hq
    exact hsame q r p hr hs
  refine ⟨h.storage, h.live, fun p b hb => ?_, h.ranked, fun p => ?_, h.nodup,
    fun p q => ?_, h.unalloc⟩
  · obtain ⟨l, hl, hr⟩ := h.rep p b hb
    exact ⟨l, hl, hr.congr fun q hq => (hqueue p q hq).2.2⟩
  · exact (h.linked p).congr (fun q hq => (hqueue p q hq).1) (fun q hq => (hqueue p q hq).2.1)
  · rw [h.mem_iff]
    constructor
    · rintro ⟨r, hr, hs⟩
      exact ⟨r, (hsame q r p hr hs).2.2.trans hr, hs⟩
    · rintro ⟨r, hr, hs⟩
      exact ⟨r, hback q r p hr hs, hs⟩

/-- The other side does not notice. -/
theorem SideRep.frame (h : SideRep book orders queue view) {side : Side}
    {queue₁ queue₂ : Queues} (hside : book.side ≠ side)
    (hmem : ∀ p, p ∈ queue₁ lp ↔ ∃ r, attrOf orders p = some (r, some lp) ∧ r.side = side)
    (hc : OnlyLevel side lp orders orders' queue₁ queue₂) :
    SideRep book orders' queue view := by
  apply h.congrOrders
  · intro q r p hr hs
    exact hc.same_of_attr hmem (fun hne => hside (hs.symm.trans hne.1)) hr
  · intro q r p hr hs
    exact (hc.attr_iff hmem fun hne => hside (hs.symm.trans hne.1)).1 hr

/-- A fresh order cell that points to no level is in no queue. -/
theorem SideRep.alloc (h : SideRep book orders queue view) {o : Order}
    (ho : o.priceLevel = none) : SideRep book (orders.alloc o) queue view := by
  have hread : ∀ {q}, q ≠ orders.next → (orders.alloc o).read q = orders.read q :=
    fun hq => Heap.read_alloc_of_ne hq
  apply h.congrOrders
  · intro q r p hr _
    obtain ⟨x, hx, -⟩ := attrOf_eq_some.1 hr
    simp only [prevOf, nextOf, attrOf, hread (Heap.lt_next hx).ne, and_self]
  · intro q r p hr _
    by_cases hq : q = orders.next
    · rw [hq, attrOf_eq (Heap.read_alloc_self _ _), ho] at hr
      cases hr
    · rwa [attrOf, hread hq] at hr

theorem SideRep.free (h : SideRep book orders queue view) {p : OrderPtr}
    (hp : ∀ r lp, attrOf orders p ≠ some (r, some lp)) :
    SideRep book (orders.free p) queue view := by
  apply h.congrOrders
  · intro q r lp hr _
    have hq : q ≠ p := fun hqp => hp r lp (hqp ▸ hr)
    simp only [prevOf, nextOf, attrOf, Heap.read_free_of_ne hq, and_self]
  · intro q r lp hr _
    obtain ⟨x, hx, hattr⟩ := attrOf_eq_some.1 hr
    exact attrOf_eq_some.2 ⟨x, (Heap.read_free_eq_some.1 hx).2, hattr⟩

/-- A best live level is the first of the view. -/
theorem SideRep.best_eq (h : SideRep book orders queue view) {best : Option LevelPtr}
    (hbest : book.BestOf (fun _ => True) best) : best = view.head?.map (·.1) := by
  cases view with
  | nil =>
    cases best with
    | none => rfl
    | some p =>
      obtain ⟨l, hl, -⟩ := hbest
      obtain ⟨a, ha⟩ := h.live p l hl
      cases ha
  | cons x xs =>
    obtain ⟨l, hl, hr⟩ := h.rep x.1 x.2 List.mem_cons_self
    cases best with
    | none => exact absurd trivial (hbest x.1 l hl)
    | some p =>
      obtain ⟨l', hl', -, hmin⟩ := hbest
      obtain ⟨a, ha⟩ := h.live p l' hl'
      obtain ⟨l'', hl'', hr'⟩ := h.rep p a ha
      rw [hl'] at hl''
      cases hl''
      have hle := hmin x.1 l hl trivial
      rw [hr.price, hr'.price] at hle
      have hge := h.ranked.head_le rfl ha
      have heq := h.ranked.eq_of_rank ha List.mem_cons_self (le_antisymm hle hge)
      rw [List.head?_cons, Option.map_some, ← heq]

theorem SideRep.refreshCachedBest (h : SideRep book orders queue view)
    (hne : ∀ x ∈ view, x.2.orders ≠ []) :
    SideOk book.refreshCachedBest orders queue view ∧
      book.refreshCachedBest = { book with cachedBestLevel := view.head?.map (·.1) } := by
  have hlevels : ∀ p l, book.levels.read p = some l → l.isEmpty = false := by
    intro p l hl
    obtain ⟨a, ha⟩ := h.live p l hl
    obtain ⟨l', hl', hr⟩ := h.rep p a ha
    rw [hl] at hl'
    cases hl'
    rw [hr.isEmpty_iff]
    simpa using hne _ ha
  obtain ⟨best, heq, hbest⟩ := h.storage.refreshCachedBest hlevels
  obtain rfl := h.best_eq hbest
  rw [heq]
  exact ⟨⟨⟨⟨h.storage.ring, h.storage.ringSide, h.storage.farSide, h.storage.slot_level,
    h.storage.far_level, h.storage.stored⟩, h.live, h.rep, h.ranked, h.linked, h.nodup, h.mem_iff,
    h.unalloc⟩, rfl, hne⟩, rfl⟩

/-- A level that is done leaves the view. -/
theorem SideRep.drop (h : SideRep book orders queue (before ++ (lp, a) :: after)) {l : PriceLevel}
    (hl : book.levels.read lp = some l) :
    SideRep (book.dropIfDone lp l) orders queue
      (before ++ (if a.orders.isEmpty || a.totalQuantity.isZero then after
        else (lp, a) :: after)) := by
  have hmid : (lp, a) ∈ before ++ (lp, a) :: after := List.mem_append_right _ List.mem_cons_self
  obtain ⟨l', hl', hr⟩ := h.rep lp a hmid
  rw [hl] at hl'
  cases hl'
  obtain ⟨hstorage, hshape, hlevels⟩ := h.storage.dropIfDone hl
  rw [hr.isEmpty_iff, hr.total] at hlevels
  split_ifs with hdone
  · rw [if_pos hdone] at hlevels
    have hsub : ∀ {p b}, (p, b) ∈ before ++ after → (p, b) ∈ before ++ (lp, a) :: after := by
      intro p b hb
      rcases List.mem_append.1 hb with hb | hb
      · exact List.mem_append_left _ hb
      · exact List.mem_append_right _ (List.mem_cons_of_mem _ hb)
    refine ⟨hstorage, fun p l' hl' => ?_, fun p b hb => ?_, ?_, h.linked, h.nodup, ?_, ?_⟩
    · rw [hlevels] at hl'
      obtain ⟨hp, hl'⟩ := Heap.read_free_eq_some.1 hl'
      obtain ⟨b, hb⟩ := h.live p l' hl'
      exact ⟨b, by simpa [hp] using hb⟩
    · obtain ⟨l', hl', hrep⟩ := h.rep p b (hsub hb)
      rw [hlevels, Heap.read_free_of_ne (h.ne_of_mem hb)]
      exact ⟨l', hl', hrep⟩
    · rw [hshape.side]
      exact (Ranked.middle.1 h.ranked).1
    · rw [hshape.side]
      exact h.mem_iff
    · rw [hlevels]
      exact h.unalloc
  · rw [if_neg hdone] at hlevels
    refine ⟨hstorage, ?_, ?_, ?_, h.linked, h.nodup, ?_, ?_⟩
    · rw [hlevels]
      exact h.live
    · rw [hlevels]
      exact h.rep
    · rw [hshape.side]
      exact h.ranked
    · rw [hshape.side]
      exact h.mem_iff
    · rw [hlevels]
      exact h.unalloc

/-- `update_after_fill_or_cancel` settles the one level that changed. -/
theorem SideRep.updateAfterFillOrCancel
    (h : SideRep book orders queue (before ++ (lp, a) :: after))
    (hcached : book.cachedBestLevel = (before ++ (lp, a) :: after).head?.map (·.1))
    (hne : ∀ x ∈ before ++ after, x.2.orders ≠ []) :
    SideOk (book.updateAfterFillOrCancel (some lp)) orders queue
      (before ++ (if a.orders.isEmpty || a.totalQuantity.isZero then after
        else (lp, a) :: after)) ∧
      book.SameShape (book.updateAfterFillOrCancel (some lp)) := by
  obtain ⟨l, hl, hr⟩ := h.rep lp a (List.mem_append_right _ List.mem_cons_self)
  have hdrop := h.drop hl
  obtain ⟨-, hshape, -⟩ := h.storage.dropIfDone hl
  have hsettled : ∀ x ∈ before ++ (if a.orders.isEmpty || a.totalQuantity.isZero then after
      else (lp, a) :: after), x.2.orders ≠ [] := by
    intro x hx
    split_ifs at hx with hdone
    · exact hne x hx
    · by_cases hxa : x = (lp, a)
      · rw [hxa]
        intro hnil
        rw [show a.orders = [] from hnil] at hdone
        exact hdone rfl
      · exact hne x (by simpa [hxa] using hx)
  have hhead : (before ++ (if a.orders.isEmpty || a.totalQuantity.isZero then after
      else (lp, a) :: after)).head?.map (·.1) = book.cachedBestLevel ∨
      book.cachedBestLevel = some lp := by
    cases before with
    | nil => exact Or.inr hcached
    | cons x xs => exact Or.inl hcached.symm
  generalize before ++ (if a.orders.isEmpty || a.totalQuantity.isZero then after
    else (lp, a) :: after) = view at hdrop hsettled hhead ⊢
  simp only [SideBook.updateAfterFillOrCancel, hl]
  split_ifs with hcond
  · obtain ⟨hok, heq⟩ := hdrop.refreshCachedBest hsettled
    refine ⟨hok, hshape.toSameShape.trans ?_⟩
    rw [heq]
    exact ⟨rfl, rfl⟩
  · refine ⟨⟨hdrop, ?_, hsettled⟩, hshape.toSameShape⟩
    rw [hshape.cached]
    refine (hhead.resolve_right fun hbest => ?_).symm
    simp [hbest] at hcond

theorem updateAfterFillOrCancel_dead (hdead : book.levels.read lp = none) :
    book.updateAfterFillOrCancel (some lp) = book := by
  simp only [SideBook.updateAfterFillOrCancel, hdead]

theorem SideOk.new (side : Side) (tickSize baseTick : ℤ) (capacity : ℕ) :
    SideOk (.new side tickSize baseTick capacity) .empty (fun _ => []) [] := by
  obtain ⟨hwf, hslot⟩ := RingPriceLadder.new_wellFormed side tickSize baseTick capacity
  refine ⟨⟨⟨hwf, rfl, rfl, fun i p hi => ?_, fun t p ht => ?_, fun p l hl => ?_⟩,
    fun p l hl => ?_, by simp, .nil _, fun _ => trivial, by simp, fun p q => ?_, fun _ _ => rfl⟩,
    rfl, by simp⟩
  · rw [SideBook.new, hslot] at hi
    cases hi
  · simp [SideBook.new, FarPriceMap.new] at ht
  · cases hl
  · cases hl
  · simp [attrOf, Heap.read_empty]

end Update
end PerpexEngine
