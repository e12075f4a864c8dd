import PerpexEngine.Core.PriceTimeRefinement

/-! The structural invariant of a book, said of its pointers, slots, bits and indices alone, and
its proof from the level queues the book represents. -/
namespace PerpexEngine
open LinkedQueue

/-- The level's fields and the links of its orders describe one non-empty list. -/
structure LevelChain (orders : Heap Order) (level : PriceLevel) (chain : List OrderPtr) : Prop where
  nonempty : chain ≠ []
  head : level.head = chain.head?
  tail : level.tail = chain.getLast?
  linked : Linked (prevOf orders) (nextOf orders) chain
  nodup : chain.Nodup
  count : level.orderCount = chain.length
  total : level.totalQuantity.lots =
    ((chain.filterMap orders.read).map (·.remainingQuantity.lots)).sum

/-- The order stands in the list of a stored level. -/
def InLevel (book : OrderBook) (side : Side) (lp : LevelPtr) (p : OrderPtr) : Prop :=
  lp ∈ OrderBook.storedLevels (book.bookForSide side) ∧
    ∃ level chain, (book.bookForSide side).levels.read lp = some level ∧
      LevelChain book.orders level chain ∧ p ∈ chain

def IsResting (book : OrderBook) (p : OrderPtr) : Prop := ∃ side lp, InLevel book side lp p

/-- The levels, stores, bitmap and cache of one side. -/
structure SideConsistent (book : OrderBook) (side : Side) : Prop where
  levels : ∀ lp ∈ OrderBook.storedLevels (book.bookForSide side), ∃ level chain,
    (book.bookForSide side).levels.read lp = some level ∧ LevelChain book.orders level chain ∧
      ∀ p ∈ chain, ∃ o, book.orders.read p = some o ∧ o.side = side ∧ o.price = level.price ∧
        o.priceLevel = some lp
  ring : ∀ i lp, (book.bookForSide side).ringPriceLadder.slotAt i = some lp →
    ∃ level, (book.bookForSide side).levels.read lp = some level ∧
      (book.bookForSide side).inWindow level.price = true ∧
      (book.bookForSide side).slotOf level.price = i
  far : ∀ (t : ℤ) lp, (book.bookForSide side).farPriceMap.levels[t]? = some lp →
    ∃ level, (book.bookForSide side).levels.read lp = some level ∧
      (book.bookForSide side).inWindow level.price = false ∧ level.price.ticks = t
  bitmap : ∀ i, ((book.bookForSide side).ringPriceLadder.wordAt
    (i / kBitmapWordBits)).getLsbD (i % kBitmapWordBits) =
      ((book.bookForSide side).ringPriceLadder.slotAt i).isSome
  cached_none : (book.bookForSide side).cachedBestLevel = none ↔
    OrderBook.storedLevels (book.bookForSide side) = []
  cached_best : ∀ lp, (book.bookForSide side).cachedBestLevel = some lp →
    lp ∈ OrderBook.storedLevels (book.bookForSide side) ∧
      ∀ level, (book.bookForSide side).levels.read lp = some level →
        ∀ lp' ∈ OrderBook.storedLevels (book.bookForSide side), lp' ≠ lp →
          ∀ level', (book.bookForSide side).levels.read lp' = some level' →
            isBetterPrice side level.price level'.price = true

structure Consistent (book : OrderBook) : Prop where
  sides : ∀ side, SideConsistent book side
  positive : ∀ p o, book.orders.read p = some o → 0 < o.remainingQuantity.lots
  oneLevel : ∀ p o, book.orders.read p = some o →
    ∃! x : Side × LevelPtr, InLevel book x.1 x.2 p
  orderById : ∀ id p, book.orderById[id]? = some p ↔
    IsResting book p ∧ ∃ o, book.orders.read p = some o ∧ o.orderId = id
  clientOrderIdToOrderId : ∀ c id, book.clientOrderIdToOrderId[c]? = some id ↔
    ∃ p, IsResting book p ∧
      ∃ o, book.orders.read p = some o ∧ o.clientOrderId = c ∧ o.orderId = id

section Side
variable {book : SideBook} {orders : Heap Order} {queue : Queues}
  {view : List (LevelPtr × LevelQueue)} {lp : LevelPtr} {a : LevelQueue} {level : PriceLevel}

theorem LevelRep.chain {chain : List OrderPtr} (h : LevelRep level orders chain a)
    (hne : a.orders ≠ []) (htotal : a.totalQuantity.lots = lotsOf a.orders)
    (hlinked : Linked (prevOf orders) (nextOf orders) chain) (hnodup : chain.Nodup) :
    LevelChain orders level chain where
  nonempty hnil := by
    have hrec := h.records
    rw [hnil, List.map_nil] at hrec
    exact hne (List.map_eq_nil_iff.1 hrec.symm)
  head := h.head
  tail := h.tail
  linked := hlinked
  nodup := hnodup
  count := h.count
  total := by
    rw [h.total, htotal]
    have hrec := h.records
    generalize a.orders = as at hrec
    clear h htotal hlinked hnodup hne
    induction chain generalizing as with
    | nil =>
      rw [List.map_nil, eq_comm, List.map_eq_nil_iff] at hrec
      rw [hrec]
      rfl
    | cons p chain ih =>
      cases as with
      | nil => cases hrec
      | cons r as =>
        rw [List.map_cons, List.map_cons] at hrec
        obtain ⟨hp, hrest⟩ := List.cons.inj hrec
        obtain ⟨o, ho, rfl⟩ := recordOf_eq_some.1 hp
        rw [List.filterMap_cons_some ho, List.map_cons, List.sum_cons, lotsOf_cons, ih as hrest]

theorem SideOk.mem_storedLevels (h : SideOk book orders queue view) :
    lp ∈ OrderBook.storedLevels book ↔ ∃ a, (lp, a) ∈ view := by
  rw [h.storage.mem_storedLevels]
  exact h.toSideRep.live_iff

/-- A chain that agrees with a level of the view is the queue of that level. -/
theorem SideOk.chain_eq (h : SideOk book orders queue view) (ha : (lp, a) ∈ view)
    (hl : book.levels.read lp = some level) {chain : List OrderPtr}
    (hc : LevelChain orders level chain) : chain = queue lp := by
  obtain ⟨level', hl', hr⟩ := h.rep lp a ha
  rw [hl] at hl'
  cases hl'
  have hhead : chain.head? = (queue lp).head? := by rw [← hc.head, hr.head]
  exact Seg.unique hc.linked (h.linked lp) hhead

end Side

namespace BookRep
variable {book : OrderBook} {q : QueueBook} {side : Side} {lp : LevelPtr} {p : OrderPtr} {o : Order}

/-- The chain of a stored level, and what its orders are. -/
theorem levelChain (h : BookRep book q) (hq : q.Exact)
    (hlp : lp ∈ OrderBook.storedLevels (book.bookForSide side)) : ∃ level chain,
      (book.bookForSide side).levels.read lp = some level ∧ LevelChain book.orders level chain ∧
        (∀ p, p ∈ chain ↔ ∃ o, book.orders.read p = some o ∧ o.priceLevel = some lp ∧
          o.side = side) ∧
        ∀ p ∈ chain, ∀ o, book.orders.read p = some o → o.price = level.price := by
  obtain ⟨queue, view, hok, hview⟩ := h.sides side
  obtain ⟨a, ha⟩ := hok.mem_storedLevels.1 hlp
  obtain ⟨level, hl, hr⟩ := hok.rep lp a ha
  have hlevel : a ∈ q.levels side := by
    rw [hview]
    exact List.mem_map.2 ⟨_, ha, rfl⟩
  have hne := hok.settled _ ha
  refine ⟨level, queue lp, hl, hr.chain hne (hq.total hlevel) (hok.linked lp) (hok.nodup lp),
    fun p => ?_, fun p hp o ho => ?_⟩
  · rw [hok.mem_iff, h.side_eq]
    constructor
    · rintro ⟨r, hattr, hside⟩
      obtain ⟨o, ho, rfl, hlp⟩ := attrOf_eq_some.1 hattr
      exact ⟨o, ho, hlp, hside⟩
    · rintro ⟨o, ho, hlp, hside⟩
      exact ⟨o.toOrderSnapshot, by rw [attrOf_eq ho, hlp], hside⟩
  · have hrec : some o.toOrderSnapshot ∈ a.orders.map some := by
      rw [← hr.records, ← recordOf_eq ho]
      exact List.mem_map_of_mem hp
    obtain ⟨r, hr', heq⟩ := List.mem_map.1 hrec
    cases heq
    rw [hr.price]
    exact hr.prices _ hr'

/-- While totals fit, the level an order points to is stored. -/
theorem priceLevel_stored (h : BookRep book q) (hq : q.Exact) (ho : book.orders.read p = some o)
    (hlp : o.priceLevel = some lp) : lp ∈ OrderBook.storedLevels (book.bookForSide o.side) := by
  have hactive := h.mem_active ho
  have hmem : o.toOrderSnapshot ∈ ordersOf (q.levels o.side) := by
    rcases (QueueBook.mem_activeOrders o.side).1 hactive with hr | hr | hr
    · exact hr
    · have hside := hq.ok.sided _ _ hr
      cases hs : o.side <;> rw [hs] at hside <;> cases hside
    · rw [hq.whole.detached] at hr
      cases hr
  obtain ⟨queue, view, hok, hview⟩ := h.sides o.side
  obtain ⟨a, ha, hoa⟩ := mem_ordersOf.1 hmem
  rw [hview] at ha
  obtain ⟨⟨lp', a⟩, hx, rfl⟩ := List.mem_map.1 ha
  obtain ⟨level, hl, hr⟩ := hok.rep lp' a hx
  have hrec : some o.toOrderSnapshot ∈ (queue lp').map (recordOf book.orders) := by
    rw [hr.records]
    exact List.mem_map_of_mem hoa
  obtain ⟨p', hp', heq⟩ := List.mem_map.1 hrec
  obtain ⟨o', ho', heq'⟩ := recordOf_eq_some.1 heq
  obtain rfl : p' = p := h.uniqueIds p' p o' o ho' ho (congrArg OrderSnapshot.orderId heq')
  obtain ⟨r, hattr, -⟩ := (hok.mem_iff lp' p').1 hp'
  rw [attrOf_eq ho, hlp] at hattr
  obtain rfl : lp = lp' := Option.some.inj (Prod.mk.inj (Option.some.inj hattr)).2
  exact hok.mem_storedLevels.2 ⟨a, hx⟩

theorem inLevel_iff (h : BookRep book q) (hq : q.Exact) (ho : book.orders.read p = some o) :
    InLevel book side lp p ↔ o.side = side ∧ o.priceLevel = some lp := by
  constructor
  · rintro ⟨hlp, level, chain, hl, hc, hp⟩
    obtain ⟨queue, view, hok, hview⟩ := h.sides side
    obtain ⟨a, ha⟩ := hok.mem_storedLevels.1 hlp
    rw [hok.chain_eq ha hl hc, hok.mem_iff, h.side_eq] at hp
    obtain ⟨r, hattr, hside⟩ := hp
    rw [attrOf_eq ho] at hattr
    obtain ⟨rfl, hlevel⟩ := Prod.mk.inj (Option.some.inj hattr)
    exact ⟨hside, hlevel⟩
  · rintro ⟨rfl, hlp⟩
    have hstored := h.priceLevel_stored hq ho hlp
    obtain ⟨level, chain, hl, hc, hmem, -⟩ := h.levelChain hq hstored
    exact ⟨hstored, level, chain, hl, hc, (hmem p).2 ⟨o, ho, hlp, rfl⟩⟩

/-- Every live order rests in exactly one level. -/
theorem oneLevel (h : BookRep book q) (hq : q.Exact) (ho : book.orders.read p = some o) :
    ∃! x : Side × LevelPtr, InLevel book x.1 x.2 p := by
  obtain ⟨lp, hlp⟩ := h.priceLevel_some ho
  refine ⟨(o.side, lp), (h.inLevel_iff hq ho).2 ⟨rfl, hlp⟩, fun x hx => ?_⟩
  obtain ⟨hside, hlp'⟩ := (h.inLevel_iff hq ho).1 hx
  rw [hlp] at hlp'
  exact Prod.ext hside.symm (Option.some.inj hlp').symm

theorem isResting (h : BookRep book q) (hq : q.Exact) (ho : book.orders.read p = some o) :
    IsResting book p := by
  obtain ⟨x, hx, -⟩ := h.oneLevel hq ho
  exact ⟨x.1, x.2, hx⟩

theorem sideConsistent (h : BookRep book q) (hq : q.Exact) (side : Side) :
    SideConsistent book side := by
  obtain ⟨queue, view, hok, hview⟩ := h.sides side
  constructor
  · intro lp hlp
    obtain ⟨level, chain, hl, hc, hmem, hprice⟩ := h.levelChain hq hlp
    refine ⟨level, chain, hl, hc, fun p hp => ?_⟩
    obtain ⟨o, ho, hlevel, hside⟩ := (hmem p).1 hp
    exact ⟨o, ho, hside, hprice p hp o ho, hlevel⟩
  · intro i lp hi
    obtain ⟨level, hl, -, hw, hslot⟩ := hok.storage.slot_level i lp hi
    exact ⟨level, hl, hw, hslot⟩
  · intro t lp ht
    obtain ⟨level, hl, -, hw, hticks⟩ := hok.storage.far_level t lp ht
    exact ⟨level, hl, hw, hticks⟩
  · exact hok.storage.ring.bit_iff
  · rw [hok.cached]
    have hempty : OrderBook.storedLevels (book.bookForSide side) = [] ↔ view = [] := by
      rw [List.eq_nil_iff_forall_not_mem, List.eq_nil_iff_forall_not_mem]
      simp only [hok.mem_storedLevels, not_exists, Prod.forall]
    rw [hempty]
    cases view <;> simp
  · intro lp hlp
    rw [hok.cached] at hlp
    obtain ⟨⟨_, a⟩, hhead, rfl⟩ := Option.map_eq_some_iff.1 hlp
    have hmem := List.mem_of_mem_head? hhead
    refine ⟨hok.mem_storedLevels.2 ⟨a, hmem⟩, fun level hl lp' hlp' hne level' hl' => ?_⟩
    obtain ⟨b, hb⟩ := hok.mem_storedLevels.1 hlp'
    obtain ⟨_, hl₁, hr₁⟩ := hok.rep _ a hmem
    obtain ⟨_, hl₂, hr₂⟩ := hok.rep _ b hb
    rw [hl] at hl₁
    rw [hl'] at hl₂
    cases hl₁
    cases hl₂
    have hle := hok.ranked.head_le hhead hb
    rw [h.side_eq] at hle
    rw [isBetterPrice_iff, hr₁.price, hr₂.price]
    refine lt_of_le_of_ne hle fun heq => hne ?_
    have hsame := hok.ranked.eq_of_rank hmem hb (by rw [h.side_eq]; exact heq)
    exact (congrArg Prod.fst hsame).symm

/-- A book that represents exact level queues is consistent in every pointer. -/
theorem consistent (h : BookRep book q) (hq : q.Exact) : Consistent book where
  sides := h.sideConsistent hq
  positive p o ho := hq.ok.positive _ (h.mem_active ho)
  oneLevel p o ho := h.oneLevel hq ho
  orderById id p := by
    rw [h.byId]
    constructor
    · rintro ⟨r, hr, rfl⟩
      obtain ⟨o, ho, rfl⟩ := recordOf_eq_some.1 hr
      exact ⟨h.isResting hq ho, o, ho, rfl⟩
    · rintro ⟨-, o, ho, rfl⟩
      exact ⟨_, recordOf_eq ho, rfl⟩
  clientOrderIdToOrderId c id := by
    rw [h.byClient]
    constructor
    · rintro ⟨p, r, hr, rfl, rfl⟩
      obtain ⟨o, ho, rfl⟩ := recordOf_eq_some.1 hr
      exact ⟨p, h.isResting hq ho, o, ho, rfl, rfl⟩
    · rintro ⟨p, -, o, ho, rfl, rfl⟩
      exact ⟨p, _, recordOf_eq ho, rfl, rfl⟩

end BookRep

end PerpexEngine
