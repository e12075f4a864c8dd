import PerpexEngine.Core.SideOperations

/-! What the code lists of a side: sorting its stored levels gives back the level queues. -/
namespace PerpexEngine
open LinkedQueue OrderBook

section Sorting
variable {α : Type} {side : Side} {price : α → Price} {xs : List α}

theorem sortFromBest_eq (side : Side) (price : α → Price) (xs : List α) :
    sortFromBest side price xs =
      xs.insertionSort fun a b => side.rank (price a) ≤ side.rank (price b) := by
  cases side with
  | buy => simp only [sortFromBest, Side.rank, neg_le_neg_iff]
  | sell => rfl

theorem mem_sortFromBest {a : α} : a ∈ sortFromBest side price xs ↔ a ∈ xs := by
  rw [sortFromBest_eq]
  exact List.mem_insertionSort _

theorem sortFromBest_ranked (h : xs.Pairwise fun a b => price a ≠ price b) :
    Ranked (fun a => side.rank (price a)) (sortFromBest side price xs) := by
  rw [sortFromBest_eq]
  exact Ranked.insertionSort (h.imp fun hne heq => hne (side.rank_inj.1 heq))

end Sorting

section Stored
variable {book : SideBook} {lp : LevelPtr}

private theorem mem_slots : lp ∈ book.ringPriceLadder.slots.toList.filterMap id ↔
    ∃ i, book.ringPriceLadder.slotAt i = some lp := by
  rw [List.mem_filterMap]
  constructor
  · rintro ⟨s, hs, rfl⟩
    obtain ⟨i, hi⟩ := List.getElem?_of_mem hs
    refine ⟨i, ?_⟩
    rw [RingPriceLadder.slotAt, Array.getD_eq_getD_getElem?, ← Array.getElem?_toList, hi]
    rfl
  · rintro ⟨i, hi⟩
    rw [RingPriceLadder.slotAt, Array.getD_eq_getD_getElem?, ← Array.getElem?_toList] at hi
    cases hs : book.ringPriceLadder.slots.toList[i]? with
    | none =>
      rw [hs] at hi
      cases hi
    | some s =>
      rw [hs] at hi
      exact ⟨s, List.mem_of_getElem? hs, hi⟩

private theorem mem_far : lp ∈ book.farPriceMap.levels.toList.map (·.2) ↔
    ∃ t : ℤ, book.farPriceMap.levels[t]? = some lp := by
  rw [List.mem_map]
  constructor
  · rintro ⟨⟨t, p⟩, hp, rfl⟩
    exact ⟨t, Std.ExtTreeMap.mem_toList_iff_getElem?_eq_some.1 hp⟩
  · rintro ⟨t, ht⟩
    exact ⟨(t, lp), Std.ExtTreeMap.mem_toList_iff_getElem?_eq_some.2 ht, rfl⟩

/-- The two stores together list exactly the live levels. -/
theorem SideBook.Storage.mem_storedLevels (h : book.Storage) :
    lp ∈ storedLevels book ↔ ∃ l, book.levels.read lp = some l := by
  rw [storedLevels, List.mem_append, mem_slots, mem_far]
  constructor
  · rintro (⟨i, hi⟩ | ⟨t, ht⟩)
    · obtain ⟨l, hl, -⟩ := h.slot_level i lp hi
      exact ⟨l, hl⟩
    · obtain ⟨l, hl, -⟩ := h.far_level t lp ht
      exact ⟨l, hl⟩
  · rintro ⟨l, hl⟩
    have hat := h.stored lp l hl
    rw [SideBook.levelAt] at hat
    split_ifs at hat
    · exact Or.inl ⟨_, hat⟩
    · exact Or.inr ⟨_, hat⟩

/-- No level is listed twice. -/
theorem SideBook.Storage.storedLevels_nodup (h : book.Storage) : (storedLevels book).Nodup := by
  rw [storedLevels, List.nodup_append]
  refine ⟨?_, ?_, fun p hp p' hp' heq => ?_⟩
  · refine List.pairwise_filterMap.2 (List.pairwise_iff_getElem.2 fun i j hi hj hij p hp p' hp' => ?_)
    have hslot : ∀ {k q} (hk : k < book.ringPriceLadder.slots.toList.length),
        id book.ringPriceLadder.slots.toList[k] = some q →
          book.ringPriceLadder.slotAt k = some q := by
      intro k q hk hq
      rw [RingPriceLadder.slotAt, Array.getD_eq_getD_getElem?, ← Array.getElem?_toList,
        List.getElem?_eq_getElem hk]
      exact hq
    rintro rfl
    obtain ⟨l, hl, -, -, hi'⟩ := h.slot_level i p (hslot hi hp)
    obtain ⟨l', hl', -, -, hj'⟩ := h.slot_level j p (hslot hj hp')
    rw [hl] at hl'
    cases hl'
    omega
  · rw [List.nodup_iff_pairwise_ne, List.pairwise_map]
    refine List.Pairwise.imp_of_mem ?_ Std.ExtTreeMap.distinct_keys_toList
    intro a b ha hb hne heq
    rw [Std.ExtTreeMap.mem_toList_iff_getElem?_eq_some] at ha hb
    obtain ⟨l, hl, -, -, ht⟩ := h.far_level _ _ ha
    obtain ⟨l', hl', -, -, ht'⟩ := h.far_level _ _ hb
    rw [heq, hl'] at hl
    cases hl
    exact hne (Std.LawfulEqCmp.compare_eq_iff_eq.2 (ht.symm.trans ht'))
  · subst heq
    obtain ⟨i, hi⟩ := mem_slots.1 hp
    obtain ⟨t, ht⟩ := mem_far.1 hp'
    obtain ⟨l, hl, -, hw, -⟩ := h.slot_level _ _ hi
    obtain ⟨l', hl', -, hw', -⟩ := h.far_level _ _ ht
    rw [hl] at hl'
    cases hl'
    rw [hw] at hw'
    cases hw'

end Stored

section View
variable {book : SideBook} {orders : Heap Order} {queue : Queues}
  {view : List (LevelPtr × LevelQueue)}

/-- Whatever is read off the stored levels, sorted by price, follows the view. -/
theorem SideRep.sortFromBest_eq {α : Type} (h : SideRep book orders queue view)
    (price : α → Price) {f : PriceLevel → Option α} {g : LevelPtr × LevelQueue → α}
    (hf : ∀ x ∈ view, ∀ l, book.levels.read x.1 = some l → LevelRep l orders (queue x.1) x.2 →
      f l = some (g x)) (hg : ∀ x ∈ view, price (g x) = x.2.price) :
    sortFromBest book.side price
      ((storedLevels book).filterMap fun p => (book.levels.read p).bind f) = view.map g := by
  have hread : ∀ {p a}, (book.levels.read p).bind f = some a ↔ ∃ b, (p, b) ∈ view ∧ g (p, b) = a := by
    intro p a
    rw [Option.bind_eq_some_iff]
    constructor
    · rintro ⟨l, hl, hfl⟩
      obtain ⟨b, hb⟩ := h.live p l hl
      obtain ⟨l', hl', hr⟩ := h.rep p b hb
      rw [hl] at hl'
      cases hl'
      rw [hf _ hb l hl hr] at hfl
      exact ⟨b, hb, Option.some.inj hfl⟩
    · rintro ⟨b, hb, rfl⟩
      obtain ⟨l, hl, hr⟩ := h.rep p b hb
      exact ⟨l, hl, hf _ hb l hl hr⟩
  refine Ranked.ext (sortFromBest_ranked (List.pairwise_filterMap.2 ?_)) ?_ fun a => ?_
  · refine h.storage.storedLevels_nodup.imp fun hne a ha a' ha' heq => ?_
    obtain ⟨b, hb, rfl⟩ := hread.1 ha
    obtain ⟨b', hb', rfl⟩ := hread.1 ha'
    rw [hg _ hb, hg _ hb'] at heq
    exact hne (congrArg Prod.fst (h.ranked.eq_of_rank hb hb' (congrArg _ heq)))
  · refine List.pairwise_map.2 (List.Pairwise.imp_of_mem ?_ h.ranked)
    intro x y hx hy hxy
    simp only [hg x hx, hg y hy]
    exact hxy
  · rw [mem_sortFromBest, List.mem_filterMap, List.mem_map]
    constructor
    · rintro ⟨p, -, hp⟩
      obtain ⟨b, hb, rfl⟩ := hread.1 hp
      exact ⟨_, hb, rfl⟩
    · rintro ⟨⟨p, b⟩, hb, rfl⟩
      obtain ⟨l, hl, -⟩ := h.rep p b hb
      exact ⟨p, h.storage.mem_storedLevels.2 ⟨l, hl⟩, hread.2 ⟨b, hb, rfl⟩⟩

/-- The levels the matching code sorts are those of the view, in order. -/
theorem SideOk.activeLevelsSorted_eq (h : SideOk book orders queue view) :
    activeLevelsSorted book = view.map fun x => ⟨x.2.price, x.2.totalQuantity,
      (queue x.1).head?, (queue x.1).getLast?, (queue x.1).length⟩ := by
  have hfilter : ((storedLevels book).filterMap book.levels.read).filter (fun l => !l.isEmpty) =
      (storedLevels book).filterMap fun p => (book.levels.read p).bind
        fun l => if l.isEmpty then none else some l := by
    rw [List.filter_filterMap]
    refine congrArg (List.filterMap · _) (funext fun p => ?_)
    cases book.levels.read p with
    | none => rfl
    | some l => cases hl : l.isEmpty <;> simp [hl]
  rw [activeLevelsSorted, hfilter]
  refine h.toSideRep.sortFromBest_eq PriceLevel.price (fun x hx l hl hr => ?_) fun x hx => rfl
  have hne : l.isEmpty = false := by
    rw [hr.isEmpty_iff]
    simpa using h.settled x hx
  simp only [hne, Bool.false_eq_true, ↓reduceIte]
  obtain ⟨price, total, head, tail, count⟩ := l
  simp only [Option.some.injEq, PriceLevel.mk.injEq]
  exact ⟨hr.price, hr.total, hr.head, hr.tail, hr.count⟩

theorem SideOk.activeLevelsSorted (h : SideOk book orders queue view) :
    (activeLevelsSorted book).map (fun l => (l.price, l.totalQuantity)) =
      levelTotals (view.map (·.2)) := by
  rw [h.activeLevelsSorted_eq, levelTotals, List.map_map, List.map_map]
  rfl

/-- Following the links from the head of a queue reads off its orders. -/
theorem walkOrders_eq {qs : List OrderPtr} {as : List OrderSnapshot} {prior : Option OrderPtr}
    {n : ℕ} (hlinked : Seg (prevOf orders) (nextOf orders) prior qs none)
    (hrec : qs.map (recordOf orders) = as.map some) (hn : qs.length ≤ n) :
    EngineCore.walkOrders orders n qs.head? = as := by
  induction qs generalizing as prior n with
  | nil =>
    cases as with
    | nil => cases n <;> rfl
    | cons a as => cases hrec
  | cons q qs ih =>
    cases as with
    | nil => cases hrec
    | cons a as =>
      cases n with
      | zero => cases hn
      | succ n =>
        obtain ⟨hq, hqs⟩ := List.cons.inj hrec
        obtain ⟨o, ho, rfl⟩ := recordOf_eq_some.1 hq
        obtain ⟨-, hnext, hrest⟩ := hlinked
        rw [nextOf, ho, Option.bind_some, Option.or_none] at hnext
        have htail := ih hrest hqs (Nat.le_of_succ_le_succ hn)
        rw [← hnext] at htail
        rw [List.head?_cons, EngineCore.walkOrders, ho]
        exact congrArg _ htail

/-- A level's queue is no longer than the number of order cells ever made. -/
theorem SideRep.length_le (h : SideRep book orders queue view) (lp : LevelPtr) :
    (queue lp).length ≤ orders.next := by
  have hsub : queue lp ⊆ List.range orders.next := by
    intro p hp
    obtain ⟨r, hr, -⟩ := (h.mem_iff lp p).1 hp
    obtain ⟨o, ho, -⟩ := Option.map_eq_some_iff.1 hr
    exact List.mem_range.2 (Heap.lt_next ho)
  have hlen := (List.subperm_of_subset (h.nodup lp) hsub).length_le
  rwa [List.length_range] at hlen

end View
end PerpexEngine
