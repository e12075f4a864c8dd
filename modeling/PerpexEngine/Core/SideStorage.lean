import PerpexEngine.Core.LadderScan
import PerpexEngine.Core.SideBook
import Mathlib.Tactic.Linarith
import Mathlib.Data.Nat.ModEq

/-! Where the levels of a side are stored. A level is live in the heap exactly when the ring
or the far map holds it at its price, and every storage operation keeps this. -/
namespace PerpexEngine
open BitScan

/-- Sorting key of a side: a better price has a smaller rank. -/
def Side.rank (side : Side) (price : Price) : ℤ :=
  match side with
  | .buy => -price.ticks
  | .sell => price.ticks

theorem isBetterPrice_iff (side : Side) (candidate current : Price) :
    isBetterPrice side candidate current = true ↔ side.rank candidate < side.rank current := by
  cases side <;> simp [isBetterPrice, Side.rank]

theorem crossesLevel_iff (side : Side) (incoming resting : Price) :
    crossesLevel side incoming resting = true ↔ side.rank resting ≤ side.rank incoming := by
  cases side <;> simp [crossesLevel, Side.rank]

theorem Side.rank_inj (side : Side) {p q : Price} : side.rank p = side.rank q ↔ p = q := by
  rw [Price.ext_iff]
  cases side <;> simp [Side.rank]

/-- A price on the tick grid of its ladder. -/
def Aligned (tickSize : ℤ) (price : Price) : Prop := tickSize ≤ 0 ∨ price.ticks.tmod tickSize = 0

theorem Aligned.ticks_eq {tickSize : ℤ} {p : Price} (h : Aligned tickSize p)
    (ht : ¬ tickSize ≤ 0) : p.ticks = tickSize * priceToLadderTick p tickSize := by
  rw [priceToLadderTick, if_neg ht]
  have hdiv := Int.mul_tdiv_add_tmod p.ticks tickSize
  rw [h.resolve_left ht] at hdiv
  omega

/-- On the grid the ladder tick orders prices as they are. -/
theorem Aligned.lt_iff {tickSize : ℤ} {p q : Price} (hp : Aligned tickSize p)
    (hq : Aligned tickSize q) :
    priceToLadderTick p tickSize < priceToLadderTick q tickSize ↔ p.ticks < q.ticks := by
  by_cases ht : tickSize ≤ 0
  · simp [priceToLadderTick, ht]
  · rw [hp.ticks_eq ht, hq.ticks_eq ht]
    exact (Int.mul_lt_mul_left (by omega)).symm

theorem Aligned.tick_inj {tickSize : ℤ} {p q : Price} (hp : Aligned tickSize p)
    (hq : Aligned tickSize q)
    (h : priceToLadderTick p tickSize = priceToLadderTick q tickSize) : p = q := by
  have h1 := hp.lt_iff hq
  have h2 := hq.lt_iff hp
  ext
  omega

theorem validateSymbolPrice_aligned {price : Price} {config : SymbolConfig}
    (h : validateSymbolPrice price config = true) : Aligned config.tickSize.ticks price := by
  simp only [validateSymbolPrice, Bool.and_eq_true, decide_eq_true_eq] at h
  exact Or.inr h.2

namespace RingPriceLadder
variable {ladder : RingPriceLadder}

theorem slotAt_setSlot {i : ℕ} (hi : i < ladder.slots.size) (p : Option LevelPtr) (j : ℕ) :
    (ladder.setSlot i p).slotAt j = if j = i then p else ladder.slotAt j := by
  rw [slotAt, setSlot, slotAt, Array.getD_eq_getD_getElem?, Array.getD_eq_getD_getElem?,
    Array.getElem?_setIfInBounds]
  by_cases hij : i = j
  · subst hij
    simp [hi]
  · rw [if_neg hij, if_neg (Ne.symm hij)]

private theorem setIfInBounds_self {α : Type} {xs : Array α} {i : ℕ} {a : α}
    (h : xs[i]? = some a) : xs.setIfInBounds i a = xs := by
  apply Array.ext_getElem?
  intro j
  rw [Array.getElem?_setIfInBounds]
  split_ifs with hij hi
  · rw [← hij, h]
  · rw [Array.getElem?_eq_none (by omega)]
  · rfl

/-- Writing one word of the bitmap. -/
private theorem wordAt_set (w j : ℕ) (v : Word) (hw : w < ladder.activeSlotBitmap.size) :
    ({ ladder with activeSlotBitmap := ladder.activeSlotBitmap.setIfInBounds w v } :
      RingPriceLadder).wordAt j = if j = w then v else ladder.wordAt j := by
  rw [wordAt, wordAt, Array.getD_eq_getD_getElem?, Array.getD_eq_getD_getElem?,
    Array.getElem?_setIfInBounds]
  by_cases hwj : w = j
  · subst hwj
    simp [hw]
  · rw [if_neg hwj, if_neg (Ne.symm hwj)]

theorem WellFormed.word_lt (h : ladder.WellFormed) {i : ℕ} (hi : i < ladder.capacity) :
    i / 64 < ladder.activeSlotBitmap.size := by
  rw [h.bitmap_size]
  simp only [bitmapWordCount, kBitmapWordBits]
  omega

theorem WellFormed.markActive_bit (h : ladder.WellFormed) {i : ℕ} (hi : i < ladder.capacity)
    (j : ℕ) : ((ladder.markActive i).wordAt (j / 64)).getLsbD (j % 64) =
      (decide (j = i) || (ladder.slotAt j).isSome) := by
  have hbit := h.bit (j / 64) (j % 64) (by omega)
  rw [show j / 64 * 64 + j % 64 = j by omega] at hbit
  rw [markActive, if_neg (by omega), wordAt_set _ _ _ (h.word_lt hi)]
  by_cases hw : j / 64 = i / 64
  · rw [if_pos hw, getLsbD_setBit _ _ _ (by omega), ← hw, hbit]
    exact congrArg (· || _) (decide_eq_decide.2 (show j % 64 = i % 64 ↔ j = i by omega))
  · rw [if_neg hw, hbit, decide_eq_false (by rintro rfl; exact hw rfl), Bool.false_or]

theorem WellFormed.markInactive_bit (h : ladder.WellFormed) {i : ℕ} (hi : i < ladder.capacity)
    (j : ℕ) : ((ladder.markInactive i).wordAt (j / 64)).getLsbD (j % 64) =
      (!decide (j = i) && (ladder.slotAt j).isSome) := by
  have hbit := h.bit (j / 64) (j % 64) (by omega)
  rw [show j / 64 * 64 + j % 64 = j by omega] at hbit
  rw [markInactive, if_neg (by omega), wordAt_set _ _ _ (h.word_lt hi)]
  by_cases hw : j / 64 = i / 64
  · rw [if_pos hw, getLsbD_clearBit _ _ _ (by omega), ← hw, hbit]
    exact congrArg (! · && _) (decide_eq_decide.2 (show j % 64 = i % 64 ↔ j = i by omega))
  · rw [if_neg hw, hbit, decide_eq_false (by rintro rfl; exact hw rfl), Bool.not_false,
      Bool.true_and]

/-- Filling a slot and setting its bit. -/
theorem WellFormed.fillSlot (h : ladder.WellFormed) {i : ℕ} (hi : i < ladder.capacity)
    (p : LevelPtr) :
    ((ladder.setSlot i (some p)).markActive i).WellFormed ∧
      ∀ j, ((ladder.setSlot i (some p)).markActive i).slotAt j =
        if j = i then some p else ladder.slotAt j := by
  have hslot := slotAt_setSlot (by rw [h.slots_size]; exact hi) (some p)
  have hmark := h.markActive_bit hi
  rw [markActive, if_neg (by omega)] at hmark
  rw [markActive, if_neg (show ¬(ladder.setSlot i (some p)).capacity ≤ i from by
    simp only [setSlot]
    omega)]
  refine ⟨⟨?_, ?_, h.head_lt, fun j => ?_⟩, hslot⟩
  · simpa [setSlot] using h.slots_size
  · simpa [setSlot] using h.bitmap_size
  · refine (hmark j).trans ?_
    change _ = ((ladder.setSlot i (some p)).slotAt j).isSome
    rw [hslot]
    by_cases hj : j = i <;> simp [hj]

theorem WellFormed.markActive_self (h : ladder.WellFormed) {i : ℕ} {p : LevelPtr}
    (hi : ladder.slotAt i = some p) : ladder.markActive i = ladder := by
  have hcap := h.lt_capacity hi
  have hw := h.word_lt hcap
  have hbit : (ladder.wordAt (i / 64)).getLsbD (i % 64) = true := by
    have hb := h.bit_iff i
    rwa [hi] at hb
  have hget : ladder.activeSlotBitmap[i / 64]? = some (ladder.wordAt (i / 64)) := by
    rw [wordAt, Array.getD_eq_getD_getElem?, Array.getElem?_eq_getElem hw]
    rfl
  rw [markActive, if_neg (by omega)]
  simp only [kBitmapWordBits, setBit_eq_self hbit, setIfInBounds_self hget]

/-- Emptying a slot and clearing its bit. -/
theorem WellFormed.clearSlot (h : ladder.WellFormed) {i : ℕ} (hi : i < ladder.capacity) :
    (ladder.clearSlot i).WellFormed ∧
      ∀ j, (ladder.clearSlot i).slotAt j = if j = i then none else ladder.slotAt j := by
  have hslot := slotAt_setSlot (by rw [h.slots_size]; exact hi) none
  have hmark := h.markInactive_bit hi
  rw [markInactive, if_neg (by omega)] at hmark
  rw [RingPriceLadder.clearSlot, if_neg (by omega), markInactive,
    if_neg (show ¬(ladder.setSlot i none).capacity ≤ i from by
      simp only [setSlot]
      omega)]
  refine ⟨⟨?_, ?_, h.head_lt, fun j => ?_⟩, hslot⟩
  · simpa [setSlot] using h.slots_size
  · simpa [setSlot] using h.bitmap_size
  · refine (hmark j).trans ?_
    change _ = ((ladder.setSlot i none).slotAt j).isSome
    rw [hslot]
    by_cases hj : j = i <;> simp [hj]

theorem new_wellFormed (side : Side) (tickSize baseTick : ℤ) (capacity : ℕ) :
    (RingPriceLadder.new side tickSize baseTick capacity).WellFormed ∧
      ∀ i, (RingPriceLadder.new side tickSize baseTick capacity).slotAt i = none := by
  have hslot : ∀ i, (RingPriceLadder.new side tickSize baseTick capacity).slotAt i = none := by
    intro i
    rw [slotAt, new, Array.getD_eq_getD_getElem?, Array.getElem?_replicate]
    split_ifs <;> rfl
  refine ⟨⟨by simp [new], by simp [new], fun hpos => hpos, fun i => ?_⟩, hslot⟩
  rw [hslot, wordAt, new, Array.getD_eq_getD_getElem?, Array.getElem?_replicate]
  split_ifs <;> exact BitVec.getLsbD_zero

theorem containsTick_iff (priceTick : ℤ) : ladder.containsTick priceTick = true ↔
    ladder.baseTick ≤ priceTick ∧ (priceTick - ladder.baseTick).toNat < ladder.capacity := by
  simp only [containsTick, Bool.and_eq_true, decide_eq_true_eq]
  omega

/-- Distinct ticks of the window have distinct slots. -/
theorem slot_inj {s t : ℤ}
    (hs : ladder.containsTick s = true) (ht : ladder.containsTick t = true)
    (heq : ladder.priceTickToSlot s = ladder.priceTickToSlot t) : s = t := by
  rw [containsTick_iff] at hs ht
  have hmod : (s - ladder.baseTick).toNat ≡ (t - ladder.baseTick).toNat [MOD ladder.capacity] :=
    Nat.ModEq.add_left_cancel' _ heq
  have hoff := hmod.eq_of_lt_of_lt hs.2 ht.2
  omega

end RingPriceLadder

namespace SideBook
variable {book : SideBook}

def tickSize (book : SideBook) : ℤ := book.ringPriceLadder.tickSizeTicks

def inWindow (book : SideBook) (price : Price) : Bool :=
  book.ringPriceLadder.containsTick (priceToLadderTick price book.tickSize)

def slotOf (book : SideBook) (price : Price) : ℕ :=
  book.ringPriceLadder.priceTickToSlot (priceToLadderTick price book.tickSize)

/-- The level stored for a price: a ring slot inside the window, a far entry outside. -/
def levelAt (book : SideBook) (price : Price) : Option LevelPtr :=
  if book.inWindow price then book.ringPriceLadder.slotAt (book.slotOf price)
  else book.farPriceMap.levels[price.ticks]?

/-- The two stores partition the live levels by the window, each at its own price. -/
structure Storage (book : SideBook) : Prop where
  ring : book.ringPriceLadder.WellFormed
  ringSide : book.ringPriceLadder.side = book.side
  farSide : book.farPriceMap.side = book.side
  slot_level : ∀ i lp, book.ringPriceLadder.slotAt i = some lp →
    ∃ l, book.levels.read lp = some l ∧ Aligned book.tickSize l.price ∧
      book.inWindow l.price = true ∧ book.slotOf l.price = i
  far_level : ∀ t lp, book.farPriceMap.levels[t]? = some lp →
    ∃ l, book.levels.read lp = some l ∧ Aligned book.tickSize l.price ∧
      book.inWindow l.price = false ∧ l.price.ticks = t
  stored : ∀ lp l, book.levels.read lp = some l → book.levelAt l.price = some lp

/-- What no operation on a side changes. -/
structure SameShape (a b : SideBook) : Prop where
  side : b.side = a.side
  tickSize : b.tickSize = a.tickSize

/-- What storage operations leave alone. -/
structure SameSide (a b : SideBook) : Prop extends SameShape a b where
  cached : b.cachedBestLevel = a.cachedBestLevel

theorem SameShape.refl (book : SideBook) : SameShape book book := ⟨rfl, rfl⟩

theorem SameShape.trans {a b c : SideBook} (h : SameShape a b) (h' : SameShape b c) :
    SameShape a c := ⟨h'.side.trans h.side, h'.tickSize.trans h.tickSize⟩

theorem Storage.aligned (h : book.Storage) {lp : LevelPtr} {l : PriceLevel}
    (hl : book.levels.read lp = some l) : Aligned book.tickSize l.price := by
  have hst := h.stored lp l hl
  rw [levelAt] at hst
  split_ifs at hst
  · obtain ⟨l', hl', ha, -⟩ := h.slot_level _ _ hst
    rw [hl] at hl'
    exact Option.some.inj hl' ▸ ha
  · obtain ⟨l', hl', ha, -⟩ := h.far_level _ _ hst
    rw [hl] at hl'
    exact Option.some.inj hl' ▸ ha

/-- At most one live level per price. -/
theorem Storage.unique (h : book.Storage) {lp lp' : LevelPtr} {l l' : PriceLevel}
    (hl : book.levels.read lp = some l) (hl' : book.levels.read lp' = some l')
    (hp : l.price = l'.price) : lp = lp' := by
  have h1 := h.stored lp l hl
  have h2 := h.stored lp' l' hl'
  rw [hp, h2] at h1
  exact (Option.some.inj h1).symm

theorem slotOf_inj {p q : Price} (hp : Aligned book.tickSize p)
    (hq : Aligned book.tickSize q) (hpw : book.inWindow p = true) (hqw : book.inWindow q = true)
    (heq : book.slotOf p = book.slotOf q) : p = q :=
  hp.tick_inj hq (RingPriceLadder.slot_inj hpw hqw heq)

/-- A lookup on the grid finds the live level of that price. -/
theorem Storage.levelAt_some (h : book.Storage) {price : Price}
    (hp : Aligned book.tickSize price) {lp : LevelPtr} (hl : book.levelAt price = some lp) :
    ∃ l, book.levels.read lp = some l ∧ l.price = price := by
  rw [levelAt] at hl
  split_ifs at hl with hw
  · obtain ⟨l, hread, ha, hlw, hslot⟩ := h.slot_level _ _ hl
    exact ⟨l, hread, slotOf_inj ha hp hlw hw hslot⟩
  · obtain ⟨l, hread, -, -, ht⟩ := h.far_level _ _ hl
    exact ⟨l, hread, Price.ext ht⟩

theorem getLevel_eq (book : SideBook) (price : Price) : book.ringPriceLadder.getLevel price =
    if book.inWindow price then book.ringPriceLadder.slotAt (book.slotOf price) else none := by
  rw [RingPriceLadder.getLevel]
  by_cases hc : book.ringPriceLadder.capacity = 0
  · rw [if_pos hc, if_neg]
    rw [inWindow, RingPriceLadder.containsTick_iff]
    omega
  · rw [if_neg hc]
    cases hw : book.inWindow price <;> rw [inWindow, tickSize] at hw <;> simp [hw, slotOf, tickSize]

/-- A level update that keeps the price keeps the storage. -/
theorem Storage.modify (h : book.Storage) (lp : LevelPtr) {f : PriceLevel → PriceLevel}
    (hf : ∀ l, (f l).price = l.price) :
    Storage { book with levels := book.levels.modify lp f } := by
  have hread : ∀ {q l}, book.levels.read q = some l →
      ∃ l', (book.levels.modify lp f).read q = some l' ∧ l'.price = l.price := by
    intro q l hl
    rw [Heap.read_modify]
    split_ifs with hq
    · exact ⟨f l, by rw [← hq, hl]; rfl, hf l⟩
    · exact ⟨l, hl, rfl⟩
  have hback : ∀ {q l'}, (book.levels.modify lp f).read q = some l' →
      ∃ l, book.levels.read q = some l ∧ l'.price = l.price := by
    intro q l' hl'
    rw [Heap.read_modify] at hl'
    split_ifs at hl' with hq
    · rw [← hq] at hl'
      obtain ⟨l, hl, rfl⟩ := Option.map_eq_some_iff.1 hl'
      exact ⟨l, hl, hf l⟩
    · exact ⟨l', hl', rfl⟩
  refine ⟨h.ring, h.ringSide, h.farSide, fun i q hq => ?_, fun t q hq => ?_, fun q l' hq => ?_⟩
  · obtain ⟨l, hl, ha, hw, hs⟩ := h.slot_level i q hq
    obtain ⟨l', hl', hp⟩ := hread hl
    exact ⟨l', hl', hp ▸ ha, hp ▸ hw, hp ▸ hs⟩
  · obtain ⟨l, hl, ha, hw, ht⟩ := h.far_level t q hq
    obtain ⟨l', hl', hp⟩ := hread hl
    exact ⟨l', hl', hp ▸ ha, hp ▸ hw, hp ▸ ht⟩
  · obtain ⟨l, hl, hp⟩ := hback hq
    rw [hp]
    exact h.stored q l hl

/-- A fresh level in the ring. -/
private theorem Storage.createRing (h : book.Storage) {price : Price}
    (hp : Aligned book.tickSize price) (hw : book.inWindow price = true)
    (hnone : book.levelAt price = none) :
    Storage { book with
      ringPriceLadder := (book.ringPriceLadder.setSlot (book.slotOf price)
        (some book.levels.next)).markActive (book.slotOf price)
      levels := book.levels.alloc (.new price) } := by
  have hpos : 0 < book.ringPriceLadder.capacity := by
    rw [inWindow, RingPriceLadder.containsTick_iff] at hw
    omega
  have hcap : book.slotOf price < book.ringPriceLadder.capacity := Nat.mod_lt _ hpos
  obtain ⟨hwf, hslot⟩ := h.ring.fillSlot hcap book.levels.next
  have hfix : ∀ q, book.inWindow q = true → book.slotOf q = book.slotOf price →
      Aligned book.tickSize q → q = price := fun q hqw hs hq => slotOf_inj hq hp hqw hw hs
  rw [RingPriceLadder.markActive, if_neg (by simpa [RingPriceLadder.setSlot] using hcap)] at *
  refine ⟨hwf, h.ringSide, h.farSide, fun i lp hi => ?_, fun t lp ht => ?_, fun lp l hl => ?_⟩
  · rw [hslot] at hi
    split_ifs at hi with hi'
    · cases hi
      exact ⟨.new price, Heap.read_alloc_self _ _, hp, hw, hi'.symm⟩
    · obtain ⟨l, hl, hrest⟩ := h.slot_level i lp hi
      exact ⟨l, (Heap.read_alloc_of_ne (Heap.lt_next hl).ne).trans hl, hrest⟩
  · obtain ⟨l, hl, hrest⟩ := h.far_level t lp ht
    exact ⟨l, (Heap.read_alloc_of_ne (Heap.lt_next hl).ne).trans hl, hrest⟩
  · change (book.levels.alloc (.new price)).read lp = some l at hl
    rw [Heap.read_alloc] at hl
    change (if book.inWindow l.price then _ else _) = _
    split_ifs at hl with hlp
    · cases hl
      change (if book.inWindow price then _ else _) = _
      rw [if_pos hw]
      exact (hslot _).trans (by rw [hlp]; exact if_pos rfl)
    · have hst := h.stored lp l hl
      rw [levelAt] at hst
      by_cases hlw : book.inWindow l.price = true
      · rw [if_pos hlw] at hst ⊢
        refine (hslot _).trans ?_
        rw [if_neg]
        · exact hst
        · intro hs
          rw [← hfix _ hlw hs (h.aligned hl), h.stored lp l hl] at hnone
          cases hnone
      · rw [if_neg hlw] at hst ⊢
        exact hst

/-- A fresh level in the far map. -/
private theorem Storage.createFar (h : book.Storage) {price : Price}
    (hp : Aligned book.tickSize price) (hw : book.inWindow price = false)
    (hnone : book.levelAt price = none) :
    Storage { book with
      farPriceMap := { book.farPriceMap with
        levels := book.farPriceMap.levels.insert price.ticks book.levels.next }
      levels := book.levels.alloc (.new price) } := by
  refine ⟨h.ring, h.ringSide, h.farSide, fun i lp hi => ?_, fun t lp ht => ?_, fun lp l hl => ?_⟩
  · obtain ⟨l, hl, hrest⟩ := h.slot_level i lp hi
    exact ⟨l, (Heap.read_alloc_of_ne (Heap.lt_next hl).ne).trans hl, hrest⟩
  · change (book.farPriceMap.levels.insert _ _)[t]? = _ at ht
    rw [Std.ExtTreeMap.getElem?_insert] at ht
    split_ifs at ht with ht'
    · cases ht
      exact ⟨.new price, Heap.read_alloc_self _ _, hp, hw, Std.LawfulEqCmp.compare_eq_iff_eq.1 ht'⟩
    · obtain ⟨l, hl, hrest⟩ := h.far_level t lp ht
      exact ⟨l, (Heap.read_alloc_of_ne (Heap.lt_next hl).ne).trans hl, hrest⟩
  · change (book.levels.alloc (.new price)).read lp = some l at hl
    rw [Heap.read_alloc] at hl
    change (if book.inWindow l.price then _ else (book.farPriceMap.levels.insert _ _)[_]?) = _
    rw [Std.ExtTreeMap.getElem?_insert]
    split_ifs at hl with hlp
    · cases hl
      rw [hlp]
      simp [PriceLevel.new, hw]
    · have hst := h.stored lp l hl
      rw [levelAt] at hst
      by_cases hlw : book.inWindow l.price = true
      · rw [if_pos hlw] at hst ⊢
        exact hst
      · rw [if_neg hlw] at hst ⊢
        rw [if_neg, hst]
        intro heq
        have hpl : price = l.price := Price.ext (Std.LawfulEqCmp.compare_eq_iff_eq.1 heq)
        rw [hpl, h.stored lp l hl] at hnone
        cases hnone

/-- `get_or_create_level_for_price`: the live level of the price, or a fresh one stored there. -/
theorem Storage.getOrCreate (h : book.Storage) {price : Price}
    (hp : Aligned book.tickSize price) :
    (∃ lp l, book.levels.read lp = some l ∧ l.price = price ∧
      book.getOrCreateLevelForPrice price = (some lp, book)) ∨
    ((∀ lp l, book.levels.read lp = some l → l.price ≠ price) ∧
      ∃ book' : SideBook, book.getOrCreateLevelForPrice price = (some book.levels.next, book') ∧
        book'.Storage ∧ SameSide book book' ∧
        book'.levels = book.levels.alloc (.new price)) := by
  have hat : book.levelAt price = if book.inWindow price
    then book.ringPriceLadder.slotAt (book.slotOf price)
    else book.farPriceMap.levels[price.ticks]? := rfl
  have habsent : book.levelAt price = none →
      ∀ lp l, book.levels.read lp = some l → l.price ≠ price := by
    rintro hnone lp l hl rfl
    rw [h.stored lp l hl] at hnone
    cases hnone
  by_cases hw : book.inWindow price = true
  · have hcontains : book.ringPriceLadder.containsTick
        (priceToLadderTick price book.ringPriceLadder.tickSizeTicks) = true := hw
    have hcap : ¬book.ringPriceLadder.capacity = 0 := by
      rw [RingPriceLadder.containsTick_iff] at hcontains
      omega
    rw [if_pos hw] at hat
    rw [getOrCreateLevelForPrice, if_pos hcontains, RingPriceLadder.getOrCreateLevel, if_neg hcap,
      if_neg (by simp [hcontains])]
    change (∃ lp l, _ ∧ _ ∧ _ = _) ∨ (_ ∧ ∃ book', _ = _ ∧ _)
    cases hs : book.ringPriceLadder.slotAt (book.slotOf price) with
    | some lp =>
      left
      obtain ⟨l, hl, hprice⟩ := h.levelAt_some hp (hat.trans hs)
      refine ⟨lp, l, hl, hprice, ?_⟩
      rw [slotOf, tickSize] at hs
      simp only [hs, h.ring.markActive_self hs]
    | none =>
      right
      rw [hs] at hat
      refine ⟨habsent hat, _, ?_, h.createRing hp hw hat, ⟨⟨rfl, ?_⟩, rfl⟩, rfl⟩
      · rw [slotOf, tickSize] at hs
        simp only [hs, slotOf, tickSize]
      · rw [tickSize, RingPriceLadder.markActive]
        split_ifs <;> rfl
  · have hcontains : ¬book.ringPriceLadder.containsTick
        (priceToLadderTick price book.ringPriceLadder.tickSizeTicks) = true := hw
    rw [if_neg hw] at hat
    rw [getOrCreateLevelForPrice, if_neg hcontains, FarPriceMap.getOrCreateLevel]
    cases hs : book.farPriceMap.levels[price.ticks]? with
    | some lp =>
      left
      obtain ⟨l, hl, hprice⟩ := h.levelAt_some hp (hat.trans hs)
      exact ⟨lp, l, hl, hprice, rfl⟩
    | none =>
      right
      rw [hs] at hat
      exact ⟨habsent hat, _, rfl, h.createFar hp (by simpa using hw) hat, ⟨⟨rfl, rfl⟩, rfl⟩, rfl⟩

/-- A level taken out of the ring and freed. -/
private theorem Storage.freeRing (h : book.Storage) {lp : LevelPtr} {l : PriceLevel}
    (hl : book.levels.read lp = some l) (hw : book.inWindow l.price = true) :
    Storage { book with
      ringPriceLadder := book.ringPriceLadder.clearSlot (book.slotOf l.price)
      levels := book.levels.free lp } := by
  have hat := h.stored lp l hl
  rw [levelAt, if_pos hw] at hat
  have hcap := h.ring.lt_capacity hat
  obtain ⟨hwf, hslot⟩ := h.ring.clearSlot hcap
  have htick : (book.ringPriceLadder.clearSlot (book.slotOf l.price)).tickSizeTicks =
      book.ringPriceLadder.tickSizeTicks := by
    rw [RingPriceLadder.clearSlot, RingPriceLadder.markInactive]
    split_ifs <;> rfl
  rw [RingPriceLadder.clearSlot, if_neg (by omega), RingPriceLadder.markInactive,
    if_neg (by simpa [RingPriceLadder.setSlot] using hcap)] at *
  refine ⟨hwf, h.ringSide, h.farSide, fun i q hi => ?_, fun t q ht => ?_, fun q l' hq => ?_⟩
  · rw [hslot] at hi
    split_ifs at hi with hne
    obtain ⟨l', hl', ha, hlw, hs⟩ := h.slot_level i q hi
    refine ⟨l', (Heap.read_free_of_ne ?_).trans hl', ha, hlw, hs⟩
    rintro rfl
    rw [hl] at hl'
    cases hl'
    exact hne hs.symm
  · obtain ⟨l', hl', ha, hlw, hs⟩ := h.far_level t q ht
    refine ⟨l', (Heap.read_free_of_ne ?_).trans hl', ha, hlw, hs⟩
    rintro rfl
    rw [hl] at hl'
    cases hl'
    rw [hw] at hlw
    cases hlw
  · change (book.levels.free lp).read q = some l' at hq
    obtain ⟨hne, hq⟩ := Heap.read_free_eq_some.1 hq
    have hst := h.stored q l' hq
    change (if book.inWindow l'.price then _ else _) = _
    rw [levelAt] at hst
    by_cases hlw : book.inWindow l'.price = true
    · rw [if_pos hlw] at hst ⊢
      refine (hslot _).trans ?_
      rw [if_neg]
      · exact hst
      · intro hs
        have hprice := slotOf_inj (h.aligned hq) (h.aligned hl) hlw hw hs
        exact hne (h.unique hq hl hprice)
    · rw [if_neg hlw] at hst ⊢
      exact hst

/-- A level taken out of the far map and freed. -/
private theorem Storage.freeFar (h : book.Storage) {lp : LevelPtr} {l : PriceLevel}
    (hl : book.levels.read lp = some l) (hw : book.inWindow l.price = false) :
    Storage { book with
      farPriceMap := { book.farPriceMap with
        levels := book.farPriceMap.levels.erase l.price.ticks }
      levels := book.levels.free lp } := by
  refine ⟨h.ring, h.ringSide, h.farSide, fun i q hi => ?_, fun t q ht => ?_, fun q l' hq => ?_⟩
  · obtain ⟨l', hl', ha, hlw, hs⟩ := h.slot_level i q hi
    refine ⟨l', (Heap.read_free_of_ne ?_).trans hl', ha, hlw, hs⟩
    rintro rfl
    rw [hl] at hl'
    cases hl'
    rw [hw] at hlw
    cases hlw
  · change (book.farPriceMap.levels.erase _)[t]? = _ at ht
    rw [Std.ExtTreeMap.getElem?_erase] at ht
    split_ifs at ht with hne
    obtain ⟨l', hl', ha, hlw, hs⟩ := h.far_level t q ht
    refine ⟨l', (Heap.read_free_of_ne ?_).trans hl', ha, hlw, hs⟩
    rintro rfl
    rw [hl] at hl'
    cases hl'
    exact hne (Std.LawfulEqCmp.compare_eq_iff_eq.2 hs)
  · change (book.levels.free lp).read q = some l' at hq
    obtain ⟨hne, hq⟩ := Heap.read_free_eq_some.1 hq
    have hst := h.stored q l' hq
    change (if book.inWindow l'.price then _ else (book.farPriceMap.levels.erase _)[_]?) = _
    rw [levelAt] at hst
    by_cases hlw : book.inWindow l'.price = true
    · rw [if_pos hlw] at hst ⊢
      exact hst
    · rw [if_neg hlw] at hst ⊢
      rw [Std.ExtTreeMap.getElem?_erase, if_neg, hst]
      intro heq
      have hprice : l.price = l'.price := Price.ext (Std.LawfulEqCmp.compare_eq_iff_eq.1 heq)
      exact hne (h.unique hq hl hprice.symm)

/-- A level that is done is freed and leaves its store; any other level stays. -/
theorem Storage.dropIfDone (h : book.Storage) {lp : LevelPtr} {l : PriceLevel}
    (hl : book.levels.read lp = some l) :
    (book.dropIfDone lp l).Storage ∧ SameSide book (book.dropIfDone lp l) ∧
      (book.dropIfDone lp l).levels =
        if l.isEmpty || l.totalQuantity.isZero then book.levels.free lp else book.levels := by
  rw [SideBook.dropIfDone]
  by_cases hdone : (l.isEmpty || l.totalQuantity.isZero) = true
  case neg =>
    rw [if_neg hdone, if_neg hdone]
    exact ⟨h, ⟨.refl _, rfl⟩, rfl⟩
  rw [if_pos hdone, if_pos hdone, getLevel_eq]
  have hlevel : levelIsDone book.levels lp = true := by simp only [levelIsDone, hl, hdone]
  have hat := h.stored lp l hl
  rw [levelAt] at hat
  by_cases hw : book.inWindow l.price = true
  · rw [if_pos hw] at hat
    have hcontains : book.ringPriceLadder.containsTick
        (priceToLadderTick l.price book.ringPriceLadder.tickSizeTicks) = true := hw
    have hcap : ¬book.ringPriceLadder.capacity = 0 := by
      rw [RingPriceLadder.containsTick_iff] at hcontains
      omega
    have hslot : book.ringPriceLadder.slotAt (book.ringPriceLadder.priceTickToSlot
        (priceToLadderTick l.price book.ringPriceLadder.tickSizeTicks)) = some lp := hat
    rw [if_pos hw, if_pos hat, RingPriceLadder.removeLevelIfEmpty, if_neg hcap,
      if_neg (by simp [hcontains])]
    simp only [hslot, hlevel, ↓reduceIte]
    refine ⟨h.freeRing hl hw, ⟨⟨rfl, ?_⟩, rfl⟩, trivial⟩
    rw [tickSize, RingPriceLadder.clearSlot, RingPriceLadder.markInactive]
    split_ifs <;> rfl
  · rw [if_neg hw] at hat
    rw [if_neg hw, if_neg (by simp), FarPriceMap.removeLevelIfEmpty]
    simp only [hat, hlevel, ↓reduceIte]
    exact ⟨h.freeFar hl (by simpa using hw), ⟨⟨rfl, rfl⟩, rfl⟩, trivial⟩

/-- `r` points to a best-priced live level among those satisfying `S`, or is null without any. -/
def BestOf (book : SideBook) (S : PriceLevel → Prop) : Option LevelPtr → Prop
  | none => ∀ lp l, book.levels.read lp = some l → ¬S l
  | some lp => ∃ l, book.levels.read lp = some l ∧ S l ∧
      ∀ lp' l', book.levels.read lp' = some l' → S l' →
        book.side.rank l.price ≤ book.side.rank l'.price

/-- The offset of a price in the window decides its slot. -/
private theorem Storage.atOffset (h : book.Storage) {lp : LevelPtr} {l : PriceLevel}
    (hl : book.levels.read lp = some l) (hw : book.inWindow l.price = true) :
    book.ringPriceLadder.atOffset
      (priceToLadderTick l.price book.tickSize - book.ringPriceLadder.baseTick).toNat =
        some lp := by
  have hat := h.stored lp l hl
  rwa [levelAt, if_pos hw] at hat

theorem Storage.ringBest (h : book.Storage) :
    book.ringPriceLadder.bestLevel.2 = book.ringPriceLadder ∧
      book.BestOf (fun l => book.inWindow l.price = true) book.ringPriceLadder.bestLevel.1 := by
  obtain ⟨hsame, hbest⟩ := h.ring.bestLevel_spec
  refine ⟨hsame, ?_⟩
  rw [RingPriceLadder.BestOffset, h.ringSide] at hbest
  have hwin : ∀ {p}, book.inWindow p = true →
      book.ringPriceLadder.baseTick ≤ priceToLadderTick p book.tickSize ∧
      (priceToLadderTick p book.tickSize - book.ringPriceLadder.baseTick).toNat <
        book.ringPriceLadder.capacity := fun hp => RingPriceLadder.containsTick_iff _ |>.1 hp
  cases hr : book.ringPriceLadder.bestLevel.1 with
  | none =>
    intro lp l hl hw
    have hempty : book.ringPriceLadder.atOffset
        (priceToLadderTick l.price book.tickSize - book.ringPriceLadder.baseTick).toNat = none := by
      rw [hr] at hbest
      cases hside : book.side <;> rw [hside] at hbest <;>
        exact hbest _ (Nat.zero_le _) (hwin hw).2
    rw [h.atOffset hl hw] at hempty
    cases hempty
  | some lp =>
    rw [hr] at hbest
    -- the offset found is the one of the level's own price
    have hoffset : ∀ k, k < book.ringPriceLadder.capacity →
        book.ringPriceLadder.atOffset k = some lp → ∃ l, book.levels.read lp = some l ∧
          book.inWindow l.price = true ∧
          k = (priceToLadderTick l.price book.tickSize - book.ringPriceLadder.baseTick).toNat := by
      intro k hk hkp
      obtain ⟨l, hl, -, hlw, hs⟩ := h.slot_level _ lp hkp
      have hmod := Nat.ModEq.add_left_cancel' _ hs
      exact ⟨l, hl, hlw, (hmod.eq_of_lt_of_lt (hwin hlw).2 hk).symm⟩
    cases hside : book.side with
    | buy =>
      rw [hside] at hbest
      obtain ⟨k, -, hk, hkp, hafter⟩ := hbest
      obtain ⟨l, hl, hlw, rfl⟩ := hoffset k hk hkp
      refine ⟨l, hl, hlw, fun lp' l' hl' hlw' => ?_⟩
      by_contra hgt
      have hlt : l.price.ticks < l'.price.ticks := by
        simp only [hside, Side.rank] at hgt
        omega
      rw [← (h.aligned hl).lt_iff (h.aligned hl')] at hlt
      have hoff := h.atOffset hl' hlw'
      have hb := hwin hlw
      have hb' := hwin hlw'
      rw [hafter _ (by omega) hb'.2] at hoff
      cases hoff
    | sell =>
      rw [hside] at hbest
      obtain ⟨k, -, hk, hkp, hbefore⟩ := hbest
      obtain ⟨l, hl, hlw, rfl⟩ := hoffset k hk hkp
      refine ⟨l, hl, hlw, fun lp' l' hl' hlw' => ?_⟩
      by_contra hgt
      have hlt : l'.price.ticks < l.price.ticks := by
        simp only [hside, Side.rank] at hgt
        omega
      rw [← (h.aligned hl').lt_iff (h.aligned hl)] at hlt
      have hoff := h.atOffset hl' hlw'
      have hb := hwin hlw
      have hb' := hwin hlw'
      rw [hbefore _ (Nat.zero_le _) (by omega)] at hoff
      cases hoff

/-- The entries of the far map as a list: first in line, best priced. -/
private theorem Storage.far_entries (h : book.Storage) :
    (book.farPriceMap.entriesFromBest.Pairwise fun a b =>
      match book.side with
      | .buy => b.1 < a.1
      | .sell => a.1 < b.1) ∧
    ∀ t lp, (t, lp) ∈ book.farPriceMap.entriesFromBest ↔
      book.farPriceMap.levels[t]? = some lp := by
  have hkeys : (book.farPriceMap.levels.toList.Pairwise fun a b => a.1 < b.1) := by
    exact book.farPriceMap.levels.ordered_keys_toList.imp fun hlt => Std.compare_eq_lt.1 hlt
  rw [FarPriceMap.entriesFromBest, h.farSide]
  cases book.side with
  | buy =>
    refine ⟨List.pairwise_reverse.2 hkeys, fun t lp => ?_⟩
    rw [List.mem_reverse, Std.ExtTreeMap.mem_toList_iff_getElem?_eq_some]
  | sell => exact ⟨hkeys, fun t lp => Std.ExtTreeMap.mem_toList_iff_getElem?_eq_some⟩

theorem Storage.farBest (h : book.Storage)
    (hne : ∀ lp l, book.levels.read lp = some l → l.isEmpty = false) :
    book.BestOf (fun l => book.inWindow l.price = false)
      (book.farPriceMap.bestLevel book.levels) := by
  obtain ⟨hsorted, hmem⟩ := h.far_entries
  -- no stored level is empty, so the search stops at the first entry
  have hfind : (book.farPriceMap.entriesFromBest.find? fun entry =>
      (book.levels.read entry.2).any fun level => !level.isEmpty) =
        book.farPriceMap.entriesFromBest.head? := by
    cases he : book.farPriceMap.entriesFromBest with
    | nil => rfl
    | cons e es =>
      obtain ⟨l, hl, -⟩ := h.far_level e.1 e.2 ((hmem _ _).1 (by rw [he]; exact List.mem_cons_self))
      rw [List.find?_cons_of_pos]
      · rfl
      · rw [hl, Option.any_some, hne _ _ hl]
        rfl
  have hfar : ∀ lp l, book.levels.read lp = some l → book.inWindow l.price = false →
      (l.price.ticks, lp) ∈ book.farPriceMap.entriesFromBest := by
    intro lp l hl hw
    have hst := h.stored lp l hl
    rw [levelAt, hw] at hst
    exact (hmem _ _).2 hst
  rw [FarPriceMap.bestLevel, hfind]
  cases he : book.farPriceMap.entriesFromBest with
  | nil =>
    intro lp l hl hw
    have hin := hfar lp l hl hw
    rw [he] at hin
    cases hin
  | cons e es =>
    obtain ⟨l, hl, -, hw, ht⟩ :=
      h.far_level e.1 e.2 ((hmem _ _).1 (by rw [he]; exact List.mem_cons_self))
    refine ⟨l, hl, hw, fun lp' l' hl' hw' => ?_⟩
    have hin := hfar lp' l' hl' hw'
    rw [he] at hin hsorted
    rcases List.mem_cons.1 hin with heq | hin
    · rw [← heq] at ht
      exact le_of_eq ((book.side.rank_inj).2 (Price.ext ht))
    · have hlt := (List.pairwise_cons.1 hsorted).1 _ hin
      rw [← ht] at hlt
      cases hside : book.side <;> rw [hside] at hlt <;> simp only [Side.rank] <;> omega

/-- `refresh_cached_best` recomputes the cache and nothing else. -/
theorem Storage.refreshCachedBest (h : book.Storage)
    (hne : ∀ lp l, book.levels.read lp = some l → l.isEmpty = false) :
    ∃ best, book.refreshCachedBest = { book with cachedBestLevel := best } ∧
      book.BestOf (fun _ => True) best := by
  obtain ⟨hsame, hring⟩ := h.ringBest
  have hfar := h.farBest hne
  have hwindow : ∀ l : PriceLevel, book.inWindow l.price = true ∨
      book.inWindow l.price = false := fun _ => Bool.eq_false_or_eq_true _
  have hpair : book.ringPriceLadder.bestLevel =
      (book.ringPriceLadder.bestLevel.1, book.ringPriceLadder) := Prod.ext rfl hsame
  rw [SideBook.refreshCachedBest, hpair]
  generalize book.ringPriceLadder.bestLevel.1 = ringBest at hring ⊢
  simp only
  generalize book.farPriceMap.bestLevel book.levels = farBest at hfar ⊢
  cases ringBest with
  | none =>
    refine ⟨farBest, rfl, ?_⟩
    cases farBest with
    | none =>
      intro lp l hl _
      rcases hwindow l with hw | hw
      · exact hring lp l hl hw
      · exact hfar lp l hl hw
    | some far =>
      obtain ⟨f, hf, hfw, hmin⟩ := hfar
      refine ⟨f, hf, trivial, fun lp l hl _ => ?_⟩
      rcases hwindow l with hw | hw
      · exact absurd hw (hring lp l hl)
      · exact hmin lp l hl hw
  | some ring =>
    obtain ⟨r, hr, hrw, hrmin⟩ := hring
    cases farBest with
    | none =>
      refine ⟨some ring, rfl, r, hr, trivial, fun lp l hl _ => ?_⟩
      rcases hwindow l with hw | hw
      · exact hrmin lp l hl hw
      · exact absurd hw (hfar lp l hl)
    | some far =>
      obtain ⟨f, hf, hfw, hfmin⟩ := hfar
      refine ⟨_, rfl, ?_⟩
      simp only [hr, hf]
      by_cases hb : isBetterPrice book.side r.price f.price = true
      · rw [if_pos hb]
        rw [isBetterPrice_iff] at hb
        refine ⟨r, hr, trivial, fun lp l hl _ => ?_⟩
        rcases hwindow l with hw | hw
        · exact hrmin lp l hl hw
        · exact hb.le.trans (hfmin lp l hl hw)
      · rw [if_neg hb]
        rw [isBetterPrice_iff, not_lt] at hb
        refine ⟨f, hf, trivial, fun lp l hl _ => ?_⟩
        rcases hwindow l with hw | hw
        · exact hb.trans (hrmin lp l hl hw)
        · exact hfmin lp l hl hw

end SideBook
end PerpexEngine
